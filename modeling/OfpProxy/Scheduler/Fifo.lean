import Mathlib.Tactic.Linarith
import OfpProxy.Scheduler.History

/-!
This module shows in which order messages are handed to `Writev_nByte`: those of one queue in the
order they were put, and those of different queues by the scan that fetched them.
-/

namespace OfpProxy

theorem Timeval.msSince_nonneg {now last : Timeval} (h : last.micros ≤ now.micros)
    : 0 ≤ now.msSince last := by
  have hcast : (last.micros : ℚ) ≤ now.micros := by exact_mod_cast h
  unfold micros at hcast
  unfold msSince
  push_cast at *
  linarith

namespace Queue

theorem fetchMsg_of_forward {q : Queue} {now : Timeval} (hmsgs : ∀ msg ∈ q.msgQueue, msg.IsPlain)
    (hinterval : q.intervalMs < 0) (h : q.lastFetch.micros ≤ now.micros)
    : (q.fetchMsg now).1 = q.msgQueue.find? fun msg => !msg.inProcess := by
  apply fetchMsg_of_plain hmsgs
  have hnonneg := Timeval.msSince_nonneg h
  linarith

theorem find?_of_fetchMsg {q : Queue} {now : Timeval} {msg : OFPMsg}
    (hmsgs : ∀ msg ∈ q.msgQueue, msg.IsPlain) (h : (q.fetchMsg now).1 = some msg)
    : (q.msgQueue.find? fun msg => !msg.inProcess) = some msg := by
  by_cases helapsed : now.msSince q.lastFetch > q.intervalMs
  . rw [fetchMsg_of_plain hmsgs helapsed] at h
    apply h
  . unfold fetchMsg at h
    rw [if_neg helapsed] at h
    simp at h

end Queue

namespace Scheduler

-- the messages of a queue that were not handed over yet, in the order of the vector
def State.unsent (s : State) (q : Queue) : List Nat :=
  (q.msgQueue.map OFPMsg.addr).filter fun addr => addr ∉ s.sentAddrs

theorem unsent_of_waiting {s : State} (hs : Owned s) (hrun : ∀ addr, s.run ≠ .marked addr) {i : Nat}
    {q : Queue} (hq : s.queues[i]? = some q)
    : s.unsent q = (q.msgQueue.filter fun msg => !msg.inProcess).map OFPMsg.addr := by
  unfold State.unsent
  rw [List.filter_map]
  congr 1
  apply List.filter_congr
  intro msg hmsg
  have hstarted := hs.started msg (mem_messages hq hmsg)
  simp only [hrun, or_false] at hstarted
  cases hin : msg.inProcess with
  | true => simpa [hin] using hstarted
  | false => simpa [hin] using hstarted

-- What was put and not handed over waits in one of the queues.
theorem exists_unsent {s : State} (hs : Owned s) {addr : Nat} (hput : addr ∈ s.pushed)
    (hwait : addr ∉ s.sentAddrs) : ∃ (i : Nat) (q : Queue), s.queues[i]? = some q ∧ addr ∈ s.unsent q := by
  rw [← hs.perm.mem_iff, List.mem_append] at hput
  rcases hput with haddr | hcleaned
  . rcases List.mem_map.mp haddr with ⟨msg, hmsg, rfl⟩
    rcases List.mem_flatMap.mp hmsg with ⟨q, hq, hmem⟩
    rcases List.mem_iff_getElem?.mp hq with ⟨i, hi⟩
    refine ⟨i, q, hi, ?_⟩
    unfold State.unsent
    rw [List.mem_filter, decide_eq_true_eq]
    exact ⟨List.mem_map_of_mem hmem, hwait⟩
  . exact absurd (hs.cleanedSent _ hcleaned) hwait

section Order

variable {s s' : State} {h : History} {label : Label} {i : Nat} {q q' : Queue}

theorem unsent_push (hs : Owned s) (hsent : s'.sentAddrs = s.sentAddrs) {msg : OFPMsg}
    (haddr : msg.addr = s.next)
    : s'.unsent { q with msgQueue := q.msgQueue ++ [msg] } = s.unsent q ++ [s.next] := by
  have hnext : s.next ∉ s.sentAddrs :=
    fun hmem => Nat.lt_irrefl _ (hs.fresh _ (hs.sentPushed _ hmem))
  unfold State.unsent
  rw [hsent]
  simp [haddr, hnext]

theorem unsent_clean (hs : Owned s) (hsent : s'.sentAddrs = s.sentAddrs)
    (hrun : ∀ addr, s.run ≠ .marked addr) (hq : s.queues[i]? = some q)
    : s'.unsent { q with msgQueue := q.msgQueue.filter fun msg => !msg.isDone } = s.unsent q := by
  unfold State.unsent
  rw [hsent, List.filter_map, List.filter_map, List.filter_filter]
  congr 1
  apply List.filter_congr
  intro msg hmsg
  have hstarted := hs.started msg (mem_messages hq hmsg)
  simp only [hrun, or_false] at hstarted
  unfold OFPMsg.isDone
  cases hin : msg.inProcess with
  | true => simp [hstarted.mp hin]
  | false => simp

theorem putsTo_record_of_not (h : History) (hlabel : ¬label.actsOn s i)
    : (h.record s label).putsTo i = h.putsTo i := by
  unfold History.putsTo
  cases label with
  | putMsg arg mem fd garbage =>
    simp only [Label.actsOn] at hlabel
    simp only [History.record, History.recordPut]
    split
    . rfl
    . next qid hqid =>
      rw [hqid, Option.some_inj] at hlabel
      simp [hlabel]
  | run now => simp [History.record]
  | writev accepted => simp [History.record]
  | _ => rfl

theorem unsent_of_queueStep (hs : Owned s) (hsent : s'.sentAddrs = s.sentAddrs)
    (hq : s.queues[i]? = some q) (hstep : QueueStep s label i q q')
    : ∃ new, s'.unsent q' = s.unsent q ++ new ∧ (h.record s label).putsTo i = h.putsTo i ++ new := by
  cases hstep with
  | push hqid =>
    refine ⟨[s.next], unsent_push hs hsent rfl, ?_⟩
    simp [History.putsTo, History.record, History.recordPut, hqid]
  | fetch hrun =>
    refine ⟨[], ?_, ?_⟩
    . unfold State.unsent
      rw [Queue.fetchMsg_msgQueue, hsent, List.append_nil]
    . simp [History.putsTo, History.record]
  | clean hrun =>
    refine ⟨[], ?_, ?_⟩
    . rw [unsent_clean hs hsent (by simp [hrun]) hq, List.append_nil]
    . simp [History.putsTo, History.record]
  | touch hlabel hsame =>
    refine ⟨[], ?_, ?_⟩
    . unfold State.unsent
      rw [map_addr_of_same hsame, hsent, List.append_nil]
    . rw [putsTo_record_of_not h hlabel, List.append_nil]

theorem unsent_prefix_of_queueStep (hs : Owned s) (hsent : s'.sentAddrs = s.sentAddrs)
    (hq : s.queues[i]? = some q) (hstep : QueueStep s label i q q') : s.unsent q <+: s'.unsent q' := by
  rcases @unsent_of_queueStep s s' ⟨0, [], [], [], []⟩ label i q q' hs hsent hq hstep with ⟨new, hnew, -⟩
  rw [hnew]
  apply List.prefix_append

end Order

/--
The queues up to `i` were polled in order, and the unthrottled ones among them had nothing to send.
-/
structure ScanOf (i : Nat) (scan : List Poll) : Prop where
  queues : scan.map Poll.queue = List.range i
  empty : ∀ p ∈ scan, p.queue < 5 → p.waiting = false

def CompleteScan (i : Nat) (scan : List Poll) : Prop :=
  ∃ before p, scan = before ++ [p] ∧ ScanOf i before ∧ p.queue = i

-- The message is at the head of what is left of the queue the scan ended with.
def Ready (s : State) (h : History) (addr : Nat) : Prop :=
  ∃ i q rest, CompleteScan i h.scan ∧ s.queues[i]? = some q ∧ s.unsent q = addr :: rest

def Scanning (s : State) (h : History) : RunPc → Prop
  | .poll i => ScanOf i h.scan
  | .fetched addr => Ready s h addr
  | .marked addr => Ready s h addr
  | _ => True

theorem ScanOf.concat {i : Nat} {scan : List Poll} (h : ScanOf i scan) {p : Poll} (hp : p.queue = i)
    (hempty : p.queue < 5 → p.waiting = false) : ScanOf (i + 1) (scan ++ [p]) := by
  constructor
  . rw [List.map_append, h.queues, List.range_succ, List.map_singleton, hp]
  . rw [List.forall_mem_append, List.forall_mem_singleton]
    exact ⟨h.empty, hempty⟩

section Scan

variable {s s' : State} {h : History} {label : Label}

theorem Ready.step {addr : Nat} (hr : Ready s h addr) (hs : Sized s) (ho : Owned s)
    (hstep : step s label = some s') (hsent : s'.sentAddrs = s.sentAddrs)
    (hscan : (h.record s label).scan = h.scan) : Ready s' (h.record s label) addr := by
  rcases hr with ⟨i, q, rest, hcomplete, hq, hunsent⟩
  rcases exists_queue_of_step hs hstep hq with ⟨q', hq', hqstep⟩
  rcases @unsent_of_queueStep _ _ h _ _ _ _ ho hsent hq hqstep with ⟨new, hnew, -⟩
  rw [hunsent, List.cons_append] at hnew
  rw [← hscan] at hcomplete
  exact ⟨i, q', _, hcomplete, hq', hnew⟩

theorem waiting_eq_false {now : Timeval} {i : Nat} {q : Queue} (htended : Tended h q)
    (hinterval : q.intervalMs = Schedule.intervalMs i) (hclock : h.clock ≤ now.micros) (hi : i < 5)
    (hfetch : (q.fetchMsg now).1 = none) : q.isWaiting = false := by
  have hneg : q.intervalMs < 0 := by
    rw [hinterval, Schedule.intervalMs, if_pos hi]
    norm_num
  rw [Queue.fetchMsg_of_forward htended.plain hneg (Int.le_trans htended.lastFetch hclock),
    List.find?_eq_none] at hfetch
  unfold Queue.isWaiting
  rw [List.any_eq_false]
  exact hfetch

theorem unsent_of_fetch {now : Timeval} {i : Nat} {q : Queue} {msg : OFPMsg} (ho : Owned s)
    (hrun : s.run = .poll i) (hq : s.queues[i]? = some q) (hplain : ∀ msg ∈ q.msgQueue, msg.IsPlain)
    (hfetch : (q.fetchMsg now).1 = some msg) : ∃ rest, s.unsent q = msg.addr :: rest := by
  have hfind := Queue.find?_of_fetchMsg hplain hfetch
  rw [← List.head?_filter, List.head?_eq_some_iff] at hfind
  rcases hfind with ⟨rest, hrest⟩
  rw [unsent_of_waiting ho (by simp [hrun]) hq, hrest]
  exact ⟨_, rfl⟩

theorem scanning_run {now : Timeval} (hs : Sized s) (ho : Owned s)
    (htended : ∀ i q, s.queues[i]? = some q → Tended h q ∧ q.intervalMs = Schedule.intervalMs i)
    (hclock : h.clock ≤ now.micros) (hscan : Scanning s h s.run) (hstep : stepRun s now = some s')
    : Scanning s' (h.record s (.run now)) s'.run := by
  have hsent : s'.sentAddrs = s.sentAddrs := by
    unfold State.sentAddrs
    rw [(stepRun_frame hstep).2.2]
  have hstep' : step s (.run now) = some s' := hstep
  cases branch_of_stepRun hstep with
  | toPoll hrun hcredit =>
    unfold Scanning
    simp only [History.record, History.recordRun, hrun]
    exact ⟨rfl, by simp⟩
  | @nextQueue now i q hrun hi hq hfetch =>
    rw [hrun] at hscan
    rcases htended i q hq with ⟨hq', hinterval⟩
    rw [History.record_poll hrun hq]
    apply hscan.concat rfl
    intro hlt
    apply waiting_eq_false hq' hinterval hclock hlt hfetch
  | @fetch now i q msg hrun hi hq hfetch =>
    rw [hrun] at hscan
    rcases unsent_of_fetch ho hrun hq (htended i q hq).1.plain hfetch with ⟨rest, hrest⟩
    rw [History.record_poll hrun hq]
    refine ⟨i, (q.fetchMsg now).2, rest, ⟨_, _, rfl, hscan, rfl⟩, ?_, ?_⟩
    . dsimp only
      rw [List.getElem?_set_self (List.getElem?_eq_some_iff.mp hq).1]
    . rw [← hrest]
      unfold State.unsent
      rw [Queue.fetchMsg_msgQueue]
      rfl
  | mark hrun hfind =>
    rw [hrun] at hscan
    have hrecord : (h.record s (.run now)).scan = h.scan := by
      simp [History.record, History.recordRun, hrun]
    apply Ready.step hscan hs ho hstep' hsent hrecord
  | _ => trivial

theorem record_other (h : History) (hrun : ∀ now, label ≠ .run now)
    (hwritev : ∀ accepted, label ≠ .writev accepted)
    : (h.record s label).scan = h.scan ∧ (h.record s label).handed = h.handed := by
  cases label with
  | putMsg arg mem fd garbage => exact ⟨by simp [History.record], by simp [History.record]⟩
  | run now => exact absurd rfl (hrun now)
  | writev accepted => exact absurd rfl (hwritev accepted)
  | _ => exact ⟨rfl, rfl⟩

theorem puts_of_step (hputs : h.puts.map Put.addr = s.pushed) (hstep : step s label = some s')
    : (h.record s label).puts.map Put.addr = s'.pushed := by
  cases branch_of_step hstep with
  | push hput hqid hq hsize => simp [History.record, History.recordPut, hqid, hputs]
  | write hrun hfind hacc => simp [History.record, hputs]
  | insertPos | readToBeSent | markFinished => exact hputs
  | _ => simpa [History.record, State.update] using hputs

end Scan

structure Fifo (s : State) (h : History) : Prop where
  puts : h.puts.map Put.addr = s.pushed
  handed : h.handedAddrs = s.sentAddrs
  order : ∀ i q, s.queues[i]? = some q → h.putsTo i = h.handedTo i ++ s.unsent q
  scanning : Scanning s h s.run
  complete : ∀ r ∈ h.handed, ∃ i, i < Schedule.queueNum ∧ CompleteScan i r.scan

theorem CompleteScan.queue_eq {i : Nat} {r : Handed} (h : CompleteScan i r.scan)
    : r.queue = some i := by
  rcases h with ⟨before, p, hscan, -, hp⟩
  rw [Handed.queue, hscan, List.getLast?_concat, Option.map_some, hp]

theorem handedTo_eq {h h' : History} (hhanded : h'.handed = h.handed) (i : Nat)
    : h'.handedTo i = h.handedTo i := by
  unfold History.handedTo
  rw [hhanded]

namespace Fifo

variable {s s' : State} {h : History} {label : Label}

theorem order_of_step (hf : Fifo s h) (hs : Sized s) (ho : Owned s) (hstep : step s label = some s')
    (hsent : s'.sentAddrs = s.sentAddrs) (hhanded : (h.record s label).handed = h.handed)
    : ∀ i q', s'.queues[i]? = some q' →
        (h.record s label).putsTo i = (h.record s label).handedTo i ++ s'.unsent q' := by
  intro i q' hq'
  rcases queueStep_of_step hs hstep hq' with ⟨q, hq, hqstep⟩
  rcases @unsent_of_queueStep _ _ h _ _ _ _ ho hsent hq hqstep with ⟨new, hnew, hputs⟩
  rw [hputs, hf.order i q hq, handedTo_eq hhanded, hnew, List.append_assoc]

theorem of_run {now : Timeval} (hf : Fifo s h) (hs : Sized s) (ho : Owned s)
    (htended : ∀ i q, s.queues[i]? = some q → Tended h q ∧ q.intervalMs = Schedule.intervalMs i)
    (hclock : h.clock ≤ now.micros) (hstep : stepRun s now = some s')
    : Fifo s' (h.record s (.run now)) := by
  have hstep' : step s (.run now) = some s' := hstep
  have hsent : s'.sentAddrs = s.sentAddrs := by
    unfold State.sentAddrs
    rw [(stepRun_frame hstep).2.2]
  have hhanded : (h.record s (.run now)).handed = h.handed := by simp [History.record]
  constructor
  . apply puts_of_step hf.puts hstep'
  . rw [hsent, ← hf.handed, History.handedAddrs, hhanded]
    rfl
  . apply hf.order_of_step hs ho hstep' hsent hhanded
  . apply scanning_run hs ho htended hclock hf.scanning hstep
  . rw [hhanded]
    apply hf.complete

theorem of_other (hf : Fifo s h) (hs : Sized s) (ho : Owned s) (hrun : ∀ now, label ≠ .run now)
    (hwritev : ∀ accepted, label ≠ .writev accepted) (hstep : step s label = some s')
    : Fifo s' (h.record s label) := by
  rcases step_other_frame hrun hwritev hstep with ⟨hrun', hsent'⟩
  rcases record_other h hrun hwritev with ⟨hscan, hhanded⟩
  have hsent : s'.sentAddrs = s.sentAddrs := by
    unfold State.sentAddrs
    rw [hsent']
  constructor
  . apply puts_of_step hf.puts hstep
  . rw [hsent, ← hf.handed, History.handedAddrs, hhanded]
    rfl
  . apply hf.order_of_step hs ho hstep hsent hhanded
  . have hscanning := hf.scanning
    rw [hrun']
    cases hpc : s.run with
    | poll i =>
      rw [hpc] at hscanning
      unfold Scanning
      rw [hscan]
      apply hscanning
    | fetched addr | marked addr =>
      rw [hpc] at hscanning
      apply Ready.step hscanning hs ho hstep hsent hscan
    | _ => trivial
  . rw [hhanded]
    apply hf.complete

-- An address is put once, so what waits in one queue does not wait in another.
theorem queue_unique (hf : Fifo s h) (ho : Owned s) {i j addr : Nat} (hi : addr ∈ h.putsTo i)
    (hj : addr ∈ h.putsTo j) : i = j := by
  rcases List.mem_map.mp hi with ⟨p, hp, hpaddr⟩
  rcases List.mem_map.mp hj with ⟨r, hr, hraddr⟩
  rw [List.mem_filter, decide_eq_true_eq] at hp hr
  have hnodup := ho.nodup
  rw [← hf.puts] at hnodup
  have hpr : p = r := List.inj_on_of_nodup_map hnodup hp.1 hr.1 (by rw [hpaddr, hraddr])
  rw [← hp.2, hpr, hr.2]

theorem nodup_putsTo (hf : Fifo s h) (ho : Owned s) (i : Nat) : (h.putsTo i).Nodup := by
  have hnodup := ho.nodup
  rw [← hf.puts] at hnodup
  apply (List.filter_sublist.map Put.addr).nodup hnodup

theorem unsent_write {s' : State} {addr : Nat} (hsent : s'.sentAddrs = s.sentAddrs ++ [addr]) (q : Queue)
    : s'.unsent q = (s.unsent q).filter fun a => a ≠ addr := by
  unfold State.unsent
  rw [hsent, List.filter_filter]
  apply List.filter_congr
  intro a _
  rw [← Bool.decide_and, decide_eq_decide, List.mem_append, List.mem_singleton, not_or, and_comm]

theorem order_of_write (hf : Fifo s h) (ho : Owned s) {addr : Nat} (hready : Ready s h addr)
    (hqueues : s'.queues = s.queues) (hsent : s'.sentAddrs = s.sentAddrs ++ [addr])
    {h' : History} (hputs : h'.puts = h.puts) (hhanded : h'.handed = h.handed ++ [⟨addr, h.scan⟩])
    : ∀ j r, s'.queues[j]? = some r → h'.putsTo j = h'.handedTo j ++ s'.unsent r := by
  rcases hready with ⟨i, q, rest, hcomplete, hq, hunsent⟩
  have horder := hf.order i q hq
  rw [hunsent] at horder
  have hqueue : (Handed.mk addr h.scan).queue = some i := CompleteScan.queue_eq hcomplete
  intro j r hr
  rw [hqueues] at hr
  have hputsTo : h'.putsTo j = h.putsTo j := by
    unfold History.putsTo
    rw [hputs]
  have hhandedTo : h'.handedTo j = h.handedTo j ++ (if i = j then [addr] else []) := by
    unfold History.handedTo
    rw [hhanded, List.filter_append, List.map_append, List.filter_cons, hqueue]
    by_cases hij : i = j
    . simp [hij]
    . simp [hij]
  rw [hputsTo, hhandedTo, unsent_write hsent]
  by_cases hij : i = j
  . subst hij
    rw [hq, Option.some_inj] at hr
    subst hr
    have hnodup := hf.nodup_putsTo ho i
    rw [horder, List.nodup_append, List.nodup_cons] at hnodup
    have hrest : rest.filter (fun a => a ≠ addr) = rest := by
      rw [List.filter_eq_self]
      intro a ha
      rw [decide_eq_true_eq]
      rintro rfl
      apply hnodup.2.1.1 ha
    rw [horder, if_pos rfl, hunsent, List.filter_cons_of_neg (by simp), hrest, List.append_assoc]
    rfl
  . have hother : (s.unsent r).filter (fun a => a ≠ addr) = s.unsent r := by
      rw [List.filter_eq_self]
      intro a ha
      rw [decide_eq_true_eq]
      rintro rfl
      apply hij
      apply hf.queue_unique ho
      . rw [horder]
        exact List.mem_append_right _ List.mem_cons_self
      . rw [hf.order j r hr]
        exact List.mem_append_right _ ha
    rw [if_neg hij, hother, List.append_nil, hf.order j r hr]

theorem of_writev {accepted : Option Nat} (hf : Fifo s h) (hs : Sized s) (ho : Owned s)
    (hstep : stepWritev s accepted = some s') : Fifo s' (h.record s (.writev accepted)) := by
  have hstep' : step s (.writev accepted) = some s' := hstep
  rcases stepWritev_eq hstep with ⟨addr, msg, hrun, hfind, hs'⟩
  have haddr : msg.addr = addr := by simpa using List.find?_some hfind
  have hready := hf.scanning
  rw [hrun] at hready
  have hputs : (h.record s (.writev accepted)).puts = h.puts := by simp [History.record]
  have hhanded : (h.record s (.writev accepted)).handed = h.handed ++ [⟨addr, h.scan⟩] := by
    simp [History.record, History.recordWritev, hrun]
  have hqueues : s'.queues = s.queues := by rw [hs']
  have hsent : s'.sentAddrs = s.sentAddrs ++ [addr] := by
    rw [hs']
    simp [State.sentAddrs, haddr]
  constructor
  . apply puts_of_step hf.puts hstep'
  . rw [hsent, ← hf.handed]
    simp [History.handedAddrs, hhanded]
  . apply hf.order_of_write ho hready hqueues hsent hputs hhanded
  . rw [hs']
    trivial
  . rw [hhanded, List.forall_mem_append, List.forall_mem_singleton]
    rcases hready with ⟨i, q, rest, hcomplete, hq, -⟩
    have hi := (List.getElem?_eq_some_iff.mp hq).1
    rw [hs.queues] at hi
    exact ⟨hf.complete, i, hi, hcomplete⟩

theorem of_step (hf : Fifo s h) (hs : Sized s) (ho : Owned s)
    (htended : ∀ i q, s.queues[i]? = some q → Tended h q ∧ q.intervalMs = Schedule.intervalMs i)
    (hclock : clockForward h label = true) (hstep : step s label = some s')
    : Fifo s' (h.record s label) := by
  cases label with
  | run now =>
    rw [clockForward, decide_eq_true_eq] at hclock
    apply hf.of_run hs ho htended hclock hstep
  | writev accepted => apply hf.of_writev hs ho hstep
  | putMsg arg mem fd garbage => apply hf.of_other hs ho (by simp) (by simp) hstep
  | insertPos => apply hf.of_other hs ho (by simp) (by simp) hstep
  | readToBeSent => apply hf.of_other hs ho (by simp) (by simp) hstep
  | markFinished qid identify => apply hf.of_other hs ho (by simp) (by simp) hstep

end Fifo

theorem fifo_of_reachableBy {x : State × History} (hx : observed.ReachableBy Proper x)
    : Fifo x.1 x.2 := by
  apply Machine.ReachableBy.invariant _ _ hx
  . rintro ⟨s, h⟩ ⟨⟨name, now, rfl⟩, hputs, -, -, hhanded, -⟩
    dsimp only at hputs hhanded
    constructor
    . rw [hputs]
      rfl
    . rw [History.handedAddrs, hhanded]
      rfl
    . intro i q hq
      rw [State.init_queue hq]
      simp [History.putsTo, History.handedTo, hputs, hhanded, State.unsent, Queue.new]
    . trivial
    . simp [hhanded]
  . rintro ⟨s, h⟩ label ⟨s', h'⟩ hreach hf hok hstep
    rcases Machine.withRecord_step hstep with ⟨hstep', rfl⟩
    have hreach' : machine.Reachable s := hreach.of_withRecord
    have htended : ∀ i q, s.queues[i]? = some q
        → Tended h q ∧ q.intervalMs = Schedule.intervalMs i := by
      intro i q hq
      exact ⟨tended_of_reachableBy hreach hq, intervalMs_of_reachable hreach' hq⟩
    apply Fifo.of_step hf (sized_of_reachable hreach') (owned_of_reachable hreach') htended hok.2 hstep'

theorem Fifo.mem_putsTo {s : State} {h : History} (hf : Fifo s h) (hs : Sized s) {r : Handed}
    (hr : r ∈ h.handed) {i : Nat} (hi : i < Schedule.queueNum) (hqueue : r.queue = some i)
    : r.addr ∈ h.putsTo i := by
  rw [← hs.queues] at hi
  rw [hf.order i _ (List.getElem?_eq_getElem hi)]
  apply List.mem_append_left
  apply List.mem_map_of_mem
  simp [hr, hqueue]

-- The queue of the scan is the one the message was put in.
theorem Fifo.handedTo_eq {s : State} {h : History} (hf : Fifo s h) (hs : Sized s) (ho : Owned s)
    (i : Nat) : h.handedTo i = h.handedAddrs.filter fun addr => addr ∈ h.putsTo i := by
  unfold History.handedTo History.handedAddrs
  rw [List.filter_map]
  congr 1
  apply List.filter_congr
  intro r hr
  rcases hf.complete r hr with ⟨j, hj, hcomplete⟩
  have hmem := hf.mem_putsTo hs hr hj hcomplete.queue_eq
  rw [Function.comp_apply, decide_eq_decide, hcomplete.queue_eq, Option.some_inj]
  constructor
  . rintro rfl
    exact hmem
  . intro hi
    apply hf.queue_unique ho hmem hi

theorem CompleteScan.queues {i : Nat} {scan : List Poll} (h : CompleteScan i scan)
    : scan.map Poll.queue = List.range (i + 1)
        ∧ ∀ p ∈ scan, p.queue < i → p.queue < 5 → p.waiting = false := by
  rcases h with ⟨before, last, rfl, hbefore, hlast⟩
  constructor
  . rw [List.map_append, hbefore.queues, List.range_succ, List.map_singleton, hlast]
  . rw [List.forall_mem_append, List.forall_mem_singleton]
    refine ⟨fun p hp _ => hbefore.empty p hp, ?_⟩
    intro hlt
    omega

/--
The messages of one queue are handed over in the order they were put, and a scan only gets behind an
unthrottled queue when nothing waited in it.
-/
theorem handed_in_order {s : State} {h : History} (hreach : observed.ReachableBy Proper (s, h))
    : (∀ i, (h.handedAddrs.filter fun addr => addr ∈ h.putsTo i) <+: h.putsTo i)
        ∧ ∀ r ∈ h.handed, ∃ i, r.addr ∈ h.putsTo i ∧ r.scan.map Poll.queue = List.range (i + 1)
          ∧ ∀ p ∈ r.scan, p.queue < i → p.queue < 5 → p.waiting = false := by
  have hf : Fifo s h := fifo_of_reachableBy hreach
  have hs : Sized s := sized_of_reachable hreach.of_withRecord
  have ho : Owned s := owned_of_reachable hreach.of_withRecord
  constructor
  . intro i
    rw [← hf.handedTo_eq hs ho]
    by_cases hi : i < s.queues.length
    . rw [hf.order i _ (List.getElem?_eq_getElem hi)]
      apply List.prefix_append
    . have hnone : h.handedTo i = [] := by
        unfold History.handedTo
        rw [List.map_eq_nil_iff, List.filter_eq_nil_iff]
        intro r hr
        rcases hf.complete r hr with ⟨j, hj, hcomplete⟩
        rw [hs.queues] at hi
        rw [hcomplete.queue_eq, decide_eq_true_eq, Option.some_inj]
        omega
      rw [hnone]
      apply List.nil_prefix
  . intro r hr
    rcases hf.complete r hr with ⟨i, hi, hcomplete⟩
    exact ⟨i, hf.mem_putsTo hs hr hi hcomplete.queue_eq, hcomplete.queues⟩

theorem handed_in_order_twoRequests
    : ∃ s h, observed.ReachableBy Proper (s, h) ∧ h.handedAddrs = [0, 1]
        ∧ (∀ i, (h.handedAddrs.filter fun addr => addr ∈ h.putsTo i) <+: h.putsTo i)
        ∧ ∀ r ∈ h.handed, ∃ i, r.addr ∈ h.putsTo i ∧ r.scan.map Poll.queue = List.range (i + 1)
          ∧ ∀ p ∈ r.scan, p.queue < i → p.queue < 5 → p.waiting = false := by
  have hrun := @exists_proper_of_replay "SERVER"
    (putMessage [4, 2, 0, 8, 0, 0, 0, 1] ++ putMessage [4, 2, 0, 8, 0, 0, 0, 2] ++ ticks 4
      ++ [.writev (some 8)] ++ ticks 5 ++ [.writev (some 8)])
    (fun x => decide (x.2.handedAddrs = [0, 1]))
    (by simp only [List.forall_mem_append, List.forall_mem_singleton, fromReader_writev]
        exact ⟨⟨⟨⟨⟨fromReader_putMessage _, fromReader_putMessage _⟩, fromReader_ticks 4⟩, trivial⟩,
          fromReader_ticks 5⟩, trivial⟩)
    (by decide +kernel)
  rcases hrun with ⟨⟨s, h⟩, hreach, hhanded⟩
  rw [decide_eq_true_eq] at hhanded
  exact ⟨s, h, hreach, hhanded, handed_in_order hreach⟩

end Scheduler
end OfpProxy
