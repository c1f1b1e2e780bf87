import OfpProxy.Rewrite.Lemmas.FlowMod
import OfpProxy.Scheduler.Fifo

/-!
This module shows which of the messages put before it a barrier request, or a flow-mod that modifies
or deletes, overtakes on the way to the switch.
-/

namespace OfpProxy
namespace Scheduler

section Pair

variable {α : Type} {x y : α} {l l' : List α}

theorem pair_sublist_or (hx : x ∈ l) (hy : y ∈ l) (hne : x ≠ y)
    : [x, y].Sublist l ∨ [y, x].Sublist l := by
  rcases List.append_of_mem hx with ⟨before, after, rfl⟩
  rw [List.mem_append, List.mem_cons] at hy
  rcases hy with hbefore | heq | hafter
  . apply Or.inr
    apply List.Sublist.append (List.singleton_sublist.mpr hbefore)
    apply List.singleton_sublist.mpr List.mem_cons_self
  . exact absurd (Eq.symm heq) hne
  . apply Or.inl
    apply List.Sublist.trans _ (List.sublist_append_right before _)
    apply List.Sublist.cons_cons
    apply List.singleton_sublist.mpr hafter

theorem pair_sublist_of_initial (hnodup : l.Nodup) (hinitial : l' <+: l) (h : [x, y].Sublist l)
    (hy : y ∈ l') : [x, y].Sublist l' := by
  rcases hinitial with ⟨rest, rfl⟩
  have hrest : y ∉ rest := fun hmem => (List.nodup_append.mp hnodup).2.2 y hy y hmem rfl
  rw [List.sublist_append_iff] at h
  rcases h with ⟨front, back, hsplit, hfront, hback⟩
  rcases List.eq_nil_or_concat back with rfl | ⟨init, last, rfl⟩
  . rw [List.append_nil] at hsplit
    rw [hsplit]
    exact hfront
  . have hlast : last = y := by simpa using (congrArg List.getLast? hsplit).symm
    apply absurd (hback.subset _) hrest
    simp [hlast]

end Pair

-- how many messages had been put when the scan polled queue 0
def Handed.seen (r : Handed) : Nat := (r.scan.head?.map Poll.puts).getD 0

/--
What the poll of queue 0 says about the messages that had been put by then.
-/
structure Begun (h : History) (p : Poll) : Prop where
  puts : p.puts ≤ h.puts.length
  covered : p.waiting = false → ∀ x ∈ h.puts.take p.puts, x.queue = 0 → x.addr ∈ h.handedAddrs

def Taken (h : History) (scan : List Poll) (addr : Nat) : Prop :=
  ∀ p ∈ scan.getLast?, addr ∈ (h.puts.take p.puts).map Put.addr

-- A message of queue 0 that was there when `r` was fetched is not behind `r`.
structure Follows (puts : List Put) (r r' : Handed) : Prop where
  seen : r.seen ≤ r'.seen
  covered : ∀ p ∈ r.scan.head?, p.waiting = false → ∀ x ∈ puts.take p.puts, x.queue = 0 → x.addr ≠ r'.addr

structure Grows (h h' : History) : Prop where
  puts : h.puts <+: h'.puts
  handed : h.handed <+: h'.handed

section Grows

variable {h h' : History}

theorem grows_record (s : State) (h : History) (label : Label) : Grows h (h.record s label) := by
  cases label with
  | putMsg arg mem fd garbage =>
    simp only [History.record, History.recordPut]
    split
    . exact ⟨List.prefix_refl _, List.prefix_refl _⟩
    . exact ⟨List.prefix_append _ _, List.prefix_refl _⟩
  | run now => constructor <;> simp [History.record]
  | writev accepted =>
    simp only [History.record, History.recordWritev]
    split
    . exact ⟨List.prefix_refl _, List.prefix_append _ _⟩
    . exact ⟨List.prefix_refl _, List.prefix_refl _⟩
  | _ => exact ⟨List.prefix_refl _, List.prefix_refl _⟩

theorem Begun.take_eq {p : Poll} (hp : Begun h p) (hgrows : Grows h h')
    : h'.puts.take p.puts = h.puts.take p.puts := by
  rcases hgrows.puts with ⟨new, hnew⟩
  rw [← hnew, List.take_append_of_le_length hp.puts]

theorem Begun.grow {p : Poll} (hp : Begun h p) (hgrows : Grows h h') : Begun h' p := by
  constructor
  . apply Nat.le_trans hp.puts hgrows.puts.length_le
  . intro hwaiting x hx hqueue
    rw [hp.take_eq hgrows] at hx
    apply (hgrows.handed.map Handed.addr).subset (hp.covered hwaiting x hx hqueue)

theorem Taken.grow {scan : List Poll} {addr : Nat} (ht : Taken h scan addr) (hgrows : Grows h h')
    : Taken h' scan addr := by
  intro p hp
  rcases hgrows.puts with ⟨new, hnew⟩
  rw [← hnew, List.take_append, List.map_append]
  exact List.mem_append_left _ (ht p hp)

end Grows

theorem CompleteScan.exists_head {i : Nat} {scan : List Poll} (hc : CompleteScan i scan)
    : ∃ p, scan.head? = some p ∧ (0 < i → p.waiting = false) := by
  rcases hc with ⟨before, last, rfl, hbefore, -⟩
  have hqueues := hbefore.queues
  cases before with
  | nil =>
    have hi : i = 0 := by simpa using hqueues
    exact ⟨last, rfl, fun hpos => by omega⟩
  | cons p rest =>
    cases i with
    | zero => simp at hqueues
    | succ i =>
      rw [List.map_cons, List.range_succ_eq_map, List.cons.injEq] at hqueues
      refine ⟨p, rfl, fun _ => ?_⟩
      apply hbefore.empty p List.mem_cons_self
      omega

structure Ordered (s : State) (h : History) : Prop where
  points : ∀ x ∈ h.puts, Schedule.IsOrderingPoint x.type x.command → x.queue = importantQueueId
  begun : ∀ p ∈ h.scan.head?, Begun h p ∧ ∀ r ∈ h.handed, r.seen ≤ p.puts
  taken : ∀ addr, s.run = .fetched addr ∨ s.run = .marked addr → Taken h h.scan addr
  past : ∀ r ∈ h.handed, (∀ p ∈ r.scan.head?, Begun h p) ∧ Taken h r.scan r.addr
  follows : h.handed.Pairwise (Follows h.puts)

namespace Ordered

variable {s s' : State} {h : History} {label : Label}

theorem points_record (hd : Ordered s h) (hreader : FromReader label)
    : ∀ x ∈ (h.record s label).puts,
        Schedule.IsOrderingPoint x.type x.command → x.queue = importantQueueId := by
  cases label with
  | putMsg arg mem fd garbage =>
    rcases hreader with ⟨exp, self, other, conf, frame, res, qid, hres, rfl, rfl⟩
    simp only [History.record, History.recordPut]
    rw [List.forall_mem_append, List.forall_mem_singleton]
    refine ⟨hd.points, ?_⟩
    intro hpoint
    have houtcome := Schedule.getOFPMsgArg_outcome hres
    have hpoint' : Schedule.IsOrderingPoint (frame 1) (frame FlowModProcessed.command) := by
      dsimp only at hpoint
      rw [houtcome.type] at hpoint
      rcases hpoint with hbarrier | ⟨hflow, hcommand⟩
      . exact .inl hbarrier
      . apply Or.inr
        rw [← houtcome.command hflow]
        exact ⟨hflow, hcommand⟩
    dsimp only
    rw [Schedule.getOFPMsgArg_orderingPoint hres hpoint']
    rfl
  | run now =>
    simp only [History.record, History.puts_recordRun]
    apply hd.points
  | writev accepted =>
    simp only [History.record, History.puts_recordWritev]
    apply hd.points
  | _ => apply hd.points

theorem past_grow (hd : Ordered s h) {h' : History} (hgrows : Grows h h')
    : ∀ r ∈ h.handed, (∀ p ∈ r.scan.head?, Begun h' p) ∧ Taken h' r.scan r.addr := by
  intro r hr
  rcases hd.past r hr with ⟨hbegun, htaken⟩
  exact ⟨fun p hp => (hbegun p hp).grow hgrows, htaken.grow hgrows⟩

theorem follows_grow (hd : Ordered s h) {h' : History} (hgrows : Grows h h')
    : h.handed.Pairwise (Follows h'.puts) := by
  apply hd.follows.imp_of_mem
  intro r r' hr _ hfollows
  refine ⟨hfollows.seen, ?_⟩
  intro p hp
  rw [((hd.past r hr).1 p hp).take_eq hgrows]
  apply hfollows.covered p hp

theorem seen_le (hd : Ordered s h) {r : Handed} (hr : r ∈ h.handed) : r.seen ≤ h.puts.length := by
  unfold Handed.seen
  cases hscan : r.scan.head? with
  | none => apply Nat.zero_le
  | some p => apply ((hd.past r hr).1 p hscan).puts

theorem begun_pollOf (hf : Fifo s h) (ho : Owned s) (hrun : s.run = .poll 0) {q : Queue}
    (hq : s.queues[0]? = some q) (now : Timeval) : Begun h (h.pollOf 0 now q) := by
  refine ⟨Nat.le_refl _, ?_⟩
  intro hwaiting x hx hqueue
  have hunsent : s.unsent q = [] := by
    rw [unsent_of_waiting ho (by simp [hrun]) hq, List.map_eq_nil_iff, List.filter_eq_nil_iff]
    exact List.any_eq_false.mp hwaiting
  have hputs : x.addr ∈ h.putsTo 0 := by
    apply List.mem_map_of_mem
    rw [List.mem_filter, decide_eq_true_eq]
    exact ⟨List.mem_of_mem_take hx, hqueue⟩
  rw [hf.order 0 q hq, hunsent, List.append_nil] at hputs
  apply (List.filter_sublist.map Handed.addr).subset hputs

theorem begun_poll (hd : Ordered s h) (hf : Fifo s h) (ho : Owned s) {i : Nat} (hrun : s.run = .poll i)
    {q : Queue} (hq : s.queues[i]? = some q) (now : Timeval)
    : ∀ p ∈ (h.scan ++ [h.pollOf i now q]).head?, Begun h p ∧ ∀ r ∈ h.handed, r.seen ≤ p.puts := by
  have hscanning := hf.scanning
  rw [hrun] at hscanning
  have hbegun := hd.begun
  cases hscan : h.scan with
  | nil =>
    have hi : i = 0 := by
      have hqueues := hscanning.queues
      rw [hscan] at hqueues
      simpa using hqueues
    subst hi
    intro p hp
    rw [List.nil_append, List.head?_cons, Option.mem_some_iff] at hp
    subst hp
    exact ⟨begun_pollOf hf ho hrun hq now, fun r hr => hd.seen_le hr⟩
  | cons p scan =>
    rw [hscan] at hbegun
    exact hbegun

theorem taken_poll (hf : Fifo s h) (ho : Owned s) {i : Nat} {q : Queue} (hq : s.queues[i]? = some q)
    {now : Timeval} {msg : OFPMsg} (hfetch : (q.fetchMsg now).1 = some msg)
    : Taken h (h.scan ++ [h.pollOf i now q]) msg.addr := by
  intro p hp
  rw [List.getLast?_concat, Option.mem_some_iff] at hp
  have hputs : p.puts = h.puts.length := by rw [← hp, History.pollOf]
  rw [hputs, List.take_length, hf.puts]
  apply ho.mem_pushed (mem_messages hq (Queue.fetchMsg_mem hfetch).1)

theorem begun_run (hd : Ordered s h) (hf : Fifo s h) (ho : Owned s) (now : Timeval)
    : ∀ p ∈ (h.record s (.run now)).scan.head?, Begun h p ∧ ∀ r ∈ h.handed, r.seen ≤ p.puts := by
  cases hrun : s.run with
  | poll i =>
    cases hq : s.queues[i]? with
    | none =>
      simp only [History.record, History.recordRun, History.recordPoll, hrun, hq]
      apply hd.begun
    | some q =>
      rw [History.record_poll hrun hq]
      apply hd.begun_poll hf ho hrun hq
  | loop => simp [History.record, History.recordRun, hrun]
  | _ =>
    simp only [History.record, History.recordRun, hrun]
    apply hd.begun

theorem taken_run (hd : Ordered s h) (hf : Fifo s h) (ho : Owned s) {now : Timeval}
    (hstep : stepRun s now = some s') {addr : Nat}
    (hrun : s'.run = .fetched addr ∨ s'.run = .marked addr)
    : Taken h (h.record s (.run now)).scan addr := by
  cases hrun with
  | inl hfetched =>
    rcases run_of_fetched hstep hfetched with ⟨i, q, msg, hpoll, hq, hfetch, rfl⟩
    rw [History.record_poll hpoll hq]
    apply taken_poll hf ho hq hfetch
  | inr hmarked =>
    have hfetched := run_of_marked hstep hmarked
    simp only [History.record, History.recordRun, hfetched]
    apply hd.taken addr (.inl hfetched)

theorem of_run (hd : Ordered s h) (hf : Fifo s h) (ho : Owned s) {now : Timeval}
    (hstep : stepRun s now = some s') : Ordered s' (h.record s (.run now)) := by
  have hgrows := grows_record s h (.run now)
  have hhanded : (h.record s (.run now)).handed = h.handed := by simp [History.record]
  constructor
  . apply hd.points_record (fromReader_run now)
  . intro p hp
    rcases hd.begun_run hf ho now p hp with ⟨hbegun, hseen⟩
    rw [hhanded]
    exact ⟨hbegun.grow hgrows, hseen⟩
  . intro addr hrun
    apply (hd.taken_run hf ho hstep hrun).grow hgrows
  . rw [hhanded]
    apply hd.past_grow hgrows
  . rw [hhanded]
    apply hd.follows_grow hgrows

theorem of_other (hd : Ordered s h) (hreader : FromReader label) (hrun : ∀ now, label ≠ .run now)
    (hwritev : ∀ accepted, label ≠ .writev accepted) (hstep : step s label = some s')
    : Ordered s' (h.record s label) := by
  have hgrows := grows_record s h label
  rcases step_other_frame hrun hwritev hstep with ⟨hrun', -⟩
  rcases record_other h hrun hwritev with ⟨hscan, hhanded⟩
  constructor
  . apply hd.points_record hreader
  . rw [hscan, hhanded]
    intro p hp
    exact ⟨(hd.begun p hp).1.grow hgrows, (hd.begun p hp).2⟩
  . rw [hscan, hrun']
    intro addr hpc
    apply (hd.taken addr hpc).grow hgrows
  . rw [hhanded]
    apply hd.past_grow hgrows
  . rw [hhanded]
    apply hd.follows_grow hgrows

theorem of_writev (hd : Ordered s h) (hf : Fifo s h) (ho : Owned s) {accepted : Option Nat}
    (hstep : stepWritev s accepted = some s') : Ordered s' (h.record s (.writev accepted)) := by
  have hgrows := grows_record s h (.writev accepted)
  rcases stepWritev_eq hstep with ⟨addr, msg, hrun, hfind, rfl⟩
  have hscan : (h.record s (.writev accepted)).scan = h.scan := by simp [History.record]
  have hhanded : (h.record s (.writev accepted)).handed = h.handed ++ [⟨addr, h.scan⟩] := by
    simp [History.record, History.recordWritev, hrun]
  have hnew : addr ∉ h.handedAddrs := by
    have hheld := ho.held
    rw [hrun] at hheld
    rw [hf.handed]
    apply hheld.1
  constructor
  . apply hd.points_record (fromReader_writev accepted)
  . rw [hscan, hhanded]
    intro p hp
    rw [List.forall_mem_append, List.forall_mem_singleton]
    refine ⟨(hd.begun p hp).1.grow hgrows, (hd.begun p hp).2, ?_⟩
    unfold Handed.seen
    rw [hp]
    apply Nat.le_refl
  . simp
  . rw [hhanded, List.forall_mem_append, List.forall_mem_singleton]
    refine ⟨hd.past_grow hgrows, fun p hp => (hd.begun p hp).1.grow hgrows, ?_⟩
    apply (hd.taken addr (.inr hrun)).grow hgrows
  . rw [hhanded, List.pairwise_append]
    refine ⟨hd.follows_grow hgrows, List.pairwise_singleton _ _, ?_⟩
    intro r hr r' hr'
    rw [List.mem_singleton] at hr'
    subst hr'
    constructor
    . have hready := hf.scanning
      rw [hrun] at hready
      rcases hready with ⟨i, q, rest, hcomplete, -, -⟩
      rcases hcomplete.exists_head with ⟨p, hp, -⟩
      have hseen := (hd.begun p hp).2 r hr
      unfold Handed.seen at *
      rw [hp]
      exact hseen
    . intro p hp hwaiting x hx hqueue heq
      rw [((hd.past r hr).1 p hp).take_eq hgrows] at hx
      apply hnew
      dsimp only at heq
      rw [← heq]
      apply ((hd.past r hr).1 p hp).covered hwaiting x hx hqueue

theorem of_step (hd : Ordered s h) (hf : Fifo s h) (ho : Owned s) (hreader : FromReader label)
    (hstep : step s label = some s') : Ordered s' (h.record s label) := by
  cases label with
  | run now => apply hd.of_run hf ho hstep
  | writev accepted => apply hd.of_writev hf ho hstep
  | _ => apply hd.of_other hreader (by simp) (by simp) hstep

end Ordered

theorem ordered_of_reachableBy {x : State × History} (hx : observed.ReachableBy Proper x)
    : Ordered x.1 x.2 := by
  apply Machine.ReachableBy.invariant _ _ hx
  . rintro ⟨s, h⟩ ⟨⟨name, now, rfl⟩, hputs, -, hscan, hhanded, -⟩
    dsimp only at hputs hscan hhanded
    constructor
    . simp [hputs]
    . simp [hscan]
    . simp [State.init]
    . simp [hhanded]
    . simp [hhanded]
  . rintro ⟨s, h⟩ label ⟨s', h'⟩ hreach hd hok hstep
    rcases Machine.withRecord_step hstep with ⟨hstep', rfl⟩
    have ho : Owned s := owned_of_reachable hreach.of_withRecord
    apply Ordered.of_step hd (fifo_of_reachableBy hreach) ho hok.1 hstep'

theorem CompleteScan.seen_eq {i : Nat} {r : Handed} (hc : CompleteScan i r.scan)
    : ∃ p, r.scan.head? = some p ∧ r.seen = p.puts ∧ (0 < i → p.waiting = false) := by
  rcases hc.exists_head with ⟨p, hp, hwaiting⟩
  refine ⟨p, hp, ?_, hwaiting⟩
  rw [Handed.seen, hp]
  rfl

theorem CompleteScan.head?_queue {i : Nat} {scan : List Poll} (hc : CompleteScan i scan)
    : ∃ p, scan.head? = some p ∧ p.queue = importantQueueId := by
  have hqueues := hc.queues.1
  rw [List.range_succ_eq_map] at hqueues
  rcases List.map_eq_cons_iff.mp hqueues with ⟨p, rest, rfl, hp, -⟩
  exact ⟨p, rfl, hp⟩

theorem CompleteScan.getLast?_zero {r : Handed} (hc : CompleteScan 0 r.scan)
    : ∃ p, r.scan.getLast? = some p ∧ r.seen = p.puts := by
  rcases hc with ⟨before, last, hscan, hbefore, -⟩
  have hnil : before = [] := by simpa using hbefore.queues
  rw [hnil] at hscan
  refine ⟨last, by rw [hscan]; rfl, ?_⟩
  rw [Handed.seen, hscan]
  rfl

theorem mem_take_of_lt {before after : List Put} {b : Put} {n : Nat} (h : before.length < n)
    : b ∈ (before ++ b :: after).take n := by
  rw [List.take_append, List.take_cons (by omega)]
  exact List.mem_append_right _ List.mem_cons_self

theorem lt_of_mem_take {before after : List Put} {b : Put} {n : Nat}
    (hnodup : ((before ++ b :: after).map Put.addr).Nodup)
    (h : b.addr ∈ ((before ++ b :: after).take n).map Put.addr) : before.length < n := by
  by_contra hle
  rw [List.take_append_of_le_length (by omega)] at h
  rw [List.map_append, List.nodup_append] at hnodup
  have hbefore := ((List.take_sublist n before).map Put.addr).subset h
  apply hnodup.2.2 b.addr hbefore b.addr (by simp) rfl

namespace Ordered

variable {s : State} {h : History} {before after : List Put} {a b : Put}

theorem completeScan (hf : Fifo s h) (hs : Sized s) (ho : Owned s) {r : Handed} (hr : r ∈ h.handed)
    (ha : a ∈ h.puts) (haddr : r.addr = a.addr) : CompleteScan a.queue r.scan := by
  rcases hf.complete r hr with ⟨i, hi, hcomplete⟩
  have hmem := hf.mem_putsTo hs hr hi hcomplete.queue_eq
  have hputs : a.addr ∈ h.putsTo a.queue := by
    apply List.mem_map_of_mem
    simp [ha]
  rw [haddr] at hmem
  rw [hf.queue_unique ho hputs hmem]
  exact hcomplete

theorem lt_seen (hd : Ordered s h) (hf : Fifo s h) (hs : Sized s) (ho : Owned s)
    (hputs : h.puts = before ++ b :: after) (hqueue : b.queue = importantQueueId) {r : Handed}
    (hr : r ∈ h.handed) (haddr : r.addr = b.addr) : before.length < r.seen := by
  have hnodup := ho.nodup
  rw [← hf.puts, hputs] at hnodup
  have hb : b ∈ h.puts := by simp [hputs]
  have hcomplete := completeScan hf hs ho hr hb haddr
  rw [hqueue] at hcomplete
  rcases hcomplete.getLast?_zero with ⟨p, hlast, hseen⟩
  have htaken := (hd.past r hr).2 p hlast
  rw [haddr, hputs] at htaken
  rw [hseen]
  apply lt_of_mem_take hnodup htaken

theorem sublist_of_queue (hf : Fifo s h) (hs : Sized s) (ho : Owned s)
    (hputs : h.puts = before ++ b :: after) (ha : a ∈ before) (hqueue : b.queue = a.queue)
    (hlt : a.queue < Schedule.queueNum) (hb : b.addr ∈ h.handedAddrs)
    : [a.addr, b.addr].Sublist h.handedAddrs := by
  have hpair : [a, b].Sublist h.puts := by
    rw [hputs]
    apply List.Sublist.append (List.singleton_sublist.mpr ha)
    apply List.singleton_sublist.mpr List.mem_cons_self
  have hto : [a.addr, b.addr].Sublist (h.putsTo a.queue) := by
    have hfilter := (hpair.filter fun p => p.queue = a.queue).map Put.addr
    simpa [hqueue, History.putsTo] using hfilter
  have hhanded : b.addr ∈ h.handedTo a.queue := by
    rw [hf.handedTo_eq hs ho, List.mem_filter, decide_eq_true_eq]
    refine ⟨hb, hto.subset ?_⟩
    simp
  rw [← hs.queues] at hlt
  have hinitial : h.handedTo a.queue <+: h.putsTo a.queue := by
    rw [hf.order _ _ (List.getElem?_eq_getElem hlt)]
    apply List.prefix_append
  apply (pair_sublist_of_initial (hf.nodup_putsTo ho _) hinitial hto hhanded).trans
  apply List.filter_sublist.map

theorem sublist_of_seen (hd : Ordered s h) (hf : Fifo s h) (hs : Sized s) (ho : Owned s)
    (hputs : h.puts = before ++ b :: after) (hqueue : b.queue = importantQueueId)
    (hb : b.addr ∈ h.handedAddrs) {r : Handed} (hr : r ∈ h.handed) (hseen : r.seen ≤ before.length)
    : [r.addr, b.addr].Sublist h.handedAddrs := by
  rcases List.mem_map.mp hb with ⟨rb, hrb, haddr⟩
  have hlt := hd.lt_seen hf hs ho hputs hqueue hrb haddr
  have hne : r ≠ rb := by
    rintro rfl
    omega
  cases pair_sublist_or hr hrb hne with
  | inl hpair =>
    rw [← haddr]
    apply hpair.map Handed.addr
  | inr hpair =>
    have hfollows := hd.follows.sublist hpair
    rw [List.pairwise_pair] at hfollows
    have := hfollows.seen
    omega

theorem seen_of_sublist (hd : Ordered s h) (hf : Fifo s h) (hs : Sized s) (ho : Owned s)
    (hputs : h.puts = before ++ b :: after) (ha : a ∈ before) (hqueue : b.queue = importantQueueId)
    (hne : a.queue ≠ importantQueueId) (hpair : [a.addr, b.addr].Sublist h.handedAddrs)
    : ∃ r ∈ h.handed, r.addr = a.addr ∧ r.seen ≤ before.length := by
  rw [History.handedAddrs, List.sublist_map_iff] at hpair
  rcases hpair with ⟨rs, hrs, hmap⟩
  rcases List.map_eq_cons_iff.mp (Eq.symm hmap) with ⟨ra, rest, rfl, hra, hrest⟩
  rcases List.map_eq_singleton_iff.mp hrest with ⟨rb, rfl, hrb⟩
  have hmem : ra ∈ h.handed := hrs.subset List.mem_cons_self
  refine ⟨ra, hmem, hra, ?_⟩
  by_contra hlt
  have haputs : a ∈ h.puts := by simp [hputs, ha]
  rcases (completeScan hf hs ho hmem haputs hra).seen_eq with ⟨p, hp, hseen, hwaiting⟩
  have hfollows := hd.follows.sublist hrs
  rw [List.pairwise_pair] at hfollows
  -- b was in queue 0 when the scan went by, so it was handed over before
  have hb : b ∈ h.puts.take p.puts := by
    rw [hputs]
    apply mem_take_of_lt
    omega
  apply hfollows.covered p hp (hwaiting (Nat.pos_of_ne_zero hne)) b hb hqueue
  rw [hrb]

end Ordered

/--
An ordering point goes to queue 0, which every scan polls first. It comes behind a message that was
put before it if and only if both go through queue 0, or it was put when the scan that fetched the
message had already polled queue 0.
-/
theorem handed_before_orderingPoint_iff {s : State} {h : History}
    (hreach : observed.ReachableBy Proper (s, h)) {before after : List Put} {a b : Put}
    (hputs : h.puts = before ++ b :: after) (ha : a ∈ before)
    (hpoint : Schedule.IsOrderingPoint b.type b.command) (hb : b.addr ∈ h.handedAddrs)
    : b.queue = importantQueueId
        ∧ (∀ r ∈ h.handed, ∃ p, r.scan.head? = some p ∧ p.queue = importantQueueId)
        ∧ ([a.addr, b.addr].Sublist h.handedAddrs
          ↔ a.queue = importantQueueId
            ∨ ∃ r ∈ h.handed, r.addr = a.addr ∧ r.seen ≤ before.length) := by
  have hf : Fifo s h := fifo_of_reachableBy hreach
  have hd : Ordered s h := ordered_of_reachableBy hreach
  have hs : Sized s := sized_of_reachable hreach.of_withRecord
  have ho : Owned s := owned_of_reachable hreach.of_withRecord
  have hqueue : b.queue = importantQueueId := hd.points b (by simp [hputs]) hpoint
  refine ⟨hqueue, ?_, ?_, ?_⟩
  . intro r hr
    rcases hf.complete r hr with ⟨i, -, hcomplete⟩
    exact hcomplete.head?_queue
  . intro hpair
    by_cases haqueue : a.queue = importantQueueId
    . exact .inl haqueue
    . exact .inr (hd.seen_of_sublist hf hs ho hputs ha hqueue haqueue hpair)
  . rintro (haqueue | ⟨r, hr, haddr, hseen⟩)
    . apply Ordered.sublist_of_queue hf hs ho hputs ha (by rw [hqueue, haqueue]) _ hb
      rw [haqueue]
      decide
    . rw [← haddr]
      apply hd.sublist_of_seen hf hs ho hputs hqueue hb hr hseen

-- an OFPT_BARRIER_REQUEST
def barrierRequest : List UInt8 := [4, 20, 0, 8, 0, 0, 0, 2]

theorem handed_before_orderingPoint_iff_twoMessages
    : ∃ s h before after a b, observed.ReachableBy Proper (s, h) ∧ h.puts = before ++ b :: after
        ∧ a ∈ before ∧ Schedule.IsOrderingPoint b.type b.command ∧ b.addr ∈ h.handedAddrs
        ∧ a.queue ≠ importantQueueId
        ∧ (b.queue = importantQueueId
          ∧ (∀ r ∈ h.handed, ∃ p, r.scan.head? = some p ∧ p.queue = importantQueueId)
          ∧ ([a.addr, b.addr].Sublist h.handedAddrs
            ↔ a.queue = importantQueueId
              ∨ ∃ r ∈ h.handed, r.addr = a.addr ∧ r.seen ≤ before.length)) := by
  have hrun := @exists_proper_of_replay "SERVER"
    (putMessage applyOnly.encode ++ ticks 5 ++ [.writev (some 1)] ++ putMessage barrierRequest ++ ticks 5
      ++ [.writev (some 8)])
    (fun x => decide (x.2.handedAddrs = [0, 1] ∧ x.2.puts = [⟨1, 0, 14, 0⟩, ⟨0, 1, 20, 0⟩]))
    (by simp only [List.forall_mem_append, List.forall_mem_singleton, fromReader_writev]
        exact ⟨⟨⟨⟨⟨fromReader_putMessage _, fromReader_ticks 5⟩, trivial⟩, fromReader_putMessage _⟩,
          fromReader_ticks 5⟩, trivial⟩)
    (by decide +kernel)
  rcases hrun with ⟨⟨s, h⟩, hreach, hh⟩
  rw [decide_eq_true_eq] at hh
  have hputs : h.puts = [⟨1, 0, 14, 0⟩] ++ ⟨0, 1, 20, 0⟩ :: [] := hh.2
  have hpoint : Schedule.IsOrderingPoint 20 0 := by decide
  have hb : 1 ∈ h.handedAddrs := by simp [hh.1]
  refine ⟨s, h, _, _, _, _, hreach, hputs, List.mem_cons_self, hpoint, hb, by decide, ?_⟩
  apply handed_before_orderingPoint_iff hreach hputs List.mem_cons_self hpoint hb

-- The flow-mod waits in queue 1, and the barrier request is the first to be written.
theorem orderingPoint_overtakes_flowMod
    : ¬∀ s h, observed.ReachableBy Proper (s, h) → s.name = "SERVER"
        → ∀ before after a b, h.puts = before ++ b :: after → a ∈ before
          → a.type = ofptFlowMod ∧ a.command = ofpfcAdd ∨ a.type = ofptPacketOut
          → Schedule.IsOrderingPoint b.type b.command → b.addr ∈ h.handedAddrs
          → [a.addr, b.addr].Sublist h.handedAddrs := by
  intro hclaim
  have hrun := @exists_proper_of_replay "SERVER"
    (putMessage applyOnly.encode ++ putMessage barrierRequest ++ ticks 4 ++ [.writev (some 8)])
    (fun x => decide (x.1.name = "SERVER" ∧ x.2.handedAddrs = [1]
      ∧ x.2.puts = [⟨1, 0, 14, 0⟩, ⟨0, 1, 20, 0⟩]))
    (by simp only [List.forall_mem_append, List.forall_mem_singleton, fromReader_writev]
        exact ⟨⟨⟨fromReader_putMessage _, fromReader_putMessage _⟩, fromReader_ticks 4⟩, trivial⟩)
    (by decide +kernel)
  rcases hrun with ⟨⟨s, h⟩, hreach, hh⟩
  rw [decide_eq_true_eq] at hh
  have hputs : h.puts = [⟨1, 0, 14, 0⟩] ++ ⟨0, 1, 20, 0⟩ :: [] := hh.2.2
  have hhanded : h.handedAddrs = [1] := hh.2.1
  have hpair := hclaim s h hreach hh.1 _ _ _ _ hputs List.mem_cons_self (by decide) (by decide)
    (by simp [hhanded])
  rw [hhanded] at hpair
  simp at hpair

end Scheduler
end OfpProxy
