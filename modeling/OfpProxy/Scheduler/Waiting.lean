import OfpProxy.Machine.Progress
import OfpProxy.Scheduler.ClientCredit
import OfpProxy.Scheduler.Credit
import OfpProxy.Scheduler.Fifo

/-!
This module shows how long a message can wait. As long as there is a credit left, every round of `run`
writes a message, and only what is put into a queue of higher priority gets in front.
-/

namespace OfpProxy
namespace Scheduler

namespace History

-- what was put in queue i and is still to be written
def pending (h : History) (i : Nat) : Nat := (h.putsTo i).length - (h.handedTo i).length

/--
How many messages are written before the one that was put in queue `i` at `addr`.
-/
def ahead (h : History) (i addr : Nat) : Nat :=
  ((List.range i).map h.pending).sum + ((h.putsTo i).idxOf addr - (h.handedTo i).length)

theorem putsTo_record_of_run (s : State) (h : History) (now : Timeval) (i : Nat)
    : (h.record s (.run now)).putsTo i = h.putsTo i
        ∧ (h.record s (.run now)).handedTo i = h.handedTo i := by
  unfold putsTo handedTo
  simp [record]

theorem ahead_congr {h h' : History} {i addr : Nat} (hputs : ∀ j ≤ i, h'.putsTo j = h.putsTo j)
    (hhanded : ∀ j ≤ i, h'.handedTo j = h.handedTo j) : h'.ahead i addr = h.ahead i addr := by
  have hpending : (List.range i).map h'.pending = (List.range i).map h.pending := by
    apply List.map_congr_left
    intro j hj
    rw [List.mem_range] at hj
    unfold pending
    rw [hputs j (by omega), hhanded j (by omega)]
  unfold ahead
  rw [hpending, hputs i (Nat.le_refl i), hhanded i (Nat.le_refl i)]

end History

/--
How many steps of `run` there are at most before it writes a message of a queue up to `i`. What was
polled in this round so far tells whether it is about to write one of them.
-/
def stage (i scanned : Nat) : RunPc → Nat
  | .marked _ => if scanned ≤ i + 1 then 1 else 23
  | .fetched _ => if scanned ≤ i + 1 then 2 else 24
  | .poll k => if k ≤ i then 7 - k else 35 - min k 10
  | .loop => 8
  | .clean k _ => 19 - min k 10
  | .start => 20
  | .sent => 21
  | .written _ => 22

theorem stage_le (i scanned : Nat) (run : RunPc) : stage i scanned run ≤ 34 := by
  unfold stage
  split
  . split <;> omega
  . split <;> omega
  . split <;> omega
  all_goals omega

def rank (i addr : Nat) (x : State × History) : Nat :=
  32 * x.2.ahead i addr + stage i x.2.scan.length x.1.run

-- the inner loop finds a credit
def hasCredit (s : State) : Label → Prop
  | .run _ => s.run = .loop → 0 < s.maxInProcess
  | _ => True

-- a step of the thread that executes `run`
def Label.isRun : Label → Bool
  | .run _ | .writev _ => true
  | _ => false

-- a message is put into a queue that comes before queue i
def Label.overtakes (i : Nat) : Label → Bool
  | .putMsg arg _ _ _ => arg.qid.any fun qid => qid < i
  | _ => false

theorem sum_map_le {f g : Nat → Nat} {i j a b : Nat} (hj : j < i) (hother : ∀ k, k ≠ j → g k = f k)
    (h : g j + a ≤ f j + b) : ((List.range i).map g).sum + a ≤ ((List.range i).map f).sum + b := by
  induction i with
  | zero => contradiction
  | succ i ih =>
    rw [List.range_succ, List.map_append, List.map_append, List.sum_append, List.sum_append,
      List.map_singleton, List.map_singleton, List.sum_singleton, List.sum_singleton]
    by_cases hij : j = i
    . subst hij
      have hsame : (List.range j).map g = (List.range j).map f := by
        apply List.map_congr_left
        intro k hk
        rw [List.mem_range] at hk
        apply hother k (by omega)
      rw [hsame]
      omega
    . have := ih (by omega)
      rw [hother i (Ne.symm hij)]
      omega

section Wait

variable {s s' : State} {h : History} {i addr : Nat}

theorem ScanOf.length_eq {k : Nat} {scan : List Poll} (hscan : ScanOf k scan) : scan.length = k := by
  have hlen := congrArg List.length hscan.queues
  rw [List.length_map, List.length_range] at hlen
  exact hlen

theorem CompleteScan.length_eq {k : Nat} {scan : List Poll} (hscan : CompleteScan k scan)
    : scan.length = k + 1 := by
  rcases hscan with ⟨before, p, rfl, hbefore, -⟩
  rw [List.length_append, hbefore.length_eq, List.length_singleton]

-- The message still waits in queue i.
theorem unsent_of_putsTo (hf : Fifo s h) (hs : Sized s) (hi : i < Schedule.queueNum)
    (hput : addr ∈ h.putsTo i) (hwait : addr ∉ s.sentAddrs)
    : ∃ q, s.queues[i]? = some q ∧ addr ∈ s.unsent q := by
  have hlt : i < s.queues.length := by
    rw [hs.queues]
    exact hi
  refine ⟨s.queues[i], List.getElem?_eq_getElem hlt, ?_⟩
  rw [hf.order i _ (List.getElem?_eq_getElem hlt), List.mem_append] at hput
  rcases hput with hhanded | hunsent
  . exfalso
    apply hwait
    rw [← hf.handed]
    rcases List.mem_map.mp hhanded with ⟨r, hr, hraddr⟩
    rw [← hraddr]
    apply List.mem_map_of_mem (List.mem_filter.mp hr).1
  . exact hunsent

theorem isWaiting_of_unsent (ho : Owned s) (hrun : ∀ a, s.run ≠ .marked a) {q : Queue}
    (hq : s.queues[i]? = some q) (hmem : addr ∈ s.unsent q) : q.isWaiting = true := by
  rw [unsent_of_waiting ho hrun hq] at hmem
  rcases List.mem_map.mp hmem with ⟨msg, hmsg, -⟩
  rw [List.mem_filter] at hmsg
  unfold Queue.isWaiting
  rw [List.any_eq_true]
  exact ⟨msg, hmsg⟩

theorem stage_run {now : Timeval} (hi : i < 5) (hs : Sized s) (ho : Owned s) (hf : Fifo s h)
    (htended : ∀ i q, s.queues[i]? = some q → Tended h q ∧ q.intervalMs = Schedule.intervalMs i)
    (hclock : h.clock ≤ now.micros) (hput : addr ∈ h.putsTo i) (hwait : addr ∉ s.sentAddrs)
    (hcredit : hasCredit s (.run now)) (hstep : stepRun s now = some s')
    : stage i (h.record s (.run now)).scan.length s'.run + 1 ≤ stage i h.scan.length s.run := by
  have hscan := hf.scanning
  cases branch_of_stepRun hstep with
  | toClean hrun _ | noClean hrun _ | takeCredit hrun _ | noSchedule hrun _ | finish hrun _ _
  | needTime hrun _ _ =>
    rw [hrun]
    simp only [stage]
    omega
  | clean hrun hlt _ _ | cleanEnd hrun hlt =>
    unfold Schedule.queueNum at hlt
    rw [hrun]
    simp only [stage]
    omega
  | toPoll hrun _ =>
    rw [hrun]
    simp only [stage]
    rw [if_pos (Nat.zero_le i)]
  | noCredit hrun hnone => exact absurd (hcredit hrun) hnone
  | @nextQueue now k q hrun hlt hq hfetch =>
    unfold Schedule.queueNum at hlt
    -- queue i has something to fetch
    have hne : k ≠ i := by
      rintro rfl
      rcases unsent_of_putsTo hf hs hlt hput hwait with ⟨q', hq', hmem⟩
      rw [hq, Option.some_inj] at hq'
      subst hq'
      have hwaiting := isWaiting_of_unsent ho (by simp [hrun]) hq hmem
      rcases htended k q hq with ⟨htended', hinterval⟩
      rw [waiting_eq_false htended' hinterval hclock hi hfetch] at hwaiting
      contradiction
    rw [hrun]
    simp only [stage]
    split <;> split <;> omega
  | @fetch now k q msg hrun hlt hq hfetch =>
    unfold Schedule.queueNum at hlt
    rw [hrun] at hscan
    rw [History.record_poll hrun hq, hrun]
    simp only [stage, List.length_append, List.length_singleton, hscan.length_eq]
    split <;> split <;> omega
  | noMessage hrun hlt =>
    unfold Schedule.queueNum at hlt
    rw [hrun]
    simp only [stage]
    rw [if_neg (by omega)]
    omega
  | mark hrun _ =>
    have hrecord : (h.record s (.run now)).scan = h.scan := by
      simp [History.record, History.recordRun, hrun]
    rw [hrecord, hrun]
    simp only [stage]
    split <;> omega

section Put

variable {arg : OFPMsgArg} {mem : Mem} {fd : Int} {garbage j : Nat}

theorem putsTo_record_put (hqid : arg.qid = some j) (k : Nat)
    : (h.record s (.putMsg arg mem fd garbage)).putsTo k
        = h.putsTo k ++ if j = k then [s.next] else [] := by
  simp only [History.putsTo, History.record, History.recordPut, hqid, List.filter_append,
    List.filter_cons, List.filter_nil, List.map_append]
  by_cases hjk : j = k
  . simp [hjk]
  . simp [hjk]

theorem ahead_of_put (hput : addr ∈ h.putsTo i) (hqid : arg.qid = some j)
    : (h.record s (.putMsg arg mem fd garbage)).ahead i addr
        ≤ h.ahead i addr + if j < i then 1 else 0 := by
  have hputs := @putsTo_record_put s h arg mem fd garbage j hqid
  have hhanded : ∀ k, (h.record s (.putMsg arg mem fd garbage)).handedTo k = h.handedTo k :=
    handedTo_eq (record_other h (by simp) (by simp)).2
  have hpending : ∀ k, k ≠ j → (h.record s (.putMsg arg mem fd garbage)).pending k = h.pending k := by
    intro k hk
    unfold History.pending
    rw [hputs, hhanded, if_neg (Ne.symm hk), List.append_nil]
  unfold History.ahead
  rw [hputs i, List.idxOf_append_of_mem hput, hhanded]
  split
  . next hji =>
    have hmore : (h.record s (.putMsg arg mem fd garbage)).pending j + 0 ≤ h.pending j + 1 := by
      unfold History.pending
      rw [hputs, hhanded, if_pos rfl, List.length_append, List.length_singleton]
      omega
    have hsum := sum_map_le hji hpending hmore
    omega
  . next hji =>
    have hsame : (List.range i).map (h.record s (.putMsg arg mem fd garbage)).pending
        = (List.range i).map h.pending := by
      apply List.map_congr_left
      intro k hk
      rw [List.mem_range] at hk
      apply hpending k (by omega)
    rw [hsame]
    omega

end Put

theorem ahead_of_other {label : Label} (hput : addr ∈ h.putsTo i) (hrun : ∀ now, label ≠ .run now)
    (hwritev : ∀ accepted, label ≠ .writev accepted)
    : (h.record s label).ahead i addr ≤ h.ahead i addr + (if label.overtakes i then 1 else 0) := by
  by_cases hlabel : ∃ arg mem fd garbage j, label = .putMsg arg mem fd garbage ∧ arg.qid = some j
  . rcases hlabel with ⟨arg, mem, fd, garbage, j, rfl, hqid⟩
    simp only [Label.overtakes, hqid, Option.any_some, decide_eq_true_eq]
    exact ahead_of_put hput hqid
  . have hputs : ∀ j, (h.record s label).putsTo j = h.putsTo j := by
      intro j
      apply putsTo_record_of_not
      cases label with
      | putMsg arg mem fd garbage => exact fun hqid => hlabel ⟨arg, mem, fd, garbage, j, rfl, hqid⟩
      | run now => exact absurd rfl (hrun now)
      | _ => exact id
    have hhanded : ∀ j, (h.record s label).handedTo j = h.handedTo j :=
      handedTo_eq (record_other h hrun hwritev).2
    have hsame : (h.record s label).ahead i addr = h.ahead i addr :=
      History.ahead_congr (fun j _ => hputs j) (fun j _ => hhanded j)
    omega

theorem rank_of_other {label : Label} (hput : addr ∈ h.putsTo i) (hrun : ∀ now, label ≠ .run now)
    (hwritev : ∀ accepted, label ≠ .writev accepted) (hstep : step s label = some s')
    : rank i addr (s', h.record s label)
        ≤ rank i addr (s, h) + 32 * (if label.overtakes i then 1 else 0) := by
  have hahead := @ahead_of_other s h i addr label hput hrun hwritev
  unfold rank
  dsimp only
  rw [(step_other_frame hrun hwritev hstep).1, (record_other h hrun hwritev).1]
  omega

theorem rank_of_run {now : Timeval} (hi : i < 5) (hs : Sized s) (ho : Owned s) (hf : Fifo s h)
    (htended : ∀ i q, s.queues[i]? = some q → Tended h q ∧ q.intervalMs = Schedule.intervalMs i)
    (hclock : h.clock ≤ now.micros) (hput : addr ∈ h.putsTo i) (hwait : addr ∉ s.sentAddrs)
    (hcredit : hasCredit s (.run now)) (hstep : stepRun s now = some s')
    : rank i addr (s', h.record s (.run now)) + 1 ≤ rank i addr (s, h) := by
  have hstage := stage_run hi hs ho hf htended hclock hput hwait hcredit hstep
  have hahead : (h.record s (.run now)).ahead i addr = h.ahead i addr :=
    History.ahead_congr (fun j _ => (h.putsTo_record_of_run s now j).1)
      (fun j _ => (h.putsTo_record_of_run s now j).2)
  unfold rank
  dsimp only
  rw [hahead]
  omega

/--
A message of queue `k` is handed over, and nothing is put.
-/
structure Hands (h h' : History) (k first : Nat) : Prop where
  puts : ∀ j, h'.putsTo j = h.putsTo j
  handed : ∀ j, h'.handedTo j = h.handedTo j ++ if k = j then [first] else []

namespace Hands

variable {h' : History} {k first : Nat} {rest : List Nat}

theorem of_writev {accepted : Option Nat} (hrun : s.run = .marked first)
    (hqueue : (Handed.mk first h.scan).queue = some k)
    : Hands h (h.record s (.writev accepted)) k first where
  puts := by
    intro j
    unfold History.putsTo
    simp [History.record]
  handed := by
    intro j
    simp only [History.handedTo, History.record, History.recordWritev, hrun, List.filter_append,
      List.filter_cons, List.filter_nil, List.map_append, hqueue]
    by_cases hkj : k = j
    . simp [hkj]
    . simp [hkj]

theorem pending_other (hh : Hands h h' k first) {j : Nat} (hj : j ≠ k)
    : h'.pending j = h.pending j := by
  unfold History.pending
  rw [hh.puts, hh.handed, if_neg (Ne.symm hj), List.append_nil]

theorem pending_lt (hh : Hands h h' k first) (horder : h.putsTo k = h.handedTo k ++ first :: rest)
    : h'.pending k + 1 ≤ h.pending k + 0 := by
  have hlen := congrArg List.length horder
  rw [List.length_append, List.length_cons] at hlen
  unfold History.pending
  rw [hh.puts, hh.handed, if_pos rfl, List.length_append, List.length_singleton]
  omega

-- a message of a queue of higher priority
theorem ahead_of_lt (hh : Hands h h' k first) (horder : h.putsTo k = h.handedTo k ++ first :: rest)
    (hlt : k < i) : h'.ahead i addr + 1 ≤ h.ahead i addr := by
  have hother : ∀ j, j ≠ k → h'.pending j = h.pending j := fun _ => hh.pending_other
  have hsum := sum_map_le hlt hother (hh.pending_lt horder)
  unfold History.ahead
  rw [hh.puts, hh.handed, if_neg (by omega), List.append_nil]
  omega

-- one of the messages before it in its own queue
theorem ahead_of_ne (hh : Hands h h' k first) (horder : h.putsTo k = h.handedTo k ++ first :: rest)
    (hnot : addr ∉ h.handedTo k) (hne : first ≠ addr) : h'.ahead k addr + 1 ≤ h.ahead k addr := by
  have hindex : (h.putsTo k).idxOf addr = (rest.idxOf addr + 1) + (h.handedTo k).length := by
    rw [horder, List.idxOf_append_of_notMem hnot, List.idxOf_cons_ne _ hne]
    omega
  have hsame : (List.range k).map h'.pending = (List.range k).map h.pending := by
    apply List.map_congr_left
    intro j hj
    rw [List.mem_range] at hj
    apply hh.pending_other (by omega)
  unfold History.ahead
  rw [hh.puts, hh.handed, if_pos rfl, hindex, hsame, List.length_append, List.length_singleton]
  omega

theorem ahead_of_gt (hh : Hands h h' k first) (hgt : i < k) : h'.ahead i addr = h.ahead i addr := by
  apply History.ahead_congr
  . intro j _
    apply hh.puts
  . intro j hj
    rw [hh.handed, if_neg (by omega), List.append_nil]

end Hands

theorem rank_of_writev {accepted : Option Nat} (hf : Fifo s h) (hwait : addr ∉ s.sentAddrs)
    (hstep : stepWritev s accepted = some s')
    : addr ∈ s'.sentAddrs
        ∨ rank i addr (s', h.record s (.writev accepted)) + 1 ≤ rank i addr (s, h) := by
  rcases stepWritev_eq hstep with ⟨first, msg, hrun, hfind, hs'⟩
  have haddr : msg.addr = first := by simpa using List.find?_some hfind
  have hready := hf.scanning
  rw [hrun] at hready
  rcases hready with ⟨k, q, rest, hcomplete, hq, hunsent⟩
  have hhands : Hands h (h.record s (.writev accepted)) k first :=
    .of_writev hrun hcomplete.queue_eq
  have horder := hf.order k q hq
  rw [hunsent] at horder
  have hstage : stage i (h.record s (.writev accepted)).scan.length s'.run = 22 := by
    rw [hs']
    rfl
  unfold rank
  dsimp only
  rw [hstage, hrun]
  simp only [stage, hcomplete.length_eq]
  rcases Nat.lt_trichotomy k i with hlt | heq | hgt
  . apply Or.inr
    have hahead := @Hands.ahead_of_lt _ i addr _ _ _ _ hhands horder hlt
    split <;> omega
  . subst heq
    by_cases hfirst : first = addr
    . apply Or.inl
      rw [hs']
      simp [State.sentAddrs, haddr, hfirst]
    . apply Or.inr
      have hnot : addr ∉ h.handedTo k := by
        intro hmem
        apply hwait
        rw [← hf.handed]
        rcases List.mem_map.mp hmem with ⟨r, hr, hraddr⟩
        rw [← hraddr]
        apply List.mem_map_of_mem (List.mem_filter.mp hr).1
      have hahead := hhands.ahead_of_ne horder hnot hfirst
      split <;> omega
  . apply Or.inr
    rw [hhands.ahead_of_gt hgt, if_neg (by omega)]

end Wait

-- everything that is known of a run of the scheduler at the time a message waits in queue i
def WaitsIn (i addr : Nat) (x : State × History) : Prop :=
  observed.ReachableBy Proper x ∧ addr ∈ x.2.putsTo i

theorem mem_putsTo_record {s : State} {h : History} {i addr : Nat} (label : Label)
    (hput : addr ∈ h.putsTo i) : addr ∈ (h.record s label).putsTo i := by
  rcases List.mem_map.mp hput with ⟨p, hp, rfl⟩
  apply List.mem_map_of_mem
  rw [List.mem_filter] at *
  refine ⟨?_, hp.2⟩
  cases label with
  | putMsg arg mem fd garbage =>
    simp only [History.record, History.recordPut]
    split
    . exact hp.1
    . exact List.mem_append_left _ hp.1
  | run now => simpa [History.record] using hp.1
  | writev accepted => simpa [History.record] using hp.1
  | _ => exact hp.1

/--
A message of an unthrottled queue gets closer to its turn with every step of `run`.
-/
theorem progress {i addr : Nat} (hi : i < 5)
    : Machine.Progress observed (fun x label => Proper x label ∧ hasCredit x.1 label)
        (fun label => if label.isRun then 1 else 0)
        (fun label => 32 * (if label.overtakes i then 1 else 0)) (WaitsIn i addr)
        (fun x => addr ∈ x.1.sentAddrs) (rank i addr) where
  keeps := by
    rintro ⟨s, h⟩ label ⟨s', h'⟩ ⟨hreach, hput⟩ hok hstep
    rcases Machine.withRecord_step hstep with ⟨hstep', rfl⟩
    exact ⟨.step hreach hok.1 hstep, mem_putsTo_record label hput⟩
  stays := by
    rintro ⟨s, h⟩ label ⟨s', h'⟩ - hsent - hstep
    rcases Machine.withRecord_step hstep with ⟨hstep', rfl⟩
    cases branch_of_step hstep' with
    | write =>
      unfold State.sentAddrs at *
      rw [List.map_append]
      exact List.mem_append_left _ hsent
    | _ => exact hsent
  lowers := by
    rintro ⟨s, h⟩ label ⟨s', h'⟩ ⟨hreach, hput⟩ hwait ⟨hok, hcredit⟩ hstep
    rcases Machine.withRecord_step hstep with ⟨hstep', rfl⟩
    have hreach' : machine.Reachable s := hreach.of_withRecord
    have hs := sized_of_reachable hreach'
    have ho := owned_of_reachable hreach'
    have hf : Fifo s h := fifo_of_reachableBy hreach
    cases label with
    | run now =>
      have hclock := hok.2
      rw [clockForward, decide_eq_true_eq] at hclock
      apply Or.inr
      have htended : ∀ i q, s.queues[i]? = some q
          → Tended h q ∧ q.intervalMs = Schedule.intervalMs i := by
        intro i q hq
        exact ⟨tended_of_reachableBy hreach hq, intervalMs_of_reachable hreach' hq⟩
      exact rank_of_run hi hs ho hf htended hclock hput hwait hcredit hstep'
    | writev accepted => exact rank_of_writev hf hwait hstep'
    | putMsg arg mem fd garbage => exact .inr (rank_of_other hput (by simp) (by simp) hstep')
    | insertPos => exact .inr (rank_of_other hput (by simp) (by simp) hstep')
    | readToBeSent => exact .inr (rank_of_other hput (by simp) (by simp) hstep')
    | markFinished qid identify => exact .inr (rank_of_other hput (by simp) (by simp) hstep')

theorem Owned.sent_le {s : State} (h : Owned s) : s.sent.length ≤ s.pushed.length := by
  have hle := (List.subperm_of_subset h.sentNodup h.sentPushed).length_le
  unfold State.sentAddrs at hle
  rw [List.length_map] at hle
  exact hle

theorem hasCredit_of_client {s : State} (h : machine.Reachable s) (hname : s.name = "CLIENT")
    (hsize : s.pushed.length + 12 < 2147483648) (label : Label) : hasCredit s label := by
  have ho := owned_of_reachable h
  have hsent := ho.sent_le
  have hcleaned := ho.cleaned_le
  unfold hasCredit
  split
  . intro hrun
    rw [maxInProcess_eq h hname (by simp [hrun]), i32_eq (by omega) (by omega)]
    omega
  . trivial

theorem pushed_le {s s' : State} {label : Label} (h : step s label = some s')
    : s.pushed.length ≤ s'.pushed.length := by
  cases branch_of_step h with
  | push => simp
  | _ => apply Nat.le_refl

theorem hasCredit_path {x y : State × History} {labels : List Label}
    (hx : observed.ReachableBy Proper x) (hname : x.1.name = "CLIENT")
    (hpath : observed.Path Proper x labels y) (hsize : y.1.pushed.length + 12 < 2147483648)
    : observed.Path (fun x label => Proper x label ∧ hasCredit x.1 label) x labels y := by
  have hmono : ∀ x label y, observed.step x label = some y → x.1.pushed.length ≤ y.1.pushed.length :=
    fun x label y hstep => pushed_le (Machine.withRecord_step hstep).1
  induction hpath with
  | nil => exact .nil
  | @cons x y z label labels hok hstep hrest ih =>
    have hstep' := (Machine.withRecord_step hstep).1
    have hle := hrest.le hmono
    have hle' := pushed_le hstep'
    refine .cons ⟨hok, ?_⟩ hstep (ih (.step hx hok hstep) ?_ hsize)
    . apply hasCredit_of_client hx.of_withRecord hname (by omega)
    . rw [(branch_of_step hstep').name_eq, hname]

theorem sum_map_const_mul (labels : List Label) (c : Nat) (p : Label → Bool)
    : (labels.map fun label => c * (if p label then 1 else 0)).sum = c * labels.countP p := by
  induction labels with
  | nil => rfl
  | cons label labels ih =>
    rw [List.map_cons, List.sum_cons, ih, List.countP_cons]
    split <;> simp [*, Nat.mul_add, Nat.add_comm]

/--
In the switch-to-controller direction a message of an unthrottled queue waits for the messages in
front of it, and for those that get in front of it, for at most 32 steps of `run` each.
-/
theorem handed_within {x y : State × History} (hx : observed.ReachableBy Proper x)
    (hname : x.1.name = "CLIENT") {i addr : Nat} (hi : i < 5) (hput : addr ∈ x.2.putsTo i)
    {labels : List Label} (hpath : observed.Path Proper x labels y)
    (hsize : y.1.pushed.length + 12 < 2147483648)
    (hlong : 32 * (x.2.ahead i addr + labels.countP (Label.overtakes i)) + 34
      < labels.countP Label.isRun)
    : addr ∈ y.1.sentAddrs := by
  apply (progress hi).holds (hasCredit_path hx hname hpath hsize) ⟨hx, hput⟩
  have hwork := sum_map_const_mul labels 1 Label.isRun
  have hstage := stage_le i x.2.scan.length x.1.run
  simp only [Nat.one_mul] at hwork
  rw [sum_map_const_mul, hwork]
  unfold rank
  omega

theorem handed_within_oneRequest
    : ∃ x y labels, observed.ReachableBy Proper x ∧ observed.Path Proper x labels y
        ∧ x.1.sentAddrs = [] ∧ labels.countP Label.isRun = 41 ∧ 0 ∈ y.1.sentAddrs := by
  let labels := ticks 15 ++ [.writev (some 8)] ++ ticks 25
  have hlabels : ∀ label ∈ labels, FromReader label := by
    simp only [labels, List.forall_mem_append, List.forall_mem_singleton, fromReader_writev]
    exact ⟨⟨fromReader_ticks 15, trivial⟩, fromReader_ticks 25⟩
  have hrun := @exists_proper_of_replay "CLIENT" (putMessage [4, 2, 0, 8, 0, 0, 0, 1])
    (fun x => decide (x.1.name = "CLIENT" ∧ 0 ∈ x.2.putsTo 0 ∧ x.2.ahead 0 0 = 0 ∧ x.1.sentAddrs = [])
      && (observed.replay (fun x label => clockForward x.2 label) x labels).any fun y =>
        decide (y.1.pushed.length + 12 < 2147483648))
    (fromReader_putMessage _) (by decide +kernel)
  rcases hrun with ⟨x, hreach, hx⟩
  rw [Bool.and_eq_true, decide_eq_true_eq, Option.any_eq_true] at hx
  rcases hx with ⟨⟨hname, hput, hahead, hnone⟩, y, hreplay, hsize⟩
  rw [decide_eq_true_eq] at hsize
  have hpath : observed.Path Proper x labels y := Machine.path_of_replay_all hlabels hreplay
  have hruns : labels.countP Label.isRun = 41 := by decide
  have hsent := handed_within hreach hname (by omega) hput hpath hsize
    (by rw [hahead, hruns]; decide)
  exact ⟨x, y, labels, hreach, hpath, hnone, hruns, hsent⟩

end Scheduler
end OfpProxy
