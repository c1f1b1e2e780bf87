import OfpProxy.Scheduler.Waiting

/-!
This module shows that the thread of `run` gets on by itself: from wherever it is it gets to the top of
its loop or to a write, and with a credit it gets to a write of what waits, in whatever queue this is.
-/

namespace OfpProxy
namespace Scheduler

-- how many steps it is to the top of the loop at most, if nothing is fetched again on the way
def distance : RunPc → Nat
  | .start => 26
  | .clean k _ => 25 - min k 10
  | .written _ => 15
  | .sent => 14
  | .loop => 13
  | .poll k => 12 - min k 10
  | .fetched _ => 1
  | .marked _ => 0

-- on the way to the poll of queue i
def Before (i : Nat) : RunPc → Prop
  | .poll k => k ≤ i
  | .written _ | .sent => False
  | _ => True

-- a second after every fetch so far, when every queue may be polled again
def Later (s : State) (now : Timeval) : Prop :=
  ∀ q ∈ s.queues, q.lastFetch.micros + 1000000 ≤ now.micros

def Own (_ : State) (label : Label) : Prop := label.isRun = true

theorem own_run (s : State) (now : Timeval) : Own s (.run now) := rfl

-- the message waits in queue i
def UnsentIn (s : State) (i addr : Nat) : Prop := ∃ q, s.queues[i]? = some q ∧ addr ∈ s.unsent q

section Run

variable {s s' : State} {now : Timeval} {i addr : Nat}

theorem distance_of_run (hbranch : Branch s (.run now) s')
    : s'.run = .start ∨ distance s'.run < distance s.run := by
  cases hbranch with
  | noCredit | noMessage | noSchedule => exact .inl rfl
  | clean hrun hlt | nextQueue hrun hlt | fetch hrun hlt =>
    unfold Schedule.queueNum at hlt
    apply Or.inr
    rw [hrun]
    simp only [distance]
    omega
  | toClean hrun | noClean hrun | cleanEnd hrun | toPoll hrun | mark hrun | finish hrun | needTime hrun
  | takeCredit hrun =>
    apply Or.inr
    rw [hrun]
    simp only [distance]
    omega

theorem Before.of_run (hbefore : Before i s.run) (hi : i < Schedule.queueNum)
    (hcredit : hasCredit s (.run now)) (hpoll : s.run = .poll i → ∀ k, s'.run ≠ .poll k)
    (hbranch : Branch s (.run now) s') : Before i s'.run ∧ distance s'.run < distance s.run := by
  have hdistance : s'.run ≠ .start → distance s'.run < distance s.run := by
    intro hne
    rcases distance_of_run hbranch with hstart | hlt
    . exact absurd hstart hne
    . exact hlt
  cases hbranch with
  | toClean | noClean | clean | cleanEnd | fetch | mark => exact ⟨trivial, hdistance (by simp)⟩
  | toPoll => exact ⟨Nat.zero_le i, hdistance (by simp)⟩
  | noCredit hrun hnone => exact absurd (hcredit hrun) hnone
  | @nextQueue now k q hrun =>
    rw [hrun] at hbefore
    have hne : k ≠ i := by
      rintro rfl
      exact hpoll hrun _ rfl
    have hle : k ≤ i := hbefore
    exact ⟨by simp only [Before]; omega, hdistance (by simp)⟩
  | noMessage hrun hlt =>
    rw [hrun] at hbefore
    exact absurd (Nat.lt_of_le_of_lt hbefore hi) hlt
  | finish hrun | needTime hrun | takeCredit hrun | noSchedule hrun =>
    rw [hrun] at hbefore
    contradiction

theorem exists_later (s : State) : ∃ now, Later s now := by
  rcases exists_micros_le s.queues with ⟨clock, hclock⟩
  refine ⟨⟨clock / 1000000 + 1, clock % 1000000⟩, ?_⟩
  intro q hq
  have hle := hclock q hq
  simp only [Timeval.micros] at *
  omega

-- Every interval is shorter than a second.
theorem elapsed_of_later {q : Queue} (hlater : q.lastFetch.micros + 1000000 ≤ now.micros)
    (hinterval : q.intervalMs = Schedule.intervalMs i) (hi : i < Schedule.queueNum)
    : now.msSince q.lastFetch > q.intervalMs := by
  have hcast : (q.lastFetch.micros : ℚ) + 1000000 ≤ now.micros := by exact_mod_cast hlater
  have hi' : (i : ℚ) < 10 := by exact_mod_cast hi
  unfold Timeval.micros at hcast
  unfold Timeval.msSince
  rw [hinterval, Schedule.intervalMs]
  push_cast at *
  split <;> linarith

theorem readToBeSent_of_reachable (h : machine.Reachable s)
    : ∀ {i : Nat} {q : Queue}, s.queues[i]? = some q → ∀ msg ∈ q.msgQueue, msg.readToBeSent = true := by
  apply Machine.Reachable.invariant _ _ h
  . rintro s ⟨name, now, rfl⟩ i q hq
    rw [State.init_queue hq]
    simp [Queue.new]
  . intro s label s' hreach hs hstep i q' hq'
    rcases queueStep_of_step (sized_of_reachable hreach) hstep hq' with ⟨q, hq, hqstep⟩
    have hready := @hs i q hq
    cases hqstep with
    | push =>
      rw [List.forall_mem_append, List.forall_mem_singleton]
      exact ⟨hready, rfl⟩
    | fetch =>
      rw [Queue.fetchMsg_msgQueue]
      exact hready
    | clean =>
      intro msg hmsg
      apply hready msg (List.mem_of_mem_filter hmsg)
    | touch _ hsame =>
      intro msg' hmsg'
      rcases same_mem hsame msg' hmsg' with ⟨msg, hmsg, hm⟩
      exact hm.readToBeSent (hready msg hmsg)

theorem fetches_later (hreach : machine.Reachable s) (hlater : Later s now)
    (hi : i < Schedule.queueNum) (hunsent : UnsentIn s i addr) (hrun : s.run = .poll i)
    (hbranch : Branch s (.run now) s') (k : Nat) : s'.run ≠ .poll k := by
  rcases hunsent with ⟨q, hq, hmem⟩
  have hwaiting := isWaiting_of_unsent (owned_of_reachable hreach) (by simp [hrun]) hq hmem
  have helapsed := elapsed_of_later (hlater q (List.mem_of_getElem? hq))
    (intervalMs_of_reachable hreach hq) hi
  cases hbranch with
  | nextQueue hrun' _ hq' hfetch =>
    rw [hrun, RunPc.poll.injEq] at hrun'
    subst hrun'
    rw [hq, Option.some_inj] at hq'
    subst hq'
    unfold Queue.fetchMsg at hfetch
    rw [if_pos helapsed] at hfetch
    unfold Queue.isWaiting at hwaiting
    rw [List.any_eq_true] at hwaiting
    rcases hwaiting with ⟨msg, hmsg, hnew⟩
    rw [Queue.fetchMsg.inProcess_of_go_none hfetch msg hmsg
      (readToBeSent_of_reachable hreach hq msg hmsg)] at hnew
    contradiction
  | toPoll hrun' =>
    rw [hrun] at hrun'
    contradiction
  | _ => simp

end Run

theorem exists_unsentIn {s : State} (hreach : machine.Reachable s) {addr : Nat}
    (hput : addr ∈ s.pushed) (hwait : addr ∉ s.sentAddrs)
    : ∃ i < Schedule.queueNum, UnsentIn s i addr := by
  rcases exists_unsent (owned_of_reachable hreach) hput hwait with ⟨i, q, hq, hmem⟩
  refine ⟨i, ?_, q, hq, hmem⟩
  rw [← (sized_of_reachable hreach).queues]
  exact (List.getElem?_eq_some_iff.mp hq).1

theorem UnsentIn.of_step {s s' : State} {label : Label} {i addr : Nat} (h : UnsentIn s i addr)
    (hreach : machine.Reachable s) (hstep : step s label = some s') (hsent : s'.sent = s.sent)
    : UnsentIn s' i addr := by
  rcases h with ⟨q, hq, hmem⟩
  rcases exists_queue_of_step (sized_of_reachable hreach) hstep hq with ⟨q', hq', hqstep⟩
  have hsentAddrs : s'.sentAddrs = s.sentAddrs := by
    unfold State.sentAddrs
    rw [hsent]
  refine ⟨q', hq', ?_⟩
  apply (unsent_prefix_of_queueStep (owned_of_reachable hreach) hsentAddrs hq hqstep).subset hmem

theorem unsent_congr {s s' : State} (hsent : s'.sent = s.sent) {addr : Nat}
    (hwait : addr ∉ s.sentAddrs) : addr ∉ s'.sentAddrs := by
  unfold State.sentAddrs at *
  rw [hsent]
  exact hwait

-- The thread of `run` is never held up.
theorem exists_own {s : State} (hreach : machine.Reachable s) (now : Timeval)
    : (∃ s', stepRun s now = some s')
        ∨ ∃ labels t, machine.Path Own s labels t ∧ s.sent.length < t.sent.length := by
  rcases run_enabled hreach now with hstep | ⟨a, msg, hrun, hfind, s', hstep⟩
  . exact .inl hstep
  . refine .inr ⟨[.writev (some msg.len)], s', .cons rfl hstep .nil, ?_⟩
    cases branch_of_stepWritev hstep with
    | write => simp

theorem exists_start {s : State} (hreach : machine.Reachable s)
    : ∃ labels t, machine.Path Own s labels t
        ∧ (t.run = .start ∧ t.sent = s.sent ∨ s.sent.length < t.sent.length) := by
  have hI : machine.Reachable s ∧ s.sent = s.sent := ⟨hreach, rfl⟩
  refine Machine.exists_path (I := fun t => machine.Reachable t ∧ t.sent = s.sent)
    (r := fun t => distance t.run) ?_ hI
  rintro t ⟨ht, hsent⟩
  rcases exists_own ht ⟨0, 0⟩ with ⟨t', hstep⟩ | ⟨labels, u, hpath, hlt⟩
  . have hstep' : machine.step t (.run ⟨0, 0⟩) = some t' := hstep
    have hsent' := (stepRun_frame hstep).2.2
    refine ⟨_, t', .cons (own_run t _) hstep' .nil, ?_⟩
    rcases distance_of_run (branch_of_stepRun hstep) with hstart | hlt
    . exact .inl (.inl ⟨hstart, hsent'.trans hsent⟩)
    . exact .inr ⟨⟨.step ht trivial hstep', hsent'.trans hsent⟩, hlt⟩
  . rw [hsent] at hlt
    exact ⟨labels, u, hpath, .inl (.inr hlt)⟩

/--
What sees to it that the inner loop finds a credit, until the next message is written.
-/
structure Funded (M : State → Prop) : Prop where
  keeps : ∀ {i s s' now}, machine.Reachable s → M s → i < Schedule.queueNum → Before i s.run
    → Branch s (.run now) s' → M s'
  hasCredit : ∀ {s now}, machine.Reachable s → M s → hasCredit s (.run now)

/--
As long as there is a credit, `run` gets to the next message by itself.
-/
theorem Funded.exists_write {M : State → Prop} (hM : Funded M) {s : State}
    (hreach : machine.Reachable s) (hm : M s) {i addr : Nat} (hi : i < Schedule.queueNum)
    (hbefore : Before i s.run) (hunsent : UnsentIn s i addr)
    : ∃ labels t, machine.Path Own s labels t ∧ s.sent.length < t.sent.length := by
  let I (t : State) : Prop :=
    machine.Reachable t ∧ M t ∧ Before i t.run ∧ UnsentIn t i addr ∧ t.sent = s.sent
  have hI : I s := ⟨hreach, hm, hbefore, hunsent, rfl⟩
  refine Machine.exists_path (I := I) (r := fun t => distance t.run) ?_ hI
  rintro t ⟨ht, hm, hbefore, hunsent, hsent⟩
  rcases exists_later t with ⟨now, hlater⟩
  rcases exists_own ht now with ⟨t', hstep⟩ | ⟨labels, u, hpath, hlt⟩
  . have hstep' : machine.step t (.run now) = some t' := hstep
    have hbranch := branch_of_stepRun hstep
    have hsent' := (stepRun_frame hstep).2.2
    have hpoll : t.run = .poll i → ∀ k, t'.run ≠ .poll k := fun hrun =>
      fetches_later ht hlater hi hunsent hrun hbranch
    rcases hbefore.of_run hi (hM.hasCredit ht hm) hpoll hbranch with ⟨hbefore', hlt⟩
    refine ⟨_, t', .cons (own_run t now) hstep' .nil, .inr ⟨⟨?_, ?_, hbefore', ?_, ?_⟩, hlt⟩⟩
    . exact .step ht trivial hstep'
    . exact hM.keeps ht hm hi hbefore hbranch
    . exact @UnsentIn.of_step t t' (.run now) i addr hunsent ht hstep' hsent'
    . exact hsent'.trans hsent
  . rw [hsent] at hlt
    exact ⟨labels, u, hpath, .inl hlt⟩

theorem Funded.exists_write_of_start {M : State → Prop} (hM : Funded M) {s : State}
    (hreach : machine.Reachable s) (hm : M s) (hrun : s.run = .start) {addr : Nat}
    (hput : addr ∈ s.pushed) (hwait : addr ∉ s.sentAddrs)
    : ∃ labels t, machine.Path Own s labels t ∧ s.sent.length < t.sent.length := by
  rcases exists_unsentIn hreach hput hwait with ⟨i, hi, hunsent⟩
  have hbefore : Before i s.run := by
    rw [hrun]
    trivial
  exact hM.exists_write hreach hm hi hbefore hunsent

end Scheduler
end OfpProxy
