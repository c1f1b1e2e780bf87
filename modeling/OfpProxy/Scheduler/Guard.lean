import OfpProxy.Scheduler.Step

/-!
This module is about the message that `putMessage` still works on after it has pushed it. The
constructor of `OFP_Msg` already sets `read_to_be_sent`, so `fetchMsg` does not wait for
`putMessage` to be done.
-/

namespace OfpProxy
namespace Scheduler

-- the message putMessage is going to access again
def State.inProgress (s : State) : Option Nat :=
  match s.put with
  | .idle => none
  | .pushed addr _ _ => some addr
  | .mapped addr => some addr

-- fetchMsg leaves the message of the unfinished putMessage alone
def guarded (s : State) : Label → Bool
  | .run now =>
    match s.run with
    | .poll i =>
      match s.queues[i]? with
      | none => true
      | some q =>
        match (q.fetchMsg now).1 with
        | none => true
        | some msg => s.inProgress ≠ some msg.addr
    | _ => true
  | _ => true

structure Unfetched (s : State) (addr : Nat) : Prop where
  unsent : addr ∉ s.sentAddrs
  notFetched : s.run ≠ .fetched addr
  notMarked : s.run ≠ .marked addr

namespace Unfetched

variable {s s' : State} {addr : Nat}

theorem same (h : Unfetched s addr) (hrun : s'.run = s.run) (hsent : s'.sent = s.sent)
    : Unfetched s' addr := by
  constructor
  . rw [State.sentAddrs, hsent]
    apply h.unsent
  . rw [hrun]
    apply h.notFetched
  . rw [hrun]
    apply h.notMarked

theorem of_notPushed (h : Owned s) (haddr : addr ∉ s.pushed) : Unfetched s addr := by
  have hheld := h.held
  constructor
  . intro hsent
    apply haddr (h.sentPushed addr hsent)
  . intro hrun
    rw [hrun] at hheld
    rcases hheld with ⟨msg, hmsg, rfl, -⟩
    apply haddr (h.mem_pushed hmsg)
  . intro hrun
    rw [hrun] at hheld
    apply haddr
    apply h.perm.subset (List.mem_append_left _ hheld.2)

theorem of_run {now : Timeval} (h : Unfetched s addr) (hput : s.inProgress = some addr)
    (hguarded : guarded s (.run now) = true) (hstep : stepRun s now = some s')
    : Unfetched s' addr := by
  constructor
  . rw [State.sentAddrs, (stepRun_frame hstep).2.2]
    apply h.unsent
  . intro hrun
    rcases run_of_fetched hstep hrun with ⟨i, q, msg, hpoll, hq, hfetch, haddr⟩
    simp [guarded, hpoll, hq, hfetch, hput, haddr] at hguarded
  . intro hrun
    apply h.notFetched (run_of_marked hstep hrun)

theorem of_writev {accepted : Option Nat} (h : Unfetched s addr)
    (hstep : stepWritev s accepted = some s') : Unfetched s' addr := by
  rcases stepWritev_eq hstep with ⟨marked, msg, hrun, hfind, rfl⟩
  have hmarked : msg.addr = marked := by simpa using List.find?_some hfind
  have hne := h.notMarked
  rw [hrun] at hne
  have hunsent := h.unsent
  unfold State.sentAddrs at hunsent
  constructor
  . unfold State.sentAddrs
    rw [List.map_append, List.mem_append, not_or]
    apply And.intro hunsent
    simpa [hmarked, eq_comm] using hne
  . simp
  . simp

end Unfetched

theorem inProgress_of_step {s s' : State} {label : Label} {addr : Nat} (hstep : step s label = some s')
    (hput : s'.inProgress = some addr) : s.inProgress = some addr ∨ addr = s.next := by
  cases branch_of_step hstep with
  | push => exact .inr (Eq.symm (Option.some.inj hput))
  | insertPos hpushed =>
    apply Or.inl
    rw [State.inProgress, hpushed]
    exact hput
  | readToBeSent => simp [State.inProgress] at hput
  | _ => exact .inl hput

theorem unfetched_of_step {s s' : State} {label : Label} (ho : Owned s)
    (h : ∀ addr, s.inProgress = some addr → Unfetched s addr) (hguarded : guarded s label = true)
    (hstep : step s label = some s') {addr : Nat} (hput : s'.inProgress = some addr)
    : Unfetched s' addr := by
  have hs : Unfetched s addr := by
    cases inProgress_of_step hstep hput with
    | inl hold => exact h addr hold
    | inr hnew =>
      apply Unfetched.of_notPushed ho
      intro hmem
      have := ho.fresh addr hmem
      omega
  cases label with
  | run now =>
    have hold : s.inProgress = some addr := by
      rw [State.inProgress, (stepRun_frame hstep).2.1] at hput
      exact hput
    apply hs.of_run hold hguarded hstep
  | writev accepted => apply hs.of_writev hstep
  | _ =>
    have hframe := step_other_frame (by simp) (by simp) hstep
    apply hs.same hframe.1 hframe.2

theorem unfetched_of_reachableBy {s : State} (h : machine.ReachableBy (fun s l => guarded s l = true) s)
    : ∀ addr, s.inProgress = some addr → Unfetched s addr := by
  apply Machine.ReachableBy.invariant _ _ h
  . rintro s ⟨name, now, rfl⟩ addr hput
    simp [State.init, State.inProgress] at hput
  . intro s label s' hreach hs hguarded hstep addr hput
    apply unfetched_of_step (owned_of_reachable hreach.reachable) hs hguarded hstep hput

/--
As long as `fetchMsg` leaves the message of an unfinished `putMessage` alone, `cleanFinishMsg` does
not delete it.
-/
theorem inProgress_not_cleaned {s : State}
    (h : machine.ReachableBy (fun s l => guarded s l = true) s) {addr : Nat}
    (hput : s.inProgress = some addr) : addr ∉ s.cleaned := by
  intro hcleaned
  apply (unfetched_of_reachableBy h addr hput).unsent
  apply (owned_of_reachable h.reachable).cleanedSent addr hcleaned

theorem inProgress_not_cleaned_secondRequest
    : ∃ s, machine.ReachableBy (fun s l => guarded s l = true) s ∧ s.cleaned = [0]
        ∧ s.inProgress = some 1 ∧ 1 ∉ s.cleaned := by
  have hinit : machine.init (.init "CLIENT" fun _ => ⟨0, 0⟩) := ⟨_, _, rfl⟩
  have hrun := @Machine.exists_of_replay _ _ machine guarded
    (echoRequest 1 ++ ticks 15 ++ [.writev (some 8)] ++ ticks 4 ++ (echoRequest 2).take 2) _
    (fun s => decide (s.cleaned = [0] ∧ s.inProgress = some 1)) (.init hinit) (by decide +kernel)
  rcases hrun with ⟨s, hreach, hs⟩
  rw [decide_eq_true_eq] at hs
  exact ⟨s, hreach, hs.1, hs.2, inProgress_not_cleaned hreach hs.2⟩

-- The request is pushed, written and deleted before putMessage reads its identity.
theorem inProgress_cleaned_oneRequest
    : ¬∀ s, machine.Reachable s → ∀ addr, s.inProgress = some addr → addr ∉ s.cleaned := by
  intro h
  have hrun := @exists_of_replay "CLIENT"
    ((echoRequest 1).take 1 ++ ticks 15 ++ [.writev (some 8)] ++ ticks 4)
    (fun s => decide (s.inProgress = some 0 ∧ 0 ∈ s.cleaned)) (by decide +kernel)
  rcases hrun with ⟨s, hreach, hs⟩
  rw [decide_eq_true_eq] at hs
  apply h s hreach 0 hs.1 hs.2

end Scheduler
end OfpProxy
