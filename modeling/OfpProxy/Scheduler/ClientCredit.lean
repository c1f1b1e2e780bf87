import OfpProxy.Scheduler.Stored

/-!
This module shows what becomes of the credits of the switch-to-controller direction, where cleaned
messages give a credit back but written ones take none.
-/

namespace OfpProxy
namespace Scheduler

-- what the cleaning pass has counted so far
def counted : RunPc → Int
  | .clean _ cleanNum => cleanNum
  | _ => 0

section Step

variable {s s' : State} {label : Label}

theorem counted_of_branch (hs : Sized s) (hsw : s.isSWToControl = true) (h : Branch s label s')
    (hcredit : i32 (s.maxInProcess + counted s.run) = i32 (12 + s.cleaned.length))
    : i32 (s'.maxInProcess + counted s'.run) = i32 (12 + s'.cleaned.length) := by
  cases h with
  | @clean now i cleanNum q res hrun hi hq hres =>
    rw [hs.clean_eq hq hres]
    rw [hrun] at hcredit
    simp only [counted, List.length_append, List.length_map, Int.natCast_add] at *
    rw [add_count, add_i32, ← Int.add_assoc, ← i32_add, hcredit, i32_add, Int.add_assoc]
  | cleanEnd hrun hi =>
    rw [hrun] at hcredit
    simp only [counted, Int.add_zero] at *
    rw [i32_i32, hcredit]
  | takeCredit hrun hdir =>
    rw [hsw] at hdir
    simp at hdir
  | toClean hrun | noClean hrun | toPoll hrun | noCredit hrun | nextQueue hrun | fetch hrun
  | noMessage hrun | mark hrun | write hrun | finish hrun | needTime hrun | noSchedule hrun =>
    rw [hrun] at hcredit
    exact hcredit
  | push | insertPos | readToBeSent | markFinished => exact hcredit

theorem full_of_branch (hs : Sized s) (hsw : s.isSWToControl = true) (h : Branch s label s')
    (hok : cleansNothing s label = true) (hfull : s.maxInProcess = 12 ∧ counted s.run = 0)
    : s'.maxInProcess = 12 ∧ counted s'.run = 0 := by
  rcases hfull with ⟨hmax, hcount⟩
  cases h with
  | @clean now i cleanNum q res hrun hi hq hres =>
    rw [hs.clean_eq hq hres]
    rw [hrun] at hcount
    have hnone : q.msgQueue.filter OFPMsg.isDone = [] := by
      rw [List.filter_eq_nil_iff]
      intro msg hmsg
      rw [not_isDone_of_cleansNothing hok hrun hq msg hmsg]
      simp
    simp only [counted, hnone, List.length_nil] at *
    refine ⟨hmax, ?_⟩
    rw [hcount]
    rfl
  | cleanEnd hrun hi =>
    rw [hrun] at hcount
    simp only [counted] at *
    rw [hmax, hcount]
    exact ⟨rfl, trivial⟩
  | takeCredit hrun hdir =>
    rw [hsw] at hdir
    simp at hdir
  | push | insertPos | readToBeSent | markFinished => exact ⟨hmax, hcount⟩
  | _ => exact ⟨hmax, rfl⟩

end Step

theorem isSWToControl_of_client {s : State} (h : s.name = "CLIENT") : s.isSWToControl = true := by
  rw [State.isSWToControl, h]
  rfl

theorem counted_of_reachable {s : State} (h : machine.Reachable s) (hname : s.name = "CLIENT")
    : i32 (s.maxInProcess + counted s.run) = i32 (12 + s.cleaned.length) := by
  revert hname
  apply Machine.Reachable.invariant _ _ h
  . rintro s ⟨name, now, rfl⟩ _
    rfl
  . intro s label s' hreach hs hstep hname
    have hbranch := branch_of_step hstep
    rw [hbranch.name_eq] at hname
    apply counted_of_branch (sized_of_reachable hreach) (isSWToControl_of_client hname) hbranch
      (hs hname)

theorem i32_maxInProcess {s : State} (h : machine.Reachable s) : i32 s.maxInProcess = s.maxInProcess := by
  apply Machine.Reachable.invariant _ _ h
  . rintro s ⟨name, now, rfl⟩
    rfl
  . intro s label s' hreach hs hstep
    cases branch_of_step hstep with
    | cleanEnd | takeCredit => exact i32_i32 _
    | _ => exact hs

theorem maxInProcess_eq {s : State} (h : machine.Reachable s) (hname : s.name = "CLIENT")
    (hrun : ∀ i cleanNum, s.run ≠ .clean i cleanNum)
    : s.maxInProcess = i32 (12 + s.cleaned.length) := by
  have hcounted : counted s.run = 0 := by
    unfold counted
    split
    . next hclean => exact absurd hclean (hrun _ _)
    . rfl
  have hcredit := counted_of_reachable h hname
  rw [hcounted, Int.add_zero, i32_maxInProcess h] at hcredit
  exact hcredit

theorem i32_between_iff (x : Int) : (0 ≤ i32 x ∧ i32 x ≤ 12) ↔ x % 4294967296 ≤ 12 := by
  unfold i32 Int.bmod
  dsimp only
  split <;> omega

theorem full_of_reachableBy {s : State}
    (h : machine.ReachableBy (fun s label => cleansNothing s label = true) s) (hname : s.name = "CLIENT")
    : s.maxInProcess = 12 ∧ counted s.run = 0 := by
  revert hname
  apply Machine.ReachableBy.invariant _ _ h
  . rintro s ⟨name, now, rfl⟩ _
    exact ⟨rfl, rfl⟩
  . intro s label s' hreach hs hok hstep hname
    have hbranch := branch_of_step hstep
    rw [hbranch.name_eq] at hname
    apply full_of_branch (sized_of_reachable hreach.reachable) (isSWToControl_of_client hname) hbranch
      hok (hs hname)

/--
As long as nothing is cleaned, the switch-to-controller direction keeps its twelve credits. In any
run it has one more for each message that was cleaned, and is in bounds again only after 2^32 - 12
of them.
-/
theorem clientCredit_bounded {s : State} (hname : s.name = "CLIENT")
    : (machine.ReachableBy (fun s label => cleansNothing s label = true) s
          → 0 ≤ s.maxInProcess ∧ s.maxInProcess ≤ 12)
        ∧ (machine.Reachable s → (∀ i cleanNum, s.run ≠ .clean i cleanNum)
          → s.maxInProcess = i32 (12 + s.cleaned.length)
              ∧ ((0 ≤ s.maxInProcess ∧ s.maxInProcess ≤ 12)
                ↔ (12 + s.cleaned.length : Int) % 4294967296 ≤ 12)) := by
  constructor
  . intro h
    have hmax := (full_of_reachableBy h hname).1
    omega
  . intro h hrun
    have hmax := maxInProcess_eq h hname hrun
    refine ⟨hmax, ?_⟩
    rw [hmax]
    apply i32_between_iff

theorem clientCredit_bounded_oneRequest
    : ∃ s, machine.Reachable s ∧ s.sent.length = 1 ∧ 0 ≤ s.maxInProcess ∧ s.maxInProcess ≤ 12 := by
  have hrun := @Machine.exists_of_replay _ _ machine cleansNothing
    (echoRequest 1 ++ ticks 15 ++ [.writev (some 8)] ++ ticks 2)
    (.init "CLIENT" fun _ => ⟨0, 0⟩) (fun s => decide (s.name = "CLIENT" ∧ s.sent.length = 1))
    (.init ⟨"CLIENT", _, rfl⟩) (by decide +kernel)
  rcases hrun with ⟨s, hreach, hs⟩
  rw [decide_eq_true_eq] at hs
  have hbound := (clientCredit_bounded hs.1).1 hreach
  exact ⟨s, hreach.reachable, hs.2, hbound.1, hbound.2⟩

-- The cleaning pass returns the credit of the request, which was never taken.
theorem clientCredit_unbounded
    : ∃ s, machine.Reachable s ∧ s.name = "CLIENT" ∧ s.maxInProcess = 13 := by
  have hrun := @exists_of_replay "CLIENT"
    (echoRequest 1 ++ ticks 15 ++ [.writev (some 8)] ++ ticks 14)
    (fun s => decide (s.name = "CLIENT" ∧ s.maxInProcess = 13)) (by decide +kernel)
  rcases hrun with ⟨s, hreach, hs⟩
  rw [decide_eq_true_eq] at hs
  exact ⟨s, hreach, hs⟩

end Scheduler
end OfpProxy
