import OfpProxy.Scheduler.Ownership

/-!
This module shows that the controller-to-switch direction neither gains nor loses a credit, and
therefore never has more than twelve messages under way.
-/

namespace OfpProxy
namespace Scheduler

theorem i32_eq {x : Int} (h1 : -2147483648 ≤ x) (h2 : x < 2147483648) : i32 x = x := by
  unfold i32
  apply Int.bmod_eq_of_le <;> omega

/--
What the credits that are left add up to, wherever `run` is. A message that was written takes its
credit only at the end of the inner loop.
-/
def Credit (s : State) : Prop :=
  match s.run with
  | .start | .loop => s.maxInProcess + s.sent.length = 12 + s.cleaned.length ∧ 0 ≤ s.maxInProcess
  | .clean _ cleanNum =>
    s.maxInProcess + cleanNum + s.sent.length = 12 + s.cleaned.length ∧ 0 ≤ s.maxInProcess
      ∧ 0 ≤ cleanNum
  | .poll _ | .fetched _ | .marked _ =>
    s.maxInProcess + s.sent.length = 12 + s.cleaned.length ∧ 0 < s.maxInProcess
  | .written _ | .sent =>
    s.maxInProcess + s.sent.length = 13 + s.cleaned.length ∧ 0 < s.maxInProcess

theorem Owned.cleaned_le {s : State} (h : Owned s) : s.cleaned.length ≤ s.sent.length := by
  have hnodup := h.perm.nodup_iff.mpr h.nodup
  have hle := (List.subperm_of_subset hnodup.of_append_right h.cleanedSent).length_le
  unfold State.sentAddrs at hle
  rw [List.length_map] at hle
  exact hle

namespace Credit

theorem of_move {s : State} {queues : List Queue} {run : RunPc} {maxInProcess : Int} (h : Credit s)
    (hle : s.cleaned.length ≤ s.sent.length) (hdir : s.isSWToControl = false)
    (hmove : Move s run maxInProcess)
    : Credit { s with queues := queues, run := run, maxInProcess := maxInProcess } := by
  unfold Credit at *
  cases hmove with
  | toClean hrun _ | noClean hrun _ | toPoll hrun hcredit | noMessage hrun _ =>
    rw [hrun] at h
    dsimp only at *
    omega
  | cleanEnd hrun _ | takeCredit hrun _ =>
    rw [hrun] at h
    dsimp only at *
    rw [i32_eq (by omega) (by omega)]
    omega
  | noCredit hrun _ | nextQueue hrun _ | fetch hrun _ _ =>
    rw [hrun] at h
    exact h
  | noSchedule _ hsw =>
    rw [hdir] at hsw
    simp at hsw

theorem of_effect {s s' : State} {label : Label} (h : Credit s) (hle : s.cleaned.length ≤ s.sent.length)
    (hle' : s'.cleaned.length ≤ s'.sent.length) (hdir : s.isSWToControl = false)
    (heffect : Effect s label s') : Credit s' := by
  cases heffect with
  | push | touch => exact h
  | move _ hmove => exact h.of_move hle hdir hmove
  | clean hrun _ _ =>
    unfold Credit at *
    rw [hrun] at h
    dsimp only at *
    rw [List.length_append, List.length_map] at *
    rw [i32_eq (by omega) (by omega)]
    omega
  | mark hrun _ | finish hrun _ =>
    unfold Credit at *
    rw [hrun] at h
    exact h
  | write hrun _ _ =>
    unfold Credit at *
    rw [hrun] at h
    dsimp only at *
    rw [List.length_append, List.length_singleton]
    omega

end Credit

theorem credit_of_reachable {s : State} (h : machine.Reachable s) (hname : s.name = "SERVER")
    : Credit s := by
  have hinv : s.name = "SERVER" → Credit s := by
    apply Machine.Reachable.invariant _ _ h
    . rintro s ⟨name, now, rfl⟩ _
      apply And.intro rfl
      simp [State.init]
    . intro s label s' hreach hs hstep hname'
      have heffect := effect_of_step hreach hstep
      have howned := owned_of_reachable hreach
      rw [(branch_of_step hstep).name_eq] at hname'
      apply (hs hname').of_effect howned.cleaned_le (howned.of_effect heffect).cleaned_le _ heffect
      simp [State.isSWToControl, hname']
  apply hinv hname

theorem Owned.inProcess_count {s : State} (h : Owned s) (hrun : ∀ addr, s.run ≠ .marked addr)
    : (s.messages.filter OFPMsg.inProcess).length + s.cleaned.length = s.sent.length := by
  have hnodup := h.perm.nodup_iff.mpr h.nodup
  have hperm : ((s.messages.filter OFPMsg.inProcess).map OFPMsg.addr ++ s.cleaned).Perm s.sentAddrs := by
    rw [List.perm_ext_iff_of_nodup _ h.sentNodup]
    . intro addr
      rw [List.mem_append]
      constructor
      . rintro (hin | hcleaned)
        . rcases List.mem_map.mp hin with ⟨m, hm, rfl⟩
          rw [List.mem_filter] at hm
          have hsent := (h.started m hm.1).mp hm.2
          simpa only [hrun m.addr, or_false] using hsent
        . apply h.cleanedSent addr hcleaned
      . intro hsent
        have hmem := h.perm.symm.subset (h.sentPushed addr hsent)
        rw [List.mem_append] at hmem
        cases hmem with
        | inr hcleaned => exact .inr hcleaned
        | inl hin =>
          rcases List.mem_map.mp hin with ⟨m, hm, rfl⟩
          apply Or.inl
          apply List.mem_map_of_mem
          rw [List.mem_filter]
          exact ⟨hm, (h.started m hm).mpr (.inl hsent)⟩
    . apply List.Nodup.sublist _ hnodup
      apply List.Sublist.append_right
      apply List.filter_sublist.map OFPMsg.addr
  have hlen := hperm.length_eq
  unfold State.sentAddrs at hlen
  rw [List.length_append, List.length_map, List.length_map] at hlen
  exact hlen

theorem Owned.uncleaned_count {s : State} (h : Owned s)
    : (s.sentAddrs.filter fun addr => addr ∉ s.cleaned).length + s.cleaned.length = s.sent.length := by
  have hnodup := h.perm.nodup_iff.mpr h.nodup
  have hperm : (s.sentAddrs.filter fun addr => addr ∈ s.cleaned).Perm s.cleaned := by
    rw [List.perm_ext_iff_of_nodup (h.sentNodup.filter _) hnodup.of_append_right]
    intro addr
    rw [List.mem_filter, decide_eq_true_eq]
    exact ⟨fun hmem => hmem.2, fun hcleaned => ⟨h.cleanedSent addr hcleaned, hcleaned⟩⟩
  have hsplit := (List.filter_append_perm (fun addr => addr ∈ s.cleaned) s.sentAddrs).length_eq
  have hlen : s.sentAddrs.length = s.sent.length := List.length_map _
  rw [List.length_append, hperm.length_eq, hlen] at hsplit
  simp only [decide_not]
  omega

theorem countP_isDone_le {queues : List Queue} {q : Queue} (hq : q ∈ queues)
    : q.msgQueue.countP OFPMsg.isDone ≤ ((messagesOf queues).filter OFPMsg.inProcess).length := by
  have hsub : q.msgQueue.Sublist (messagesOf queues) := by
    unfold messagesOf
    rw [List.flatMap_def]
    apply List.sublist_flatten_of_mem
    exact List.mem_map_of_mem hq
  calc q.msgQueue.countP OFPMsg.isDone
    _ ≤ q.msgQueue.countP OFPMsg.inProcess := by
      apply List.countP_mono_left
      intro msg _ hdone
      simp only [OFPMsg.isDone, Bool.and_eq_true] at hdone
      exact hdone.1
    _ ≤ (messagesOf queues).countP OFPMsg.inProcess := hsub.countP_le
    _ = ((messagesOf queues).filter OFPMsg.inProcess).length := List.countP_eq_length_filter

/--
What a call of `cleanFinishMsg` removes in the controller-to-switch direction is among the messages
under way, so that its result is their number.
-/
theorem count_of_credit {s : State} (h : machine.Reachable s) (hname : s.name = "SERVER") {i : Nat}
    {cleanNum : Int} (hrun : s.run = .clean i cleanNum) {q : Queue} (hq : q ∈ s.queues)
    : q.msgQueue.countP OFPMsg.isDone ≤ 12
        ∧ ∃ res, q.cleanFinishMsg = some res ∧ res.count = q.msgQueue.countP OFPMsg.isDone := by
  have hle : q.msgQueue.countP OFPMsg.isDone ≤ 12 := by
    have hdone : _ ≤ (s.messages.filter OFPMsg.inProcess).length := countP_isDone_le hq
    have hcount := (owned_of_reachable h).inProcess_count (by simp [hrun])
    have hcredit := credit_of_reachable h hname
    unfold Credit at hcredit
    rw [hrun] at hcredit
    dsimp only at hcredit
    omega
  refine ⟨hle, _, Queue.cleanFinishMsg_eq ((sized_of_reachable h).size q hq), ?_⟩
  dsimp only
  rw [← List.countP_eq_length_filter, Queue.cleanFinishMsg.i32_natCast_iff]
  omega

/--
Credits are conserved in the controller-to-switch direction.
-/
theorem credit_conserved {s : State} (h : machine.Reachable s) (hname : s.name = "SERVER")
    : (s.run = .start
          → s.maxInProcess + (s.messages.filter OFPMsg.inProcess).length = 12 ∧ 0 ≤ s.maxInProcess)
        ∧ (s.sentAddrs.filter fun addr => addr ∉ s.cleaned).length ≤ 12 := by
  have hcredit := credit_of_reachable h hname
  have howned := owned_of_reachable h
  have huncleaned := howned.uncleaned_count
  unfold Credit at hcredit
  constructor
  . intro hrun
    have hcount := howned.inProcess_count (by simp [hrun])
    rw [hrun] at hcredit
    dsimp only at hcredit
    omega
  . split at hcredit <;> omega

theorem credit_conserved_twoRequests
    : ∃ s, machine.Reachable s ∧ s.name = "SERVER" ∧ s.run = .start
        ∧ s.maxInProcess + (s.messages.filter OFPMsg.inProcess).length = 12 ∧ 0 ≤ s.maxInProcess
        ∧ (s.sentAddrs.filter fun addr => addr ∉ s.cleaned).length ≤ 12 := by
  have hrun := @exists_of_replay "SERVER"
    (echoRequest 1 ++ echoRequest 2 ++ ticks 4 ++ [.writev (some 8)] ++ ticks 5 ++ [.writev (some 8)]
      ++ ticks 14)
    (fun s => decide (s.name = "SERVER" ∧ s.run = .start)) (by decide +kernel)
  rcases hrun with ⟨s, hreach, hs⟩
  rw [decide_eq_true_eq] at hs
  have hcredit := credit_conserved hreach hs.1
  exact ⟨s, hreach, hs.1, hs.2, (hcredit.1 hs.2).1, (hcredit.1 hs.2).2, hcredit.2⟩

end Scheduler
end OfpProxy
