import OfpProxy.Scheduler.Stored
import OfpProxy.Scheduler.Stream

/-!
This module contains what holds of the messages and of the bookkeeping of the scheduler in every
state, whatever the name of the schedule is at the time.
-/

namespace OfpProxy
namespace Scheduler

theorem forall_stored_iff {P : OFPMsg → Prop} (s : State)
    : (∀ (i : Nat) xs, (stored s)[i]? = some xs → ∀ msg ∈ xs, P msg)
        ↔ ∀ msg ∈ s.messages, P msg.asPut := by
  unfold stored State.messages messagesOf
  constructor
  . intro h msg hmsg
    rw [List.mem_flatMap] at hmsg
    rcases hmsg with ⟨q, hq, hmem⟩
    rcases List.getElem?_of_mem hq with ⟨i, hi⟩
    apply h i q.stored _ _ (List.mem_map_of_mem hmem)
    rw [List.getElem?_map, hi, Option.map_some]
  . intro h i xs hxs msg hmsg
    rw [List.getElem?_map, Option.map_eq_some_iff] at hxs
    rcases hxs with ⟨q, hq, rfl⟩
    rcases List.mem_map.mp hmsg with ⟨m, hm, rfl⟩
    apply h m
    rw [List.mem_flatMap]
    exact ⟨q, List.mem_of_getElem? hq, hm⟩

/--
What holds of every message when it is put holds of it in the queues and of what is written.
-/
theorem forall_messages_of_step {P : OFPMsg → Prop} {s s' : State} {label : Label} (hs : Sized s)
    (hstep : step s label = some s')
    (hpush : ∀ arg mem fd garbage, label = .putMsg arg mem fd garbage
      → P (Schedule.newOFPMsg mem arg fd s.next garbage))
    (hmsgs : ∀ msg ∈ s.messages, P msg.asPut) (hsent : ∀ w ∈ s.sent, P w.msg.asPut)
    : (∀ msg ∈ s'.messages, P msg.asPut) ∧ ∀ w ∈ s'.sent, P w.msg.asPut := by
  have hbranch := branch_of_step hstep
  constructor
  . rw [← forall_stored_iff] at *
    apply (storeStep_of_branch hs hbranch).forall hmsgs
    intro arg mem fd garbage qid hlabel _
    apply hpush arg mem fd garbage hlabel
  . cases hbranch with
    | write hrun hfind _ =>
      rw [List.forall_mem_append, List.forall_mem_singleton]
      exact ⟨hsent, hmsgs _ (List.mem_of_find?_eq_some hfind)⟩
    | _ => exact hsent

structure Kept (s : State) : Prop where
  sized : Sized s
  owned : Owned s
  filled : Filled s
  pushed : s.pushed = List.range s.next

namespace Kept

theorem init (name : String) (now : Nat → Timeval) : Kept (.init name now) where
  sized := sized_of_reachable (.init ⟨name, now, rfl⟩)
  owned := .init name now
  filled := filled_of_reachable (.init ⟨name, now, rfl⟩)
  pushed := rfl

theorem renamed {s : State} (h : Kept s) (name : String) : Kept { s with name := name } where
  sized := ⟨h.sized.queues, h.sized.size⟩
  owned := by
    have howned := h.owned
    exact ⟨howned.nodup, howned.fresh, howned.perm, howned.sentNodup, howned.sentPushed,
      howned.cleanedSent, howned.started, howned.finished, howned.held⟩
  filled := ⟨h.filled.messages, h.filled.sent⟩
  pushed := h.pushed

theorem step {s s' : State} {label : Label} (h : Kept s) (hstep : step s label = some s') : Kept s' := by
  have hbranch := branch_of_step hstep
  have heffect := effect_of_branch h.sized hbranch
  refine ⟨h.sized.of_branch hbranch, h.owned.of_effect heffect, h.filled.of_effect heffect, ?_⟩
  cases heffect with
  | push =>
    dsimp only
    rw [h.pushed, ← List.range_succ]
  | _ => exact h.pushed

end Kept

theorem putMsg_frame {s s' : State} {arg : OFPMsgArg} {mem : Mem} {fd : Int} {garbage : Nat}
    (h : stepPutMsg s arg mem fd garbage = some s') : s'.next = s.next + 1 ∧ s'.sent = s.sent := by
  cases branch_of_stepPutMsg h
  exact ⟨rfl, rfl⟩

theorem next_of_step {s s' : State} {label : Label} (h : step s label = some s')
    (hlabel : ∀ arg mem fd garbage, label ≠ .putMsg arg mem fd garbage) : s'.next = s.next := by
  cases branch_of_step h with
  | push => exact absurd rfl (hlabel _ _ _ _)
  | _ => rfl

end Scheduler
end OfpProxy
