import OfpProxy.Marking.Basic
import OfpProxy.Queue.Lemmas

/-!
This module shows which message a call of `markFinished` sets finished.
-/

namespace OfpProxy
namespace OFPMsg

-- sent, and waiting for an acknowledgement that carries `identify`
def isOutstanding (identify : Nat) (msg : OFPMsg) : Bool :=
  msg.inProcess ∧ !msg.finished ∧ msg.identity = identify

def finish (msg : OFPMsg) : OFPMsg := { msg with finished := true }

theorem isOutstanding_iff (identify : Nat) (msg : OFPMsg)
    : (msg.inProcess = true ∧ (!msg.finished) = true ∧ msg.identity = identify)
        ↔ msg.isOutstanding identify = true := by
  simp [isOutstanding]

theorem isOutstanding_finish (identify : Nat) (msg : OFPMsg)
    : msg.finish.isOutstanding identify = false := by
  simp [isOutstanding, finish]

theorem isDone_of_isOutstanding {identify : Nat} {msg : OFPMsg}
    (h : msg.isOutstanding identify = true) : msg.isDone = false ∧ msg.finish.isDone = true := by
  simp only [isOutstanding, decide_eq_true_eq, Bool.not_eq_true'] at h
  simp [isDone, finish, h]

end OFPMsg

section MarkFirst

variable {identify : Nat} {msgs : List OFPMsg}

-- The search of markFinished ends at the first outstanding message.
theorem mark_of_find {msg : OFPMsg} (h : msgs.find? (OFPMsg.isOutstanding identify) = some msg)
    : msg.isOutstanding identify = true
        ∧ ∃ before after, msgs = before ++ msg :: after
            ∧ Marking.markFirst (OFPMsg.isOutstanding identify) OFPMsg.finish 1 msgs
              = before ++ msg.finish :: after := by
  rw [List.find?_eq_some_iff_append] at h
  rcases h with ⟨hmsg, before, after, rfl, hbefore⟩
  refine ⟨hmsg, before, after, rfl, ?_⟩
  apply Marking.markFirst_one_of_first _ hmsg
  simpa using hbefore

theorem mark_of_find_none (h : msgs.find? (OFPMsg.isOutstanding identify) = none)
    : Marking.markFirst (OFPMsg.isOutstanding identify) OFPMsg.finish 1 msgs = msgs := by
  rw [List.find?_eq_none] at h
  apply Marking.markFirst_of_none
  simpa using h

theorem mem_markFirst {msg : OFPMsg}
    (h : msg ∈ Marking.markFirst (OFPMsg.isOutstanding identify) OFPMsg.finish 1 msgs)
    : msg ∈ msgs
        ∨ ∃ found, msgs.find? (OFPMsg.isOutstanding identify) = some found ∧ msg = found.finish := by
  cases hfind : msgs.find? (OFPMsg.isOutstanding identify) with
  | none =>
    rw [mark_of_find_none hfind] at h
    exact .inl h
  | some found =>
    rcases mark_of_find hfind with ⟨-, before, after, rfl, hmark⟩
    rw [hmark, List.mem_append, List.mem_cons] at h
    rcases h with hbefore | rfl | hafter
    . exact .inl (List.mem_append_left _ hbefore)
    . exact .inr ⟨found, rfl, rfl⟩
    . exact .inl (List.mem_append_right _ (List.mem_cons_of_mem _ hafter))

end MarkFirst

namespace Queue

theorem markFinished.go_eq (identify : Nat) (msgs : List OFPMsg)
    : go identify msgs
        = (msgs.any (OFPMsg.isOutstanding identify),
            Marking.markFirst (OFPMsg.isOutstanding identify) OFPMsg.finish 1 msgs) := by
  induction msgs with
  | nil => rfl
  | cons msg msgs ih =>
    unfold go
    simp only [OFPMsg.isOutstanding_iff, ih]
    rw [List.any_cons, Marking.markFirst_cons, Marking.markFirst_zero]
    cases msg.isOutstanding identify with
    | true => rfl
    | false => rfl

theorem markFinished_eq (q : Queue) (identify : Nat)
    : q.markFinished identify
        = (q.msgQueue.any (OFPMsg.isOutstanding identify),
            { q with
                msgQueue :=
                  Marking.markFirst (OFPMsg.isOutstanding identify) OFPMsg.finish 1 q.msgQueue }) := by
  unfold markFinished
  rw [markFinished.go_eq]

end Queue
end OfpProxy
