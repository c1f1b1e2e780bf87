import OfpProxy.Scheduler.Credit
import OfpProxy.Scheduler.Kept

/-!
This module shows that a message that needs an answer gives its credit back only for an answer: every
call of `markFinished` completes at most one of them, and nothing else does.
-/

namespace OfpProxy
namespace Scheduler

-- it stays in its queue until `markFinished` is called on it
def needsAnswer (msg : OFPMsg) : Bool := !Queue.msgNeedNoTime msg

-- an answer has come in
def isAnswered (msg : OFPMsg) : Bool := needsAnswer msg && msg.finished

/--
What the answers have completed so far, in the queues and among the cleaned messages. Of these only
the address is known, and `needs` tells which of them needed an answer.
-/
structure Charged (needs : Nat → Bool) (s : State) (answers : Nat) : Prop where
  messages : ∀ msg ∈ s.messages, needsAnswer msg.asPut = needs msg.asPut.addr
  sent : ∀ w ∈ s.sent, needsAnswer w.msg.asPut = needs w.msg.asPut.addr
  count : s.messages.countP isAnswered + s.cleaned.countP needs ≤ answers

-- how many messages the step completes
def hits (s : State) : Label → Nat
  | .markFinished qid identify =>
    if (s.queues[qid]?).any fun q => (q.markFinished identify).1 then 1 else 0
  | _ => 0

theorem hits_le_one (s : State) (label : Label) : hits s label ≤ 1 := by
  unfold hits
  split
  . split <;> omega
  . omega

theorem countP_update {s : State} {addr : Nat} {f : OFPMsg → OFPMsg} {p : OFPMsg → Bool}
    (h : ∀ msg ∈ s.messages, msg.addr = addr → p (f msg) = p msg)
    : (s.update addr f).messages.countP p = s.messages.countP p := by
  unfold State.messages
  rw [messages_update, List.countP_map]
  apply List.countP_congr
  intro msg hmsg
  rw [Function.comp_apply]
  split
  . next haddr => rw [h msg hmsg haddr]
  . rfl

theorem countP_markFinished {q : Queue} (identify : Nat)
    : (q.markFinished identify).2.msgQueue.countP isAnswered
        ≤ q.msgQueue.countP isAnswered + (if (q.markFinished identify).1 then 1 else 0) := by
  rw [q.markFinished_eq identify]
  dsimp only
  split
  . apply Marking.countP_markFirst_le
  . next hnone =>
    rw [Marking.markFirst_of_none]
    . apply Nat.le_refl
    . rw [Bool.not_eq_true, List.any_eq_false] at hnone
      simpa using hnone

section Step

variable {needs : Nat → Bool} {s s' : State} {label : Label} {answers : Nat}

theorem countP_messages_set {i : Nat} {q q' : Queue} (hq : s.queues[i]? = some q) (p : OFPMsg → Bool)
    : (messagesOf (s.queues.set i q')).countP p + q.msgQueue.countP p
        = s.messages.countP p + q'.msgQueue.countP p := by
  rcases messagesOf_set hq with ⟨before, after, hmsgs, hset⟩
  rw [hset, State.messages, hmsgs]
  simp only [List.countP_append]
  omega

-- What is cleaned out of a queue was answered if it needed an answer.
theorem Charged.countP_done (h : Charged needs s answers) {i : Nat} {q : Queue}
    (hq : s.queues[i]? = some q)
    : (q.msgQueue.filter OFPMsg.isDone).countP isAnswered
        = ((q.msgQueue.filter OFPMsg.isDone).map OFPMsg.addr).countP needs := by
  rw [List.countP_map]
  apply List.countP_congr
  intro msg hmsg
  rw [List.mem_filter] at hmsg
  have hneeds := h.messages msg (List.mem_flatMap.mpr ⟨q, List.mem_of_getElem? hq, hmsg.1⟩)
  change needsAnswer msg = needs msg.addr at hneeds
  have hfinished := hmsg.2
  simp only [OFPMsg.isDone, Bool.and_eq_true] at hfinished
  simp [isAnswered, hneeds, hfinished.2]

theorem answered_of_branch (h : Charged needs s answers) (hs : Sized s) (hbranch : Branch s label s')
    : s'.messages.countP isAnswered + s'.cleaned.countP needs
        ≤ s.messages.countP isAnswered + s.cleaned.countP needs + hits s label := by
  cases hbranch with
  | @push arg mem fd garbage qid q hput hqid hq hsize =>
    have hperm := messages_push hq (Schedule.newOFPMsg mem arg fd s.next garbage)
    unfold State.messages at *
    rw [hperm.countP_eq, List.countP_cons]
    simp [isAnswered, Schedule.newOFPMsg]
  | @markFinished qid identify q hq =>
    have hset := @countP_messages_set s qid q (q.markFinished identify).2 hq isAnswered
    have hmarked := @countP_markFinished q identify
    unfold State.messages at *
    simp only [hits, hq, Option.any_some]
    omega
  | @clean now i cleanNum q res hclean hi hq hres =>
    rw [hs.clean_eq hq hres]
    have hcount := (messages_clean hq).countP_eq isAnswered
    have hdone := h.countP_done hq
    rw [List.countP_append, hdone] at hcount
    unfold State.messages at *
    dsimp only
    rw [List.countP_append]
    omega
  | @nextQueue now i q hrun hi hq | @fetch now i q msg hrun hi hq =>
    have hmsgs := messages_fetch hq now
    unfold State.messages at *
    dsimp only
    rw [hmsgs]
    apply Nat.le_add_right
  | @readToBeSent addr =>
    have hmsgs := @countP_update s addr (fun msg => { msg with readToBeSent := true }) isAnswered
    unfold State.messages at *
    dsimp only [State.update] at *
    rw [hmsgs fun _ _ _ => rfl]
    apply Nat.le_add_right
  | @mark now addr =>
    have hmsgs := @countP_update s addr (fun msg => { msg with inProcess := true }) isAnswered
    unfold State.messages at *
    dsimp only [State.update] at *
    rw [hmsgs fun _ _ _ => rfl]
    apply Nat.le_add_right
  | @finish now addr msg hrun hfind hneed =>
    have haddr : msg.addr = addr := by simpa using List.find?_some hfind
    have hnone : needs addr = false := by
      rw [← haddr]
      apply Eq.trans (h.messages msg (List.mem_of_find?_eq_some hfind)).symm
      change needsAnswer msg = false
      simp [needsAnswer, hneed]
    have hmsgs := @countP_update s addr (fun msg => { msg with finished := true }) isAnswered
    unfold State.messages at *
    dsimp only [State.update] at *
    rw [hmsgs]
    . apply Nat.le_add_right
    . intro other hother hsame
      have hneeds := h.messages other hother
      change needsAnswer other = needs other.addr at hneeds
      rw [hsame, hnone] at hneeds
      unfold isAnswered
      rw [hneeds]
      change (needsAnswer other && true) = _
      rw [hneeds]
      rfl
  | insertPos | toClean | noClean | cleanEnd | toPoll | noCredit | noMessage | write | needTime
  | takeCredit | noSchedule => apply Nat.le_refl

-- no message has the address that the next one will have
theorem Charged.renew (h : Charged needs s answers) (ho : Owned s) (value : Bool)
    : Charged (Function.update needs s.next value) s answers := by
  have hold : ∀ addr ∈ s.pushed, Function.update needs s.next value addr = needs addr := by
    intro addr haddr
    have hlt := ho.fresh addr haddr
    rw [Function.update_of_ne (by omega)]
  constructor
  . intro msg hmsg
    apply (h.messages msg hmsg).trans (hold _ (ho.mem_pushed hmsg)).symm
  . intro w hw
    apply (h.sent w hw).trans (hold _ (ho.sentPushed _ (List.mem_map_of_mem hw))).symm
  . have hcleaned : s.cleaned.countP (Function.update needs s.next value) = s.cleaned.countP needs := by
      apply List.countP_congr
      intro addr haddr
      rw [hold addr (ho.sentPushed _ (ho.cleanedSent addr haddr))]
    rw [hcleaned]
    apply h.count

theorem Charged.step (h : Charged needs s answers) (hkept : Kept s) (hstep : step s label = some s')
    : ∃ needs, Charged needs s' (answers + hits s label) := by
  have hgo : ∀ needs, Charged needs s answers
      → (∀ arg mem fd garbage, label = .putMsg arg mem fd garbage
        → needsAnswer (Schedule.newOFPMsg mem arg fd s.next garbage) = needs s.next)
      → Charged needs s' (answers + hits s label) := by
    intro needs h hpush
    have hall := @forall_messages_of_step (fun msg => needsAnswer msg = needs msg.addr) _ _ _
      hkept.sized hstep hpush h.messages h.sent
    have hcount := answered_of_branch h hkept.sized (branch_of_step hstep)
    exact ⟨hall.1, hall.2, Nat.le_trans hcount (Nat.add_le_add_right h.count _)⟩
  cases label with
  | putMsg arg mem fd garbage =>
    have hrenewed := h.renew hkept.owned (needsAnswer (Schedule.newOFPMsg mem arg fd s.next garbage))
    refine ⟨_, hgo _ hrenewed ?_⟩
    intro arg' mem' fd' garbage' hlabel
    rw [Label.putMsg.injEq] at hlabel
    rcases hlabel with ⟨rfl, rfl, rfl, rfl⟩
    rw [Function.update_self]
  | _ => exact ⟨needs, hgo needs h (by simp)⟩

theorem Credit.sent_le (h : Credit s) : s.sent.length ≤ 12 + s.cleaned.length := by
  unfold Credit at h
  split at h <;> omega

-- A message that needs no answer gives its credit back by itself, and never more than that one.
theorem Charged.unanswered_le (h : Charged needs s answers) (ho : Owned s) (hcredit : Credit s)
    : (s.sent.countP fun w => needsAnswer w.msg) ≤ 12 + answers := by
  have hsent : (s.sent.countP fun w => needsAnswer w.msg) = s.sentAddrs.countP needs := by
    unfold State.sentAddrs
    rw [List.countP_map]
    apply List.countP_congr
    intro w hw
    have hneeds := h.sent w hw
    change needsAnswer w.msg = needs w.msg.addr at hneeds
    rw [hneeds, Function.comp_apply]
  have hnodup := ho.perm.nodup_iff.mpr ho.nodup
  have hfree := (List.subperm_of_subset hnodup.of_append_right ho.cleanedSent).countP_le
    fun addr => !needs addr
  have hlen := hcredit.sent_le
  have hall := s.sentAddrs.length_eq_countP_add_countP needs
  have hcleaned := s.cleaned.length_eq_countP_add_countP needs
  have hcount := h.count
  unfold State.sentAddrs at *
  rw [List.length_map] at hall
  simp only [Bool.not_eq_true, Bool.decide_eq_false] at *
  omega

end Step
end Scheduler
end OfpProxy
