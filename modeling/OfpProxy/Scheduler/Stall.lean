import OfpProxy.Scheduler.Advance

/-!
This module shows when the controller-to-switch direction stops. Once all credits are taken by
messages that wait for an answer, nothing is written any more until one of the answers comes, not
even what needs no answer.
-/

namespace OfpProxy
namespace Scheduler

-- the answer belongs to a message that was written
def Label.acknowledges (s : State) : Label → Prop
  | .markFinished qid identify =>
    ∃ q msg, s.queues[qid]? = some q ∧ msg ∈ q.msgQueue ∧ msg.inProcess = true
      ∧ msg.identity = identify
  | _ => False

structure Stalled (s : State) : Prop where
  noCredit : s.maxInProcess = 0
  notDone : ∀ msg ∈ s.messages, msg.isDone = false
  run : s.run = .start ∨ (∃ i, s.run = .clean i 0) ∨ s.run = .loop

theorem mem_messages_set {s : State} {i : Nat} {q : Queue} {msg : OFPMsg}
    (h : msg ∈ messagesOf (s.queues.set i q)) : msg ∈ s.messages ∨ msg ∈ q.msgQueue := by
  rcases List.mem_flatMap.mp h with ⟨q', hq', hmsg⟩
  rcases List.mem_or_eq_of_mem_set hq' with hold | rfl
  . exact .inl (List.mem_flatMap.mpr ⟨q', hold, hmsg⟩)
  . exact .inr hmsg

theorem mem_messages_update {s : State} {addr : Nat} {f : OFPMsg → OFPMsg} {msg : OFPMsg}
    (h : msg ∈ (s.update addr f).messages) : ∃ old ∈ s.messages, msg = old ∨ msg = f old := by
  rcases List.mem_flatMap.mp h with ⟨q', hq', hmsg⟩
  rcases List.mem_map.mp hq' with ⟨q, hq, rfl⟩
  rcases List.mem_map.mp hmsg with ⟨old, hold, rfl⟩
  refine ⟨old, List.mem_flatMap.mpr ⟨q, hq, hold⟩, ?_⟩
  split
  . exact .inr rfl
  . exact .inl rfl

theorem mem_messages_of_get {s : State} {i : Nat} {q : Queue} {msg : OFPMsg}
    (hq : s.queues[i]? = some q) (h : msg ∈ q.msgQueue) : msg ∈ s.messages :=
  List.mem_flatMap.mpr ⟨q, List.mem_of_getElem? hq, h⟩

theorem Stalled.of_branch {s s' : State} {label : Label} (h : Stalled s) (hs : Sized s)
    (hlabel : ¬label.acknowledges s) (hbranch : Branch s label s') : Stalled s' ∧ s'.sent = s.sent := by
  have hrun := h.run
  cases hbranch with
  | @push arg mem fd garbage qid q hput hqid hq hsize =>
    refine ⟨⟨h.noCredit, ?_, h.run⟩, rfl⟩
    intro msg hmsg
    rcases mem_messages_set hmsg with hold | hnew
    . apply h.notDone msg hold
    . rcases List.mem_append.mp hnew with hold | hnew
      . apply h.notDone msg (mem_messages_of_get hq hold)
      . rw [List.mem_singleton.mp hnew]
        rfl
  | insertPos => exact ⟨⟨h.noCredit, h.notDone, h.run⟩, rfl⟩
  | readToBeSent =>
    refine ⟨⟨h.noCredit, ?_, h.run⟩, rfl⟩
    intro msg hmsg
    rcases mem_messages_update hmsg with ⟨old, hold, rfl | rfl⟩
    . apply h.notDone _ hold
    . exact h.notDone old hold
  | @markFinished qid identify q hq =>
    refine ⟨⟨h.noCredit, ?_, h.run⟩, rfl⟩
    rcases q.markFinished_cases identify with hsame | ⟨before, msg, after, hmsgs, hin, hid, -⟩
    . intro msg hmsg
      rcases mem_messages_set hmsg with hold | hnew
      . apply h.notDone msg hold
      . rw [hsame] at hnew
        apply h.notDone msg (mem_messages_of_get hq hnew)
    . exact absurd ⟨q, msg, hq, by simp [hmsgs], hin, hid⟩ hlabel
  | toClean => exact ⟨⟨h.noCredit, h.notDone, .inr (.inl ⟨0, rfl⟩)⟩, rfl⟩
  | noClean => exact ⟨⟨h.noCredit, h.notDone, .inr (.inr rfl)⟩, rfl⟩
  | @clean now i cleanNum q res hclean hi hq hres =>
    have hzero : cleanNum = 0 := by simpa [hclean, eq_comm] using hrun
    have hnone : q.msgQueue.filter OFPMsg.isDone = [] := by
      rw [List.filter_eq_nil_iff]
      intro msg hmsg
      rw [h.notDone msg (mem_messages_of_get hq hmsg)]
      simp
    rw [hs.clean_eq hq hres, hnone, hzero]
    refine ⟨⟨h.noCredit, ?_, .inr (.inl ⟨i + 1, rfl⟩)⟩, rfl⟩
    intro msg hmsg
    rcases mem_messages_set hmsg with hold | hnew
    . apply h.notDone msg hold
    . apply h.notDone msg (mem_messages_of_get hq (List.mem_of_mem_filter hnew))
  | @cleanEnd now i cleanNum hclean hi =>
    have hzero : cleanNum = 0 := by simpa [hclean, eq_comm] using hrun
    rw [hzero]
    refine ⟨⟨?_, h.notDone, .inr (.inr rfl)⟩, rfl⟩
    rw [h.noCredit]
    rfl
  | toPoll _ hcredit =>
    rw [h.noCredit] at hcredit
    contradiction
  | noCredit => exact ⟨⟨h.noCredit, h.notDone, .inl rfl⟩, rfl⟩
  | nextQueue hat | fetch hat | noMessage hat | mark hat | write hat | finish hat | needTime hat
  | takeCredit hat | noSchedule hat => simp [hat] at hrun

theorem Stalled.of_path {s t : State} {labels : List Label} (h : Stalled s) (hreach : machine.Reachable s)
    (hpath : machine.Path (fun s label => ¬label.acknowledges s) s labels t) : t.sent = s.sent := by
  have hinv : machine.Reachable t ∧ Stalled t ∧ t.sent = s.sent := by
    apply hpath.invariant (I := fun t => machine.Reachable t ∧ Stalled t ∧ t.sent = s.sent)
      ⟨hreach, h, rfl⟩
    rintro t label u ⟨ht, hstalled, hsent⟩ hok hstep
    have hnext := hstalled.of_branch (sized_of_reachable ht) hok (branch_of_step hstep)
    exact ⟨.step ht trivial hstep, hnext.1, hnext.2.trans hsent⟩
  exact hinv.2.2

/--
A credit is left, or there is one to be gained before the inner loop begins.
-/
def Means (s : State) : Prop :=
  match s.run with
  | .start => 0 < s.maxInProcess ∨ ∃ msg ∈ s.messages, msg.isDone = true
  | .clean j cleanNum =>
    0 < s.maxInProcess + cleanNum
      ∨ ∃ k q msg, j ≤ k ∧ s.queues[k]? = some q ∧ msg ∈ q.msgQueue ∧ msg.isDone = true
  | .loop => 0 < s.maxInProcess
  | _ => True

theorem Means.of_run {i : Nat} {s s' : State} {now : Timeval} (h : Means s) (hbefore : Before i s.run)
    (hi : i < Schedule.queueNum) (hs : Sized s) (hcredit : Credit s) (hcredit' : Credit s')
    (hbranch : Branch s (.run now) s') : Means s' := by
  unfold Means at h
  unfold Credit at hcredit
  cases hbranch with
  | toClean hrun =>
    rw [hrun] at h
    rcases h with hsome | ⟨msg, hmsg, hdone⟩
    . apply Or.inl
      dsimp only
      omega
    . rcases List.mem_flatMap.mp hmsg with ⟨q, hq, hmsg⟩
      rcases List.mem_iff_getElem?.mp hq with ⟨k, hk⟩
      exact .inr ⟨k, q, msg, Nat.zero_le k, hk, hmsg, hdone⟩
  | noClean hrun hmax =>
    simp only [Means]
    omega
  | @clean now j cleanNum q res hrun hj hq hres =>
    rw [hrun] at h hcredit
    rw [hs.clean_eq hq hres] at *
    simp only [Means, Credit, List.length_append, List.length_map] at *
    rcases h with hsome | ⟨k, q', msg, hk, hq', hmsg, hdone⟩
    . apply Or.inl
      omega
    . rcases Nat.lt_or_eq_of_le hk with hlt | rfl
      . refine .inr ⟨k, q', msg, hlt, ?_, hmsg, hdone⟩
        rw [List.getElem?_set_ne (by omega)]
        exact hq'
      . -- its credit is counted now
        rw [hq, Option.some_inj] at hq'
        subst hq'
        have hpos : 0 < (q.msgQueue.filter OFPMsg.isDone).length :=
          List.length_pos_of_mem (List.mem_filter.mpr ⟨hmsg, hdone⟩)
        apply Or.inl
        omega
  | @cleanEnd now j cleanNum hrun hj =>
    rw [hrun] at h hcredit
    simp only [Means, Credit] at *
    rcases h with hsome | ⟨k, q, msg, hk, hq, -⟩
    . omega
    . have hlt := (List.getElem?_eq_some_iff.mp hq).1
      rw [hs.queues] at hlt
      omega
  | noCredit hrun hnone =>
    rw [hrun] at h
    contradiction
  | noMessage hrun hlt =>
    rw [hrun] at hbefore
    exact absurd (Nat.lt_of_le_of_lt hbefore hi) hlt
  | toPoll | nextQueue | fetch | mark => trivial
  | finish hrun | needTime hrun | takeCredit hrun | noSchedule hrun =>
    rw [hrun] at hbefore
    contradiction

theorem funded_of_means : Funded fun s => s.name = "SERVER" ∧ Means s where
  keeps := by
    rintro i s s' now hreach ⟨hname, hmeans⟩ hi hbefore hbranch
    have hname' : s'.name = "SERVER" := hbranch.name_eq.trans hname
    have hs := sized_of_reachable hreach
    have hcredit := credit_of_reachable hreach hname
    have howned := owned_of_reachable hreach
    have heffect := effect_of_branch hs hbranch
    have hdir : s.isSWToControl = false := by simp [State.isSWToControl, hname]
    have hcredit' : Credit s' :=
      hcredit.of_effect howned.cleaned_le (howned.of_effect heffect).cleaned_le hdir heffect
    exact ⟨hname', hmeans.of_run hbefore hi hs hcredit hcredit' hbranch⟩
  hasCredit := by
    rintro s now - ⟨-, hmeans⟩ hrun
    unfold Means at hmeans
    rw [hrun] at hmeans
    exact hmeans

theorem Own.not_acknowledges {s : State} {label : Label} (h : Own s label) : ¬label.acknowledges s := by
  cases label with
  | markFinished => contradiction
  | _ => exact id

/--
The controller-to-switch direction, at the top of its loop and with a message that waits, is stuck until
an answer comes exactly if it has no credit left and no message to clean.
-/
theorem stalled_iff {s : State} (hreach : machine.Reachable s) (hname : s.name = "SERVER")
    (hrun : s.run = .start) {addr : Nat} (hput : addr ∈ s.pushed) (hwait : addr ∉ s.sentAddrs)
    : (∀ labels t, machine.Path (fun s label => ¬label.acknowledges s) s labels t → t.sent = s.sent)
        ↔ s.maxInProcess = 0 ∧ ∀ msg ∈ s.messages, msg.isDone = false := by
  have hcredit := credit_of_reachable hreach hname
  unfold Credit at hcredit
  rw [hrun] at hcredit
  constructor
  . intro hstuck
    by_contra hnot
    have hmeans : Means s := by
      unfold Means
      rw [hrun]
      by_contra hnone
      apply hnot
      simp only [not_or, not_exists, not_and, Bool.not_eq_true] at hnone
      exact ⟨by omega, hnone.2⟩
    rcases funded_of_means.exists_write_of_start hreach ⟨hname, hmeans⟩ hrun hput hwait with
      ⟨labels, t, hpath, hlt⟩
    rw [hstuck labels t (hpath.mono fun _ _ => Own.not_acknowledges)] at hlt
    omega
  . rintro ⟨hzero, hdone⟩ labels t hpath
    exact Stalled.of_path ⟨hzero, hdone, .inl hrun⟩ hreach hpath

-- a statistics request, which is finished when its reply comes
def statsRequest : List Label := putMessage [4, 18, 0, 16, 0, 0, 0, 7, 0, 0, 0, 0, 0, 0, 0, 0]

-- Twelve of them are written, the thirteenth has to wait.
def thirteenRequests : List Label :=
  (List.replicate 13 statsRequest).flatten ++ ticks 1
    ++ (List.replicate 12 (ticks 3 ++ [.writev (some 16)] ++ ticks 2)).flatten ++ ticks 1

theorem stalled_iff_thirteenRequests
    : ∃ s, machine.Reachable s ∧ s.sentAddrs = List.range 12 ∧ 12 ∈ s.pushed
        ∧ ∀ labels t, machine.Path (fun s label => ¬label.acknowledges s) s labels t
          → t.sent = s.sent := by
  have hrun := @exists_of_replay "SERVER" thirteenRequests
    (fun s => decide (s.name = "SERVER" ∧ s.run = .start ∧ 12 ∈ s.pushed
      ∧ s.sentAddrs = List.range 12 ∧ s.maxInProcess = 0 ∧ ∀ msg ∈ s.messages, msg.isDone = false))
    (by decide +kernel)
  rcases hrun with ⟨s, hreach, hs⟩
  rw [decide_eq_true_eq] at hs
  rcases hs with ⟨hname, hstart, hput, hsent, hzero, hdone⟩
  have hstuck := (stalled_iff hreach hname hstart hput (by rw [hsent]; decide)).mpr ⟨hzero, hdone⟩
  exact ⟨s, hreach, hsent, hput, hstuck⟩

end Scheduler
end OfpProxy
