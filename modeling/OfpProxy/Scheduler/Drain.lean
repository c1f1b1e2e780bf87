import OfpProxy.Queue.Marking
import OfpProxy.Scheduler.Stall

/-!
This module shows that nothing is held back for good. As long as messages under way can be answered,
everything that was put can still be written, whatever happened before.
-/

namespace OfpProxy
namespace Scheduler

-- Of the calls that `Run_listen_resp` makes for an identity this is the one that marks a message.
def Label.completes (s : State) : Label → Prop
  | .markFinished qid identify =>
    ∃ q, s.queues[qid]? = some q ∧ q.msgQueue.any (OFPMsg.isOutstanding identify) = true
      ∧ ∀ j < qid, ∀ q', s.queues[j]? = some q'
        → q'.msgQueue.any (OFPMsg.isOutstanding identify) = false
  | _ => False

-- a step of `run`, or an answer to a message that was written
def Responsive (s : State) (label : Label) : Prop := label.isRun = true ∨ label.completes s

/--
The two directions. The counter of the one that is not scheduled overflows at some time.
-/
def Directed (s : State) : Prop :=
  s.name = "SERVER" ∨ s.name = "CLIENT" ∧ s.pushed.length + 12 < 2147483648

theorem Directed.congr {s s' : State} (h : Directed s) (hname : s'.name = s.name)
    (hpushed : s'.pushed = s.pushed) : Directed s' := by
  unfold Directed
  rw [hname, hpushed]
  exact h

theorem pushed_of_step {s s' : State} {label : Label} (h : step s label = some s')
    (hlabel : ∀ arg mem fd garbage, label ≠ .putMsg arg mem fd garbage) : s'.pushed = s.pushed := by
  cases branch_of_step h with
  | push => exact absurd rfl (hlabel _ _ _ _)
  | _ => rfl

theorem Responsive.frame {s t : State} {labels : List Label} (h : machine.Path Responsive s labels t)
    : t.name = s.name ∧ t.pushed = s.pushed := by
  refine h.invariant (I := fun t => t.name = s.name ∧ t.pushed = s.pushed) ⟨rfl, rfl⟩ ?_
  rintro t label u ⟨hname, hpushed⟩ hlabel hstep
  have hnot : ∀ arg mem fd garbage, label ≠ .putMsg arg mem fd garbage := by
    rintro arg mem fd garbage rfl
    rcases hlabel with hrun | hack
    . contradiction
    . exact hack
  rw [(branch_of_step hstep).name_eq, pushed_of_step hstep hnot]
  exact ⟨hname, hpushed⟩

theorem exists_isDone_markFinished {q : Queue} {identify : Nat}
    (hout : q.msgQueue.any (OFPMsg.isOutstanding identify) = true)
    : ∃ msg ∈ (q.markFinished identify).2.msgQueue, msg.isDone = true := by
  have hpos : 0 < q.msgQueue.countP (OFPMsg.isOutstanding identify) := by
    rw [List.countP_pos_iff, ← List.any_eq_true]
    exact hout
  have hdone : ∀ msg, OFPMsg.isOutstanding identify msg = true
      → msg.isDone = false ∧ msg.finish.isDone = true := fun _ => OFPMsg.isDone_of_isOutstanding
  rw [Queue.markFinished_eq, ← List.countP_pos_iff]
  dsimp only
  rw [Marking.countP_markFirst_of hdone]
  omega

theorem exists_completes {s : State} {msg : OFPMsg} (hmsg : msg ∈ s.messages)
    (hout : msg.isOutstanding msg.identity = true)
    : ∃ (k : Nat) (q : Queue), s.queues[k]? = some q
        ∧ q.msgQueue.any (OFPMsg.isOutstanding msg.identity) = true
        ∧ (Label.markFinished k msg.identity).completes s := by
  let marks (q : Queue) : Bool := q.msgQueue.any (OFPMsg.isOutstanding msg.identity)
  rcases List.mem_flatMap.mp hmsg with ⟨q, hq, hmem⟩
  have hmarks : marks q = true := List.any_eq_true.mpr ⟨msg, hmem, hout⟩
  have hlt : s.queues.findIdx marks < s.queues.length :=
    List.findIdx_lt_length_of_exists ⟨q, hq, hmarks⟩
  have hget := List.getElem?_eq_getElem hlt
  have hfirst : marks s.queues[s.queues.findIdx marks] = true := List.findIdx_getElem
  refine ⟨s.queues.findIdx marks, _, hget, hfirst, _, hget, hfirst, ?_⟩
  intro j hj q' hq'
  rcases List.getElem?_eq_some_iff.mp hq' with ⟨hjlt, rfl⟩
  simpa [marks] using List.not_of_lt_findIdx hj

-- Without means there are twelve messages under way, and any of them can be answered.
theorem exists_answer {s : State} (h : machine.Reachable s) (hname : s.name = "SERVER")
    (hrun : s.run = .start) (hnone : ¬Means s)
    : ∃ label s', label.completes s ∧ step s label = some s' ∧ s'.run = .start ∧ Means s'
        ∧ s'.sent = s.sent := by
  unfold Means at hnone
  rw [hrun] at hnone
  simp only [not_or, not_exists, not_and, Bool.not_eq_true] at hnone
  rcases hnone with ⟨hzero, hdone⟩
  have hcredit := credit_of_reachable h hname
  unfold Credit at hcredit
  rw [hrun] at hcredit
  have hcount := (owned_of_reachable h).inProcess_count (by simp [hrun])
  have hpos : 0 < (s.messages.filter OFPMsg.inProcess).length := by
    dsimp only at hcredit
    omega
  rcases List.exists_mem_of_length_pos hpos with ⟨msg, hmem⟩
  rw [List.mem_filter] at hmem
  rcases hmem with ⟨hmsg, hin⟩
  have hout : msg.isOutstanding msg.identity = true := by
    have hnot := hdone msg hmsg
    unfold OFPMsg.isDone at hnot
    rw [hin, Bool.true_and] at hnot
    simp [OFPMsg.isOutstanding, hin, hnot]
  rcases exists_completes hmsg hout with ⟨k, q, hk, hmarks, hcompletes⟩
  rcases exists_isDone_markFinished hmarks with ⟨done, hmem, hisDone⟩
  refine ⟨.markFinished k msg.identity,
    { s with queues := s.queues.set k (q.markFinished msg.identity).2 }, hcompletes, ?_, hrun, ?_, rfl⟩
  . simp only [step, stepMarkFinished, hk]
  . unfold Means
    dsimp only
    rw [hrun]
    refine .inr ⟨done, ?_, hisDone⟩
    have hlt := (List.getElem?_eq_some_iff.mp hk).1
    exact List.mem_flatMap.mpr ⟨_, List.mem_set hlt _, hmem⟩

theorem funded_of_client
    : Funded fun s => s.name = "CLIENT" ∧ s.pushed.length + 12 < 2147483648 where
  keeps := by
    rintro i s s' now - ⟨hname, hsize⟩ - - hbranch
    have hpushed : s'.pushed = s.pushed := by cases hbranch <;> rfl
    rw [hpushed]
    exact ⟨hbranch.name_eq.trans hname, hsize⟩
  hasCredit := fun hreach hm => hasCredit_of_client hreach hm.1 hm.2 _

theorem Own.responsive {s : State} {label : Label} (h : Own s label) : Responsive s label := .inl h

theorem exists_write_of_start {s : State} (hreach : machine.Reachable s) (hdir : Directed s)
    (hrun : s.run = .start) {addr : Nat} (hput : addr ∈ s.pushed) (hwait : addr ∉ s.sentAddrs)
    : ∃ labels t, machine.Path Responsive s labels t ∧ s.sent.length < t.sent.length := by
  rcases hdir with hname | hclient
  . by_cases hmeans : Means s
    . rcases funded_of_means.exists_write_of_start hreach ⟨hname, hmeans⟩ hrun hput hwait with
        ⟨labels, t, hpath, hlt⟩
      exact ⟨labels, t, hpath.mono fun _ _ => Own.responsive, hlt⟩
    . rcases exists_answer hreach hname hrun hmeans with
        ⟨label, s', hcompletes, hstep, hrun', hmeans', hsent⟩
      have hpath : machine.Path Responsive s [label] s' := .cons (.inr hcompletes) hstep .nil
      rcases Responsive.frame hpath with ⟨hname', hpushed⟩
      have hput' : addr ∈ s'.pushed := by
        rw [hpushed]
        exact hput
      rcases funded_of_means.exists_write_of_start (.step hreach trivial hstep)
          ⟨hname'.trans hname, hmeans'⟩ hrun' hput' (unsent_congr hsent hwait) with ⟨labels, t, hpath', hlt⟩
      rw [hsent] at hlt
      exact ⟨_, t, hpath.append (hpath'.mono fun _ _ => Own.responsive), hlt⟩
  . rcases funded_of_client.exists_write_of_start hreach hclient hrun hput hwait with
      ⟨labels, t, hpath, hlt⟩
    exact ⟨labels, t, hpath.mono fun _ _ => Own.responsive, hlt⟩

theorem reachable_of_path {ok : State → Label → Prop} {s t : State} {labels : List Label}
    (hreach : machine.Reachable s) (hpath : machine.Path ok s labels t) : machine.Reachable t :=
  Machine.ReachableBy.path hreach (hpath.mono fun _ _ _ => trivial)

theorem exists_write {s : State} (hreach : machine.Reachable s) (hdir : Directed s) {addr : Nat}
    (hput : addr ∈ s.pushed) (hwait : addr ∉ s.sentAddrs)
    : ∃ labels t, machine.Path Responsive s labels t ∧ s.sent.length < t.sent.length := by
  rcases exists_start hreach with ⟨labels, t, hpath, ⟨hrun, hsent⟩ | hlt⟩
  . have hpath' : machine.Path Responsive s labels t := hpath.mono fun _ _ => Own.responsive
    rcases Responsive.frame hpath' with ⟨hname, hpushed⟩
    rcases exists_write_of_start (reachable_of_path hreach hpath) (hdir.congr hname hpushed) hrun
        (by rw [hpushed]; exact hput) (unsent_congr hsent hwait) with ⟨labels', u, hpath'', hlt⟩
    rw [hsent] at hlt
    exact ⟨_, u, hpath'.append hpath'', hlt⟩
  . exact ⟨labels, t, hpath.mono fun _ _ => Own.responsive, hlt⟩

/--
From wherever the scheduler is, everything that was put can still be written, by the steps of `run` and
by answers to what was written.
-/
theorem drained {s : State} (hreach : machine.Reachable s) (hdir : Directed s)
    : ∃ labels t, machine.Path Responsive s labels t ∧ t.pushed = s.pushed
        ∧ ∀ addr ∈ s.pushed, addr ∈ t.sentAddrs := by
  let I (t : State) : Prop := machine.Reachable t ∧ t.name = s.name ∧ t.pushed = s.pushed
  have hI : I s := ⟨hreach, rfl, rfl⟩
  -- what is still to be written
  refine Machine.exists_path (I := I) (r := fun t => s.pushed.length - t.sent.length) ?_ hI
  rintro t ⟨ht, hname, hpushed⟩
  by_cases hall : ∀ addr ∈ s.pushed, addr ∈ t.sentAddrs
  . exact ⟨[], t, .nil, .inl ⟨hpushed, hall⟩⟩
  . simp only [not_forall] at hall
    rcases hall with ⟨addr, hput, hwait⟩
    rcases exists_write ht (hdir.congr hname hpushed) (by rw [hpushed]; exact hput) hwait with
      ⟨labels, u, hpath, hlt⟩
    have hu := reachable_of_path ht hpath
    rcases Responsive.frame hpath with ⟨hname', hpushed'⟩
    have hle := (owned_of_reachable hu).sent_le
    rw [hpushed', hpushed] at hle
    exact ⟨labels, u, hpath, .inr ⟨⟨hu, hname'.trans hname, hpushed'.trans hpushed⟩, by omega⟩⟩

-- Twelve requests are under way, and the thirteenth waits for one of their answers.
theorem drained_thirteenRequests
    : ∃ s labels t, machine.Reachable s ∧ machine.Path Responsive s labels t
        ∧ s.sentAddrs = List.range 12 ∧ 12 ∈ t.sentAddrs := by
  have hrun := @exists_of_replay "SERVER" thirteenRequests
    (fun s => decide (s.name = "SERVER" ∧ 12 ∈ s.pushed ∧ s.sentAddrs = List.range 12))
    (by decide +kernel)
  rcases hrun with ⟨s, hreach, hs⟩
  rw [decide_eq_true_eq] at hs
  rcases hs with ⟨hname, hput, hsent⟩
  rcases drained hreach (.inl hname) with ⟨labels, t, hpath, -, hall⟩
  exact ⟨s, labels, t, hreach, hpath, hsent, hall 12 hput⟩

end Scheduler
end OfpProxy
