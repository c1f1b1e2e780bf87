import OfpProxy.Queue.Lemmas
import OfpProxy.Scheduler.Impl

/-!
This module lists the branches of a step of the scheduler, with what each of them has checked. What
is shown about a step goes through this list and not through the definition of `step`.
-/

namespace OfpProxy
namespace Scheduler

inductive Branch (s : State) : Label → State → Prop where
  | push {arg : OFPMsgArg} {mem : Mem} {fd : Int} {garbage qid : Nat} {q : Queue} :
    s.put = .idle → arg.qid = some qid → s.queues[qid]? = some q
      → q.msgQueue.length < vectorMaxSize
      → Branch s (.putMsg arg mem fd garbage)
          { s with
              queues := s.queues.set qid
                { q with msgQueue := q.msgQueue ++ [Schedule.newOFPMsg mem arg fd s.next garbage] }
              put := .pushed s.next (Schedule.newOFPMsg mem arg fd s.next garbage).identity
                ⟨qid, q.msgQueue.length⟩
              next := s.next + 1
              pushed := s.pushed ++ [s.next] }
  | insertPos {addr identity : Nat} {pos : MsgPos} :
    s.put = .pushed addr identity pos
      → Branch s .insertPos
          { s with
              posMap := Function.update s.posMap identity (some ((s.posMap identity).getD pos))
              put := .mapped addr }
  | readToBeSent {addr : Nat} :
    s.put = .mapped addr
      → Branch s .readToBeSent
          { s.update addr (fun msg => { msg with readToBeSent := true }) with put := .idle }
  | markFinished {qid identify : Nat} {q : Queue} :
    s.queues[qid]? = some q
      → Branch s (.markFinished qid identify)
          { s with queues := s.queues.set qid (q.markFinished identify).2 }
  | toClean {now : Timeval} :
    s.run = .start → s.maxInProcess < 2 ∨ s.isSWToControl = true
      → Branch s (.run now) { s with run := .clean 0 0 }
  | noClean {now : Timeval} :
    s.run = .start → ¬(s.maxInProcess < 2 ∨ s.isSWToControl = true)
      → Branch s (.run now) { s with run := .loop }
  | clean {now : Timeval} {i : Nat} {cleanNum : Int} {q : Queue} {res : Queue.Clean} :
    s.run = .clean i cleanNum → i < Schedule.queueNum → s.queues[i]? = some q
      → q.cleanFinishMsg = some res
      → Branch s (.run now)
          { s with
              queues := s.queues.set i res.queue
              cleaned := s.cleaned ++ res.recorded.map OFPMsg.addr
              run := .clean (i + 1) (i32 (cleanNum + res.count)) }
  | cleanEnd {now : Timeval} {i : Nat} {cleanNum : Int} :
    s.run = .clean i cleanNum → ¬i < Schedule.queueNum
      → Branch s (.run now) { s with maxInProcess := i32 (s.maxInProcess + cleanNum), run := .loop }
  | toPoll {now : Timeval} :
    s.run = .loop → s.maxInProcess > 0 → Branch s (.run now) { s with run := .poll 0 }
  | noCredit {now : Timeval} :
    s.run = .loop → ¬s.maxInProcess > 0 → Branch s (.run now) { s with run := .start }
  | nextQueue {now : Timeval} {i : Nat} {q : Queue} :
    s.run = .poll i → i < Schedule.queueNum → s.queues[i]? = some q → (q.fetchMsg now).1 = none
      → Branch s (.run now)
          { s with queues := s.queues.set i (q.fetchMsg now).2, run := .poll (i + 1) }
  | fetch {now : Timeval} {i : Nat} {q : Queue} {msg : OFPMsg} :
    s.run = .poll i → i < Schedule.queueNum → s.queues[i]? = some q
      → (q.fetchMsg now).1 = some msg
      → Branch s (.run now)
          { s with queues := s.queues.set i (q.fetchMsg now).2, run := .fetched msg.addr }
  | noMessage {now : Timeval} {i : Nat} :
    s.run = .poll i → ¬i < Schedule.queueNum → Branch s (.run now) { s with run := .start }
  | mark {now : Timeval} {addr : Nat} {msg : OFPMsg} :
    s.run = .fetched addr → s.find addr = some msg
      → Branch s (.run now)
          { s.update addr (fun msg => { msg with inProcess := true }) with run := .marked addr }
  | write {addr : Nat} {msg : OFPMsg} {accepted : Option Nat} :
    s.run = .marked addr → s.find addr = some msg
      → (∀ n ∈ accepted, n ≤ msg.len ∧ (0 < msg.len → 0 < n))
      → Branch s (.writev accepted)
          { s with sent := s.sent ++ [⟨msg, accepted⟩], run := .written addr }
  | finish {now : Timeval} {addr : Nat} {msg : OFPMsg} :
    s.run = .written addr → s.find addr = some msg → Queue.msgNeedNoTime msg = true
      → Branch s (.run now)
          { s.update addr (fun msg => { msg with finished := true }) with run := .sent }
  | needTime {now : Timeval} {addr : Nat} {msg : OFPMsg} :
    s.run = .written addr → s.find addr = some msg → ¬Queue.msgNeedNoTime msg = true
      → Branch s (.run now) { s with run := .sent }
  | takeCredit {now : Timeval} :
    s.run = .sent → s.isSWToControl = false
      → Branch s (.run now) { s with maxInProcess := i32 (s.maxInProcess - 1), run := .loop }
  | noSchedule {now : Timeval} :
    s.run = .sent → s.isSWToControl = true → Branch s (.run now) { s with run := .start }

theorem Branch.name_eq {s s' : State} {label : Label} (h : Branch s label s') : s'.name = s.name := by
  cases h <;> rfl

section StepRun

variable {s s' : State} {now : Timeval}

theorem branch_of_start (hrun : s.run = .start) (h : stepRun s now = some s')
    : Branch s (.run now) s' := by
  simp only [stepRun, hrun] at h
  split at h
  . next hclean =>
    rw [← Option.some.inj h]
    apply Branch.toClean hrun hclean
  . next hclean =>
    rw [← Option.some.inj h]
    apply Branch.noClean hrun hclean

theorem branch_of_clean {i : Nat} {cleanNum : Int} (hrun : s.run = .clean i cleanNum)
    (h : stepRun s now = some s') : Branch s (.run now) s' := by
  simp only [stepRun, hrun] at h
  split at h
  . next hi =>
    split at h
    . simp at h
    . next q hq =>
      split at h
      . simp at h
      . next res hres =>
        rw [← Option.some.inj h]
        apply Branch.clean hrun hi hq hres
  . next hi =>
    rw [← Option.some.inj h]
    apply Branch.cleanEnd hrun hi

theorem branch_of_loop (hrun : s.run = .loop) (h : stepRun s now = some s')
    : Branch s (.run now) s' := by
  simp only [stepRun, hrun] at h
  split at h
  . next hcredit =>
    rw [← Option.some.inj h]
    apply Branch.toPoll hrun hcredit
  . next hcredit =>
    rw [← Option.some.inj h]
    apply Branch.noCredit hrun hcredit

theorem branch_of_poll {i : Nat} (hrun : s.run = .poll i) (h : stepRun s now = some s')
    : Branch s (.run now) s' := by
  simp only [stepRun, hrun] at h
  split at h
  . next hi =>
    split at h
    . simp at h
    . next q hq =>
      split at h
      . next hfetch =>
        rw [← Option.some.inj h]
        apply Branch.nextQueue hrun hi hq hfetch
      . next msg hfetch =>
        rw [← Option.some.inj h]
        apply Branch.fetch hrun hi hq hfetch
  . next hi =>
    rw [← Option.some.inj h]
    apply Branch.noMessage hrun hi

theorem branch_of_fetched {addr : Nat} (hrun : s.run = .fetched addr) (h : stepRun s now = some s')
    : Branch s (.run now) s' := by
  simp only [stepRun, hrun] at h
  split at h
  . simp at h
  . next msg hfind =>
    rw [← Option.some.inj h]
    apply Branch.mark hrun hfind

theorem branch_of_written {addr : Nat} (hrun : s.run = .written addr) (h : stepRun s now = some s')
    : Branch s (.run now) s' := by
  simp only [stepRun, hrun] at h
  split at h
  . simp at h
  . next msg hfind =>
    rw [← Option.some.inj h]
    split
    . next hneed => apply Branch.finish hrun hfind hneed
    . next hneed => apply Branch.needTime hrun hfind hneed

theorem branch_of_sent (hrun : s.run = .sent) (h : stepRun s now = some s')
    : Branch s (.run now) s' := by
  simp only [stepRun, hrun] at h
  split at h
  . next hdir =>
    rw [← Option.some.inj h]
    apply Branch.takeCredit hrun (by simpa using hdir)
  . next hdir =>
    rw [← Option.some.inj h]
    apply Branch.noSchedule hrun (by simpa using hdir)

theorem branch_of_stepRun (h : stepRun s now = some s') : Branch s (.run now) s' := by
  cases hrun : s.run with
  | start => apply branch_of_start hrun h
  | clean i cleanNum => apply branch_of_clean hrun h
  | loop => apply branch_of_loop hrun h
  | poll i => apply branch_of_poll hrun h
  | fetched addr => apply branch_of_fetched hrun h
  | marked addr => simp [stepRun, hrun] at h
  | written addr => apply branch_of_written hrun h
  | sent => apply branch_of_sent hrun h

end StepRun

theorem branch_of_stepPutMsg {s s' : State} {arg : OFPMsgArg} {mem : Mem} {fd : Int} {garbage : Nat}
    (h : stepPutMsg s arg mem fd garbage = some s') : Branch s (.putMsg arg mem fd garbage) s' := by
  unfold stepPutMsg at h
  split at h
  . next qid hput hqid =>
    split at h
    . simp at h
    . next q hq =>
      dsimp only [Queue.putMsg] at h
      by_cases hsize : q.msgQueue.length < vectorMaxSize
      . rw [if_pos hsize] at h
        rw [← Option.some.inj h]
        apply Branch.push hput hqid hq hsize
      . rw [if_neg hsize] at h
        simp at h
  . simp at h

theorem branch_of_stepWritev {s s' : State} {accepted : Option Nat}
    (h : stepWritev s accepted = some s') : Branch s (.writev accepted) s' := by
  unfold stepWritev at h
  split at h
  . next addr hrun =>
    split at h
    . simp at h
    . next msg hfind =>
      split at h
      . next hacc =>
        rw [← Option.some.inj h]
        apply Branch.write hrun hfind hacc
      . simp at h
  . simp at h

theorem branch_of_step {s s' : State} {label : Label} (h : step s label = some s')
    : Branch s label s' := by
  cases label with
  | putMsg arg mem fd garbage => apply branch_of_stepPutMsg h
  | insertPos =>
    simp only [step, stepInsertPos] at h
    split at h
    . next addr identity pos hput =>
      rw [← Option.some.inj h]
      apply Branch.insertPos hput
    . simp at h
  | readToBeSent =>
    simp only [step, stepReadToBeSent] at h
    split at h
    . next addr hput =>
      rw [← Option.some.inj h]
      apply Branch.readToBeSent hput
    . simp at h
  | markFinished qid identify =>
    simp only [step, stepMarkFinished] at h
    split at h
    . simp at h
    . next q hq =>
      rw [← Option.some.inj h]
      apply Branch.markFinished hq
  | run now => apply branch_of_stepRun h
  | writev accepted => apply branch_of_stepWritev h

end Scheduler
end OfpProxy
