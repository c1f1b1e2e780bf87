import OfpProxy.Queue.Marking
import OfpProxy.Scheduler.Ownership

/-!
This module compares the bytes the kernel accepted on a socket with the messages that were written
to it. `run` ignores what `Writev_nByte` returns, so they agree only as long as every write is
complete. It also sets `in_process` before the write, which makes the message one that an
acknowledgement can finish.
-/

namespace OfpProxy
namespace Scheduler

def Write.bytes (w : Write) : List UInt8 := w.msg.buf.take (w.accepted.getD 0)

def Write.isComplete (w : Write) : Bool := w.accepted = some w.msg.len

namespace State

def writes (s : State) (fd : Int) : List Write := s.sent.filter fun w => w.msg.fd = fd

def accepted (s : State) (fd : Int) : List UInt8 := (s.writes fd).flatMap Write.bytes

def offered (s : State) (fd : Int) : List UInt8 := (s.writes fd).flatMap fun w => w.msg.buf

end State

def acceptsAll (s : State) : Label → Bool
  | .writev accepted =>
    match s.run with
    | .marked addr => (s.find addr).all fun msg => Write.isComplete ⟨msg, accepted⟩
    | _ => true
  | _ => true

structure Filled (s : State) : Prop where
  messages : ∀ msg ∈ s.messages, msg.buf.length = msg.len
  sent : ∀ w ∈ s.sent, w.msg.buf.length = w.msg.len

namespace Filled

theorem of_effect {s s' : State} {label : Label} (h : Filled s) (heffect : Effect s label s')
    : Filled s' := by
  cases heffect with
  | push _ _ _ hlen hmsgs =>
    refine ⟨?_, h.sent⟩
    intro m hm
    rw [State.messages, hmsgs.mem_iff, List.mem_cons] at hm
    cases hm with
    | inl heq =>
      rw [heq]
      exact hlen
    | inr hold => exact h.messages m hold
  | touch hmsgs =>
    refine ⟨?_, h.sent⟩
    intro m' hm'
    rcases (keeps_mem hmsgs).1 m' hm' with ⟨m, hm, hkeeps⟩
    rw [hkeeps.buf, hkeeps.len]
    apply h.messages m hm
  | move hmsgs _ =>
    refine ⟨?_, h.sent⟩
    rw [State.messages, hmsgs]
    apply h.messages
  | clean _ hmsgs _ =>
    refine ⟨?_, h.sent⟩
    intro m hm
    apply h.messages
    rw [hmsgs.mem_iff]
    apply List.mem_append_left _ hm
  | mark _ hmsgs | finish _ hmsgs =>
    refine ⟨?_, h.sent⟩
    rw [State.messages, hmsgs, List.forall_mem_map]
    intro m hm
    split <;> exact h.messages m hm
  | write _ hfind _ =>
    refine ⟨h.messages, ?_⟩
    rw [List.forall_mem_append, List.forall_mem_singleton]
    exact ⟨h.sent, h.messages _ (List.mem_of_find?_eq_some hfind)⟩

end Filled

theorem filled_of_reachable {s : State} (h : machine.Reachable s) : Filled s := by
  apply Machine.Reachable.invariant _ _ h
  . rintro s ⟨name, now, rfl⟩
    constructor
    . simp [State.init, State.messages, messagesOf, List.flatMap_map, Queue.new]
    . simp [State.init]
  . intro s label s' hreach hs hstep
    apply hs.of_effect (effect_of_step hreach hstep)

theorem complete_of_effect {s s' : State} {label : Label} (h : ∀ w ∈ s.sent, w.isComplete = true)
    (hok : acceptsAll s label = true) (heffect : Effect s label s')
    : ∀ w ∈ s'.sent, w.isComplete = true := by
  cases heffect with
  | write hrun hfind _ =>
    simp only [acceptsAll, hrun, hfind, Option.all_some] at hok
    rw [List.forall_mem_append, List.forall_mem_singleton]
    exact ⟨h, hok⟩
  | _ => exact h

theorem complete_of_reachableBy {s : State}
    (h : machine.ReachableBy (fun s label => acceptsAll s label = true) s)
    : ∀ w ∈ s.sent, w.isComplete = true := by
  apply Machine.ReachableBy.invariant _ _ h
  . rintro s ⟨name, now, rfl⟩
    simp [State.init]
  . intro s label s' hreach hs hok hstep
    apply complete_of_effect hs hok (effect_of_step hreach.reachable hstep)

theorem Write.bytes_of_isComplete {w : Write} (h : w.isComplete = true)
    (hlen : w.msg.buf.length = w.msg.len) : w.bytes = w.msg.buf := by
  unfold Write.isComplete at h
  rw [decide_eq_true_eq] at h
  unfold Write.bytes
  rw [h, Option.getD_some, ← hlen, List.take_length]

-- an acknowledgement does not finish the message that `run` has marked and not written yet
def marksWritten (s : State) : Label → Bool
  | .markFinished qid identify =>
    (s.queues[qid]?).all fun q =>
      (q.msgQueue.find? (OFPMsg.isOutstanding identify)).all fun msg => s.run ≠ .marked msg.addr
  | _ => true

def writesWhole (s : State) (label : Label) : Bool := acceptsAll s label && marksWritten s label

section Unfinished

variable {s s' : State}

-- the message in front of its write is not finished
def State.Unfinished (s : State) : Prop :=
  ∀ msg ∈ s.messages, s.run = .marked msg.addr → msg.finished = false

theorem Owned.addr_inj (h : Owned s) {msg msg' : OFPMsg} (hmsg : msg ∈ s.messages)
    (hmsg' : msg' ∈ s.messages) (haddr : msg.addr = msg'.addr) : msg = msg' := by
  have hnodup : s.addrs.Nodup := by
    apply List.Nodup.of_append_left
    apply (h.perm.nodup_iff).mpr h.nodup
  exact List.inj_on_of_nodup_map hnodup hmsg hmsg' haddr

theorem State.Unfinished.markFinished (h : s.Unfinished) {qid identify : Nat} {q : Queue}
    (hq : s.queues[qid]? = some q) (hok : marksWritten s (.markFinished qid identify) = true)
    : State.Unfinished { s with queues := s.queues.set qid (q.markFinished identify).2 } := by
  simp only [marksWritten, hq, Option.all_some] at hok
  rcases messagesOf_set hq with ⟨before, after, hmsgs, hset⟩
  have hold : ∀ msg ∈ before ++ q.msgQueue ++ after, s.run = .marked msg.addr → msg.finished = false := by
    rw [← hmsgs]
    exact h
  unfold State.Unfinished State.messages
  rw [hset, Queue.markFinished_eq]
  intro msg hmsg hrun
  rw [List.mem_append, List.mem_append] at hmsg
  rcases hmsg with (hmsg | hmsg) | hmsg
  . exact hold msg (by simp [hmsg]) hrun
  . rcases mem_markFirst hmsg with hmsg | ⟨found, hfound, rfl⟩
    . exact hold msg (by simp [hmsg]) hrun
    . rw [hfound, Option.all_some, decide_eq_true_eq] at hok
      exact absurd hrun hok
  . exact hold msg (by simp [hmsg]) hrun

theorem State.Unfinished.mark (howned : Owned s) {addr : Nat} (hrun : s.run = .fetched addr)
    : State.Unfinished
        { s.update addr (fun msg => { msg with inProcess := true }) with run := .marked addr } := by
  have hheld := howned.held
  rw [hrun] at hheld
  rcases hheld with ⟨found, hfound, haddr, hnew⟩
  have hunfinished : ¬found.finished = true := by
    intro hfinished
    have hin := howned.finished found hfound hfinished
    rw [hnew] at hin
    contradiction
  intro msg' hmsg' hmarked
  change msg' ∈ messagesOf (s.update addr _).queues at hmsg'
  rw [messages_update] at hmsg'
  rcases List.mem_map.mp hmsg' with ⟨msg, hmsg, rfl⟩
  by_cases heq : msg.addr = addr
  . rw [if_pos heq, howned.addr_inj hmsg hfound (heq.trans haddr.symm)]
    simpa using hunfinished
  . rw [if_neg heq] at hmarked
    exact absurd (RunPc.marked.inj hmarked).symm heq

theorem State.Unfinished.of_branch (h : s.Unfinished) (howned : Owned s) {label : Label}
    (hok : marksWritten s label = true) (hbranch : Branch s label s') : s'.Unfinished := by
  cases hbranch with
  | @push arg mem fd garbage qid q hput hqid hq hsize =>
    intro msg hmsg hrun
    rw [State.messages, (messages_push hq _).mem_iff, List.mem_cons] at hmsg
    rcases hmsg with rfl | hold
    . rfl
    . exact h msg hold hrun
  | insertPos hput => exact h
  | @readToBeSent addr hput =>
    intro msg' hmsg' hrun
    change msg' ∈ messagesOf (s.update addr _).queues at hmsg'
    rw [messages_update] at hmsg'
    rcases List.mem_map.mp hmsg' with ⟨msg, hmsg, rfl⟩
    by_cases heq : msg.addr = addr
    . rw [if_pos heq] at *
      exact h msg hmsg hrun
    . rw [if_neg heq] at *
      exact h msg hmsg hrun
  | markFinished hq => exact h.markFinished hq hok
  | mark hrun hfind => exact .mark howned hrun
  | _ =>
    intro msg _ hrun
    contradiction

end Unfinished

theorem unfinished_of_reachableBy {s : State}
    (h : machine.ReachableBy (fun s label => writesWhole s label = true) s) : s.Unfinished := by
  apply Machine.ReachableBy.invariant _ _ h
  . rintro s ⟨name, now, rfl⟩ msg _ hrun
    contradiction
  . intro s label s' hreach hs hok hstep
    rw [writesWhole, Bool.and_eq_true] at hok
    apply hs.of_branch (owned_of_reachable hreach.reachable) hok.2 (branch_of_step hstep)

/--
As long as every write is complete and no message is finished in front of its write, the bytes on a
socket are those of whole messages, and what is finished was written whole.
-/
theorem stream_whole {s : State}
    (h : machine.ReachableBy (fun s label => writesWhole s label = true) s)
    : (∀ fd, s.accepted fd <+: s.offered fd)
        ∧ (∀ w ∈ s.sent, w.bytes = w.msg.buf ∧ w.msg.buf.length = w.msg.len)
        ∧ ∀ msg ∈ s.messages, msg.finished = true
          → ∃ w ∈ s.sent, w.msg.addr = msg.addr ∧ w.bytes = w.msg.buf := by
  have hfilled := filled_of_reachable h.reachable
  have howned := owned_of_reachable h.reachable
  have hcomplete : ∀ w ∈ s.sent, w.isComplete = true := by
    apply complete_of_reachableBy
    apply h.mono
    intro s label hok
    rw [writesWhole, Bool.and_eq_true] at hok
    exact hok.1
  have hwhole : ∀ w ∈ s.sent, w.bytes = w.msg.buf := by
    intro w hw
    apply w.bytes_of_isComplete (hcomplete w hw) (hfilled.sent w hw)
  refine ⟨?_, ?_, ?_⟩
  . intro fd
    have heq : s.accepted fd = s.offered fd := by
      unfold State.accepted State.offered
      apply List.flatMap_congr
      intro w hw
      apply hwhole w (List.mem_of_mem_filter hw)
    rw [heq]
  . intro w hw
    exact ⟨hwhole w hw, hfilled.sent w hw⟩
  . intro msg hmsg hfinished
    have hrun : s.run ≠ .marked msg.addr := by
      intro hmarked
      rw [unfinished_of_reachableBy h msg hmsg hmarked] at hfinished
      contradiction
    have hsent := (howned.started msg hmsg).mp (howned.finished msg hmsg hfinished)
    simp only [hrun, or_false] at hsent
    rcases List.mem_map.mp hsent with ⟨w, hw, haddr⟩
    exact ⟨w, hw, haddr, hwhole w hw⟩

theorem stream_whole_twoRequests
    : ∃ s, machine.Reachable s ∧ s.sent.length = 2 ∧ (∀ fd, s.accepted fd <+: s.offered fd)
        ∧ (∀ w ∈ s.sent, w.bytes = w.msg.buf ∧ w.msg.buf.length = w.msg.len)
        ∧ ∀ msg ∈ s.messages, msg.finished = true
          → ∃ w ∈ s.sent, w.msg.addr = msg.addr ∧ w.bytes = w.msg.buf := by
  have hrun := @Machine.exists_of_replay _ _ machine writesWhole
    (echoRequest 1 ++ echoRequest 2 ++ ticks 4 ++ [.writev (some 8)] ++ ticks 5 ++ [.writev (some 8)]
      ++ ticks 2)
    (.init "SERVER" fun _ => ⟨0, 0⟩) (fun s => decide (s.sent.length = 2))
    (.init ⟨"SERVER", _, rfl⟩) (by decide +kernel)
  rcases hrun with ⟨s, hreach, hsent⟩
  rw [decide_eq_true_eq] at hsent
  exact ⟨s, hreach.reachable, hsent, stream_whole hreach⟩

-- The kernel takes one byte of the first request, which is marked finished all the same, and all of
-- the second one.
theorem stream_broken
    : ∃ s, machine.Reachable s ∧ ¬s.accepted 5 <+: s.offered 5
        ∧ ∃ msg ∈ s.messages, msg.finished = true
          ∧ ∃ w ∈ s.sent, w.msg.addr = msg.addr ∧ w.bytes.length < w.msg.len := by
  have hrun := @exists_of_replay "SERVER"
    (echoRequest 1 ++ echoRequest 2 ++ ticks 4 ++ [.writev (some 1)] ++ ticks 5 ++ [.writev (some 8)]
      ++ ticks 2)
    (fun s => decide
      (¬s.accepted 5 <+: s.offered 5
        ∧ ∃ msg ∈ s.messages, msg.finished = true
          ∧ ∃ w ∈ s.sent, w.msg.addr = msg.addr ∧ w.bytes.length < w.msg.len))
    (by decide +kernel)
  rcases hrun with ⟨s, hreach, hs⟩
  rw [decide_eq_true_eq] at hs
  exact ⟨s, hreach, hs⟩

end Scheduler
end OfpProxy
