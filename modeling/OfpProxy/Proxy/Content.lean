import OfpProxy.Proxy.Projection
import OfpProxy.Scheduler.Kept

/-!
This module shows what the messages of the proxy hold: each of them is known by the place its frame had
among those that came in, and holds what `getOFPMsgArg` made of that frame.
-/

namespace OfpProxy
namespace Proxy

/--
`msg` is what `putMessage` makes of `frame` when the reader of a connection to `fd` hands it over.
-/
def Conveys (exp : ℚ → ℚ) (frame : Mem) (fd : Int) (msg : OFPMsg) : Prop :=
  ∃ self other conf res,
    Schedule.getOFPMsgArg exp self other conf frame = some res ∧ msg.len = res.arg.len
      ∧ msg.buf = res.msg.bytes 0 res.arg.len ∧ msg.fd = fd

def FromFrame (exp : ℚ → ℚ) (received : List Mem) (fd : Int) (msg : OFPMsg) : Prop :=
  ∃ frame, received[msg.addr]? = some frame ∧ Conveys exp frame fd msg

theorem FromFrame.append {exp : ℚ → ℚ} {received : List Mem} {fd : Int} {msg : OFPMsg}
    (h : FromFrame exp received fd msg) (more : List Mem) : FromFrame exp (received ++ more) fd msg := by
  rcases h with ⟨frame, hframe, hmsg⟩
  refine ⟨frame, ?_, hmsg⟩
  rw [List.getElem?_append_left (List.getElem?_eq_some_iff.mp hframe).1]
  exact hframe

-- one message is on its way from the reader to the queues
def ReaderPc.held : ReaderPc → Nat
  | .parsed _ => 1
  | _ => 0

/--
What holds of each side, in every state of the proxy.
-/
structure Conveyed (exp : ℚ → ℚ) (s : Side) : Prop where
  holds : Holds exp s
  kept : Scheduler.Kept s.scheduler
  received : s.scheduler.next + ReaderPc.held s.reader ≤ s.received.length
    ∧ s.received.length ≤ s.scheduler.next + 1
  exact : s.reader ≠ .ended → s.received.length = s.scheduler.next + ReaderPc.held s.reader
  messages : ∀ msg ∈ s.scheduler.messages, FromFrame exp s.received s.fd msg.asPut
  sent : ∀ w ∈ s.scheduler.sent, FromFrame exp s.received s.fd w.msg.asPut

namespace Conveyed

variable {exp : ℚ → ℚ} {d : Dir} {s s' : Side} {label : Label}

theorem start (d : Dir) (m : Mem) (now : Timeval) (fd : Int) (events : List Socket.Event)
    (respFd : RespFd) (pipe : List Socket.Event) (buf respBuf : Mem)
    : Conveyed exp (.start d m now fd events respFd pipe buf respBuf) where
  holds := by
    intro arg harg
    contradiction
  kept := .init d.name fun _ => now
  received := ⟨Nat.le_refl 0, by simp [Side.start, Scheduler.State.init]⟩
  exact := fun _ => rfl
  messages := by
    have hmsgs : (Scheduler.State.init d.name fun _ => now).messages = [] := by
      simp [Scheduler.State.init, Scheduler.State.messages, Scheduler.messagesOf, List.flatMap_map,
        Queue.new]
    unfold Side.start
    dsimp only
    rw [hmsgs]
    simp
  sent := by simp [Side.start, Scheduler.State.init]

-- a step of the scheduler that is not a push
theorem goOn {state : Scheduler.State} {l : Scheduler.Label} {run : Scheduler.State}
    (h : Conveyed exp s) (hrun : ∃ name, run = { s.scheduler with name := name })
    (hstep : Scheduler.step run l = some state)
    (hl : ∀ arg mem fd garbage, l ≠ .putMsg arg mem fd garbage) (hscheduler : s'.scheduler = state)
    (hreader : s'.reader = s.reader) (hbuf : s'.buf = s.buf) (hfd : s'.fd = s.fd)
    (hreceived : s'.received = s.received) : Conveyed exp s' := by
  rcases hrun with ⟨name, rfl⟩
  have hkept := h.kept.renamed name
  have hnext : state.next = s.scheduler.next := by
    rw [Scheduler.next_of_step hstep hl]
  have hall := @Scheduler.forall_messages_of_step (FromFrame exp s.received s.fd) _ _ _ hkept.sized
    hstep (fun arg mem fd garbage hlabel => absurd hlabel (hl _ _ _ _)) h.messages h.sent
  constructor
  . exact h.holds.of_eq hreader hbuf hreceived
  . rw [hscheduler]
    exact hkept.step hstep
  . rw [hscheduler, hreader, hreceived, hnext]
    exact h.received
  . rw [hscheduler, hreader, hreceived, hnext]
    exact h.exact
  . rw [hscheduler, hreceived, hfd]
    exact hall.1
  . rw [hscheduler, hreceived, hfd]
    exact hall.2

-- a step that leaves the scheduler alone, and the messages that came in
theorem stay (h : Conveyed exp s) (hholds : Holds exp s') (hscheduler : s'.scheduler = s.scheduler)
    (hreader : s'.reader = s.reader ∨ s'.reader = .ended) (hfd : s'.fd = s.fd)
    (hreceived : s'.received = s.received) : Conveyed exp s' := by
  refine ⟨hholds, hscheduler ▸ h.kept, ?_, ?_, ?_, ?_⟩
  . rw [hscheduler, hreceived]
    rcases hreader with hsame | hended
    . rw [hsame]
      exact h.received
    . rw [hended]
      have := h.received
      exact ⟨by dsimp only [ReaderPc.held]; omega, this.2⟩
  . rw [hscheduler, hreceived]
    rcases hreader with hsame | hended
    . rw [hsame]
      exact h.exact
    . intro hne
      exact absurd hended hne
  . rw [hscheduler, hreceived, hfd]
    exact h.messages
  . rw [hscheduler, hreceived, hfd]
    exact h.sent

theorem receive {other : Side} {conf : PolicyConfig} {r : Reader.ReadMsg} {res : Schedule.Parsed}
    (h : Conveyed exp s) (hdelivered : Delivered exp s other conf r res)
    : Conveyed exp (receiver s r res) := by
  have hscheduler := receiver_scheduler hdelivered
  have hlen : s.received.length = s.scheduler.next := by
    have := h.exact (by rw [hdelivered.reading]; simp)
    rw [hdelivered.reading] at this
    exact this
  have hreceived : (receiver s r res).received.length = s.scheduler.next + 1 := by
    simp [receiver, hlen]
  refine ⟨h.holds.step (d := .clientToServer) (.received hdelivered), hscheduler ▸ h.kept, ?_, ?_, ?_, ?_⟩
  . rw [hreceived, hscheduler]
    exact ⟨Nat.le_refl _, Nat.le_refl _⟩
  . intro _
    rw [hreceived, hscheduler]
    rfl
  . rw [hscheduler]
    intro msg hmsg
    apply (h.messages msg hmsg).append
  . rw [hscheduler]
    intro w hw
    apply (h.sent w hw).append

theorem put {arg : OFPMsgArg} {qid garbage : Nat} {state : Scheduler.State} (h : Conveyed exp s)
    (hreader : s.reader = .parsed arg)
    (hput : Scheduler.stepPutMsg s.scheduler { arg with qid := some (arg.qid.getD qid) } s.buf s.fd
      garbage = some state)
    : Conveyed exp { s with reader := .reading, scheduler := state } := by
  have hstep : Scheduler.step s.scheduler
      (.putMsg { arg with qid := some (arg.qid.getD qid) } s.buf s.fd garbage) = some state := hput
  have hnext := (Scheduler.putMsg_frame hput).1
  have hlen : s.received.length = s.scheduler.next + 1 := by
    have := h.exact (by rw [hreader]; simp)
    rw [hreader] at this
    exact this
  -- the frame of the message that is pushed is the last one that came in
  rcases h.holds arg hreader with ⟨self, other, conf, frame, res, hlast, hres, harg, hbuf⟩
  have hframe : s.received[s.scheduler.next]? = some frame := by
    rw [List.getLast?_eq_getElem?, hlen] at hlast
    exact hlast
  have hall := @Scheduler.forall_messages_of_step (FromFrame exp s.received s.fd) _ _ _ h.kept.sized
    hstep (by
      intro arg' mem fd garbage' hlabel
      rw [Scheduler.Label.putMsg.injEq] at hlabel
      rcases hlabel with ⟨rfl, rfl, rfl, rfl⟩
      refine ⟨frame, hframe, self, other, conf, res, hres, ?_, ?_, rfl⟩
      . rw [harg]
        rfl
      . rw [harg, hbuf]
        rfl)
    h.messages h.sent
  refine ⟨?_, h.kept.step hstep, ?_, ?_, hall.1, hall.2⟩
  . intro arg' harg'
    contradiction
  . dsimp only [ReaderPc.held]
    omega
  . intro _
    dsimp only [ReaderPc.held]
    omega

theorem step (h : Conveyed exp s) (hstep : SideStep exp d s label s') : Conveyed exp s' := by
  have hholds := h.holds.step hstep
  cases hstep with
  | ended | killed => exact h.stay hholds rfl (.inr rfl) rfl rfl
  | same | respond | unmarked => exact h.stay hholds rfl (.inl rfl) rfl rfl
  | received hdelivered => exact h.receive hdelivered
  | overheard hdelivered =>
    rcases overhearer_scheduler hdelivered with hsame | ⟨-, qid, identify, hmark⟩
    . exact h.stay hholds hsame (.inl rfl) rfl rfl
    . exact h.goOn ⟨_, rfl⟩ hmark (by simp) rfl rfl rfl rfl rfl
  | put hreader hput => exact h.put hreader hput
  | insertPos hstate => exact @goOn _ _ _ _ .insertPos _ h ⟨_, rfl⟩ hstate (by simp) rfl rfl rfl rfl rfl
  | readToBeSent hstate =>
    exact @goOn _ _ _ _ .readToBeSent _ h ⟨_, rfl⟩ hstate (by simp) rfl rfl rfl rfl rfl
  | @run now state _ _ hstate =>
    exact @goOn _ _ _ _ (.run now) _ h ⟨_, rfl⟩ hstate (by simp) rfl rfl rfl rfl rfl
  | @writev accepted state hstate =>
    exact @goOn _ _ _ _ (.writev accepted) _ h ⟨_, rfl⟩ hstate (by simp) rfl rfl rfl rfl rfl
  | @mark identify i q resp hq =>
    have hmark : Scheduler.step s.scheduler (.markFinished i identify)
        = some
            { s.scheduler with
                queues := s.scheduler.queues.set i (q.markFinished identify).2 } := by
      simp only [Scheduler.step, Scheduler.stepMarkFinished, hq]
    exact h.goOn ⟨_, rfl⟩ hmark (by simp) rfl rfl rfl rfl rfl

end Conveyed

theorem conveyed_of_reachable {exp : ℚ → ℚ} {p : Proxy} (h : (machine exp).Reachable p) (d : Dir)
    : Conveyed exp (p.side d) := by
  revert d
  apply Machine.Reachable.invariant _ _ h
  . rintro p ⟨m, now, fd, conf, events, mkfifo, opened, pipe, stdin, buf, respBuf, rfl⟩ d
    apply Conveyed.start
  . intro p label p' _ ih hstep d
    apply (ih d).step (sideStep_of_step hstep d)

section Ended

variable {exp : ℚ → ℚ} {p p' : Proxy} {d : Dir} {s s' : Side} {label : Label}

end Ended

end Proxy
end OfpProxy
