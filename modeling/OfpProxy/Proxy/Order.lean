import OfpProxy.Proxy.Content
import OfpProxy.Scheduler.Sorted

/-!
This module shows that the messages which are not classified any further keep their order on the way
through the proxy.
-/

namespace OfpProxy

/--
A frame that `getOFPMsgArg` sends to the first queue for its type alone, or for its command.
-/
def isImportant (frame : Mem) : Bool :=
  frame 1 ∉ [ofptPacketIn, ofptPacketOut, ofptStatsReply, ofptFeaturesReply]
    ∧ (frame 1 = ofptFlowMod → frame FlowModProcessed.command ≠ ofpfcAdd)

theorem Schedule.getOFPMsgArg_important {exp : ℚ → ℚ} {self other : Schedule} {conf : PolicyConfig}
    {frame : Mem} {res : Parsed} (h : getOFPMsgArg exp self other conf frame = some res)
    (himportant : isImportant frame = true) : res.arg.qid = some importantQueueId := by
  rcases exists_dispatch h with ⟨st, hst, rfl⟩
  simp only [isImportant, List.mem_cons, List.not_mem_nil, or_false, not_or, Bool.decide_and,
    Bool.and_eq_true, decide_eq_true_eq] at himportant
  rcases himportant with ⟨⟨hin, hout, hreply, hfeatures⟩, hcommand⟩
  by_cases hflow : frame 1 = ofptFlowMod
  . rw [dispatch_flowMod exp self other conf hflow, Option.map_eq_some_iff] at hst
    rcases hst with ⟨st', hst', rfl⟩
    cases FlowModProcessed.branch_of_processed hst' with
    | notAdd _ => rfl
    | noInst hadd _ | inst hadd _ _ => exact absurd hadd (hcommand hflow)
  . cases kept_of_dispatch hst hflow hout with
    | statsRequest _ | important _ _ => rfl
    | packetIn htype => exact absurd htype hin
    | statsReply htype => exact absurd htype hreply
    | featuresReply htype => exact absurd htype hfeatures

namespace Proxy

def importantAt (received : List Mem) (addr : Nat) : Bool := received[addr]?.any isImportant

def InLine (s : Side) : Prop :=
  Scheduler.Sorted (importantAt s.received) importantQueueId s.scheduler

section InLine

variable {exp : ℚ → ℚ} {d : Dir} {s s' : Side} {label : Label}

theorem InLine.goOn {name : String} {l : Scheduler.Label} (h : InLine s) (hconveyed : Conveyed exp s)
    (hreader : Scheduler.FromReader l) (hl : ∀ arg mem fd garbage, l ≠ .putMsg arg mem fd garbage)
    (hstep : Scheduler.step { s.scheduler with name := name } l = some s'.scheduler)
    (hreceived : s'.received = s.received) : InLine s' := by
  have hkept := hconveyed.kept.renamed name
  have hnamed : Scheduler.Sorted (importantAt s.received) importantQueueId
      { s.scheduler with name := name } := ⟨h.plain, h.only, h.line, h.head⟩
  unfold InLine
  rw [hreceived]
  apply hnamed.step hkept.sized hkept.owned hreader _ hstep
  intro arg mem fd garbage hlabel
  exact absurd hlabel (hl arg mem fd garbage)

theorem InLine.receive {other : Side} {conf : PolicyConfig} {r : Reader.ReadMsg} {res : Schedule.Parsed}
    (h : InLine s) (hconveyed : Conveyed exp s) (hdelivered : Delivered exp s other conf r res)
    : InLine (receiver s r res) := by
  unfold InLine
  rw [receiver_scheduler hdelivered]
  apply h.congr hconveyed.kept.owned
  intro addr haddr
  have hlen := hconveyed.exact (by rw [hdelivered.reading]; simp)
  rw [hdelivered.reading] at hlen
  change s.received.length = s.scheduler.next at hlen
  unfold importantAt receiver
  dsimp only
  rw [List.getElem?_append_left (by omega)]

theorem InLine.put {arg : OFPMsgArg} {qid garbage : Nat} {state : Scheduler.State} (h : InLine s)
    (hconveyed : Conveyed exp s) (hreader : s.reader = .parsed arg)
    (hput : Scheduler.stepPutMsg s.scheduler { arg with qid := some (arg.qid.getD qid) } s.buf s.fd
      garbage = some state)
    : InLine { s with reader := .reading, scheduler := state } := by
  rcases hconveyed.holds arg hreader with ⟨self, other, conf, frame, res, hlast, hres, rfl, hbuf⟩
  have hfrom : Scheduler.FromReader
      (.putMsg { res.arg with qid := some (res.arg.qid.getD qid) } s.buf s.fd garbage) :=
    ⟨exp, self, other, conf, frame, res, qid, hres, hbuf, rfl⟩
  apply Scheduler.Sorted.step h hconveyed.kept.sized hconveyed.kept.owned hfrom _ hput
  intro arg' mem fd garbage' hlabel himportant
  rw [Scheduler.Label.putMsg.injEq] at hlabel
  rw [← hlabel.1]
  have hlen := hconveyed.exact (by rw [hreader]; simp)
  rw [hreader] at hlen
  change s.received.length = s.scheduler.next + 1 at hlen
  rw [List.getLast?_eq_getElem?, hlen] at hlast
  change s.received[s.scheduler.next]? = some frame at hlast
  rw [importantAt, hlast, Option.any_some] at himportant
  rw [Schedule.getOFPMsgArg_important hres himportant]
  rfl

theorem InLine.step (h : InLine s) (hconveyed : Conveyed exp s) (hstep : SideStep exp d s label s')
    : InLine s' := by
  cases hstep with
  | same | ended | killed | respond | unmarked => exact h
  | received hdelivered => exact h.receive hconveyed hdelivered
  | overheard hdelivered =>
    rcases overhearer_scheduler hdelivered with hsame | ⟨-, qid, identify, hmark⟩
    . unfold InLine
      rw [hsame]
      exact h
    . exact @goOn _ _ _ _ (.markFinished qid identify) h hconveyed trivial (by simp) hmark rfl
  | put hreader hput => exact h.put hconveyed hreader hput
  | insertPos hstate => exact @goOn _ _ _ _ .insertPos h hconveyed trivial (by simp) hstate rfl
  | readToBeSent hstate => exact @goOn _ _ _ _ .readToBeSent h hconveyed trivial (by simp) hstate rfl
  | @run now state _ _ hstate => exact @goOn _ _ _ _ (.run now) h hconveyed trivial (by simp) hstate rfl
  | @writev accepted state hstate =>
    exact @goOn _ _ _ _ (.writev accepted) h hconveyed trivial (by simp) hstate rfl
  | @mark identify i q resp hq =>
    have hmark : Scheduler.step s.scheduler (.markFinished i identify)
        = some
            { s.scheduler with
                queues := s.scheduler.queues.set i (q.markFinished identify).2 } := by
      simp only [Scheduler.step, Scheduler.stepMarkFinished, hq]
    exact @goOn _ _ _ _ (.markFinished i identify) h hconveyed trivial (by simp) hmark rfl

end InLine

theorem inLine_of_reachable {exp : ℚ → ℚ} {p : Proxy} (h : (machine exp).Reachable p) (d : Dir)
    : InLine (p.side d) := by
  revert d
  apply Machine.Reachable.invariant _ _ h
  . rintro p ⟨m, now, fd, conf, events, mkfifo, opened, pipe, stdin, buf, respBuf, rfl⟩ d
    apply Scheduler.Sorted.init
  . intro p label p' hreach ih hstep d
    apply (ih d).step (conveyed_of_reachable hreach d) (sideStep_of_step hstep d)

end Proxy
end OfpProxy
