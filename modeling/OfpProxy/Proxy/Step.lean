import OfpProxy.Proxy.Impl
import OfpProxy.Scheduler.History

/-!
This module says once what a step of the proxy can do to each of its two sides.
-/

namespace OfpProxy

theorem Dir.other_ne (d : Dir) : d.other ≠ d := by
  cases d <;> decide

theorem Dir.other_other (d : Dir) : d.other.other = d := by
  cases d <;> rfl

theorem Dir.eq_or_other (d e : Dir) : e = d ∨ e = d.other := by
  cases d <;> cases e <;> simp [Dir.other]

namespace Proxy

section Set

variable (p : Proxy) (d : Dir) (side : Side)

@[simp]
theorem side_set : (p.set d side).side d = side := by
  unfold set
  exact Function.update_self ..

@[simp]
theorem side_set_other : (p.set d side).side d.other = p.side d.other := by
  unfold set
  exact Function.update_of_ne d.other_ne ..

@[simp]
theorem side_set_set_other (side' : Side) : ((p.set d side).set d.other side').side d = side := by
  unfold set
  dsimp only
  rw [Function.update_of_ne (Ne.symm d.other_ne), Function.update_self]

theorem side_set_of_ne {e : Dir} (h : e ≠ d) : (p.set d side).side e = p.side e := by
  unfold set
  exact Function.update_of_ne h ..

end Set

/--
A message that `read_ofp_msg` has returned, and what `getOFPMsgArg` made of it.
-/
structure Delivered (exp : ℚ → ℚ) (side other : Side) (conf : PolicyConfig) (r : Reader.ReadMsg)
    (res : Schedule.Parsed) : Prop where
  reading : side.reader = .reading
  idle : side.scheduler.put = .idle
  read : Reader.readOfpMsg side.events side.buf = some r
  pos : 0 < r.ret
  parsed : Schedule.getOFPMsgArg exp side.schedule other.schedule conf r.buf = some res

-- the side whose reader has received the message
def receiver (side : Side) (r : Reader.ReadMsg) (res : Schedule.Parsed) : Side :=
  { side.withSchedule res.self with
      reader := .parsed res.arg
      events := r.events
      buf := res.msg
      received := side.received ++ [r.buf] }

/--
What `stepReceive` can do.
-/
inductive Receive (exp : ℚ → ℚ) (p : Proxy) (d : Dir) : Proxy → Prop where
  | ended {events : List Socket.Event} {buf : Mem} {closed : Bool} :
    (p.side d).reader = .reading
      → Receive exp p d
          { p.set d
              { p.side d with
                  reader := .ended
                  events := events
                  buf := buf } with
            closed := closed }
  | delivered {r : Reader.ReadMsg} {res : Schedule.Parsed} :
    Delivered exp (p.side d) (p.side d.other) p.conf r res
      → Receive exp p d
          { (p.set d (receiver (p.side d) r res)).set d.other
              ((p.side d.other).withSchedule res.other) with
            conf := res.conf }

theorem receive_of_step {exp : ℚ → ℚ} {p p' : Proxy} {d : Dir}
    (h : stepReceive exp p d = some p') : Receive exp p d p' := by
  unfold stepReceive at h
  dsimp only at h
  split at h
  . next hreading hidle =>
    split at h
    . rw [← Option.some.inj h]
      apply Receive.ended hreading
    . split at h
      . contradiction
      . next r hread =>
        split at h
        . rw [← Option.some.inj h]
          apply Receive.ended hreading
        . next buf len fd hturn =>
          split at h
          . contradiction
          . next res hres =>
            have hret : ¬r.ret < 0 ∧ ¬r.ret = 0 := by
              unfold Reader.turn at hturn
              split at hturn
              . contradiction
              . next hneg =>
                split at hturn
                . contradiction
                . next hzero => exact ⟨hneg, hzero⟩
            have hbuf : buf = r.buf := by
              unfold Reader.turn at hturn
              rw [if_neg hret.1, if_neg hret.2, Reader.Turn.putMessage.injEq] at hturn
              exact Eq.symm hturn.1
            rw [← Option.some.inj h]
            subst hbuf
            apply Receive.delivered ⟨hreading, hidle, hread, by omega, hres⟩
  . contradiction

-- the side whose listener has read
def afterRead (side : Side) (r : Socket.Received) : Side :=
  { side with pipe := if side.respFd = RespFd.fifo then r.events else side.pipe }

/--
What `stepRespond` can do with what `read` returned.
-/
inductive Respond (p : Proxy) (d : Dir) (r : Socket.Received) : Proxy → Prop where
  | taken {respBuf : Mem} {stdin : List Socket.Event} :
    0 < r.rc → respBuf = (p.side d).respBuf.copyFrom 0 (.ofList r.bytes) 0 r.bytes.length
      → Respond p d r
          { p.set d
              { afterRead (p.side d) r with
                  respBuf := respBuf
                  resp := .marking (respBuf.load64 0) 0 } with
            stdin := stdin }
  | nothing {stdin : List Socket.Event} :
    r.rc ≤ 0 → Respond p d r { p.set d (afterRead (p.side d) r) with stdin := stdin }

theorem respond_of_step {p p' : Proxy} {d : Dir} (h : stepRespond p d = some p')
    : (p.side d).resp = .waiting
        ∧ ∃ r, Socket.read 8 (respEvents p d) = some r ∧ Respond p d r p' := by
  unfold stepRespond at h
  dsimp only at h
  split at h
  . next hresp =>
    split at h
    . contradiction
    . next r hread =>
      refine ⟨hresp, r, hread, ?_⟩
      split at h
      . next hrc =>
        rw [← Option.some.inj h]
        exact .taken hrc rfl
      . next hrc =>
        rw [← Option.some.inj h]
        exact .nothing (by omega)
  . contradiction

/--
What a step can do to one side.
-/
inductive SideStep (exp : ℚ → ℚ) (d : Dir) (s : Side) : Label → Side → Prop where
  | same {label : Label} : SideStep exp d s label s
  | ended {events : List Socket.Event} {buf : Mem} :
    s.reader = .reading
      → SideStep exp d s (.receive d)
          { s with
              reader := .ended
              events := events
              buf := buf }
  | killed : d = .serverToClient → SideStep exp d s .kill { s with reader := .ended }
  | received {other : Side} {conf : PolicyConfig} {r : Reader.ReadMsg} {res : Schedule.Parsed} :
    Delivered exp s other conf r res → SideStep exp d s (.receive d) (receiver s r res)
  | overheard {other : Side} {conf : PolicyConfig} {r : Reader.ReadMsg} {res : Schedule.Parsed} :
    Delivered exp other s conf r res → SideStep exp d s (.receive d.other) (s.withSchedule res.other)
  | put {arg : OFPMsgArg} {qid garbage : Nat} {state : Scheduler.State} :
    s.reader = .parsed arg
      → Scheduler.stepPutMsg s.scheduler { arg with qid := some (arg.qid.getD qid) } s.buf s.fd garbage
        = some state
      → SideStep exp d s (.put d qid garbage)
          { s with
              reader := .reading
              scheduler := state }
  | insertPos {state : Scheduler.State} :
    Scheduler.stepInsertPos s.scheduler = some state
      → SideStep exp d s (.insertPos d) { s with scheduler := state }
  | readToBeSent {state : Scheduler.State} :
    Scheduler.stepReadToBeSent s.scheduler = some state
      → SideStep exp d s (.readToBeSent d) { s with scheduler := state }
  | run {now : Timeval} {state : Scheduler.State} {isListenResp : Bool} {resp : RespPc} :
    Scheduler.stepRun s.named now = some state
      → SideStep exp d s (.run d now)
          { s with
              isListenResp := isListenResp
              resp := resp
              scheduler := state }
  | writev {accepted : Option Nat} {state : Scheduler.State} :
    Scheduler.stepWritev s.scheduler accepted = some state
      → SideStep exp d s (.writev d accepted) { s with scheduler := state }
  | respond {pipe : List Socket.Event} {respBuf : Mem} {resp : RespPc} :
    SideStep exp d s (.respond d)
      { s with
          pipe := pipe
          respBuf := respBuf
          resp := resp }
  | mark {identify i : Nat} {q : Queue} {resp : RespPc} :
    s.scheduler.queues[i]? = some q
      → SideStep exp d s (.mark d)
          { s with
              scheduler :=
                { s.scheduler with
                    queues := s.scheduler.queues.set i (q.markFinished identify).2 }
              resp := resp }
  | unmarked {resp : RespPc} : SideStep exp d s (.mark d) { s with resp := resp }

section Step

variable {exp : ℚ → ℚ} {p p' : Proxy} {d e : Dir}

-- A step that only sets one side leaves the other one alone.
theorem sideStep_of_set {label : Label} {side : Side} {p : Proxy}
    (h : SideStep exp d (p.side d) label side) (e : Dir)
    : SideStep exp e (p.side e) label ((p.set d side).side e) := by
  by_cases hed : e = d
  . subst hed
    rw [side_set]
    exact h
  . rw [side_set_of_ne _ _ _ hed]
    exact .same

theorem sideStep_of_receive (h : stepReceive exp p d = some p') (e : Dir)
    : SideStep exp e (p.side e) (.receive d) (p'.side e) := by
  cases receive_of_step h with
  | ended hreading => apply sideStep_of_set (.ended hreading)
  | delivered hdelivered =>
    rcases d.eq_or_other e with rfl | rfl
    . change SideStep exp e _ _ (((p.set e _).set e.other _).side e)
      rw [side_set_set_other]
      exact .received hdelivered
    . change SideStep exp d.other _ _ (((p.set d _).set d.other _).side d.other)
      rw [side_set]
      rw [← d.other_other] at hdelivered
      have hstep := @SideStep.overheard exp d.other _ _ _ _ _ hdelivered
      rw [d.other_other] at hstep
      exact hstep

theorem sideStep_of_put {qid garbage : Nat} (h : stepPut p d qid garbage = some p') (e : Dir)
    : SideStep exp e (p.side e) (.put d qid garbage) (p'.side e) := by
  unfold stepPut at h
  dsimp only at h
  split at h
  . next arg hreader =>
    split at h
    . contradiction
    . next state hput =>
      rw [← Option.some.inj h]
      apply sideStep_of_set (.put hreader hput)
  . contradiction

theorem exists_of_stepReader {step : Scheduler.State → Option Scheduler.State}
    (h : stepReader step p d = some p')
    : ∃ state, step (p.side d).scheduler = some state
        ∧ p' = p.set d { p.side d with scheduler := state } := by
  unfold stepReader at h
  dsimp only at h
  split at h
  . contradiction
  . rw [Option.map_eq_some_iff] at h
    rcases h with ⟨state, hstate, rfl⟩
    exact ⟨state, hstate, rfl⟩

theorem startListen_eq (s : Side)
    : ∃ isListenResp resp,
        s.startListen
          =
        { s with
            isListenResp := isListenResp
            resp := resp } := by
  unfold Side.startListen
  split
  . exact ⟨_, _, rfl⟩
  . exact ⟨s.isListenResp, s.resp, rfl⟩

theorem sideStep_of_run {now : Timeval} (h : stepRun p d now = some p') (e : Dir)
    : SideStep exp e (p.side e) (.run d now) (p'.side e) := by
  rcases startListen_eq (p.side d) with ⟨isListenResp, resp, hlisten⟩
  unfold stepRun at h
  simp only [hlisten, Option.map_eq_some_iff] at h
  rcases h with ⟨state, hstate, rfl⟩
  apply sideStep_of_set (.run hstate)

theorem sideStep_of_respond (h : stepRespond p d = some p') (e : Dir)
    : SideStep exp e (p.side e) (.respond d) (p'.side e) := by
  rcases respond_of_step h with ⟨-, r, -, hrespond⟩
  cases hrespond with
  | taken | nothing => exact sideStep_of_set .respond e

theorem sideStep_of_mark (h : stepMark p d = some p') (e : Dir)
    : SideStep exp e (p.side e) (.mark d) (p'.side e) := by
  unfold stepMark at h
  dsimp only at h
  split at h
  . split at h
    . rw [← Option.some.inj h]
      apply sideStep_of_set .unmarked
    . next q hq =>
      rw [← Option.some.inj h]
      exact sideStep_of_set (.mark hq) e
  . contradiction

theorem sideStep_of_step {label : Label} (h : step exp p label = some p') (e : Dir)
    : SideStep exp e (p.side e) label (p'.side e) := by
  cases label with
  | receive d => apply sideStep_of_receive h
  | put d qid garbage => apply sideStep_of_put h
  | insertPos d =>
    rcases exists_of_stepReader h with ⟨state, hstate, rfl⟩
    apply sideStep_of_set (.insertPos hstate)
  | readToBeSent d =>
    rcases exists_of_stepReader h with ⟨state, hstate, rfl⟩
    apply sideStep_of_set (.readToBeSent hstate)
  | run d now => apply sideStep_of_run h
  | writev d accepted =>
    simp only [step, stepWritev] at h
    split at h
    . contradiction
    . rw [Option.map_eq_some_iff] at h
      rcases h with ⟨state, hstate, rfl⟩
      apply sideStep_of_set (.writev hstate)
  | respond d => apply sideStep_of_respond h
  | mark d => apply sideStep_of_mark h
  | kill =>
    simp only [step, stepKill] at h
    split at h
    . rw [← Option.some.inj h]
      exact sideStep_of_set (.killed rfl) e
    . contradiction

end Step

def segment : List UInt8 → List Socket.Event
  | [] => []
  | byte :: bytes => [.segment byte bytes]

-- A proxy whose controller sends `bytes` in one piece, and nothing else happens on its sockets.
def commanded (bytes : List UInt8) : Proxy :=
  doTcpTunnel (fun _ _ => 0) (fun _ => ⟨0, 0⟩) (fun _ => 5) .idle
    (fun d => if d = .serverToClient then segment bytes else []) (fun _ => false) (fun _ => true)
    (fun _ => []) [] (fun _ _ => 0) (fun _ _ => 0)

theorem init_commanded {exp : ℚ → ℚ} (bytes : List UInt8) : (machine exp).init (commanded bytes) :=
  ⟨_, _, _, _, _, _, _, _, _, _, _, rfl⟩

-- one message is read, put, fetched and written
def forwardOne (d : Dir) (ticks len : Nat) : List Label :=
  [.receive d, .put d 0 0, .insertPos d, .readToBeSent d] ++ List.replicate ticks (.run d ⟨0, 0⟩)
    ++ [.writev d (some len)]

end Proxy
end OfpProxy
