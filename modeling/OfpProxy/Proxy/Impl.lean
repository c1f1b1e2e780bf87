import OfpProxy.Reader.Impl
import OfpProxy.Scheduler.Impl
import OfpProxy.Tunnel.Impl

/-!
This module contains the proxy as `do_tcp_tunnel` starts it for one connection: two readers, two
schedulers and the two threads that listen for acknowledgements, all of which take their steps in any
order. The readers share the load accounting and reach into each other's schedule.
-/

namespace OfpProxy

-- which way the messages go
inductive Dir where
  | clientToServer
  | serverToClient
  deriving DecidableEq

namespace Dir

def other : Dir → Dir
  | clientToServer => serverToClient
  | serverToClient => clientToServer

def name : Dir → String
  | clientToServer => "CLIENT"
  | serverToClient => "SERVER"

def pipeName : Dir → List UInt8
  | clientToServer => Tunnel.clientPipe
  | serverToClient => Tunnel.serverPipe

end Dir

-- Where `read_client` or `read_server` is.
inductive ReaderPc where
  -- in front of read_ofp_msg
  | reading
  -- getOFPMsgArg has returned
  | parsed (arg : OFPMsgArg)
  | ended

-- Where `Run_listen_resp` is.
inductive RespPc where
  | notStarted
  -- in front of read
  | waiting
  -- in front of the call of markFinished on queue i
  | marking (identify i : Nat)

/--
What the descriptor stands for that `Run_listen_resp` reads.
-/
inductive RespFd where
  | stdin
  | fifo
  | invalid
  deriving DecidableEq

-- Whether mkfifo succeeds, and whether open does.
def RespFd.ofMkfifo (mkfifo opened : Bool) : RespFd :=
  -- the 0 that mkfifo returns is taken for a descriptor
  if mkfifo then
    .stdin
  else if opened then
    .fifo
  else
    .invalid

structure Side where
  reader : ReaderPc
  events : List Socket.Event
  buf : Mem
  fd : Int
  -- the queues, pos_map and the thread that runs the schedule
  scheduler : Scheduler.State
  filterBuf : FilterBuf
  respPipe : Mem
  getDpId : Bool
  isListenResp : Bool
  dpId : UInt8
  resp : RespPc
  respFd : RespFd
  pipe : List Socket.Event
  respBuf : Mem
  -- the bytes that arrive from the start of the connection on
  source : List UInt8
  -- what `read_ofp_msg` left in the buffer each time it returned a message, oldest first
  received : List Mem

namespace Side

def start (d : Dir) (m : Mem) (now : Timeval) (fd : Int) (events : List Socket.Event)
    (respFd : RespFd) (pipe : List Socket.Event) (buf respBuf : Mem) : Side :=
  let schedule := Schedule.construct m (cString d.name) d.pipeName now
  { reader := .reading
    events := events
    buf := buf
    fd := fd
    scheduler := .init d.name fun _ => now
    filterBuf := schedule.buf
    respPipe := schedule.respPipe
    getDpId := schedule.getDpId
    isListenResp := schedule.isListenResp
    dpId := schedule.dpId
    resp := .notStarted
    respFd := respFd
    pipe := pipe
    respBuf := respBuf
    source := Socket.incoming events
    received := [] }

def schedule (s : Side) : Schedule where
  queues := s.scheduler.queues
  posMap := s.scheduler.posMap
  buf := s.filterBuf
  respPipe := s.respPipe
  getDpId := s.getDpId
  isListenResp := s.isListenResp
  dpId := s.dpId

def withSchedule (s : Side) (schedule : Schedule) : Side :=
  { s with
      scheduler :=
        { s.scheduler with
            queues := schedule.queues
            posMap := schedule.posMap }
      filterBuf := schedule.buf
      respPipe := schedule.respPipe
      getDpId := schedule.getDpId
      isListenResp := schedule.isListenResp
      dpId := schedule.dpId }

def name (s : Side) : String := if s.schedule.isSWToControl then "CLIENT" else "SERVER"

-- `run` looks at the name each time it asks for its direction
def named (s : Side) : Scheduler.State := { s.scheduler with name := s.name }

-- the top of the outer loop of `run`
def startListen (s : Side) : Side :=
  if s.scheduler.run = .start ∧ s.getDpId ∧ !s.isListenResp then
    { s with
        isListenResp := true
        resp := .waiting }
  else
    s

end Side

structure Proxy where
  side : Dir → Side
  conf : PolicyConfig
  -- what arrives on descriptor 0
  stdin : List Socket.Event
  -- Close was called on both sockets
  closed : Bool

namespace Proxy

inductive Label where
  | receive (d : Dir)
  | put (d : Dir) (qid garbage : Nat)
  | insertPos (d : Dir)
  | readToBeSent (d : Dir)
  | run (d : Dir) (now : Timeval)
  | writev (d : Dir) (accepted : Option Nat)
  | respond (d : Dir)
  | mark (d : Dir)
  | kill

def set (p : Proxy) (d : Dir) (side : Side) : Proxy :=
  { p with side := Function.update p.side d side }

-- read_ofp_msg, and getOFPMsgArg on what it returns
def stepReceive (exp : ℚ → ℚ) (p : Proxy) (d : Dir) : Option Proxy :=
  let side := p.side d
  match side.reader, side.scheduler.put with
  | .reading, .idle =>
    if p.closed then
      -- EBADF
      some (p.set d { side with reader := .ended })
    else
      match Reader.readOfpMsg side.events side.buf with
      | none => none
      | some res =>
        let side :=
          { side with
              events := res.events
              buf := res.buf }
        match Reader.turn side.fd res with
        | .closeBoth => some { p.set d { side with reader := .ended } with closed := true }
        | .putMessage buf _ _ =>
          match Schedule.getOFPMsgArg exp side.schedule (p.side d.other).schedule p.conf buf with
          | none => none
          | some res =>
            let side :=
              { side.withSchedule res.self with
                  reader := .parsed res.arg
                  buf := res.msg
                  received := side.received ++ [buf] }
            let p := (p.set d side).set d.other ((p.side d.other).withSchedule res.other)
            some { p with conf := res.conf }
  | _, _ => none

-- the rest of putMessage, up to the push
def stepPut (p : Proxy) (d : Dir) (qid garbage : Nat) : Option Proxy :=
  let side := p.side d
  match side.reader with
  | .parsed arg =>
    let arg := { arg with qid := some (arg.qid.getD qid) }
    match Scheduler.stepPutMsg side.scheduler arg side.buf side.fd garbage with
    | none => none
    | some s =>
      some
        (p.set d
          { side with
              reader := .reading
              scheduler := s })
  | _ => none

-- a step that the reader takes behind the push
def stepReader (step : Scheduler.State → Option Scheduler.State) (p : Proxy) (d : Dir)
    : Option Proxy :=
  let side := p.side d
  match side.reader with
  | .ended => none
  | _ => (step side.scheduler).map fun s => p.set d { side with scheduler := s }

def stepRun (p : Proxy) (d : Dir) (now : Timeval) : Option Proxy :=
  let side := (p.side d).startListen
  (Scheduler.stepRun side.named now).map fun s => p.set d { side with scheduler := s }

def stepWritev (p : Proxy) (d : Dir) (accepted : Option Nat) : Option Proxy :=
  let side := p.side d
  if p.closed ∧ accepted ≠ none then
    none
  else
    (Scheduler.stepWritev side.scheduler accepted).map fun s => p.set d { side with scheduler := s }

def ebadf : Int := 9

def respEvents (p : Proxy) (d : Dir) : List Socket.Event :=
  match (p.side d).respFd with
  | .stdin => p.stdin
  | .fifo => (p.side d).pipe
  | .invalid => [.error ebadf]

-- read, and the identify at the start of the buffer
def stepRespond (p : Proxy) (d : Dir) : Option Proxy :=
  let side := p.side d
  match side.resp with
  | .waiting =>
    match Socket.read 8 (respEvents p d) with
    | none => none
    | some r =>
      let side := { side with pipe := if side.respFd = RespFd.fifo then r.events else side.pipe }
      let p := { p with stdin := if side.respFd = RespFd.stdin then r.events else p.stdin }
      if r.rc > 0 then
        let respBuf := side.respBuf.copyFrom 0 (.ofList r.bytes) 0 r.bytes.length
        some
          (p.set d
            { side with
                respBuf := respBuf
                resp := .marking (respBuf.load64 0) 0 })
      else
        -- usleep
        some (p.set d side)
  | _ => none

def stepMark (p : Proxy) (d : Dir) : Option Proxy :=
  let side := p.side d
  match side.resp with
  | .marking identify i =>
    match side.scheduler.queues[i]? with
    | none => some (p.set d { side with resp := .waiting })
    | some q =>
      let (marked, q) := q.markFinished identify
      let s := { side.scheduler with queues := side.scheduler.queues.set i q }
      some
        (p.set d
          { side with
              scheduler := s
              resp := if marked then .waiting else .marking identify (i + 1) })
  | _ => none

-- SIGUSR1, which read_client sends to the thread of read_server when it ends
def stepKill (p : Proxy) : Option Proxy :=
  match (p.side .clientToServer).reader with
  | .ended =>
    some (p.set .serverToClient { p.side .serverToClient with reader := .ended })
  | _ => none

def step (exp : ℚ → ℚ) (p : Proxy) : Label → Option Proxy
  | .receive d => stepReceive exp p d
  | .put d qid garbage => stepPut p d qid garbage
  | .insertPos d => stepReader Scheduler.stepInsertPos p d
  | .readToBeSent d => stepReader Scheduler.stepReadToBeSent p d
  | .run d now => stepRun p d now
  | .writev d accepted => stepWritev p d accepted
  | .respond d => stepRespond p d
  | .mark d => stepMark p d
  | .kill => stepKill p

def doTcpTunnel (m : Dir → Mem) (now : Dir → Timeval) (fd : Dir → Int) (conf : PolicyConfig)
    (events : Dir → List Socket.Event) (mkfifo opened : Dir → Bool)
    (pipe : Dir → List Socket.Event) (stdin : List Socket.Event) (buf respBuf : Dir → Mem)
    : Proxy where
  side d :=
    .start d (m d) (now d) (fd d) (events d) (.ofMkfifo (mkfifo d) (opened d)) (pipe d) (buf d)
      (respBuf d)
  conf := conf
  stdin := stdin
  closed := false

def machine (exp : ℚ → ℚ) : Machine Proxy Label where
  init p := ∃ m now fd conf events mkfifo opened pipe stdin buf respBuf,
    p = doTcpTunnel m now fd conf events mkfifo opened pipe stdin buf respBuf
  step := step exp

end Proxy
end OfpProxy
