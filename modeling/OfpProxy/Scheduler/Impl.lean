import OfpProxy.Machine.Basic
import OfpProxy.Schedule.Impl

/-!
This module contains `Schedule::run` and `Schedule::putMessage` as one machine, together with the
acknowledgements that come in from the response pipe and from the opposite direction. Every method of
`Queue` is one step. The state remembers which messages were pushed, written and cleaned.
-/

namespace OfpProxy
namespace Scheduler

-- what an int32_t holds after x was assigned to it
def i32 (x : Int) : Int := Int.bmod x 4294967296

-- Where `run` is. A message it has fetched is known by its address.
inductive RunPc where
  -- the top of the outer loop
  | start
  -- in front of the call of cleanFinishMsg on queue i
  | clean (i : Nat) (cleanNum : Int)
  -- the condition of the inner loop
  | loop
  -- in front of the call of fetchMsg on queue i
  | poll (i : Nat)
  | fetched (addr : Nat)
  -- in_process is set
  | marked (addr : Nat)
  | written (addr : Nat)
  -- behind the loop over the queues, with a message
  | sent
  deriving DecidableEq

-- Where the reader thread is in `putMessage`.
inductive PutPc where
  | idle
  | pushed (addr identity : Nat) (pos : MsgPos)
  | mapped (addr : Nat)
  deriving DecidableEq

-- A call of `Writev_nByte` with what the kernel accepted, or `none` for a failure.
structure Write where
  msg : OFPMsg
  accepted : Option Nat
  deriving DecidableEq

structure State where
  name : String
  queues : List Queue
  posMap : Nat → Option MsgPos
  maxInProcess : Int
  run : RunPc
  put : PutPc
  -- the address the next new returns
  next : Nat
  pushed : List Nat
  sent : List Write
  cleaned : List Nat

inductive Label where
  | putMsg (arg : OFPMsgArg) (msg : Mem) (fd : Int) (garbage : Nat)
  | insertPos
  | readToBeSent
  | markFinished (qid identify : Nat)
  | run (now : Timeval)
  | writev (accepted : Option Nat)

def messagesOf (queues : List Queue) : List OFPMsg := queues.flatMap Queue.msgQueue

namespace State

def init (name : String) (now : Nat → Timeval) : State where
  name := name
  queues := (List.range Schedule.queueNum).map fun i => .new (Schedule.intervalMs i) (now i)
  posMap := fun _ => none
  maxInProcess := 12
  run := .start
  put := .idle
  next := 0
  pushed := []
  sent := []
  cleaned := []

def isSWToControl (s : State) : Bool := s.name ≠ "SERVER"

def messages (s : State) : List OFPMsg := messagesOf s.queues

def find (s : State) (addr : Nat) : Option OFPMsg := s.messages.find? fun msg => msg.addr = addr

-- writing through a pointer
def update (s : State) (addr : Nat) (f : OFPMsg → OFPMsg) : State :=
  let updateMsg (msg : OFPMsg) : OFPMsg := if msg.addr = addr then f msg else msg
  { s with queues := s.queues.map fun q => { q with msgQueue := q.msgQueue.map updateMsg } }

end State

-- the message putMessage has built is pushed, if arg.qid is a queue
def stepPutMsg (s : State) (arg : OFPMsgArg) (mem : Mem) (fd : Int) (garbage : Nat) : Option State :=
  match s.put, arg.qid with
  | .idle, some qid =>
    match s.queues[qid]? with
    | none => none
    | some q =>
      let msg := Schedule.newOFPMsg mem arg fd s.next garbage
      match q.putMsg msg with
      | none => none
      | some (pid, q) =>
        some
          { s with
              queues := s.queues.set qid q
              put := .pushed s.next msg.identity ⟨qid, pid⟩
              next := s.next + 1
              pushed := s.pushed ++ [s.next] }
  | _, _ => none

-- pos_map.insert keeps an entry that is already there
def stepInsertPos (s : State) : Option State :=
  match s.put with
  | .pushed addr identity pos =>
    let posMap := Function.update s.posMap identity (some ((s.posMap identity).getD pos))
    some { s with posMap := posMap, put := .mapped addr }
  | _ => none

-- the message may be gone by now
def stepReadToBeSent (s : State) : Option State :=
  match s.put with
  | .mapped addr =>
    let s := s.update addr fun msg => { msg with readToBeSent := true }
    some { s with put := .idle }
  | _ => none

def stepMarkFinished (s : State) (qid identify : Nat) : Option State :=
  match s.queues[qid]? with
  | none => none
  | some q => some { s with queues := s.queues.set qid (q.markFinished identify).2 }

def stepRun (s : State) (now : Timeval) : Option State :=
  match s.run with
  | .start =>
    if s.maxInProcess < 2 ∨ s.isSWToControl then
      some { s with run := .clean 0 0 }
    else
      some { s with run := .loop }
  | .clean i cleanNum =>
    if i < Schedule.queueNum then
      match s.queues[i]? with
      | none => none
      | some q =>
        match q.cleanFinishMsg with
        | none => none
        | some res =>
          some
            { s with
                queues := s.queues.set i res.queue
                cleaned := s.cleaned ++ res.recorded.map OFPMsg.addr
                run := .clean (i + 1) (i32 (cleanNum + res.count)) }
    else
      some { s with maxInProcess := i32 (s.maxInProcess + cleanNum), run := .loop }
  | .loop =>
    if s.maxInProcess > 0 then some { s with run := .poll 0 } else some { s with run := .start }
  | .poll i =>
    if i < Schedule.queueNum then
      match s.queues[i]? with
      | none => none
      | some q =>
        let (msg, q) := q.fetchMsg now
        let s := { s with queues := s.queues.set i q }
        match msg with
        | none => some { s with run := .poll (i + 1) }
        | some msg => some { s with run := .fetched msg.addr }
    else
      -- no message was fetched: break
      some { s with run := .start }
  | .fetched addr =>
    match s.find addr with
    | none => none
    | some _ =>
      let s := s.update addr fun msg => { msg with inProcess := true }
      some { s with run := .marked addr }
  | .marked _ => none
  | .written addr =>
    match s.find addr with
    | none => none
    | some msg =>
      let s :=
        if Queue.msgNeedNoTime msg then
          s.update addr fun msg => { msg with finished := true }
        else
          s
      some { s with run := .sent }
  | .sent =>
    if !s.isSWToControl then
      some { s with maxInProcess := i32 (s.maxInProcess - 1), run := .loop }
    else
      -- break
      some { s with run := .start }

-- the kernel accepts at least one byte of a message that has any, or fails
def stepWritev (s : State) (accepted : Option Nat) : Option State :=
  match s.run with
  | .marked addr =>
    match s.find addr with
    | none => none
    | some msg =>
      if ∀ n ∈ accepted, n ≤ msg.len ∧ (0 < msg.len → 0 < n) then
        some { s with sent := s.sent ++ [⟨msg, accepted⟩], run := .written addr }
      else
        none
  | _ => none

def step (s : State) : Label → Option State
  | .putMsg arg msg fd garbage => stepPutMsg s arg msg fd garbage
  | .insertPos => stepInsertPos s
  | .readToBeSent => stepReadToBeSent s
  | .markFinished qid identify => stepMarkFinished s qid identify
  | .run now => stepRun s now
  | .writev accepted => stepWritev s accepted

def machine : Machine State Label where
  init s := ∃ name now, s = .init name now
  step := step

end Scheduler
end OfpProxy
