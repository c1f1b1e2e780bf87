import OfpProxy.OpenFlow.Frame
import OfpProxy.Priority.Impl

/-!
This module contains the messages of `schedule.h` and the methods of `Queue`, each of which runs as
one step under `queue_mutex`. A message is known by the address `new` gave it.
-/

namespace OfpProxy

structure OFPMsg where
  addr : Nat
  len : Nat
  priority : ℚ
  fd : Int
  maxWaitTime : Int
  processTime : Int
  identity : Nat
  uepid : UEPID
  inProcess : Bool
  finished : Bool
  readToBeSent : Bool
  buf : List UInt8
  deriving DecidableEq

-- msg->header->type
def OFPMsg.type (msg : OFPMsg) : UInt8 := msg.buf.getD 1 0

def lessPriority (t1 t2 : OFPMsg) : Bool :=
  if t1.maxWaitTime ≤ 0 ∧ t2.maxWaitTime > 0 then
    false
  else if t1.maxWaitTime ≤ 0 ∧ t2.maxWaitTime ≤ 0 then
    t1.maxWaitTime > t2.maxWaitTime
  else
    t1.priority < t2.priority

structure Queue where
  msgQueue : List OFPMsg
  lastFetch : Timeval
  intervalMs : ℚ

-- the largest size of a std::vector of pointers
def vectorMaxSize : Nat := 2 ^ 60 - 1

namespace Queue

def new (intervalMs : ℚ) (now : Timeval) : Queue where
  msgQueue := []
  lastFetch := now
  intervalMs := intervalMs

-- push_back throws once the vector cannot grow any more
def putMsg (q : Queue) (msg : OFPMsg) : Option (Nat × Queue) :=
  if q.msgQueue.length < vectorMaxSize then
    some (q.msgQueue.length, { q with msgQueue := q.msgQueue ++ [msg] })
  else
    none

def msgNeedNoTime (msg : OFPMsg) : Bool :=
  (!(msg.type = ofptFlowMod ∧ msg.identity ≠ 0) ∧ !(msg.type = ofptStatsRequest ∧ msg.identity ≠ 0)) ∨
    msg.type = ofptPacketOut

def markFinished (q : Queue) (identify : Nat) : Bool × Queue :=
  let (marked, msgs) := go q.msgQueue
  (marked, { q with msgQueue := msgs })
where
  go : List OFPMsg → Bool × List OFPMsg
    | [] => (false, [])
    | msg :: msgs =>
      if msg.inProcess ∧ !msg.finished ∧ msg.identity = identify then
        (true, { msg with finished := true } :: msgs)
      else
        let (marked, msgs) := go msgs
        (marked, msg :: msgs)

-- `markFinished(identify, pos)`. The position is compared with the size as a uint64_t. The result is
-- `none` when the element behind the last one is read.
def markFinishedAt (q : Queue) (identify : Nat) (pos : Int) : Option (Bool × Queue) :=
  if pos % 18446744073709551616 > q.msgQueue.length ∨ pos < 0 then
    some (false, q)
  else
    match q.msgQueue[pos.toNat]? with
    | none => none
    | some msg =>
      if msg.inProcess ∧ !msg.finished ∧ msg.identity = identify then
        some (true, { q with msgQueue := q.msgQueue.set pos.toNat { msg with finished := true } })
      else
        some (false, q)

def fetchMsg (q : Queue) (now : Timeval) : Option OFPMsg × Queue :=
  if now.msSince q.lastFetch > q.intervalMs then
    (go none q.msgQueue, { q with lastFetch := now })
  else
    (none, q)
where
  go : Option OFPMsg → List OFPMsg → Option OFPMsg
    | msg, [] => msg
    | none, m :: msgs =>
      if !m.inProcess ∧ m.readToBeSent then
        go (some m) msgs
      else
        go none msgs
    | some msg, m :: msgs =>
      let msg := if (!m.inProcess ∧ m.readToBeSent) ∧ lessPriority msg m then m else msg
      if msg.uepid.uid = 2 ∨ msg.uepid.uid = 4 then
        some msg
      else
        go (some msg) msgs

structure Clean where
  queue : Queue
  -- what recordMsgProcessedTime was called on and deleted, oldest first
  recorded : List OFPMsg
  count : Int

-- The result is `none` when the loop reaches outside the vector.
def cleanFinishMsg (q : Queue) : Option Clean :=
  match go q.msgQueue.length 0 q.msgQueue [] 0 with
  | none => none
  | some (msgs, recorded, count) => some ⟨{ q with msgQueue := msgs }, recorded, count⟩
where
  u64 (x : Int) : Nat := (x % 18446744073709551616).toNat
  -- the value of an int32_t
  i32 (x : Int) : Int := Int.bmod x 4294967296
  -- the first argument is num - i
  go : Nat → Nat → List OFPMsg → List OFPMsg → Int → Option (List OFPMsg × List OFPMsg × Int)
    | 0, _, msgs, recorded, count => some (msgs, recorded, count)
    | n + 1, index, msgs, recorded, count =>
      match msgs[index]? with
      | none => none
      | some msg =>
        if msg.inProcess ∧ msg.finished then
          go n (u64 (u64 (index - 1) + 1)) (msgs.eraseIdx index) (recorded ++ [msg])
            (i32 (count + 1))
        else
          go n (u64 (index + 1)) msgs recorded count

end Queue
end OfpProxy
