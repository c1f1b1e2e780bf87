import OfpProxy.Queue.Impl
import OfpProxy.Rewrite.Impl.Frame

/-!
This module contains `Schedule` with `getOFPMsgArg`, which a reader thread runs on each frame before
it queues the message. It touches the schedule the frame belongs to and the one of the opposite
direction.
-/

namespace OfpProxy

structure MsgPos where
  qid : Nat
  pid : Nat
  deriving DecidableEq

structure Schedule where
  queues : List Queue
  posMap : Nat → Option MsgPos
  buf : FilterBuf
  -- resp_pipe[50], name[30] and resp_record_name[50] lie next to each other in the object
  respPipe : Mem
  getDpId : Bool
  isListenResp : Bool
  dpId : UInt8

namespace Schedule

def queueNum : Nat := 10

def respPipeSize : Nat := 50

def nameSize : Nat := 30

def respRecordNameSize : Nat := 50

-- strlen of the string at the start of the three arrays
def strlen (m : Mem) : Nat :=
  let size := respPipeSize + nameSize + respRecordNameSize
  ((List.range size).find? fun i => m i = 0).getD size

def intervalMs (i : Nat) : ℚ := if i < 5 then -1 else i * 2

def new (respPipe : Mem) (now : Timeval) : Schedule where
  queues := (List.range queueNum).map fun i => .new (intervalMs i) now
  posMap := fun _ => none
  buf := ⟨fun _ => 0, 0⟩
  respPipe := respPipe
  getDpId := false
  isListenResp := false
  dpId := 0

def setDpid (s : Schedule) (dpId : UInt8) : Schedule :=
  let lens := strlen s.respPipe
  { s with
      dpId := dpId
      respPipe := (s.respPipe.store lens dpId).store (lens + 1) 0 }

def setGetDpId (s : Schedule) (get : Bool) : Schedule := { s with getDpId := get }

structure Parsed where
  arg : OFPMsgArg
  msg : Mem
  self : Schedule
  other : Schedule
  conf : PolicyConfig

def initArg : OFPMsgArg where
  qid := none
  priority := 1
  maxWaitTime := 1
  processTime := 1
  identify := none
  len := 0
  uepid := {}

def markRequest (other : Schedule) (identify : Nat) : Schedule :=
  match other.queues[multiPartRequestQueueId]? with
  | none => other
  | some q => { other with queues := other.queues.set multiPartRequestQueueId (q.markFinished identify).2 }

-- the switch over header->type
def dispatch (exp : ℚ → ℚ) (self other : Schedule) (conf : PolicyConfig) (msg : Mem)
    : Option Parsed :=
  let type := msg 1
  let rewritten (res : Option Processed) : Option Parsed :=
    res.map fun st =>
      { arg := st.arg
        msg := st.msg
        self := { self with buf := st.buf }
        other := other
        conf := st.conf }
  let st : Processed :=
    { msg := msg
      arg := initArg
      buf := self.buf
      conf := conf }
  if type = ofptPacketIn then
    some ⟨doOfpPacketinProcessed msg initArg, msg, self, other, conf⟩
  else if type = ofptFlowMod then
    rewritten (doOfpFlowmodProcessed exp st)
  else if type = ofptPacketOut then
    rewritten (doOfpPacketoutProcessed exp st)
  else if type = ofptStatsRequest then
    let uepid : UEPID :=
      { uid := 0x56
        eid := 0x55 }
    let (nid, conf) := conf.getNowWindowId
    let conf := conf.updateSplitOfUEP ⟨uepid, nid, 1⟩
    let arg :=
      { initArg with
          qid := some multiPartRequestQueueId
          identify := some (ntohl (msg.load32 4))
          uepid := uepid
          priority := conf.priorityManager.getUEPPriorityOfSplitK exp nid uepid }
    some ⟨arg, msg, self, other, conf⟩
  else if type = ofptStatsReply then
    let identify := ntohl (msg.load32 4)
    let arg :=
      { initArg with
          qid := some multiPartReplyQueueId
          identify := some identify }
    some ⟨arg, msg, self, markRequest other identify, conf⟩
  else if type = ofptFeaturesReply then
    let dpid := msg 15 + 48
    some
      ⟨initArg, msg, (self.setDpid dpid).setGetDpId true, (other.setDpid dpid).setGetDpId true, conf⟩
  else
    let arg := { initArg with qid := some importantQueueId }
    some ⟨arg, msg, self, other, conf⟩
where
  ntohl (x : Nat) : Nat := ntohs (x % 65536) * 65536 + ntohs (x / 65536)

def getOFPMsgArg (exp : ℚ → ℚ) (self other : Schedule) (conf : PolicyConfig) (msg : Mem)
    : Option Parsed :=
  match dispatch exp self other conf msg with
  | none => none
  | some res => some { res with arg := { res.arg with len := headerLength res.msg } }

/--
The message `putMessage` queues. An `identify` that was never assigned has whatever value
`garbage` stood in its place, and the priority ends up as 1 for every message.
-/
def newOFPMsg (msg : Mem) (arg : OFPMsgArg) (fd : Int) (addr garbage : Nat) : OFPMsg where
  addr := addr
  len := arg.len
  priority := 1
  fd := fd
  maxWaitTime := arg.maxWaitTime
  processTime := arg.processTime
  identity := arg.identify.getD garbage
  uepid := arg.uepid
  inProcess := false
  finished := false
  readToBeSent := true
  buf := msg.bytes 0 arg.len

end Schedule
end OfpProxy
