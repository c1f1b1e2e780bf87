import OfpProxy.OpenFlow.Frame
import OfpProxy.Rewrite.Impl.Action
import OfpProxy.Rewrite.Impl.Match

/-!
This module contains the three functions of `schedule.cpp` that process one kind of frame each. They
work in place on the receive buffer, which starts with the frame and goes on with whatever earlier
frames left there.
-/

namespace OfpProxy

def piQueueId : Nat := 1
def multiPartReplyQueueId : Nat := 1
def importantQueueId : Nat := 0
def lldpQueueId : Nat := 0
def flowModQueue1Id : Nat := 1
def poQueue1Id : Nat := 2
def flowModQueue2Id : Nat := 7
def poQueue2Id : Nat := 8
def multiPartRequestQueueId : Nat := 0

def lldpType : Nat := 0x88cc

/--
`OFP_Msg_Arg`, whose `qid` and `identify` are absent until they are assigned.
-/
structure OFPMsgArg where
  qid : Option Nat
  priority : ℚ
  maxWaitTime : Int
  processTime : Int
  identify : Option Nat
  len : Nat
  uepid : UEPID

structure Processed where
  msg : Mem
  arg : OFPMsgArg
  buf : FilterBuf
  conf : PolicyConfig

def Processed.received (frame : List UInt8) : Processed where
  msg := .ofList frame
  arg := ⟨none, 1, 1, 1, none, 0, {}⟩
  buf := ⟨fun _ => 0, 0⟩
  conf := .idle

-- ntohs(header->length)
def headerLength (msg : Mem) : Nat := ntohs (msg.load16 2)

-- the difference is a size_t, so it wraps when the match does not fit in the frame
def hasInst (msg : Mem) (totalLength : Nat) : Bool :=
  ((headerLength msg - 8 - 40 - totalLength : Int) % 18446744073709551616) ≥ 2

namespace FlowModProcessed

def command : Nat := 25
def cookie : Nat := 8
def mat : Nat := 48

def rewriteMatch (exp : ℚ → ℚ) (st : Processed) : Processed × Nat :=
  let totalLength := padTo8 (ntohs (st.msg.load16 (mat + 2)))
  let ins := mat + totalLength
  let res := packMathchExceptType st.msg mat 0x8000 0x36 0x7F (st.buf.memset (totalLength + 10))
  let arg :=
    { st.arg with
        priority :=
          st.conf.priorityManager.getUEPPriorityOfSplitK exp res.uep.window res.uep.uepid
        uepid := res.uep.uepid }
  let msg := st.msg.store16 2 (htons (u16 (headerLength st.msg - res.exceptLen)))
  let msg := msg.copyFrom mat res.buf.mem 0 res.newLen
  let msg :=
    if hasInst st.msg totalLength then
      msg.move (mat + res.newLen) ins (ntohs (msg.load16 (ins + 2)))
    else
      msg
  ({ st with msg := msg, arg := arg, buf := res.buf }, res.newLen)

def filterInst (exp : ℚ → ℚ) (st : Processed) (instStart : Nat) : Option Processed :=
  let newInstLen := ntohs (st.msg.load16 (instStart + 2))
  match
    packInstExceptType st.msg instStart 0x0400 0x1900 0xFF (st.buf.memset (newInstLen + 10))
      newInstLen 0 st.conf
  with
  | none => none
  | some res =>
    let priority :=
      res.conf.priorityManager.getUEPPriorityOfSplitK exp res.uep.window res.uep.uepid
    let arg :=
      { st.arg with
          priority := priority
          uepid := res.uep.uepid
          identify := some (res.msg.load64 cookie)
          qid :=
            if !PriorityManager.isDangerous priority then
              some flowModQueue1Id
            else
              some flowModQueue2Id }
    let msg := res.msg.store16 2 (htons (u16 (headerLength res.msg - res.kickLen)))
    let msg :=
      if res.kickLen > 0 then
        msg.copyFrom (instStart + 8) res.buf.mem 0 (res.newInstLen - 4)
      else
        msg
    some
      { msg := msg
        arg := arg
        buf := res.buf
        conf := res.conf }

end FlowModProcessed

open FlowModProcessed in
def doOfpFlowmodProcessed (exp : ℚ → ℚ) (st : Processed) : Option Processed :=
  if st.msg command ≠ ofpfcAdd then
    let arg :=
      { st.arg with
          identify := some (st.msg.load64 cookie)
          qid := some importantQueueId }
    some { st with arg := arg }
  else
    let totalLength := padTo8 (ntohs (st.msg.load16 (mat + 2)))
    let (st', newLen) := rewriteMatch exp st
    if hasInst st.msg totalLength then
      filterInst exp st' (mat + newLen)
    else
      some st'

def doOfpPacketoutProcessed (exp : ℚ → ℚ) (st : Processed) : Option Processed :=
  let action := 24
  let originalActionListLens := ntohs (st.msg.load16 16)
  let originalDataStart := action + originalActionListLens
  let originalDataLens := u16 (headerLength st.msg - originalActionListLens - 24)
  match
    copyValidActionToBuf st.msg action originalActionListLens 0x1900 0xFF (st.buf.memset 500) st.conf
  with
  | none => none
  | some res =>
    let arg := { st.arg with qid := some importantQueueId }
    let (msg, arg) :=
      if res.kickLen > 0 then
        let msg := st.msg.copyFrom action res.buf.mem 0 res.newActionListLen
        let msg := msg.move (action + res.newActionListLen) originalDataStart originalDataLens
        let msg := msg.store16 2 (htons (u16 (headerLength msg - res.kickLen)))
        let msg := msg.store16 16 (htons res.newActionListLen)
        let priority :=
          res.conf.priorityManager.getUEPPriorityOfSplitK exp res.uep.window res.uep.uepid
        let arg :=
          { arg with
              priority := priority
              uepid := res.uep.uepid
              qid :=
                if !PriorityManager.isDangerous priority then some poQueue1Id else some poQueue2Id }
        (msg, arg)
      else
        (st.msg, arg)
    let ethData := action + ntohs (msg.load16 16)
    let arg :=
      if ntohs (msg.load16 (ethData + 12)) = lldpType then
        { arg with
            qid := some lldpQueueId
            priority := 0xFF
            identify := some (msg.load32 4)
            maxWaitTime := 0
            processTime := 0 }
      else
        arg
    some
      { msg := msg
        arg := arg
        buf := res.buf
        conf := res.conf }

def doOfpPacketinProcessed (msg : Mem) (arg : OFPMsgArg) : OFPMsgArg :=
  let mat := 24
  let ethData := mat + getMatchLenth msg mat + 2
  if ntohs (msg.load16 (ethData + 12)) = lldpType then
    { arg with
        qid := some lldpQueueId
        priority := 999 / 10
        identify := some (msg.load32 4)
        maxWaitTime := 0
        processTime := 0 }
  else
    { arg with qid := some piQueueId }

end OfpProxy
