import OfpProxy.Rewrite.Impl.Frame

/-!
This module takes `do_ofp_flowmod_processed` and `do_ofp_packetout_processed` apart into what they
leave in the receive buffer and where they send the message.
-/

namespace OfpProxy

namespace FlowModProcessed

-- the frame with what is left of the instruction at `inst`
def shrink (inst : Nat) (res : PackInst) : Mem :=
  let msg := res.msg.store16 2 (htons (u16 (headerLength res.msg - res.kickLen)))
  if res.kickLen > 0 then
    msg.copyFrom (inst + 8) res.buf.mem 0 (res.newInstLen - 4)
  else
    msg

def route (exp : ℚ → ℚ) (arg : OFPMsgArg) (res : PackInst) : OFPMsgArg :=
  let priority := res.conf.priorityManager.getUEPPriorityOfSplitK exp res.uep.window res.uep.uepid
  { arg with
      priority := priority
      uepid := res.uep.uepid
      identify := some (res.msg.load64 cookie)
      qid :=
        if !PriorityManager.isDangerous priority then
          some flowModQueue1Id
        else
          some flowModQueue2Id }

def filtered (exp : ℚ → ℚ) (arg : OFPMsgArg) (inst : Nat) (res : PackInst) : Processed where
  msg := shrink inst res
  arg := route exp arg res
  buf := res.buf
  conf := res.conf

theorem filterInst_eq (exp : ℚ → ℚ) (st : Processed) (inst : Nat)
    : filterInst exp st inst
        =
      (packInstExceptType st.msg inst 0x0400 0x1900 0xFF
        (st.buf.memset (ntohs (st.msg.load16 (inst + 2)) + 10)) (ntohs (st.msg.load16 (inst + 2))) 0
        st.conf).map (filtered exp st.arg inst) := by
  unfold filterInst
  dsimp only
  split
  . next hnone => rw [hnone, Option.map_none]
  . next res hres =>
    rw [hres, Option.map_some]
    rfl

/--
What is returned for a flow-mod: one that is not an ADD as it is, and one without instructions
behind its match without a queue.
-/
inductive Branch (exp : ℚ → ℚ) (st : Processed) : Processed → Prop where
  | notAdd :
    st.msg command ≠ ofpfcAdd
      → Branch exp st
          { st with
              arg :=
                { st.arg with
                    identify := some (st.msg.load64 cookie)
                    qid := some importantQueueId } }
  | noInst :
    st.msg command = ofpfcAdd
      → hasInst st.msg (padTo8 (ntohs (st.msg.load16 (mat + 2)))) = false
      → Branch exp st (rewriteMatch exp st).1
  | inst {buf : FilterBuf} {newInstLen : Nat} {res : PackInst} :
    st.msg command = ofpfcAdd
      → hasInst st.msg (padTo8 (ntohs (st.msg.load16 (mat + 2)))) = true
      → packInstExceptType (rewriteMatch exp st).1.msg (mat + (rewriteMatch exp st).2) 0x0400 0x1900
          0xFF buf newInstLen 0 st.conf = some res
      → Branch exp st
          (filtered exp (rewriteMatch exp st).1.arg (mat + (rewriteMatch exp st).2) res)

theorem branch_of_processed {exp : ℚ → ℚ} {st st' : Processed}
    (h : doOfpFlowmodProcessed exp st = some st') : Branch exp st st' := by
  unfold doOfpFlowmodProcessed at h
  split at h
  . next hcommand =>
    rw [← Option.some.inj h]
    apply Branch.notAdd hcommand
  . next hcommand =>
    rw [ne_eq, Decidable.not_not] at hcommand
    dsimp only at h
    split at h
    . next hinst =>
      rw [filterInst_eq, Option.map_eq_some_iff] at h
      rcases h with ⟨res, hres, rfl⟩
      apply Branch.inst hcommand hinst hres
    . next hinst =>
      rw [← Option.some.inj h]
      apply Branch.noInst hcommand (Bool.eq_false_of_not_eq_true hinst)

end FlowModProcessed

namespace PacketOutProcessed

-- the frame without its set-field actions, with whatever stood behind its new end
def shrink (msg : Mem) (res : CopyValid) : Mem :=
  if res.kickLen > 0 then
    let lens := ntohs (msg.load16 16)
    let moved :=
      (msg.copyFrom 24 res.buf.mem 0 res.newActionListLen).move (24 + res.newActionListLen)
        (24 + lens) (u16 (headerLength msg - lens - 24))
    (moved.store16 2 (htons (u16 (headerLength moved - res.kickLen)))).store16 16
      (htons res.newActionListLen)
  else
    msg

def route (exp : ℚ → ℚ) (arg : OFPMsgArg) (res : CopyValid) : OFPMsgArg :=
  if res.kickLen > 0 then
    let priority := res.conf.priorityManager.getUEPPriorityOfSplitK exp res.uep.window res.uep.uepid
    { arg with
        priority := priority
        uepid := res.uep.uepid
        qid := if !PriorityManager.isDangerous priority then some poQueue1Id else some poQueue2Id }
  else
    { arg with qid := some importantQueueId }

def probe (msg : Mem) (ethData : Nat) (arg : OFPMsgArg) : OFPMsgArg :=
  if ntohs (msg.load16 (ethData + 12)) = lldpType then
    { arg with
        qid := some lldpQueueId
        priority := 0xFF
        identify := some (msg.load32 4)
        maxWaitTime := 0
        processTime := 0 }
  else
    arg

theorem processed_eq (exp : ℚ → ℚ) (st : Processed)
    : doOfpPacketoutProcessed exp st
        =
      (copyValidActionToBuf st.msg 24 (ntohs (st.msg.load16 16)) 0x1900 0xFF (st.buf.memset 500)
        st.conf).map
          (fun res =>
            { msg := shrink st.msg res
              arg :=
                probe (shrink st.msg res) (24 + ntohs ((shrink st.msg res).load16 16))
                  (route exp st.arg res)
              buf := res.buf
              conf := res.conf }) := by
  unfold doOfpPacketoutProcessed
  dsimp only
  split
  . next hnone => simp [hnone]
  . next res hres =>
    rw [hres, Option.map_some]
    unfold shrink route
    by_cases hkick : res.kickLen > 0
    . simp only [if_pos hkick]
      rfl
    . simp only [if_neg hkick]
      rfl

end PacketOutProcessed

end OfpProxy
