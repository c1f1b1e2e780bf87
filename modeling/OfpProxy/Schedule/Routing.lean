import OfpProxy.Rewrite.Lemmas.Frame
import OfpProxy.Schedule.Impl

/-!
This module takes `getOFPMsgArg` apart by the type of the frame.
-/

namespace OfpProxy
namespace Schedule

-- what the frame and the buffers are when one of the rewriting functions is called
def toProcess (self : Schedule) (conf : PolicyConfig) (msg : Mem) : Processed where
  msg := msg
  arg := initArg
  buf := self.buf
  conf := conf

def parsed (self other : Schedule) (st : Processed) : Parsed where
  arg := st.arg
  msg := st.msg
  self := { self with buf := st.buf }
  other := other
  conf := st.conf

theorem dispatch_flowMod (exp : ℚ → ℚ) (self other : Schedule) (conf : PolicyConfig) {msg : Mem}
    (htype : msg 1 = ofptFlowMod)
    : dispatch exp self other conf msg
        =
      (doOfpFlowmodProcessed exp (self.toProcess conf msg)).map (parsed self other) := by
  unfold dispatch
  rw [htype]
  rfl

theorem dispatch_packetOut (exp : ℚ → ℚ) (self other : Schedule) (conf : PolicyConfig) {msg : Mem}
    (htype : msg 1 = ofptPacketOut)
    : dispatch exp self other conf msg
        =
      (doOfpPacketoutProcessed exp (self.toProcess conf msg)).map (parsed self other) := by
  unfold dispatch
  rw [htype]
  rfl

theorem exists_dispatch {exp : ℚ → ℚ} {self other : Schedule} {conf : PolicyConfig} {msg : Mem}
    {res : Parsed} (h : getOFPMsgArg exp self other conf msg = some res)
    : ∃ st, dispatch exp self other conf msg = some st
        ∧ res = { st with arg := { st.arg with len := headerLength st.msg } } := by
  unfold getOFPMsgArg at h
  split at h
  . simp at h
  . next st hst => exact ⟨st, hst, Eq.symm (Option.some.inj h)⟩

/--
What `dispatch` returns for a frame that it does not rewrite.
-/
inductive Kept (self other : Schedule) (conf : PolicyConfig) (msg : Mem) : Parsed → Prop where
  | packetIn :
    msg 1 = ofptPacketIn
      → Kept self other conf msg ⟨doOfpPacketinProcessed msg initArg, msg, self, other, conf⟩
  | statsRequest {identify : Nat} {uepid : UEPID} {priority : ℚ} {conf' : PolicyConfig} :
    msg 1 = ofptStatsRequest
      → Kept self other conf msg
          { arg :=
              { initArg with
                  qid := some multiPartRequestQueueId
                  identify := some identify
                  uepid := uepid
                  priority := priority }
            msg := msg
            self := self
            other := other
            conf := conf' }
  | statsReply {identify : Nat} :
    msg 1 = ofptStatsReply
      → Kept self other conf msg
          { arg :=
              { initArg with
                  qid := some multiPartReplyQueueId
                  identify := some identify }
            msg := msg
            self := self
            other := markRequest other identify
            conf := conf }
  | featuresReply {dpid : UInt8} :
    msg 1 = ofptFeaturesReply
      → Kept self other conf msg
          ⟨initArg, msg, (self.setDpid dpid).setGetDpId true, (other.setDpid dpid).setGetDpId true, conf⟩
  | important :
    msg 1 ≠ ofptStatsRequest → msg 1 ≠ ofptFeaturesReply
      → Kept self other conf msg
          ⟨{ initArg with qid := some importantQueueId }, msg, self, other, conf⟩

theorem dispatch_other (exp : ℚ → ℚ) (self other : Schedule) (conf : PolicyConfig) {msg : Mem}
    (hflow : msg 1 ≠ ofptFlowMod) (hout : msg 1 ≠ ofptPacketOut)
    : ∃ res, dispatch exp self other conf msg = some res ∧ Kept self other conf msg res := by
  unfold dispatch
  dsimp only
  rw [if_neg hflow, if_neg hout]
  split
  . next hin => exact ⟨_, rfl, .packetIn hin⟩
  . split
    . next hrequest => exact ⟨_, rfl, .statsRequest hrequest⟩
    . next hrequest =>
      split
      . next hreply => exact ⟨_, rfl, .statsReply hreply⟩
      . split
        . next hfeatures => exact ⟨_, rfl, .featuresReply hfeatures⟩
        . next hfeatures => exact ⟨_, rfl, .important hrequest hfeatures⟩

theorem kept_of_dispatch {exp : ℚ → ℚ} {self other : Schedule} {conf : PolicyConfig} {msg : Mem}
    {res : Parsed} (h : dispatch exp self other conf msg = some res) (hflow : msg 1 ≠ ofptFlowMod)
    (hout : msg 1 ≠ ofptPacketOut) : Kept self other conf msg res := by
  rcases dispatch_other exp self other conf hflow hout with ⟨res', hres', hkept⟩
  rw [h, Option.some_inj] at hres'
  rw [hres']
  exact hkept

theorem Kept.same {self other : Schedule} {conf : PolicyConfig} {msg : Mem} {res : Parsed}
    (h : Kept self other conf msg res) : res.msg = msg ∧ res.self.buf = self.buf := by
  cases h <;> exact ⟨rfl, rfl⟩

def idle : Schedule := .new (fun _ => 0) ⟨0, 0⟩

end Schedule
end OfpProxy
