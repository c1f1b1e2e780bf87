import OfpProxy.Schedule.Routing

/-!
This module shows what `getOFPMsgArg` leaves of a frame and of `OFP_Msg_Arg`, whatever the frame
holds: the type, the command of a flow-mod, and a `max_wait_time` of 0 or 1.
-/

namespace OfpProxy

def ofptBarrierRequest : UInt8 := 20

namespace FlowModProcessed

theorem rewriteMatch_before (exp : ℚ → ℚ) (st : Processed) {j : Nat} (h2 : j ≠ 2) (h3 : j ≠ 3)
    (hj : j < mat) : (rewriteMatch exp st).1.msg j = st.msg j := by
  unfold rewriteMatch
  dsimp only
  split
  . rw [Mem.move_before _ (by omega), Mem.copyFrom_outside _ _ (.inl hj), Mem.store16_ne _ _ h2 h3]
  . rw [Mem.copyFrom_outside _ _ (.inl hj), Mem.store16_ne _ _ h2 h3]

theorem packInstExceptType_before {msg : Mem} {inst filterInstType filterActionType newInstLen kickLen : Nat}
    {valueTag : UInt8} {buf : FilterBuf} {conf : PolicyConfig} {res : PackInst}
    (h : packInstExceptType msg inst filterInstType filterActionType valueTag buf newInstLen kickLen
      conf = some res) {j : Nat} (hj : j < inst) : res.msg j = msg j := by
  unfold packInstExceptType at h
  dsimp only at h
  split at h
  . rw [← Option.some.inj h]
  . split at h
    . simp at h
    . split at h
      . simp at h
      . rw [← Option.some.inj h]
        apply Mem.store16_ne _ _ (by omega) (by omega)

theorem shrink_before (res : PackInst) {inst j : Nat} (h2 : j ≠ 2) (h3 : j ≠ 3) (hj : j < inst)
    : shrink inst res j = res.msg j := by
  unfold shrink
  split
  . rw [Mem.copyFrom_outside _ _ (.inl (by omega)), Mem.store16_ne _ _ h2 h3]
  . rw [Mem.store16_ne _ _ h2 h3]

end FlowModProcessed

open FlowModProcessed in
theorem doOfpFlowmodProcessed_before {exp : ℚ → ℚ} {st st' : Processed}
    (h : doOfpFlowmodProcessed exp st = some st') {j : Nat} (h2 : j ≠ 2) (h3 : j ≠ 3) (hj : j < mat)
    : st'.msg j = st.msg j := by
  cases branch_of_processed h with
  | notAdd hcommand => rfl
  | noInst hcommand hnone => apply rewriteMatch_before exp st h2 h3 hj
  | inst hcommand hsome hres =>
    dsimp only [filtered]
    rw [shrink_before _ h2 h3 (by omega), packInstExceptType_before hres (by omega),
      rewriteMatch_before exp st h2 h3 hj]

open PacketOutProcessed in
theorem doOfpPacketoutProcessed_before {exp : ℚ → ℚ} {st st' : Processed}
    (h : doOfpPacketoutProcessed exp st = some st') {j : Nat} (h2 : j ≠ 2) (h3 : j ≠ 3)
    (hj : j < 16) : st'.msg j = st.msg j := by
  rw [processed_eq, Option.map_eq_some_iff] at h
  rcases h with ⟨res, -, rfl⟩
  unfold shrink
  dsimp only
  split
  . rw [Mem.store16_ne _ _ (by omega) (by omega), Mem.store16_ne _ _ h2 h3,
      Mem.move_before _ (by omega), Mem.copyFrom_outside _ _ (.inl (by omega))]
  . rfl

-- what the constructor of OFP_Msg_Arg sets, or what LLDP gets
def OFPMsgArg.WaitsBriefly (arg : OFPMsgArg) : Prop := arg.maxWaitTime = 0 ∨ arg.maxWaitTime = 1

theorem doOfpFlowmodProcessed_waitsBriefly {exp : ℚ → ℚ} {st st' : Processed}
    (h : doOfpFlowmodProcessed exp st = some st') (hst : st.arg.WaitsBriefly)
    : st'.arg.WaitsBriefly := by
  cases FlowModProcessed.branch_of_processed h <;> exact hst

open PacketOutProcessed in
theorem doOfpPacketoutProcessed_waitsBriefly {exp : ℚ → ℚ} {st st' : Processed}
    (h : doOfpPacketoutProcessed exp st = some st') (hst : st.arg.WaitsBriefly)
    : st'.arg.WaitsBriefly := by
  rw [processed_eq, Option.map_eq_some_iff] at h
  rcases h with ⟨res, -, rfl⟩
  unfold probe
  dsimp only
  split
  . exact .inl rfl
  . unfold route
    split <;> exact hst

theorem doOfpPacketinProcessed_waitsBriefly (msg : Mem) {arg : OFPMsgArg} (h : arg.WaitsBriefly)
    : (doOfpPacketinProcessed msg arg).WaitsBriefly := by
  unfold doOfpPacketinProcessed
  dsimp only
  split
  . exact .inl rfl
  . apply h

namespace Schedule

/--
What holds of the result for every frame.
-/
structure Outcome (msg : Mem) (res : Parsed) : Prop where
  type : res.msg 1 = msg 1
  command : msg 1 = ofptFlowMod → res.msg FlowModProcessed.command = msg FlowModProcessed.command
  waitsBriefly : res.arg.WaitsBriefly

theorem dispatch_outcome {exp : ℚ → ℚ} {self other : Schedule} {conf : PolicyConfig} {msg : Mem}
    {res : Parsed} (h : dispatch exp self other conf msg = some res) : Outcome msg res := by
  have hinit : initArg.WaitsBriefly := .inr rfl
  by_cases hflow : msg 1 = ofptFlowMod
  . rw [dispatch_flowMod exp self other conf hflow, Option.map_eq_some_iff] at h
    rcases h with ⟨st, hst, rfl⟩
    constructor
    . apply doOfpFlowmodProcessed_before hst (by decide) (by decide) (by decide)
    . intro _
      apply doOfpFlowmodProcessed_before hst (by decide) (by decide) (by decide)
    . apply doOfpFlowmodProcessed_waitsBriefly hst hinit
  . by_cases hout : msg 1 = ofptPacketOut
    . rw [dispatch_packetOut exp self other conf hout, Option.map_eq_some_iff] at h
      rcases h with ⟨st, hst, rfl⟩
      constructor
      . apply doOfpPacketoutProcessed_before hst (by decide) (by decide) (by decide)
      . exact fun hflow' => absurd hflow' hflow
      . apply doOfpPacketoutProcessed_waitsBriefly hst hinit
    . have hkept := kept_of_dispatch h hflow hout
      refine ⟨by rw [hkept.same.1], fun hflow' => absurd hflow' hflow, ?_⟩
      cases hkept with
      | packetIn _ => apply doOfpPacketinProcessed_waitsBriefly msg hinit
      | _ => apply hinit

theorem getOFPMsgArg_outcome {exp : ℚ → ℚ} {self other : Schedule} {conf : PolicyConfig} {msg : Mem}
    {res : Parsed} (h : getOFPMsgArg exp self other conf msg = some res) : Outcome msg res := by
  rcases exists_dispatch h with ⟨st, hst, rfl⟩
  have houtcome := dispatch_outcome hst
  exact ⟨houtcome.type, houtcome.command, houtcome.waitsBriefly⟩

def IsOrderingPoint (type command : UInt8) : Prop :=
  type = ofptBarrierRequest ∨ type = ofptFlowMod ∧ command ≠ ofpfcAdd

instance (type command : UInt8) : Decidable (IsOrderingPoint type command) :=
  inferInstanceAs (Decidable (_ ∨ _))

theorem getOFPMsgArg_orderingPoint {exp : ℚ → ℚ} {self other : Schedule} {conf : PolicyConfig}
    {msg : Mem} {res : Parsed} (h : getOFPMsgArg exp self other conf msg = some res)
    (hpoint : IsOrderingPoint (msg 1) (msg FlowModProcessed.command))
    : res.arg.qid = some importantQueueId := by
  rcases exists_dispatch h with ⟨st, hst, rfl⟩
  rcases hpoint with htype | ⟨htype, hcommand⟩
  . cases kept_of_dispatch hst (by rw [htype]; decide) (by rw [htype]; decide) with
    | important _ _ => rfl
    | packetIn htype' | statsRequest htype' | statsReply htype' | featuresReply htype' =>
      rw [htype] at htype'
      contradiction
  . rw [dispatch_flowMod exp self other conf htype, Option.map_eq_some_iff] at hst
    rcases hst with ⟨st', hst', rfl⟩
    cases FlowModProcessed.branch_of_processed hst' with
    | notAdd _ => rfl
    | noInst hadd _ | inst hadd _ _ => exact absurd hadd hcommand

end Schedule
end OfpProxy
