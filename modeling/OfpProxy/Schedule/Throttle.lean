import OfpProxy.Priority.Danger
import OfpProxy.Schedule.Routing

/-!
This module shows that a frame is only sent to one of the two throttled queues on behalf of a user
whose load is dangerous, so that this happens to one user at most.
-/

namespace OfpProxy

open PriorityManager (getUEPPriorityOfSplitK isDangerous DecidesHalf IsDangerousExact)

def OFPMsgArg.IsThrottled (arg : OFPMsgArg) : Prop :=
  arg.qid = some flowModQueue2Id ∨ arg.qid = some poQueue2Id

theorem OFPMsgArg.not_isThrottled {arg : OFPMsgArg} {q : Nat} (h : arg.qid = some q)
    (hq : q < flowModQueue2Id) : ¬arg.IsThrottled := by
  unfold IsThrottled flowModQueue2Id poQueue2Id at *
  rw [h, Option.some_inj, Option.some_inj]
  omega

-- The priority is that of a user whose load is dangerous in some window.
def OFPMsgArg.Dangerous (exp : ℚ → ℚ) (pm : PriorityManager) (arg : OFPMsgArg) : Prop :=
  isDangerous arg.priority = true
    ∧ ∃ splitId, arg.priority = pm.getUEPPriorityOfSplitK exp splitId arg.uepid

theorem FlowModProcessed.route_throttled {exp : ℚ → ℚ} {arg : OFPMsgArg} {res : PackInst}
    (hq : (route exp arg res).IsThrottled)
    : (route exp arg res).Dangerous exp res.conf.priorityManager := by
  refine ⟨?_, _, rfl⟩
  by_contra hnot
  simp only [route, Bool.not_eq_true] at hnot
  simp [route, OFPMsgArg.IsThrottled, hnot, flowModQueue1Id, flowModQueue2Id, poQueue2Id] at hq

open FlowModProcessed in
theorem doOfpFlowmodProcessed_throttled {exp : ℚ → ℚ} {st st' : Processed}
    (h : doOfpFlowmodProcessed exp st = some st') (hnone : st.arg.qid = none)
    (hq : st'.arg.IsThrottled) : st'.arg.Dangerous exp st'.conf.priorityManager := by
  cases branch_of_processed h with
  | notAdd _ => exact absurd hq (OFPMsgArg.not_isThrottled rfl (by decide))
  | noInst _ _ => simp [OFPMsgArg.IsThrottled, rewriteMatch, hnone] at hq
  | inst _ _ _ => exact route_throttled hq

theorem PacketOutProcessed.route_throttled {exp : ℚ → ℚ} {arg : OFPMsgArg} {res : CopyValid}
    (hq : (route exp arg res).IsThrottled)
    : (route exp arg res).Dangerous exp res.conf.priorityManager := by
  by_cases hkick : res.kickLen > 0
  . unfold route at *
    rw [if_pos hkick] at *
    refine ⟨?_, _, rfl⟩
    by_contra hnot
    simp only [Bool.not_eq_true] at hnot
    simp [OFPMsgArg.IsThrottled, hnot, poQueue1Id, flowModQueue2Id, poQueue2Id] at hq
  . unfold route at hq
    rw [if_neg hkick] at hq
    apply absurd hq (OFPMsgArg.not_isThrottled rfl (by decide))

open PacketOutProcessed in
theorem doOfpPacketoutProcessed_throttled {exp : ℚ → ℚ} {st st' : Processed}
    (h : doOfpPacketoutProcessed exp st = some st') (hq : st'.arg.IsThrottled)
    : st'.arg.Dangerous exp st'.conf.priorityManager := by
  rw [processed_eq, Option.map_eq_some_iff] at h
  rcases h with ⟨res, -, rfl⟩
  unfold probe at *
  dsimp only at *
  split at hq
  . apply absurd hq (OFPMsgArg.not_isThrottled rfl (by decide))
  . next hplain =>
    rw [if_neg hplain]
    apply route_throttled hq

namespace Schedule

theorem Kept.not_throttled {self other : Schedule} {conf : PolicyConfig} {msg : Mem} {res : Parsed}
    (h : Kept self other conf msg res) : ¬res.arg.IsThrottled := by
  cases h with
  | packetIn _ =>
    unfold doOfpPacketinProcessed
    dsimp only
    split
    . apply OFPMsgArg.not_isThrottled rfl (by decide)
    . apply OFPMsgArg.not_isThrottled rfl (by decide)
  | featuresReply _ => simp [OFPMsgArg.IsThrottled, initArg]
  | _ => apply OFPMsgArg.not_isThrottled rfl (by decide)

theorem dispatch_throttled {exp : ℚ → ℚ} {self other : Schedule} {conf : PolicyConfig} {msg : Mem}
    {res : Parsed} (h : dispatch exp self other conf msg = some res) (hq : res.arg.IsThrottled)
    : res.arg.Dangerous exp res.conf.priorityManager := by
  by_cases hflow : msg 1 = ofptFlowMod
  . rw [dispatch_flowMod exp self other conf hflow, Option.map_eq_some_iff] at h
    rcases h with ⟨st, hst, rfl⟩
    apply doOfpFlowmodProcessed_throttled hst rfl hq
  . by_cases hout : msg 1 = ofptPacketOut
    . rw [dispatch_packetOut exp self other conf hout, Option.map_eq_some_iff] at h
      rcases h with ⟨st, hst, rfl⟩
      apply doOfpPacketoutProcessed_throttled hst hq
    . exact absurd hq (kept_of_dispatch h hflow hout).not_throttled

/--
With the counters in the state `pm`, a frame of the user was sent to a throttled queue for the load
in the window.
-/
def SentThrottled (exp : ℚ → ℚ) (pm : PriorityManager) (splitId : Nat) (uep : UEPID) : Prop :=
  ∃ self other conf msg res,
    getOFPMsgArg exp self other conf msg = some res ∧ res.arg.IsThrottled
      ∧ res.conf.priorityManager = pm ∧ res.arg.uepid = uep
      ∧ res.arg.priority = pm.getUEPPriorityOfSplitK exp splitId uep

theorem exists_sentThrottled {exp : ℚ → ℚ} {self other : Schedule} {conf : PolicyConfig} {msg : Mem}
    {res : Parsed} (h : getOFPMsgArg exp self other conf msg = some res) (hq : res.arg.IsThrottled)
    : ∃ splitId, SentThrottled exp res.conf.priorityManager splitId res.arg.uepid := by
  rcases exists_dispatch h with ⟨st, hst, rfl⟩
  rcases (dispatch_throttled hst hq).2 with ⟨splitId, hpriority⟩
  exact ⟨splitId, self, other, conf, msg, _, h, hq, rfl, rfl, hpriority⟩

theorem SentThrottled.isDangerousExact {exp : ℚ → ℚ} (hexp : DecidesHalf exp) {pm : PriorityManager}
    {splitId : Nat} {uep : UEPID} (h : SentThrottled exp pm splitId uep)
    : pm.IsDangerousExact splitId uep := by
  rcases h with ⟨self, other, conf, msg, res, hres, hq, -, -, hpriority⟩
  rcases exists_dispatch hres with ⟨st, hst, rfl⟩
  have hdangerous := (dispatch_throttled hst hq).1
  dsimp only at hpriority
  rw [hpriority] at hdangerous
  rw [← PriorityManager.isDangerous_iff_exact hexp]
  apply hdangerous

/--
Every ratio lies in [0, 1), the load of one user at most is dangerous, and so the throttled queues
have the frames of one user at most for one state of the window.
-/
theorem throttled_unique {pm : PriorityManager}
    (hpm : PriorityManager.machine.ReachableBy PriorityManager.Fits pm) {splitId : UInt32}
    (hsum : (pm.windowTotals splitId.toNat).sum < 4294967296)
    : (∀ uep, 0 ≤ pm.getUEPRatioOfSplitK splitId.toNat uep
          ∧ pm.getUEPRatioOfSplitK splitId.toNat uep < 1)
      ∧ (∀ u v, pm.IsDangerousExact splitId.toNat u → pm.IsDangerousExact splitId.toNat v → u = v)
      ∧ (∀ exp, DecidesHalf exp → ∀ u v, SentThrottled exp pm splitId.toNat u →
          SentThrottled exp pm splitId.toNat v → u = v) := by
  have hs := PriorityManager.sound_of_reachableBy hpm
  refine ⟨fun uep => hs.ratio_bounds splitId uep hsum, ?_, ?_⟩
  . intro u v hu hv
    apply hs.dangerous_unique splitId hsum hu hv
  . intro exp hexp u v hu hv
    apply hs.dangerous_unique splitId hsum (hu.isDangerousExact hexp) (hv.isDangerousExact hexp)

-- 100 / 108 is above ln 2, and so only the first of the two users is dangerous.
theorem throttled_unique_twoUsers
    : let pm := ((PriorityManager.new 1 20 ⟨0, 0⟩).update ⟨5, ⟨1, 0⟩, 100⟩).update ⟨5, ⟨2, 0⟩, 3⟩
      pm.IsDangerousExact 5 ⟨1, 0⟩ ∧ ¬pm.IsDangerousExact 5 ⟨2, 0⟩ := by
  intro pm
  have hinit : PriorityManager.machine.ReachableBy PriorityManager.Fits (.new 1 20 ⟨0, 0⟩) :=
    .init ⟨1, 20, ⟨0, 0⟩, by decide, by decide, rfl⟩
  have hfit : (PriorityManager.new 1 20 ⟨0, 0⟩).Fits ⟨5, ⟨1, 0⟩, 100⟩ := by
    unfold PriorityManager.Fits
    decide
  have hfit' : ((PriorityManager.new 1 20 ⟨0, 0⟩).update ⟨5, ⟨1, 0⟩, 100⟩).Fits ⟨5, ⟨2, 0⟩, 3⟩ := by
    unfold PriorityManager.Fits
    decide
  have hsum : (pm.windowTotals (5 : UInt32).toNat).sum < 4294967296 := by
    decide
  have hratio : pm.getUEPRatioOfSplitK 5 ⟨1, 0⟩ = 25 / 27 := by
    decide +kernel
  have hdangerous : pm.IsDangerousExact 5 ⟨1, 0⟩ := by
    have hexp := Real.quadratic_le_exp_of_nonneg (x := 25 / 27) (by norm_num)
    unfold PriorityManager.IsDangerousExact
    rw [hratio, Real.exp_neg, one_div]
    apply inv_strictAnti₀ (by norm_num)
    push_cast
    linarith
  refine ⟨hdangerous, ?_⟩
  intro hlight
  have hsame := (throttled_unique ((hinit.step hfit rfl).step hfit' rfl) hsum).2.1 _ _ hdangerous hlight
  exact absurd hsame (by decide)

end Schedule
end OfpProxy
