import OfpProxy.Rewrite.Lemmas.Raw
import OfpProxy.Schedule.Routing

/-!
This module shows for which frames `getOFPMsgArg` ends. The loop over the items of a match always
goes on by at least four bytes, the loop over the actions of a list does not.
-/

namespace OfpProxy

-- no action the loop comes to has a length of zero
def ActionsAdvance (msg : Mem) (pos len : Nat) : Prop :=
  ∀ p, Walk.Visits (actionLen msg) (pos + len) pos p → 0 < actionLen msg p

theorem actionLen_congr {m m' : Mem} {pos : Nat} (h : ∀ j, pos ≤ j → m' j = m j) (p : Nat)
    (hp : pos ≤ p) : actionLen m' p = actionLen m p := by
  unfold actionLen Mem.load16
  rw [h (p + 2) (by omega), h (p + 2 + 1) (by omega)]

theorem actionsAdvance_congr {m m' : Mem} {pos : Nat} (h : ∀ j, pos ≤ j → m' j = m j) (len : Nat)
    : ActionsAdvance m' pos len ↔ ActionsAdvance m pos len := by
  have hlen := actionLen_congr h
  apply forall_congr'
  intro p
  rw [Walk.visits_congr hlen p]
  constructor
  . intro hpos hvisits
    rw [← hlen p hvisits.le]
    apply hpos hvisits
  . intro hpos hvisits
    rw [hlen p hvisits.le]
    apply hpos hvisits

theorem exists_copyValidActionToBuf_iff (msg : Mem) (pos len filterActionType : Nat) (valueTag : UInt8)
    (buf : FilterBuf) (conf : PolicyConfig)
    : (∃ res, copyValidActionToBuf msg pos len filterActionType valueTag buf conf = some res)
        ↔ ActionsAdvance msg pos len := by
  unfold ActionsAdvance
  rw [← @Walk.exists_run_iff _ _ _ (copyValidActionToBuf.body msg filterActionType) len pos
    ⟨{}, conf, buf, 0, 0⟩ (by omega), ← copyValidActionToBuf.loop_eq_run]
  unfold copyValidActionToBuf
  dsimp only
  split
  . next hnone => simp [hnone]
  . next st hst => simp [hst]

-- Where the model has no result the loop of the source ends after no number of rounds.
theorem copyValidActionToBuf_eq_none_iff (msg : Mem) (pos len filterActionType : Nat)
    (valueTag : UInt8) (buf : FilterBuf) (conf : PolicyConfig)
    : copyValidActionToBuf msg pos len filterActionType valueTag buf conf = none
        ↔ ∀ fuel st, copyValidActionToBuf.loop msg filterActionType (pos + len) fuel pos st = none := by
  constructor
  . intro hnone fuel st
    rw [copyValidActionToBuf.loop_eq_run]
    apply Walk.run_never
    have hstuck : ¬ActionsAdvance msg pos len := by
      rw [← exists_copyValidActionToBuf_iff msg pos len filterActionType valueTag buf conf, hnone]
      simp
    unfold ActionsAdvance at hstuck
    push Not at hstuck
    rcases hstuck with ⟨p, hvisits, hle⟩
    exact ⟨p, hvisits, by omega⟩
  . intro hnever
    unfold copyValidActionToBuf
    simp only [hnever]

namespace FlowModProcessed

theorem exists_packInstExceptType_iff (msg : Mem) (inst : Nat) (buf : FilterBuf) (len : Nat)
    (conf : PolicyConfig)
    : (∃ res, packInstExceptType msg inst 0x0400 0x1900 0xFF buf len 0 conf = some res)
        ↔ (msg.load16 inst = 0x0400
            → ActionsAdvance msg (inst + 8) (u16 (ntohs (msg.load16 (inst + 2)) - 8))) := by
  unfold packInstExceptType
  by_cases htype : msg.load16 inst = 0x0400
  . have hlist : actionListOfInst (htons (msg.load16 inst)) inst (ntohs (msg.load16 (inst + 2)))
        = some (inst + 8, u16 (ntohs (msg.load16 (inst + 2)) - 8)) := by
      rw [htype]
      rfl
    dsimp only
    rw [if_neg (by simpa using htype), hlist]
    dsimp only
    rw [← exists_copyValidActionToBuf_iff msg (inst + 8) (u16 (ntohs (msg.load16 (inst + 2)) - 8)) 0x1900
      0xFF buf conf]
    split
    . next hnone => simp [hnone, htype]
    . next res hres => simp [hres]
  . dsimp only
    rw [if_pos htype]
    simp [htype]

theorem exists_processed_iff (exp : ℚ → ℚ) (st : Processed)
    : (∃ st', doOfpFlowmodProcessed exp st = some st')
        ↔ (FiltersActions st.msg
            → ActionsAdvance (behindMatch st.msg) (instStart st.msg + 8) (listLength st.msg)) := by
  have htotal : padTo8 (ntohs (st.msg.load16 (mat + 2))) = totalLength st.msg := rfl
  unfold doOfpFlowmodProcessed FiltersActions
  dsimp only
  rw [htotal]
  split
  . next hcommand => simp [hcommand]
  . next hcommand =>
    rw [ne_eq, Decidable.not_not] at hcommand
    split
    . next hinst =>
      simp only [hcommand, hinst, true_and]
      rw [filterInst_eq, rewriteMatch_instStart, ← Option.isSome_iff_exists, Option.isSome_map,
        Option.isSome_iff_exists, exists_packInstExceptType_iff,
        load16_rewriteMatch exp hinst (Nat.le_refl _), load16_rewriteMatch exp hinst (by omega)]
      apply imp_congr_right
      intro _
      apply actionsAdvance_congr
      intro j hj
      apply rewriteMatch_behind exp hinst (by omega)
    . next hinst => simp [hinst]

end FlowModProcessed

open FlowModProcessed in
def EveryActionAdvances (msg : Mem) : Prop :=
  (msg 1 = ofptPacketOut → ActionsAdvance msg 24 (ntohs (msg.load16 16)))
    ∧ (msg 1 = ofptFlowMod → FiltersActions msg
        → ActionsAdvance (behindMatch msg) (instStart msg + 8) (listLength msg))

namespace Schedule

/--
`getOFPMsgArg` ends if and only if the frame has no list of actions to go through in which the loop
comes to an action of length zero.
-/
theorem getOFPMsgArg_ends_iff (exp : ℚ → ℚ) (self other : Schedule) (conf : PolicyConfig) (msg : Mem)
    : (∃ res, getOFPMsgArg exp self other conf msg = some res) ↔ EveryActionAdvances msg := by
  have hdispatch : (getOFPMsgArg exp self other conf msg).isSome
      = (dispatch exp self other conf msg).isSome := by
    unfold getOFPMsgArg
    split
    . next hnone => rw [hnone]
    . next res hres => rw [hres]; rfl
  rw [← Option.isSome_iff_exists, hdispatch]
  unfold EveryActionAdvances
  by_cases hflow : msg 1 = ofptFlowMod
  . have hout : msg 1 ≠ ofptPacketOut := by
      rw [hflow]
      decide
    rw [dispatch_flowMod exp self other conf hflow, Option.isSome_map, Option.isSome_iff_exists,
      FlowModProcessed.exists_processed_iff]
    rw [eq_true hflow, eq_false hout, false_imp_iff, true_imp_iff, true_and]
    rfl
  . by_cases hout : msg 1 = ofptPacketOut
    . rw [dispatch_packetOut exp self other conf hout, Option.isSome_map,
        PacketOutProcessed.processed_eq, Option.isSome_map, Option.isSome_iff_exists,
        exists_copyValidActionToBuf_iff]
      rw [eq_false hflow, eq_true hout, false_imp_iff, true_imp_iff, and_true]
      rfl
    . rcases dispatch_other exp self other conf hflow hout with ⟨res, hres, -⟩
      simp [hflow, hout, hres]

-- a packet-out with one output action whose length field is 0
def zeroLengthPacketOut : Mem :=
  .ofList
    [4, 13, 0, 32, 0, 0, 0, 1, 255, 255, 255, 255, 0, 0, 0, 1, 0, 8, 0, 0, 0, 0, 0, 0,
      0, 0, 0, 0, 0, 0, 0, 0]

theorem getOFPMsgArg_hangs
    : ¬∀ msg : Mem, 8 ≤ headerLength msg
        → ∃ res, getOFPMsgArg (fun _ => 1) idle idle .idle msg = some res := by
  intro h
  have hends := h zeroLengthPacketOut (by decide)
  rw [getOFPMsgArg_ends_iff] at hends
  exact absurd (hends.1 rfl 24 (.here (by decide))) (by decide)

end Schedule
end OfpProxy
