import Mathlib.Analysis.SpecialFunctions.Log.Basic
import OfpProxy.Machine.Basic
import OfpProxy.Priority.Lemmas

/-!
This module contains the priority manager as a machine, and what its ratios say about one user as
long as no counter wraps.
-/

namespace OfpProxy
namespace Split

-- a tally that has not wrapped
def Exact (s : Split) : Prop := ∃ es, s.Records es ∧ Tally.total es < 4294967296

theorem Exact.empty : Exact .empty := ⟨[], .empty, by simp⟩

theorem Exact.addUEP {s : Split} (hs : s.Exact) (uep : UEPID) {number : Nat}
    (h : s.totalNumberSplit + number < 4294967296) : (s.addUEP uep number).Exact := by
  rcases hs with ⟨es, hes, hlt⟩
  have htotal := hes.total
  refine ⟨_, hes.addUEP uep (by omega), ?_⟩
  simp only [Tally.total_append, Tally.total_cons, Tally.total_nil]
  omega

theorem Exact.number_le {s : Split} (hs : s.Exact) (uep : UEPID)
    : s.getUEPNumber uep ≤ s.totalNumberSplit := by
  rcases hs with ⟨es, hes, hlt⟩
  have hle := Tally.count_le_total uep es
  rw [hes.number, hes.total]
  omega

theorem Exact.number_add_number_le {s : Split} (hs : s.Exact) {u v : UEPID} (h : u ≠ v)
    : s.getUEPNumber u + s.getUEPNumber v ≤ s.totalNumberSplit := by
  rcases hs with ⟨es, hes, hlt⟩
  have hle := Tally.count_add_count_le_total h es
  rw [hes.number, hes.number, hes.total]
  omega

theorem Exact.total_lt {s : Split} (hs : s.Exact) : s.totalNumberSplit < 4294967296 := by
  rcases hs with ⟨es, hes, _⟩
  rw [hes.total]
  omega

end Split

namespace PriorityManager

-- neither the counter nor the total of the split wraps
def Fits (pm : PriorityManager) (c : Call) : Prop :=
  (pm.splitBefore c.splitId.toNat).totalNumberSplit + c.number.toNat < 4294967296

def machine : Machine PriorityManager Call where
  init pm := ∃ windowSize bufferSize start, 1 ≤ windowSize ∧ windowSize ≤ bufferSize
    ∧ pm = new windowSize bufferSize start
  step pm c := some (pm.update c)

structure Sound (pm : PriorityManager) : Prop where
  windowSize : 1 ≤ pm.windowSize
  slots : ∀ slot, (pm.windowBuffer.buffer slot).Exact

theorem Sound.splitBefore {pm : PriorityManager} (hs : pm.Sound) (splitId : Nat)
    : (pm.splitBefore splitId).Exact := by
  unfold PriorityManager.splitBefore
  split
  . apply hs.slots
  . apply Split.Exact.empty

theorem Sound.update {pm : PriorityManager} (hs : pm.Sound) {c : Call} (h : pm.Fits c)
    : (pm.update c).Sound where
  windowSize := by
    rw [update_windowSize]
    apply hs.windowSize
  slots := by
    intro slot
    rw [update_buffer]
    by_cases hslot : slot = pm.slotOf c.splitId.toNat
    . subst hslot
      rw [Function.update_self]
      apply (hs.splitBefore _).addUEP _ h
    . rw [Function.update_of_ne hslot]
      apply hs.slots

theorem sound_of_reachableBy {pm : PriorityManager} (h : machine.ReachableBy Fits pm)
    : pm.Sound := by
  apply Machine.ReachableBy.invariant _ _ h
  . rintro _ ⟨windowSize, bufferSize, start, hw, -, rfl⟩
    exact ⟨hw, fun _ => .empty⟩
  . rintro pm c _ - hs hfit hstep
    rw [← Option.some.inj hstep]
    apply hs.update hfit

theorem Sound.total_le {pm : PriorityManager} (hs : pm.Sound) (splitId : UInt32)
    : (pm.windowBuffer.getData splitId.toNat).totalNumberSplit
        ≤ (pm.windowTotals splitId.toNat).sum := by
  have hlast : u32 (splitId.toNat - pm.windowSize + 1 + (pm.windowSize - 1 : Nat))
      = splitId.toNat := by
    have hw := hs.windowSize
    have hlt := splitId.toNat_lt
    unfold u32
    omega
  apply List.single_le_sum (by simp)
  apply List.mem_map.mpr
  refine ⟨pm.windowSize - 1, List.mem_range.mpr (by have := hs.windowSize; omega), ?_⟩
  rw [hlast]
  rfl

-- The special case of an empty window is no exception, since nothing is counted in it.
theorem Sound.ratio_eq {pm : PriorityManager} (hs : pm.Sound) (splitId : UInt32) (uep : UEPID)
    (h : (pm.windowTotals splitId.toNat).sum < 4294967296)
    : pm.getUEPRatioOfSplitK splitId.toNat uep
        =
      ((pm.windowBuffer.getData splitId.toNat).getUEPNumber uep : ℚ)
        / ((pm.windowTotals splitId.toNat).sum + 5) := by
  have htotal : pm.windowTotal splitId.toNat = (pm.windowTotals splitId.toNat).sum := by
    rw [windowTotal_eq]
    omega
  rw [getUEPRatioOfSplitK_eq, htotal]
  split
  . next hzero =>
    have hle := (hs.slots (splitId.toNat % pm.windowBuffer.bufferSize)).number_le uep
    have hsum := hs.total_le splitId
    have hnone : (pm.windowBuffer.getData splitId.toNat).getUEPNumber uep = 0 := by
      unfold RingBuffer.getData at *
      omega
    rw [hnone]
    simp
  . rfl

theorem Sound.ratio_bounds {pm : PriorityManager} (hs : pm.Sound) (splitId : UInt32) (uep : UEPID)
    (h : (pm.windowTotals splitId.toNat).sum < 4294967296)
    : 0 ≤ pm.getUEPRatioOfSplitK splitId.toNat uep
        ∧ pm.getUEPRatioOfSplitK splitId.toNat uep < 1 := by
  have hle : (pm.windowBuffer.getData splitId.toNat).getUEPNumber uep
      ≤ (pm.windowTotals splitId.toNat).sum :=
    Nat.le_trans ((hs.slots _).number_le uep) (hs.total_le splitId)
  rw [hs.ratio_eq splitId uep h]
  constructor
  . positivity
  . rw [div_lt_one (by positivity)]
    have hcast : ((pm.windowBuffer.getData splitId.toNat).getUEPNumber uep : ℚ)
        ≤ (pm.windowTotals splitId.toNat).sum := by
      exact_mod_cast hle
    linarith

/--
`isDangerous(getUEPPriorityOfSplitK(splitId, uep))` with the exact exponential function.
-/
def IsDangerousExact (pm : PriorityManager) (splitId : Nat) (uep : UEPID) : Prop :=
  Real.exp (-(pm.getUEPRatioOfSplitK splitId uep : ℝ)) < 1 / 2

-- The rounded result is below 1/2 when the exact one is.
def DecidesHalf (exp : ℚ → ℚ) : Prop := ∀ x, exp x < 1 / 2 ↔ Real.exp (x : ℝ) < 1 / 2

theorem isDangerous_iff_exact {exp : ℚ → ℚ} (hexp : DecidesHalf exp) (pm : PriorityManager)
    (splitId : Nat) (uep : UEPID)
    : isDangerous (pm.getUEPPriorityOfSplitK exp splitId uep) = true
        ↔
      pm.IsDangerousExact splitId uep := by
  unfold isDangerous getUEPPriorityOfSplitK convertRatioToPriority IsDangerousExact
  rw [decide_eq_true_iff, hexp, Rat.cast_neg]

theorem isDangerousExact_iff_log (pm : PriorityManager) (splitId : Nat) (uep : UEPID)
    : pm.IsDangerousExact splitId uep ↔ Real.log 2 < pm.getUEPRatioOfSplitK splitId uep := by
  unfold IsDangerousExact
  rw [← Real.lt_log_iff_exp_lt (by norm_num), one_div, Real.log_inv, neg_lt_neg_iff]

theorem half_lt_ratio {pm : PriorityManager} {splitId : Nat} {uep : UEPID}
    (h : pm.IsDangerousExact splitId uep) : 1 / 2 < pm.getUEPRatioOfSplitK splitId uep := by
  have hexp := Real.add_one_le_exp (-(pm.getUEPRatioOfSplitK splitId uep : ℝ))
  have hlt : (1 / 2 : ℝ) < (pm.getUEPRatioOfSplitK splitId uep : ℝ) := by
    unfold IsDangerousExact at h
    linarith
  have hcast : ((1 / 2 : ℚ) : ℝ) < (pm.getUEPRatioOfSplitK splitId uep : ℝ) := by
    push_cast
    exact hlt
  exact_mod_cast hcast

theorem Sound.dangerous_unique {pm : PriorityManager} (hs : pm.Sound) (splitId : UInt32)
    (h : (pm.windowTotals splitId.toNat).sum < 4294967296) {u v : UEPID}
    (hu : pm.IsDangerousExact splitId.toNat u) (hv : pm.IsDangerousExact splitId.toNat v)
    : u = v := by
  by_contra huv
  have hle : (pm.windowBuffer.getData splitId.toNat).getUEPNumber u
        + (pm.windowBuffer.getData splitId.toNat).getUEPNumber v
      ≤ (pm.windowTotals splitId.toNat).sum :=
    Nat.le_trans ((hs.slots _).number_add_number_le huv) (hs.total_le splitId)
  have hcast : ((pm.windowBuffer.getData splitId.toNat).getUEPNumber u : ℚ)
        + (pm.windowBuffer.getData splitId.toNat).getUEPNumber v
      ≤ (pm.windowTotals splitId.toNat).sum := by
    exact_mod_cast hle
  have hru := half_lt_ratio hu
  have hrv := half_lt_ratio hv
  rw [hs.ratio_eq splitId u h, div_lt_div_iff₀ (by norm_num) (by positivity)] at hru
  rw [hs.ratio_eq splitId v h, div_lt_div_iff₀ (by norm_num) (by positivity)] at hrv
  linarith

theorem Sound.ratio_eq_of_one {pm : PriorityManager} (hs : pm.Sound) (hw : pm.windowSize = 1)
    (splitId : UInt32) (uep : UEPID)
    : pm.getUEPRatioOfSplitK splitId.toNat uep
        =
      ((pm.windowBuffer.getData splitId.toNat).getUEPNumber uep : ℚ)
        / ((pm.windowBuffer.getData splitId.toNat).totalNumberSplit + 5) := by
  have hself : u32 (splitId.toNat - (1 : Nat) + 1 + (0 : Nat)) = splitId.toNat := by
    have hlt := splitId.toNat_lt
    unfold u32
    omega
  have hsum : (pm.windowTotals splitId.toNat).sum
      = (pm.windowBuffer.getData splitId.toNat).totalNumberSplit := by
    rw [windowTotals, hw, List.range_one, List.map_singleton, List.sum_singleton, hself]
    rfl
  rw [hs.ratio_eq splitId uep (by rw [hsum]; apply (hs.slots _).total_lt), hsum]

theorem isLive_update {pm : PriorityManager} {c : Call} (h : pm.isLive c.splitId.toNat = true)
    : (pm.update c).isLive c.splitId.toNat = true := by
  rw [update_of_live h]
  apply h

theorem getData_update {pm : PriorityManager} {c : Call} (h : pm.isLive c.splitId.toNat = true)
    : (pm.update c).windowBuffer.getData c.splitId.toNat
        =
      (pm.windowBuffer.getData c.splitId.toNat).addUEP c.uep c.number.toNat := by
  rw [update_of_live h]
  simp [RingBuffer.getData, RingBuffer.updateData]

theorem Sound.addUEP_eq {pm : PriorityManager} (hs : pm.Sound) {c : Call} (hfit : pm.Fits c)
    (h : pm.isLive c.splitId.toNat = true) (uep : UEPID)
    : let s := pm.windowBuffer.getData c.splitId.toNat
      let s' := (pm.update c).windowBuffer.getData c.splitId.toNat
      s'.getUEPNumber uep = s.getUEPNumber uep + (if uep = c.uep then c.number.toNat else 0)
        ∧ s'.totalNumberSplit = s.totalNumberSplit + c.number.toNat := by
  unfold Fits PriorityManager.splitBefore at hfit
  rw [if_pos h] at hfit
  have hle : (pm.windowBuffer.getData c.splitId.toNat).getUEPNumber c.uep
      ≤ (pm.windowBuffer.getData c.splitId.toNat).totalNumberSplit := (hs.slots _).number_le c.uep
  dsimp only
  rw [getData_update h, Split.totalNumberSplit_addUEP,
    Split.getUEPNumber_addUEP _ _ _ c.number.toNat_lt, ← Nat.cast_add, ← Nat.cast_add,
    u32_of_lt hfit]
  constructor
  . split
    . next hu =>
      subst hu
      rw [u32_of_lt (by omega)]
    . rfl
  . rfl

theorem Sound.ratio_update_other {pm : PriorityManager} (hs : pm.Sound) (hw : pm.windowSize = 1)
    {c : Call} (hfit : pm.Fits c) (h : pm.isLive c.splitId.toNat = true) {uep : UEPID}
    (hne : c.uep ≠ uep)
    : (pm.update c).getUEPRatioOfSplitK c.splitId.toNat uep
        ≤ pm.getUEPRatioOfSplitK c.splitId.toNat uep := by
  rcases hs.addUEP_eq hfit h uep with ⟨hnumber, htotal⟩
  have hw' : (pm.update c).windowSize = 1 := by rw [update_windowSize, hw]
  rw [if_neg (Ne.symm hne), Nat.add_zero] at hnumber
  rw [hs.ratio_eq_of_one hw, (hs.update hfit).ratio_eq_of_one hw', hnumber, htotal]
  apply div_le_div_of_nonneg_left (by positivity) (by positivity)
  push_cast
  linarith [(Nat.cast_nonneg c.number.toNat : (0 : ℚ) ≤ c.number.toNat)]

theorem Sound.ratio_update_self {pm : PriorityManager} (hs : pm.Sound) (hw : pm.windowSize = 1)
    {c : Call} (hfit : pm.Fits c) (h : pm.isLive c.splitId.toNat = true)
    : pm.getUEPRatioOfSplitK c.splitId.toNat c.uep
        ≤ (pm.update c).getUEPRatioOfSplitK c.splitId.toNat c.uep := by
  rcases hs.addUEP_eq hfit h c.uep with ⟨hnumber, htotal⟩
  have hw' : (pm.update c).windowSize = 1 := by rw [update_windowSize, hw]
  have hle : ((pm.windowBuffer.getData c.splitId.toNat).getUEPNumber c.uep : ℚ)
      ≤ (pm.windowBuffer.getData c.splitId.toNat).totalNumberSplit := by
    exact_mod_cast (hs.slots _).number_le c.uep
  rw [if_pos rfl] at hnumber
  rw [hs.ratio_eq_of_one hw, (hs.update hfit).ratio_eq_of_one hw', hnumber, htotal,
    div_le_div_iff₀ (by positivity) (by positivity)]
  push_cast
  have hn : (0 : ℚ) ≤ c.number.toNat := Nat.cast_nonneg _
  nlinarith

theorem isDangerousExact_mono {pm pm' : PriorityManager} {splitId : Nat} {uep : UEPID}
    (h : pm.getUEPRatioOfSplitK splitId uep ≤ pm'.getUEPRatioOfSplitK splitId uep)
    (hd : pm.IsDangerousExact splitId uep) : pm'.IsDangerousExact splitId uep := by
  have hcast : (pm.getUEPRatioOfSplitK splitId uep : ℝ) ≤ pm'.getUEPRatioOfSplitK splitId uep := by
    exact_mod_cast h
  rw [isDangerousExact_iff_log] at *
  linarith

-- each call of a run meets a state it fits
def FitsAll : PriorityManager → List Call → Prop
  | _, [] => True
  | pm, c :: calls => pm.Fits c ∧ FitsAll (pm.update c) calls

theorem fitsAll_append (pm : PriorityManager) (past rest : List Call)
    : pm.FitsAll (past ++ rest) ↔ pm.FitsAll past ∧ (pm.updateAll past).FitsAll rest := by
  induction past generalizing pm with
  | nil => simp [FitsAll, updateAll]
  | cons c past ih =>
    rw [List.cons_append, FitsAll, FitsAll, ih, and_assoc]
    rfl

theorem Sound.updateAll {pm : PriorityManager} (hs : pm.Sound) {calls : List Call}
    (hfit : pm.FitsAll calls) : (pm.updateAll calls).Sound := by
  induction calls generalizing pm with
  | nil => apply hs
  | cons c calls ih =>
    rw [FitsAll] at hfit
    apply ih (hs.update hfit.1) hfit.2

theorem isLive_updateAll {pm : PriorityManager} {splitId : UInt32} {calls : List Call}
    (h : pm.isLive splitId.toNat = true) (hk : ∀ c ∈ calls, c.splitId = splitId)
    : (pm.updateAll calls).isLive splitId.toNat = true := by
  induction calls generalizing pm with
  | nil => apply h
  | cons c calls ih =>
    rw [List.forall_mem_cons] at hk
    rcases hk with ⟨rfl, hk⟩
    apply ih (isLive_update h) hk

-- The load of the user is no higher in the second state, and they are dangerous only as before.
def NotRaised (splitId : Nat) (uep : UEPID) (pm pm' : PriorityManager) : Prop :=
  pm'.getUEPRatioOfSplitK splitId uep ≤ pm.getUEPRatioOfSplitK splitId uep
    ∧ (pm'.IsDangerousExact splitId uep → pm.IsDangerousExact splitId uep)

namespace NotRaised

variable {splitId : Nat} {uep : UEPID} {pm pm' pm'' : PriorityManager}

theorem of_le (h : pm'.getUEPRatioOfSplitK splitId uep ≤ pm.getUEPRatioOfSplitK splitId uep)
    : NotRaised splitId uep pm pm' := ⟨h, isDangerousExact_mono h⟩

theorem refl : NotRaised splitId uep pm pm := ⟨le_refl _, id⟩

theorem trans (h : NotRaised splitId uep pm pm') (h' : NotRaised splitId uep pm' pm'')
    : NotRaised splitId uep pm pm'' := ⟨le_trans h'.1 h.1, fun hd => h.2 (h'.2 hd)⟩

end NotRaised

theorem Sound.notRaised_of_others {pm : PriorityManager} (hs : pm.Sound) (hw : pm.windowSize = 1)
    {splitId : UInt32} (hlive : pm.isLive splitId.toNat = true) {calls : List Call}
    (hk : ∀ c ∈ calls, c.splitId = splitId) (hfit : pm.FitsAll calls) {uep : UEPID}
    (huep : ∀ c ∈ calls, c.uep ≠ uep) : NotRaised splitId.toNat uep pm (pm.updateAll calls) := by
  induction calls generalizing pm with
  | nil => apply NotRaised.refl
  | cons c calls ih =>
    rw [List.forall_mem_cons] at hk huep
    rcases hk with ⟨rfl, hk⟩
    have hstep := NotRaised.of_le (hs.ratio_update_other hw hfit.1 hlive huep.1)
    apply hstep.trans
    apply ih (hs.update hfit.1) (by rw [update_windowSize, hw]) (isLive_update hlive) hk hfit.2 huep.2

theorem Sound.notRaised_of_own {pm : PriorityManager} (hs : pm.Sound) (hw : pm.windowSize = 1)
    {splitId : UInt32} (hlive : pm.isLive splitId.toNat = true) {calls : List Call}
    (hk : ∀ c ∈ calls, c.splitId = splitId) (hfit : pm.FitsAll calls) {uep : UEPID}
    (huep : ∀ c ∈ calls, c.uep = uep) : NotRaised splitId.toNat uep (pm.updateAll calls) pm := by
  induction calls generalizing pm with
  | nil => apply NotRaised.refl
  | cons c calls ih =>
    rw [List.forall_mem_cons] at hk huep
    rcases hk with ⟨rfl, hk⟩
    rcases huep with ⟨rfl, huep⟩
    have hstep := NotRaised.of_le (hs.ratio_update_self hw hfit.1 hlive)
    refine NotRaised.trans ?_ hstep
    apply ih (hs.update hfit.1) (by rw [update_windowSize, hw]) (isLive_update hlive) hk hfit.2 huep

/--
In a run of calls for the live window, those for other users never raise the load of a user, and
their own calls never lower it.
-/
theorem load_monotone {pm : PriorityManager} (hpm : machine.ReachableBy Fits pm)
    (hw : pm.windowSize = 1) {splitId : UInt32} (hlive : pm.isLive splitId.toNat = true)
    {calls : List Call} (hk : ∀ c ∈ calls, c.splitId = splitId) (hfit : pm.FitsAll calls)
    (uep : UEPID)
    : ∀ past segment, past ++ segment <+: calls →
        let before := pm.updateAll past
        let after := before.updateAll segment
        ((∀ c ∈ segment, c.uep ≠ uep) → NotRaised splitId.toNat uep before after)
          ∧ ((∀ c ∈ segment, c.uep = uep) → NotRaised splitId.toNat uep after before) := by
  rintro past segment ⟨rest, rfl⟩
  rw [List.append_assoc] at hk hfit
  have hkpast : ∀ c ∈ past, c.splitId = splitId := by
    intro c hc
    apply hk c (List.mem_append_left _ hc)
  have hksegment : ∀ c ∈ segment, c.splitId = splitId := by
    intro c hc
    apply hk c (List.mem_append_right _ (List.mem_append_left _ hc))
  rw [fitsAll_append, fitsAll_append] at hfit
  rcases hfit with ⟨hpast, hsegment, -⟩
  have hs := (sound_of_reachableBy hpm).updateAll hpast
  have hw' : (pm.updateAll past).windowSize = 1 := by rw [updateAll_windowSize, hw]
  have hlive' := isLive_updateAll hlive hkpast
  constructor
  . apply hs.notRaised_of_others hw' hlive' hksegment hsegment
  . apply hs.notRaised_of_own hw' hlive' hksegment hsegment

theorem load_monotone_twoUsers
    : let u : UEPID := ⟨1, 0⟩
      let v : UEPID := ⟨2, 0⟩
      let pm := (new 1 20 ⟨0, 0⟩).update ⟨5, u, 3⟩
      NotRaised 5 u pm (pm.updateAll [⟨5, v, 4⟩]) := by
  have hinit : machine.ReachableBy Fits (new 1 20 ⟨0, 0⟩) :=
    .init ⟨1, 20, ⟨0, 0⟩, by decide, by decide, rfl⟩
  have hfit : (new 1 20 ⟨0, 0⟩).Fits ⟨5, ⟨1, 0⟩, 3⟩ := by
    unfold Fits
    decide
  have hpm := hinit.step hfit rfl
  have hfits : ((new 1 20 ⟨0, 0⟩).update ⟨5, ⟨1, 0⟩, 3⟩).FitsAll [⟨5, ⟨2, 0⟩, 4⟩] := by
    unfold FitsAll Fits FitsAll
    decide
  have hmono := @load_monotone _ hpm rfl 5 (by decide) _ (by simp) hfits ⟨1, 0⟩
  exact (hmono [] _ (List.prefix_refl _)).1 (by decide)

end PriorityManager
end OfpProxy
