import Mathlib.Algebra.Field.Rat
import OfpProxy.Priority.Forward
import OfpProxy.Rewrite.Impl.Basic

/-!
This module shows that the load of a user in the last window is their share of everything that was
reported for this window, when the window ids do not go back.
-/

namespace OfpProxy

-- every field of a report is a uint16_t
def UEPMsg.Small (uep : UEPMsg) : Prop := uep.window < 65536 ∧ uep.number < 65536

def UEPMsg.call (uep : UEPMsg) : Call where
  splitId := UInt32.ofNat uep.window
  uep := uep.uepid
  number := UInt32.ofNat uep.number

theorem UEPMsg.Small.splitId {uep : UEPMsg} (h : uep.Small)
    : uep.call.splitId.toNat = uep.window := by
  have hwindow := h.1
  unfold UEPMsg.call
  dsimp only
  rw [UInt32.toNat_ofNat']
  omega

theorem UEPMsg.Small.number {uep : UEPMsg} (h : uep.Small)
    : uep.call.number.toNat = uep.number := by
  have hnumber := h.2
  unfold UEPMsg.call
  dsimp only
  rw [UInt32.toNat_ofNat']
  omega

namespace Reported

-- what was reported for the window, under the users it was reported for
def entries (log : List UEPMsg) (window : Nat) : List (UEPID × Nat) :=
  (log.filter fun uep => uep.window = window).map fun uep => (uep.uepid, uep.number)

-- with the 5 that `getUEPRatioOfSplitK` adds to the total
def share (log : List UEPMsg) (window : Nat) (uep : UEPID) : ℚ :=
  (Tally.count uep (entries log window) : ℚ) / (Tally.total (entries log window) + 5)

def InOrder (log : List UEPMsg) : Prop := log.Pairwise fun uep uep' => uep.window ≤ uep'.window

variable {log : List UEPMsg}

theorem inOrder_calls (hsmall : ∀ uep ∈ log, uep.Small) (h : InOrder log)
    : Call.InOrder (log.map UEPMsg.call) := by
  unfold Call.InOrder
  rw [List.pairwise_map]
  apply List.Pairwise.imp_of_mem _ h
  intro uep uep' huep huep' hle
  rw [(hsmall uep huep).splitId, (hsmall uep' huep').splitId]
  exact hle

theorem entries_calls (hsmall : ∀ uep ∈ log, uep.Small) (window : Nat)
    : Call.entries (Call.ofWindow (log.map UEPMsg.call) window) = entries log window := by
  unfold Call.entries Call.ofWindow entries
  rw [List.filter_map, List.map_map]
  have hfilter : log.filter ((fun c : Call => decide (c.splitId.toNat = window)) ∘ UEPMsg.call)
      = log.filter fun uep => uep.window = window := by
    apply List.filter_congr
    intro uep huep
    rw [Function.comp_apply, (hsmall uep huep).splitId]
  rw [hfilter]
  apply List.map_congr_left
  intro uep huep
  rw [Function.comp_apply, (hsmall uep (List.mem_of_mem_filter huep)).number]
  rfl

end Reported

namespace PriorityManager

theorem charge_eq {log : List UEPMsg} (h : ∀ uep ∈ log, uep.Small) (pm : PriorityManager)
    : log.foldl (fun pm uep => pm.updateSplitOfUEP uep.window uep.uepid uep.number) pm
        =
      pm.updateAll (log.map UEPMsg.call) := by
  induction log generalizing pm with
  | nil => rfl
  | cons uep log ih =>
    rw [List.forall_mem_cons] at h
    have hupdate : pm.update uep.call = pm.updateSplitOfUEP uep.window uep.uepid uep.number := by
      unfold PriorityManager.update
      rw [h.1.splitId, h.1.number]
      rfl
    rw [List.foldl_cons, ih h.2, ← hupdate]
    rfl

theorem windowTotal_of_one {pm : PriorityManager} (hw : pm.windowSize = 1) (splitId : UInt32)
    : pm.windowTotal splitId.toNat
        = (pm.windowBuffer.getData splitId.toNat).totalNumberSplit % 4294967296 := by
  have hself : u32 (splitId.toNat - (1 : Nat) + 1 + (0 : Nat)) = splitId.toNat := by
    have hlt := splitId.toNat_lt
    unfold u32
    omega
  rw [windowTotal_eq, windowTotals, hw, List.range_one, List.map_singleton, List.sum_singleton, hself]
  rfl

theorem ratio_of_records {pm : PriorityManager} (hw : pm.windowSize = 1) {splitId : UInt32}
    {es : List (UEPID × Nat)} (hrecords : (pm.windowBuffer.getData splitId.toNat).Records es)
    (htotal : Tally.total es < 4294967296) (uep : UEPID)
    : pm.getUEPRatioOfSplitK splitId.toNat uep
        =
      (Tally.count uep es : ℚ) / (Tally.total es + 5) := by
  have hle := Tally.count_le_total uep es
  have hwindow : pm.windowTotal splitId.toNat = Tally.total es := by
    rw [windowTotal_of_one hw, hrecords.total]
    omega
  have hnumber : (pm.windowBuffer.getData splitId.toNat).getUEPNumber uep = Tally.count uep es := by
    rw [hrecords.number]
    omega
  rw [getUEPRatioOfSplitK_eq, hwindow, hnumber]
  split
  . next hzero =>
    have hnone : Tally.count uep es = 0 := by omega
    rw [hnone, Nat.cast_zero, zero_div]
  . rfl

/--
The ratio that is computed for a user right after a report is their share of the window of this
report.
-/
theorem ratio_lastReport {log : List UEPMsg} {last : UEPMsg} (hsmall : ∀ uep ∈ log, uep.Small)
    (horder : Reported.InOrder log) (hlast : log.getLast? = some last)
    (htotal : Tally.total (Reported.entries log last.window) < 4294967296) {bufferSize : Nat}
    {start : Timeval} (uep : UEPID)
    : ((new 1 bufferSize start).updateAll (log.map UEPMsg.call)).getUEPRatioOfSplitK last.window uep
        =
      Reported.share log last.window uep := by
  have hlastSmall := hsmall last (List.mem_of_getLast? hlast)
  have hforward := forward_updateAll (Reported.inOrder_calls hsmall horder) bufferSize start
    (Nat.le_refl 1)
  have hslot := hforward.slots (last.call.splitId.toNat % bufferSize)
  rw [updateAll_windowBuffer_bufferSize] at hslot
  change Split.Records _ (Call.entries (Call.heldBySlot bufferSize _ _)) at hslot
  rcases List.getLast?_eq_some_iff.mp hlast with ⟨past, rfl⟩
  rw [List.map_append, List.map_singleton, Call.heldBySlot_concat_self, hlastSmall.splitId,
    Call.held_eq_ofWindow (by have := hlastSmall.1; omega), ← List.map_singleton, ← List.map_append,
    Reported.entries_calls hsmall] at hslot
  rw [← hlastSmall.splitId] at htotal ⊢
  apply ratio_of_records
  . rw [updateAll_windowSize]
    rfl
  . rw [RingBuffer.getData, updateAll_windowBuffer_bufferSize, hlastSmall.splitId]
    exact hslot
  . exact htotal

end PriorityManager
end OfpProxy
