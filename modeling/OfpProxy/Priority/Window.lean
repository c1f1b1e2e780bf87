import OfpProxy.Priority.Lemmas

/-!
This module relates the slots of the ring to the calls of `updateSplitOfUEP` that were made so far:
which slot a call touches, and what the ring holds while the window ids do not go back.
-/

namespace OfpProxy
namespace PriorityManager

/--
The call leaves every slot but that of its window alone, and there it adds its number to what was
counted in the window before.
-/
structure Isolated (pm : PriorityManager) (c : Call) : Prop where
  others : ∀ slot, slot ≠ c.splitId.toNat % pm.windowBuffer.bufferSize →
    (pm.update c).windowBuffer.buffer slot = pm.windowBuffer.buffer slot
  counted : ((pm.update c).windowBuffer.getData c.splitId.toNat).getUEPNumber c.uep
    = u32 ((pm.splitBefore c.splitId.toNat).getUEPNumber c.uep + c.number.toNat)

/--
The window is not behind the head of the ring, or its slot is the one at the tail, or the slot at the
tail and the counter of the window both happen to have the values they are about to get.
-/
def StaysInSlot (pm : PriorityManager) (c : Call) : Prop :=
  let r := pm.windowBuffer
  pm.isBehindHead c.splitId.toNat = false
    ∨ r.tail % r.bufferSize = c.splitId.toNat % r.bufferSize
    ∨ r.buffer (r.tail % r.bufferSize) = Split.empty.addUEP c.uep c.number.toNat
        ∧ (r.getData c.splitId.toNat).getUEPNumber c.uep = c.number.toNat

theorem isolated_of_slotOf {pm : PriorityManager} {c : Call}
    (h : pm.slotOf c.splitId.toNat = c.splitId.toNat % pm.windowBuffer.bufferSize)
    : pm.Isolated c := by
  constructor
  . intro slot hslot
    rw [update_buffer, h, Function.update_of_ne hslot]
  . rw [RingBuffer.getData, update_windowBuffer_bufferSize, update_buffer, h, Function.update_self,
      Split.getUEPNumber_addUEP _ _ _ c.number.toNat_lt, if_pos rfl]

theorem isolated_iff_of_behindHead {pm : PriorityManager} {c : Call}
    (h : pm.isBehindHead c.splitId.toNat = true)
    (hslot : ¬pm.windowBuffer.tail % pm.windowBuffer.bufferSize
      = c.splitId.toNat % pm.windowBuffer.bufferSize)
    : pm.Isolated c ↔
        pm.windowBuffer.buffer (pm.windowBuffer.tail % pm.windowBuffer.bufferSize)
          = Split.empty.addUEP c.uep c.number.toNat
        ∧ (pm.windowBuffer.getData c.splitId.toNat).getUEPNumber c.uep = c.number.toNat := by
  have hbuffer := pm.update_buffer c
  have hcount : u32 (Split.empty.getUEPNumber c.uep + c.number.toNat) = c.number.toNat := by
    rw [Split.getUEPNumber_empty, ← Nat.cast_add, Nat.zero_add]
    apply u32_of_lt c.number.toNat_lt
  unfold slotOf splitBefore at hbuffer
  rw [isLive_of_behindHead h, if_pos h, if_neg (by simp)] at hbuffer
  constructor
  . intro hiso
    constructor
    . have hsame := hiso.others _ hslot
      rw [hbuffer, Function.update_self] at hsame
      rw [← hsame]
    . have hcounted := hiso.counted
      rw [RingBuffer.getData, update_windowBuffer_bufferSize, hbuffer, Function.update_of_ne (Ne.symm hslot),
        splitBefore, isLive_of_behindHead h, if_neg (by simp), hcount] at hcounted
      apply hcounted
  . rintro ⟨hfresh, hnumber⟩
    have hsame : (pm.update c).windowBuffer.buffer = pm.windowBuffer.buffer := by
      rw [hbuffer, ← hfresh, Function.update_eq_self]
    constructor
    . intro slot _
      rw [hsame]
    . rw [RingBuffer.getData, update_windowBuffer_bufferSize, hsame, splitBefore, isLive_of_behindHead h,
        if_neg (by simp), hcount]
      apply hnumber

theorem isolated_iff_staysInSlot (pm : PriorityManager) (c : Call)
    : pm.Isolated c ↔ pm.StaysInSlot c := by
  unfold StaysInSlot
  cases h : pm.isBehindHead c.splitId.toNat with
  | false => simpa using isolated_of_slotOf (by simp [slotOf, h])
  | true =>
    by_cases hslot : pm.windowBuffer.tail % pm.windowBuffer.bufferSize
        = c.splitId.toNat % pm.windowBuffer.bufferSize
    . simpa [hslot] using isolated_of_slotOf (by simp [slotOf, h, hslot])
    . simpa [hslot] using isolated_iff_of_behindHead h hslot

/--
Every call of a run is isolated when, and only when, each of them stays in the slot of its window.
-/
theorem isolated_run_iff (windowSize bufferSize : Nat) (start : Timeval) (calls : List Call)
    : (∀ past c, past ++ [c] <+: calls →
          ((new windowSize bufferSize start).updateAll past).Isolated c)
        ↔
      (∀ past c, past ++ [c] <+: calls →
          ((new windowSize bufferSize start).updateAll past).StaysInSlot c) := by
  simp only [isolated_iff_staysInSlot]

-- The window ids wrapped: the call for window 0 lands behind that for window 65535.
theorem not_isolated_after_wrap
    : ¬((new 1 20 ⟨0, 0⟩).updateAll [⟨65535, {}, 1⟩]).Isolated ⟨0, {}, 1⟩ := by
  intro h
  have hcounted := h.counted
  revert hcounted
  decide +kernel

end PriorityManager
end OfpProxy
