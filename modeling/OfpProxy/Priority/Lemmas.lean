import Mathlib.Data.List.Induction
import OfpProxy.Priority.Impl
import OfpProxy.Tally.Basic

/-!
This module shows what one call of `updateSplitOfUEP` does to the ring, and that a `Split` is a tally
of what was added to it modulo 2^32.
-/

namespace OfpProxy

theorem u32_of_lt {n : Nat} (h : n < 4294967296) : u32 n = n := by
  unfold u32
  omega

theorem u32_natCast (n : Nat) : u32 n = n % 4294967296 := by
  unfold u32
  omega

theorem u32_u32_add (x y : Int) : u32 (u32 x + y) = u32 (x + y) := by
  unfold u32
  omega

namespace Split

@[simp]
theorem getUEPNumber_empty (uep : UEPID) : empty.getUEPNumber uep = 0 := rfl

@[simp]
theorem totalNumberSplit_empty : empty.totalNumberSplit = 0 := rfl

@[simp]
theorem totalNumberSplit_addUEP (s : Split) (uep : UEPID) (number : Nat)
    : (s.addUEP uep number).totalNumberSplit = u32 (s.totalNumberSplit + number) := rfl

-- A missing counter reads as zero, so both branches of addUEP add to it.
theorem getUEPNumber_addUEP (s : Split) (uep v : UEPID) {number : Nat} (h : number < 4294967296)
    : (s.addUEP uep number).getUEPNumber v
        =
      if v = uep then u32 (s.getUEPNumber uep + number) else s.getUEPNumber v := by
  unfold addUEP getUEPNumber hasUEP
  by_cases hv : v = uep
  . subst hv
    cases s.uepMap v with
    | none => simp [u32_of_lt h]
    | some n => simp
  . split <;> simp [hv]

/--
The split holds the numbers of the entries, each counter and the total modulo 2^32.
-/
structure Records (s : Split) (es : List (UEPID × Nat)) : Prop where
  number : ∀ uep, s.getUEPNumber uep = Tally.count uep es % 4294967296
  total : s.totalNumberSplit = Tally.total es % 4294967296

theorem Records.empty : Records .empty [] where
  number := fun _ => rfl
  total := rfl

theorem Records.addUEP {s : Split} {es : List (UEPID × Nat)} (hs : s.Records es) (uep : UEPID)
    {number : Nat} (h : number < 4294967296)
    : (s.addUEP uep number).Records (es ++ [(uep, number)]) := by
  constructor
  . intro v
    rw [getUEPNumber_addUEP s uep v h, hs.number, hs.number, Tally.count_append, Tally.count_cons,
      Tally.count_nil]
    by_cases hv : v = uep
    . subst hv
      rw [if_pos rfl, if_pos rfl, ← Nat.cast_add, u32_natCast]
      omega
    . rw [if_neg hv, if_neg (Ne.symm hv)]
      omega
  . rw [totalNumberSplit_addUEP, hs.total, ← Nat.cast_add, u32_natCast, Tally.total_append,
      Tally.total_cons, Tally.total_nil]
    omega

end Split

namespace RingBuffer

variable {T : Type}

@[simp]
theorem buffer_putdData (r : RingBuffer T) (data : T)
    : (r.putdData data).buffer = Function.update r.buffer (r.tail % r.bufferSize) data := by
  unfold putdData
  dsimp only
  split <;> rfl

@[simp]
theorem bufferSize_putdData (r : RingBuffer T) (data : T)
    : (r.putdData data).bufferSize = r.bufferSize := by
  unfold putdData
  dsimp only
  split <;> rfl

@[simp]
theorem windowSize_putdData (r : RingBuffer T) (data : T)
    : (r.putdData data).windowSize = r.windowSize := by
  unfold putdData
  dsimp only
  split <;> rfl

@[simp]
theorem tail_putdData (r : RingBuffer T) (data : T)
    : (r.putdData data).tail = u32 (r.tail + 1) := by
  unfold putdData
  dsimp only
  split <;> rfl

@[simp]
theorem buffer_updateHeadTail (r : RingBuffer T) (newHead : Nat)
    : (r.updateHeadTail newHead).buffer = r.buffer := rfl

@[simp]
theorem bufferSize_updateHeadTail (r : RingBuffer T) (newHead : Nat)
    : (r.updateHeadTail newHead).bufferSize = r.bufferSize := rfl

@[simp]
theorem windowSize_updateHeadTail (r : RingBuffer T) (newHead : Nat)
    : (r.updateHeadTail newHead).windowSize = r.windowSize := rfl

@[simp]
theorem tail_updateHeadTail (r : RingBuffer T) (newHead : Nat)
    : (r.updateHeadTail newHead).tail = newHead := rfl

theorem head_putdData_updateHeadTail (r : RingBuffer T) (newHead : Nat) (data : T)
    (h : 1 ≤ r.windowSize) : ((r.updateHeadTail newHead).putdData data).head = newHead := by
  have hsize : u32 ((0 : Nat) + 1) ≤ r.windowSize := h
  unfold putdData updateHeadTail
  dsimp only
  rw [if_pos hsize]

def slotTotals (r : RingBuffer Split) (begin lens : Nat) : List Nat :=
  (List.range lens).map fun i : Nat => (r.buffer (u32 (begin + i) % r.bufferSize)).totalNumberSplit

theorem totalNumberSplit_getTotal (r : RingBuffer Split) (begin lens : Nat)
    : (r.getTotal begin lens).totalNumberSplit = (r.slotTotals begin lens).sum % 4294967296 := by
  induction lens with
  | zero => rfl
  | succ lens ih =>
    have hadd : (r.getTotal begin (lens + 1)).totalNumberSplit
        = u32 ((r.getTotal begin lens).totalNumberSplit
            + (r.buffer (u32 (begin + lens) % r.bufferSize)).totalNumberSplit) := rfl
    rw [hadd, ih, ← Nat.cast_add, u32_natCast, slotTotals, slotTotals, List.range_succ,
      List.map_append, List.sum_append, List.map_singleton, List.sum_singleton]
    omega

end RingBuffer

-- the arguments of one call of updateSplitOfUEP
structure Call where
  splitId : UInt32
  uep : UEPID
  number : UInt32
  deriving DecidableEq

namespace PriorityManager

def update (pm : PriorityManager) (c : Call) : PriorityManager :=
  pm.updateSplitOfUEP c.splitId.toNat c.uep c.number.toNat

def updateAll (pm : PriorityManager) (calls : List Call) : PriorityManager := calls.foldl update pm

@[simp]
theorem updateAll_concat (pm : PriorityManager) (calls : List Call) (c : Call)
    : pm.updateAll (calls ++ [c]) = (pm.updateAll calls).update c := by
  simp [updateAll]

def isLive (pm : PriorityManager) (splitId : Nat) : Bool :=
  !pm.windowBuffer.aheadofHead splitId && pm.windowBuffer.aheadoftail splitId

def isBehindHead (pm : PriorityManager) (splitId : Nat) : Bool :=
  pm.windowBuffer.aheadofHead splitId && pm.windowBuffer.aheadoftail splitId

-- the slot a call for the window writes
def slotOf (pm : PriorityManager) (splitId : Nat) : Nat :=
  if pm.isBehindHead splitId then
    pm.windowBuffer.tail % pm.windowBuffer.bufferSize
  else
    splitId % pm.windowBuffer.bufferSize

-- what a call for the window adds to
def splitBefore (pm : PriorityManager) (splitId : Nat) : Split :=
  if pm.isLive splitId then pm.windowBuffer.getData splitId else .empty

theorem update_of_live {pm : PriorityManager} {c : Call} (h : pm.isLive c.splitId.toNat = true)
    : pm.update c
        =
      { pm with
          windowBuffer :=
            pm.windowBuffer.updateData c.splitId.toNat
              ((pm.windowBuffer.getData c.splitId.toNat).addUEP c.uep c.number.toNat) } := by
  unfold update updateSplitOfUEP
  exact if_pos h

theorem update_of_ahead {pm : PriorityManager} {c : Call}
    (h : pm.windowBuffer.aheadoftail c.splitId.toNat = false)
    : pm.update c
        =
      { pm with
          windowBuffer :=
            (pm.windowBuffer.updateHeadTail c.splitId.toNat).putdData
              (Split.empty.addUEP c.uep c.number.toNat) } := by
  unfold update updateSplitOfUEP
  rw [if_neg (by simp [h])]
  simp [h]

theorem update_of_behindHead {pm : PriorityManager} {c : Call}
    (h : pm.isBehindHead c.splitId.toNat = true)
    : pm.update c
        =
      { pm with
          windowBuffer :=
            pm.windowBuffer.putdData (Split.empty.addUEP c.uep c.number.toNat) } := by
  unfold isBehindHead at h
  rw [Bool.and_eq_true] at h
  unfold update updateSplitOfUEP
  rw [if_neg (by simp [h.1])]
  simp [h.2]

theorem cases_of_splitId (pm : PriorityManager) (splitId : Nat)
    : pm.isLive splitId = true ∨ pm.windowBuffer.aheadoftail splitId = false
        ∨ pm.isBehindHead splitId = true := by
  unfold isLive isBehindHead
  cases pm.windowBuffer.aheadofHead splitId <;> cases pm.windowBuffer.aheadoftail splitId <;> simp

theorem isBehindHead_of_live {pm : PriorityManager} {splitId : Nat} (h : pm.isLive splitId = true)
    : pm.isBehindHead splitId = false := by
  unfold isLive at h
  rw [Bool.and_eq_true, Bool.not_eq_true'] at h
  simp [isBehindHead, h.1]

theorem isLive_of_behindHead {pm : PriorityManager} {splitId : Nat}
    (h : pm.isBehindHead splitId = true) : pm.isLive splitId = false := by
  unfold isBehindHead at h
  rw [Bool.and_eq_true] at h
  simp [isLive, h.1]

theorem update_buffer (pm : PriorityManager) (c : Call)
    : (pm.update c).windowBuffer.buffer
        =
      Function.update pm.windowBuffer.buffer (pm.slotOf c.splitId.toNat)
        ((pm.splitBefore c.splitId.toNat).addUEP c.uep c.number.toNat) := by
  unfold slotOf splitBefore
  rcases pm.cases_of_splitId c.splitId.toNat with h | h | h
  . rw [update_of_live h, isBehindHead_of_live h, h]
    rfl
  . rw [update_of_ahead h]
    simp [isLive, isBehindHead, h]
  . rw [update_of_behindHead h, isLive_of_behindHead h, h]
    simp

@[simp]
theorem update_windowBuffer_bufferSize (pm : PriorityManager) (c : Call)
    : (pm.update c).windowBuffer.bufferSize = pm.windowBuffer.bufferSize := by
  rcases pm.cases_of_splitId c.splitId.toNat with h | h | h
  . rw [update_of_live h]
    rfl
  . simp [update_of_ahead h]
  . simp [update_of_behindHead h]

@[simp]
theorem update_windowBuffer_windowSize (pm : PriorityManager) (c : Call)
    : (pm.update c).windowBuffer.windowSize = pm.windowBuffer.windowSize := by
  rcases pm.cases_of_splitId c.splitId.toNat with h | h | h
  . rw [update_of_live h]
    rfl
  . simp [update_of_ahead h]
  . simp [update_of_behindHead h]

@[simp]
theorem update_windowSize (pm : PriorityManager) (c : Call)
    : (pm.update c).windowSize = pm.windowSize := by
  rcases pm.cases_of_splitId c.splitId.toNat with h | h | h
  . rw [update_of_live h]
  . rw [update_of_ahead h]
  . rw [update_of_behindHead h]

@[simp]
theorem updateAll_windowBuffer_bufferSize (pm : PriorityManager) (calls : List Call)
    : (pm.updateAll calls).windowBuffer.bufferSize = pm.windowBuffer.bufferSize := by
  induction calls using List.reverseRecOn with
  | nil => rfl
  | append_singleton past c ih => rw [updateAll_concat, update_windowBuffer_bufferSize, ih]

@[simp]
theorem updateAll_windowSize (pm : PriorityManager) (calls : List Call)
    : (pm.updateAll calls).windowSize = pm.windowSize := by
  induction calls using List.reverseRecOn with
  | nil => rfl
  | append_singleton past c ih => rw [updateAll_concat, update_windowSize, ih]

-- TOTAL in getUEPRatioOfSplitK
def windowTotal (pm : PriorityManager) (splitId : Nat) : Nat :=
  (pm.windowBuffer.getTotal (u32 (splitId - pm.windowSize + 1)) pm.windowSize).totalNumberSplit

theorem getUEPRatioOfSplitK_eq (pm : PriorityManager) (splitId : Nat) (uep : UEPID)
    : pm.getUEPRatioOfSplitK splitId uep
        =
      if pm.windowTotal splitId = 0 then
        0
      else
        ((pm.windowBuffer.getData splitId).getUEPNumber uep : ℚ) / (pm.windowTotal splitId + 5) := rfl

def windowTotals (pm : PriorityManager) (splitId : Nat) : List Nat :=
  (List.range pm.windowSize).map fun i : Nat =>
    (pm.windowBuffer.buffer
      (u32 (splitId - pm.windowSize + 1 + i) % pm.windowBuffer.bufferSize)).totalNumberSplit

theorem windowTotal_eq (pm : PriorityManager) (splitId : Nat)
    : pm.windowTotal splitId = (pm.windowTotals splitId).sum % 4294967296 := by
  unfold windowTotal windowTotals
  simp only [RingBuffer.totalNumberSplit_getTotal, RingBuffer.slotTotals, u32_u32_add]

end PriorityManager
end OfpProxy
