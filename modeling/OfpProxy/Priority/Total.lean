import OfpProxy.Priority.Forward

/-!
This module compares the total of the sliding window, which is read from raw slots, with the calls
that were made for its windows.
-/

namespace OfpProxy
namespace Call

def byWindow (calls : List Call) : List (Int × Nat) :=
  calls.map fun c => ((c.splitId.toNat : Int), c.number.toNat)

-- the numbers of the calls whose window lies in (after, upto]
def totalBetween (calls : List Call) (after upto : Int) : Nat :=
  Tally.total ((byWindow calls).filter fun e => after < e.1 ∧ e.1 ≤ upto)

def hasUpdate (calls : List Call) (splitId : Int) : Bool :=
  calls.any fun c => (c.splitId.toNat : Int) = splitId

-- what the slot of a window that was never updated holds of other windows
def leftoverOf (bufferSize : Nat) (calls : List Call) (splitId : Int) : Nat :=
  if hasUpdate calls splitId then
    0
  else
    Tally.total (entries (heldBySlot bufferSize calls (u32 splitId % bufferSize)))

/--
What the slots of the last `windowSize` windows up to `splitId` hold of other windows. A window
before 0 has the slot of its uint32_t value.
-/
def leftover (bufferSize windowSize : Nat) (calls : List Call) (splitId : Nat) : Nat :=
  ((List.range windowSize).map fun i : Nat =>
    leftoverOf bufferSize calls (splitId - windowSize + 1 + i)).sum

-- the numbers of all but the last call for the last window id there is
def lost (calls : List Call) (splitId : Nat) : Nat :=
  if splitId = 4294967295 then Tally.total (entries (ofWindow calls splitId).dropLast) else 0

theorem InOrder.le_last {calls : List Call} (hs : InOrder calls) {c last : Call} (hc : c ∈ calls)
    (hlast : calls.getLast? = some last) : c.splitId.toNat ≤ last.splitId.toNat := by
  rcases List.getLast?_eq_some_iff.mp hlast with ⟨past, rfl⟩
  rw [InOrder, List.pairwise_append] at hs
  rw [List.mem_append, List.mem_singleton] at hc
  rcases hc with hc | rfl
  . apply hs.2.2 c hc last (List.mem_singleton_self last)
  . apply Nat.le_refl

theorem InOrder.filter {calls : List Call} (hs : InOrder calls) (p : Call → Bool)
    : InOrder (calls.filter p) := List.Pairwise.filter p hs

theorem eq_of_mod_eq {a b n : Nat} (h : a % n = b % n) (hle : b ≤ a) (hlt : a < b + n) : a = b := by
  have hdvd : n ∣ a - b := (Nat.modEq_iff_dvd' hle).mp (Eq.symm h)
  have hzero : a - b = 0 := Nat.eq_zero_of_dvd_of_lt hdvd (by omega)
  omega

-- No later window has taken the slot of an updated window that is less than a round behind.
theorem heldBySlot_of_mem {bufferSize : Nat} {calls : List Call} {c last : Call}
    (hs : InOrder calls) (hc : c ∈ calls) (hlast : calls.getLast? = some last)
    (hlt : last.splitId.toNat < c.splitId.toNat + bufferSize)
    : heldBySlot bufferSize calls (c.splitId.toNat % bufferSize) = held calls c.splitId.toNat := by
  have hmem : c ∈ calls.filter
      fun d => d.splitId.toNat % bufferSize = c.splitId.toNat % bufferSize := by
    simpa using hc
  unfold heldBySlot
  cases hd : lastOfSlot bufferSize calls (c.splitId.toNat % bufferSize) with
  | none =>
    rw [lastOfSlot, List.getLast?_eq_none_iff] at hd
    simp [hd] at hmem
  | some d =>
    have hcd := (hs.filter _).le_last hmem hd
    have hdmem := List.mem_of_getLast? hd
    rw [List.mem_filter, decide_eq_true_eq] at hdmem
    have hdl := hs.le_last hdmem.1 hlast
    dsimp only
    rw [eq_of_mod_eq hdmem.2 hcd (by omega)]

theorem count_byWindow (calls : List Call) (splitId : Nat)
    : Tally.count (splitId : Int) (byWindow calls)
        =
      Tally.total (entries (ofWindow calls splitId)) := by
  induction calls with
  | nil => rfl
  | cons c calls ih =>
    unfold byWindow entries ofWindow at *
    rw [List.map_cons, Tally.count_cons, ih, List.filter_cons]
    by_cases hc : c.splitId.toNat = splitId
    . simp [hc]
    . simp [hc]

theorem count_byWindow_of_none {calls : List Call} {splitId : Int}
    (h : hasUpdate calls splitId = false) : Tally.count splitId (byWindow calls) = 0 := by
  have hnone : (byWindow calls).filter (fun e => e.1 = splitId) = [] := by
    rw [List.filter_eq_nil_iff]
    simpa [hasUpdate, byWindow] using h
  rw [Tally.count, hnone]
  rfl

theorem total_held_add_lost (calls : List Call) (splitId : Nat)
    : Tally.total (entries (held calls splitId)) + lost calls splitId
        =
      Tally.total (entries (ofWindow calls splitId)) := by
  unfold held lost
  by_cases h : splitId = 4294967295
  . rw [if_pos h, if_pos h, List.dropLast_eq_take, Nat.add_comm, ← Tally.total_append]
    unfold entries
    rw [← List.map_append, List.take_append_drop]
  . rw [if_neg h, if_neg h, Nat.add_zero]

theorem total_heldBySlot {bufferSize : Nat} {calls : List Call} {last : Call} (hs : InOrder calls)
    (hlast : calls.getLast? = some last) {j : Int} (hlo : last.splitId.toNat < j + bufferSize)
    : Tally.total (entries (heldBySlot bufferSize calls (u32 j % bufferSize)))
          + (if hasUpdate calls j then lost calls j.toNat else 0)
        =
      Tally.count j (byWindow calls) + leftoverOf bufferSize calls j := by
  unfold leftoverOf
  cases hj : hasUpdate calls j with
  | false =>
    rw [count_byWindow_of_none hj]
    simp
  | true =>
    have hmem : ∃ c ∈ calls, (c.splitId.toNat : Int) = j := by
      simpa [hasUpdate] using hj
    rcases hmem with ⟨c, hc, rfl⟩
    rw [if_pos rfl, if_pos rfl, u32_of_lt c.splitId.toNat_lt, heldBySlot_of_mem hs hc hlast (by omega),
      Int.toNat_natCast, total_held_add_lost, count_byWindow, Nat.add_zero]

theorem lost_of_lt {calls : List Call} {splitId : Nat} (h : splitId < 4294967295)
    : lost calls splitId = 0 := by
  unfold lost
  rw [if_neg (by omega)]

theorem sum_lost {calls : List Call} {last : Call} (hlast : calls.getLast? = some last)
    {windowSize : Nat} (h : 1 ≤ windowSize)
    : ((List.range windowSize).map fun i : Nat =>
          let j : Int := last.splitId.toNat - windowSize + 1 + i
          if hasUpdate calls j then lost calls j.toNat else 0).sum
        =
      lost calls last.splitId.toNat := by
  have hlt := last.splitId.toNat_lt
  have hupd : hasUpdate calls (last.splitId.toNat : Int) = true := by
    rw [hasUpdate, List.any_eq_true]
    exact ⟨last, List.mem_of_getLast? hlast, by simp⟩
  rcases Nat.exists_eq_add_of_le' h with ⟨n, rfl⟩
  rw [List.range_succ, List.map_append, List.sum_append, List.map_singleton, List.sum_singleton]
  have hzero : ∀ x ∈ (List.range n).map (fun i : Nat =>
      let j : Int := last.splitId.toNat - (n + 1 : Nat) + 1 + i
      if hasUpdate calls j then lost calls j.toNat else 0), x = 0 := by
    intro x hx
    rcases List.mem_map.mp hx with ⟨i, hi, rfl⟩
    rw [List.mem_range] at hi
    dsimp only
    rw [lost_of_lt (by omega), ite_self]
  have hself : (last.splitId.toNat : Int) - (n + 1 : Nat) + 1 + n = last.splitId.toNat := by omega
  rw [List.sum_eq_zero hzero, Nat.zero_add]
  dsimp only
  rw [hself, if_pos hupd, Int.toNat_natCast]

theorem sum_heldBySlot {bufferSize windowSize : Nat} {calls : List Call} {last : Call}
    (hs : InOrder calls) (hlast : calls.getLast? = some last) (h : 1 ≤ windowSize)
    (hB : windowSize ≤ bufferSize)
    : ((List.range windowSize).map fun i : Nat =>
          Tally.total (entries (heldBySlot bufferSize calls
            (u32 (last.splitId.toNat - windowSize + 1 + i) % bufferSize)))).sum
        + lost calls last.splitId.toNat
        =
      totalBetween calls (last.splitId.toNat - windowSize) last.splitId.toNat
        + leftover bufferSize windowSize calls last.splitId.toNat := by
  have hbetween : totalBetween calls (last.splitId.toNat - windowSize) last.splitId.toNat
      = ((List.range windowSize).map fun i : Nat =>
          Tally.count ((last.splitId.toNat : Int) - windowSize + 1 + i) (byWindow calls)).sum := by
    rw [Tally.sum_count_range, totalBetween]
    congr 1
    apply List.filter_congr
    intro e _
    rw [decide_eq_decide]
    omega
  rw [hbetween, leftover, ← sum_lost hlast h, ← List.sum_map_add, ← List.sum_map_add]
  congr 1
  apply List.map_congr_left
  intro i _
  apply total_heldBySlot hs hlast
  omega

end Call
namespace PriorityManager

theorem windowTotal_mod {calls : List Call} {last : Call} (hs : Call.InOrder calls)
    {windowSize bufferSize : Nat} (start : Timeval) (h : 1 ≤ windowSize)
    : ((new windowSize bufferSize start).updateAll calls).windowTotal last.splitId.toNat
        =
      ((List.range windowSize).map fun i : Nat =>
        Tally.total (Call.entries (Call.heldBySlot bufferSize calls
          (u32 (last.splitId.toNat - windowSize + 1 + i) % bufferSize)))).sum % 4294967296 := by
  have hslots := (forward_updateAll hs bufferSize start h).slots
  rw [updateAll_windowBuffer_bufferSize] at hslots
  rw [windowTotal_eq, windowTotals, updateAll_windowSize, updateAll_windowBuffer_bufferSize,
    List.sum_nat_mod (List.map (fun i : Nat => Tally.total _) _), List.map_map]
  congr 2
  apply List.map_congr_left
  intro i _
  apply (hslots _).total

/--
The total of the window is that of the calls for it when, and only when, the latter fits in 32 bits
and nothing is left over in the slots that no call has refreshed.
-/
theorem windowTotal_eq_iff {calls : List Call} {last : Call} (hs : Call.InOrder calls)
    (hlast : calls.getLast? = some last) {windowSize bufferSize : Nat} (start : Timeval)
    (h : 1 ≤ windowSize) (hB : windowSize ≤ bufferSize)
    : let k := last.splitId.toNat
      ((new windowSize bufferSize start).updateAll calls).windowTotal k
          = Call.totalBetween calls (k - windowSize) k
        ↔
      Call.totalBetween calls (k - windowSize) k < 4294967296
        ∧ Call.leftover bufferSize windowSize calls k % 4294967296
            = Call.lost calls k % 4294967296 := by
  have hsum := Call.sum_heldBySlot hs hlast h hB
  dsimp only
  rw [windowTotal_mod hs start h]
  omega

theorem windowTotal_eq_iff_noGap
    : ((new 2 3 ⟨0, 0⟩).updateAll [⟨2, {}, 5⟩, ⟨3, {}, 1⟩]).windowTotal 3 = 6 := by
  have hs : Call.InOrder [⟨2, {}, 5⟩, ⟨3, {}, 1⟩] := by decide
  have hlast : ([⟨2, {}, 5⟩, ⟨3, {}, 1⟩] : List Call).getLast? = some ⟨3, {}, 1⟩ := rfl
  apply (windowTotal_eq_iff hs hlast ⟨0, 0⟩ (by decide) (by decide)).mpr
  decide +kernel

theorem windowTotal_skippedWindow
    : ¬((new 2 2 ⟨0, 0⟩).updateAll [⟨0, {}, 5⟩, ⟨3, {}, 1⟩]).windowTotal 3
        = Call.totalBetween [⟨0, {}, 5⟩, ⟨3, {}, 1⟩] (3 - 2) 3 := by
  decide +kernel

end PriorityManager
end OfpProxy
