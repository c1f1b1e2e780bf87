import Mathlib.Algebra.BigOperators.Group.List.Basic
import Mathlib.Algebra.GroupWithZero.Nat

/-!
This module contains tallies: lists of amounts that were recorded under keys. Both the amount under
one key and the total of all keys are sums over the list.
-/

namespace OfpProxy
namespace Tally

variable {κ : Type}

def total (es : List (κ × Nat)) : Nat := (es.map Prod.snd).sum

def count [DecidableEq κ] (k : κ) (es : List (κ × Nat)) : Nat := total (es.filter fun e => e.1 = k)

@[simp]
theorem total_nil : total ([] : List (κ × Nat)) = 0 := rfl

@[simp]
theorem total_cons (e : κ × Nat) (es : List (κ × Nat)) : total (e :: es) = e.2 + total es := by
  simp [total]

@[simp]
theorem total_append (es fs : List (κ × Nat)) : total (es ++ fs) = total es + total fs := by
  simp [total]

variable [DecidableEq κ]

@[simp]
theorem count_nil (k : κ) : count k [] = 0 := rfl

@[simp]
theorem count_cons (k : κ) (e : κ × Nat) (es : List (κ × Nat))
    : count k (e :: es) = (if e.1 = k then e.2 else 0) + count k es := by
  unfold count
  rw [List.filter_cons]
  split
  . next h => simp_all
  . next h => simp_all

@[simp]
theorem count_append (k : κ) (es fs : List (κ × Nat))
    : count k (es ++ fs) = count k es + count k fs := by
  simp [count]

theorem count_add_count_le_total {k k' : κ} (h : k ≠ k') (es : List (κ × Nat))
    : count k es + count k' es ≤ total es := by
  induction es with
  | nil => simp
  | cons e es ih =>
    rw [count_cons, count_cons, total_cons]
    split
    . next hk =>
      have hk' : ¬e.1 = k' := by
        rw [hk]
        exact h
      rw [if_neg hk']
      omega
    . split <;> omega

theorem count_le_total (k : κ) (es : List (κ × Nat)) : count k es ≤ total es := by
  induction es with
  | nil => simp
  | cons e es ih =>
    rw [count_cons, total_cons]
    split <;> omega

theorem total_filter_succ {a b : Int} (h : a ≤ b) (es : List (Int × Nat))
    : total (es.filter fun e => a ≤ e.1 ∧ e.1 < b) + count b es
        =
      total (es.filter fun e => a ≤ e.1 ∧ e.1 < b + 1) := by
  induction es with
  | nil => rfl
  | cons e es ih =>
    rw [count_cons, List.filter_cons, List.filter_cons]
    by_cases hb : e.1 = b
    . rw [if_neg (by simp; omega), if_pos hb, if_pos (by simp; omega), total_cons]
      omega
    . rw [if_neg hb]
      by_cases ha : a ≤ e.1 ∧ e.1 < b
      . rw [if_pos (by simpa using ha), if_pos (by simp; omega), total_cons, total_cons]
        omega
      . rw [if_neg (by simpa using ha), if_neg (by simp; omega)]
        omega

/--
The amounts under consecutive keys add up to what is recorded under any of them.
-/
theorem sum_count_range (a : Int) (n : Nat) (es : List (Int × Nat))
    : ((List.range n).map fun i : Nat => count (a + i) es).sum
        =
      total (es.filter fun e => a ≤ e.1 ∧ e.1 < a + n) := by
  induction n with
  | zero =>
    have hnone : es.filter (fun e => a ≤ e.1 ∧ e.1 < a + (0 : Nat)) = [] := by
      rw [List.filter_eq_nil_iff]
      intro e _
      rw [decide_eq_true_eq]
      omega
    rw [hnone]
    rfl
  | succ n ih =>
    rw [List.range_succ, List.map_append, List.sum_append, ih, List.map_singleton,
      List.sum_singleton, total_filter_succ (by omega), Int.natCast_succ, Int.add_assoc]

end Tally
end OfpProxy
