import Mathlib.Algebra.Order.Field.Basic
import Mathlib.Tactic.Linarith
import Mathlib.Tactic.Ring

/-!
This module contains lists of points that keep a distance, and a bound on how many of them fit in a
span.
-/

namespace OfpProxy

variable {K : Type} [Field K] [LinearOrder K]

/--
The points are in order, and each is more than `d` behind every one in front of it.
-/
def Spaced (d : K) (points : List K) : Prop := points.Pairwise fun x y => x + d < y

namespace Spaced

variable {d : K} {points : List K}

theorem nil : Spaced d [] := List.Pairwise.nil

theorem concat (h : Spaced d points) {y : K} (hy : ∀ x ∈ points, x + d < y) : Spaced d (points ++ [y]) := by
  rw [Spaced, List.pairwise_append]
  refine ⟨h, List.pairwise_singleton _ _, ?_⟩
  simpa using hy

theorem filter (h : Spaced d points) (p : K → Bool) : Spaced d (points.filter p) :=
  List.Pairwise.filter p h

variable [IsStrictOrderedRing K]

theorem length_mul_le (h : Spaced d points) (hd : 0 ≤ d) {a b : K} (hab : a ≤ b)
    (hin : ∀ x ∈ points, a ≤ x ∧ x ≤ b) : (points.length : K) * d ≤ b - a + d := by
  induction points generalizing a with
  | nil =>
    simp only [List.length_nil, Nat.cast_zero, zero_mul]
    linarith
  | cons x points ih =>
    rw [Spaced, List.pairwise_cons] at h
    rw [List.forall_mem_cons] at hin
    cases points with
    | nil =>
      simp only [List.length_singleton, Nat.cast_one, one_mul]
      linarith
    | cons y points =>
      have hy := h.1 y List.mem_cons_self
      have hle := ih h.2 (a := x + d) (by linarith [(hin.2 y List.mem_cons_self).2]) (by
        intro z hz
        exact ⟨le_of_lt (h.1 z hz), (hin.2 z hz).2⟩)
      rw [List.length_cons, Nat.cast_succ, add_mul, one_mul]
      linarith

theorem length_le (h : Spaced d points) (hd : 0 < d) {a t : K} (ht : 0 ≤ t)
    (hin : ∀ x ∈ points, a ≤ x ∧ x ≤ a + t) : (points.length : K) ≤ t / d + 1 := by
  have hle := h.length_mul_le (le_of_lt hd) (by linarith : a ≤ a + t) hin
  have hspan : (t / d + 1) * d = a + t - a + d := by
    rw [add_mul, div_mul_cancel₀ t (ne_of_gt hd)]
    ring
  rw [← hspan] at hle
  exact le_of_mul_le_mul_right hle hd

end Spaced
end OfpProxy
