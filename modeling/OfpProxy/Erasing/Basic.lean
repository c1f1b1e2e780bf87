import Mathlib.Data.List.Basic

/-!
This module contains the loop that erases elements of a list while it goes over it. It makes as many
rounds as it was told to before the first one, and stays at its index when it has erased the element
there.
-/

namespace OfpProxy
namespace Erasing

variable {α : Type}

-- What is left and what was erased. The result is `none` when the loop reaches outside the list.
def run (p : α → Bool) : Nat → Nat → List α → List α → Option (List α × List α)
  | 0, _, xs, erased => some (xs, erased)
  | n + 1, index, xs, erased =>
    match xs[index]? with
    | none => none
    | some x =>
      if p x then
        run p n index (xs.eraseIdx index) (erased ++ [x])
      else
        run p n (index + 1) xs erased

variable {p : α → Bool}

theorem run_succ_of_pos {index : Nat} {xs : List α} {x : α} (hget : xs[index]? = some x)
    (hx : p x = true) (n : Nat) (erased : List α)
    : run p (n + 1) index xs erased = run p n index (xs.eraseIdx index) (erased ++ [x]) := by
  rw [run, hget]
  dsimp only
  rw [if_pos hx]

theorem run_succ_of_neg {index : Nat} {xs : List α} {x : α} (hget : xs[index]? = some x)
    (hx : p x = false) (n : Nat) (erased : List α)
    : run p (n + 1) index xs erased = run p n (index + 1) xs erased := by
  rw [run, hget]
  dsimp only
  rw [if_neg (by simp [hx])]

-- The index stands behind the elements that were kept, and each round takes one element off `xs`.
theorem run_append (kept xs rest erased : List α)
    : run p xs.length kept.length (kept ++ xs ++ rest) erased
        =
      some (kept ++ xs.filter (fun x => !p x) ++ rest, erased ++ xs.filter p) := by
  induction xs generalizing kept erased with
  | nil => simp [run]
  | cons x xs ih =>
    have hget : (kept ++ x :: xs ++ rest)[kept.length]? = some x := by simp
    rw [List.length_cons]
    cases hx : p x with
    | true =>
      have herase : (kept ++ x :: xs ++ rest).eraseIdx kept.length = kept ++ xs ++ rest := by
        simp [List.eraseIdx_append_of_length_le]
      rw [run_succ_of_pos hget hx, herase, ih]
      simp [hx]
    | false =>
      have hkeep : kept ++ x :: xs ++ rest = (kept ++ [x]) ++ xs ++ rest := by simp
      have hindex : kept.length + 1 = (kept ++ [x]).length := by simp
      rw [run_succ_of_neg hget hx, hkeep, hindex, ih]
      simp [hx]

/--
The loop over a whole list stays inside of it and filters it.
-/
theorem run_length (xs : List α)
    : run p xs.length 0 xs [] = some (xs.filter (fun x => !p x), xs.filter p) := by
  have hrun := @run_append _ p [] xs [] []
  simpa using hrun

end Erasing
end OfpProxy
