import Mathlib.Data.List.Basic

/-!
This module contains the change of the first elements of a list that meet a condition, where a
changed element does not meet it any more.
-/

namespace OfpProxy
namespace Marking

variable {α : Type} (p : α → Bool) (f : α → α)

def markFirst : Nat → List α → List α
  | 0, xs => xs
  | _ + 1, [] => []
  | n + 1, x :: xs => if p x then f x :: markFirst n xs else x :: markFirst (n + 1) xs

@[simp]
theorem markFirst_nil (n : Nat) : markFirst p f n [] = [] := by
  cases n with
  | zero => rfl
  | succ n => rfl

@[simp]
theorem markFirst_zero (xs : List α) : markFirst p f 0 xs = xs := by
  cases xs with
  | nil => rfl
  | cons x xs => rfl

theorem markFirst_cons (n : Nat) (x : α) (xs : List α)
    : markFirst p f (n + 1) (x :: xs) =
        if p x then f x :: markFirst p f n xs else x :: markFirst p f (n + 1) xs := rfl

@[simp]
theorem length_markFirst (n : Nat) (xs : List α) : (markFirst p f n xs).length = xs.length := by
  induction xs generalizing n with
  | nil => simp
  | cons x xs ih =>
    cases n with
    | zero => rfl
    | succ n =>
      rw [markFirst_cons]
      split
      . simp [ih]
      . simp [ih]

variable {p f}

theorem markFirst_of_none {xs : List α} (h : ∀ x ∈ xs, p x = false) (n : Nat)
    : markFirst p f n xs = xs := by
  induction xs with
  | nil => simp
  | cons x xs ih =>
    rw [List.forall_mem_cons] at h
    cases n with
    | zero => rfl
    | succ n => rw [markFirst_cons, if_neg (by simp [h.1]), ih h.2]

theorem countP_markFirst_le (q : α → Bool) (n : Nat) (xs : List α)
    : (markFirst p f n xs).countP q ≤ xs.countP q + n := by
  induction xs generalizing n with
  | nil => simp
  | cons x xs ih =>
    cases n with
    | zero => simp
    | succ n =>
      have hmarked := ih n
      have hpassed := ih (n + 1)
      rw [markFirst_cons, List.countP_cons]
      split
      . rw [List.countP_cons]
        split <;> omega
      . rw [List.countP_cons]
        omega

theorem markFirst_append_of_none {xs : List α} (h : ∀ x ∈ xs, p x = false) (n : Nat) (ys : List α)
    : markFirst p f n (xs ++ ys) = xs ++ markFirst p f n ys := by
  induction xs with
  | nil => rfl
  | cons x xs ih =>
    rw [List.forall_mem_cons] at h
    cases n with
    | zero => simp
    | succ n => rw [List.cons_append, markFirst_cons, if_neg (by simp [h.1]), ih h.2, List.cons_append]

theorem markFirst_one_append {xs : List α} (h : ∃ x ∈ xs, p x = true) (ys : List α)
    : markFirst p f 1 (xs ++ ys) = markFirst p f 1 xs ++ ys := by
  induction xs with
  | nil => simp at h
  | cons x xs ih =>
    rw [List.cons_append, markFirst_cons, markFirst_cons]
    split
    . simp
    . next hx =>
      rw [List.cons_append, ih]
      simpa [hx] using h

theorem markFirst_one_of_first {x : α} {xs : List α} (h : ∀ y ∈ xs, p y = false) (hx : p x = true)
    (ys : List α) : markFirst p f 1 (xs ++ x :: ys) = xs ++ f x :: ys := by
  rw [markFirst_append_of_none h, markFirst_cons, if_pos hx, markFirst_zero]

-- where `i` is the only place with an element that meets the condition
theorem markFirst_one_eq_set {xs : List α} {i : Nat} {x : α} (hget : xs[i]? = some x) (hx : p x = true)
    (honly : ∀ j y, xs[j]? = some y → p y = true → j = i)
    : markFirst p f 1 xs = xs.set i (f x) := by
  rcases List.getElem?_eq_some_iff.mp hget with ⟨hi, rfl⟩
  have hbefore : ∀ y ∈ xs.take i, p y = false := by
    intro y hy
    rcases List.getElem?_of_mem hy with ⟨j, hj⟩
    rw [List.getElem?_take] at hj
    split at hj
    . next hlt =>
      rw [← Bool.not_eq_true]
      intro hpy
      have := honly j y hj hpy
      omega
    . contradiction
  have hsplit : xs = xs.take i ++ xs[i] :: xs.drop (i + 1) := by simp
  have hset := List.set_eq_take_append_cons_drop (l := xs) (i := i) (a := f xs[i])
  rw [if_pos hi] at hset
  rw [hset]
  conv => lhs; rw [hsplit]
  apply markFirst_one_of_first hbefore hx

theorem markFirst_markFirst_one (hf : ∀ x, p (f x) = false) (n : Nat) (xs : List α)
    : markFirst p f n (markFirst p f 1 xs) = markFirst p f (n + 1) xs := by
  induction xs with
  | nil => simp
  | cons x xs ih =>
    rw [markFirst_cons, markFirst_cons]
    split
    . next hx =>
      cases n with
      | zero => simp
      | succ n => rw [markFirst_cons, hf, if_neg (by simp), markFirst_zero]
    . next hx =>
      cases n with
      | zero => simp
      | succ n => rw [markFirst_cons, if_neg hx, ih]

theorem countP_markFirst (hf : ∀ x, p (f x) = false) (n : Nat) (xs : List α)
    : (markFirst p f n xs).countP p = xs.countP p - n := by
  induction xs generalizing n with
  | nil => simp
  | cons x xs ih =>
    cases n with
    | zero => simp
    | succ n =>
      rw [markFirst_cons, List.countP_cons]
      split
      . next hx =>
        rw [List.countP_cons, hf, ih, if_neg (by simp)]
        omega
      . next hx =>
        rw [List.countP_cons, if_neg hx, ih]
        omega

-- What the changed elements have become is counted once more for each of them.
theorem countP_markFirst_of {q : α → Bool} (hq : ∀ x, p x = true → q x = false ∧ q (f x) = true)
    (n : Nat) (xs : List α)
    : (markFirst p f n xs).countP q = xs.countP q + min n (xs.countP p) := by
  induction xs generalizing n with
  | nil => simp
  | cons x xs ih =>
    cases n with
    | zero => simp
    | succ n =>
      rw [markFirst_cons, List.countP_cons, List.countP_cons]
      split
      . next hx =>
        rw [List.countP_cons, (hq x hx).1, (hq x hx).2, ih, if_pos rfl, if_neg (by simp)]
        omega
      . next hx =>
        rw [List.countP_cons, ih]
        omega

theorem getElem?_markFirst (n : Nat) (xs : List α) (i : Nat)
    : (markFirst p f n xs)[i]? =
        xs[i]?.map fun x => if p x ∧ (xs.take i).countP p < n then f x else x := by
  induction xs generalizing n i with
  | nil => simp
  | cons x xs ih =>
    cases n with
    | zero => simp
    | succ n =>
      rw [markFirst_cons]
      cases i with
      | zero =>
        split
        . next hx => simp [hx]
        . next hx => simp [hx]
      | succ i =>
        split
        . next hx =>
          rw [List.getElem?_cons_succ, List.getElem?_cons_succ, ih]
          simp [hx]
        . next hx =>
          rw [List.getElem?_cons_succ, List.getElem?_cons_succ, ih]
          simp [hx]

end Marking
end OfpProxy
