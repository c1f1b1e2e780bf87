import OfpProxy.Memory.Basic

/-!
This module contains the byte loops of a C program over `Mem`: filling a range, copying between two
regions, and moving bytes towards lower addresses inside one region.
-/

namespace OfpProxy
namespace Mem

-- `memset(p + d, b, n)`
def fill (m : Mem) (d : Nat) (b : UInt8) : Nat → Mem
  | 0 => m
  | n + 1 => (fill m d b n).store (d + n) b

-- `for (i = 0; i < n; ++i) dst[d + i] = src[s + i]`, where `src` is another region.
def copyFrom (dst : Mem) (d : Nat) (src : Mem) (s : Nat) : Nat → Mem
  | 0 => dst
  | n + 1 => (copyFrom dst d src s n).store (d + n) (src (s + n))

-- `for (i = 0; i < n; ++i) p[d + i] = p[s + i]`
def move (m : Mem) (d s : Nat) : Nat → Mem
  | 0 => m
  | n + 1 => (move m d s n).store (d + n) (move m d s n (s + n))

theorem fill_apply (m : Mem) (d n j : Nat) (b : UInt8)
    : m.fill d b n j = if d ≤ j ∧ j < d + n then b else m j := by
  induction n with
  | zero =>
    rw [if_neg (by omega)]
    rfl
  | succ n ih =>
    simp only [fill, store_apply, ih]
    by_cases hj : j = d + n
    . rw [if_pos hj, if_pos (by omega)]
    . rw [if_neg hj]
      by_cases hin : d ≤ j ∧ j < d + n
      . rw [if_pos hin, if_pos (by omega)]
      . rw [if_neg hin, if_neg (by omega)]

theorem copyFrom_apply (dst src : Mem) (d s n j : Nat)
    : dst.copyFrom d src s n j = if d ≤ j ∧ j < d + n then src (s + (j - d)) else dst j := by
  induction n with
  | zero =>
    rw [if_neg (by omega)]
    rfl
  | succ n ih =>
    simp only [copyFrom, store_apply, ih]
    by_cases hj : j = d + n
    . rw [if_pos hj, if_pos (by omega)]
      congr 1
      omega
    . rw [if_neg hj]
      by_cases hin : d ≤ j ∧ j < d + n
      . rw [if_pos hin, if_pos (by omega)]
      . rw [if_neg hin, if_neg (by omega)]

theorem move_apply (m : Mem) {d s : Nat} (h : d ≤ s) (n j : Nat)
    : m.move d s n j = if d ≤ j ∧ j < d + n then m (s + (j - d)) else m j := by
  induction n generalizing j with
  | zero =>
    rw [if_neg (by omega)]
    rfl
  | succ n ih =>
    simp only [move, store_apply, ih]
    by_cases hj : j = d + n
    . rw [if_pos hj, if_neg (by omega), if_pos (by omega)]
      congr 1
      omega
    . rw [if_neg hj]
      by_cases hin : d ≤ j ∧ j < d + n
      . rw [if_pos hin, if_pos (by omega)]
      . rw [if_neg hin, if_neg (by omega)]

theorem copyFrom_outside (dst src : Mem) {d s n j : Nat} (h : j < d ∨ d + n ≤ j)
    : dst.copyFrom d src s n j = dst j := by
  rw [copyFrom_apply, if_neg (by omega)]

theorem move_outside (m : Mem) {d s n j : Nat} (hds : d ≤ s) (h : j < d ∨ d + n ≤ j)
    : m.move d s n j = m j := by
  rw [move_apply m hds, if_neg (by omega)]

-- Wherever the bytes come from, nothing in front of the destination is written.
theorem move_before (m : Mem) {d s n j : Nat} (h : j < d) : m.move d s n j = m j := by
  induction n with
  | zero => rfl
  | succ n ih => rw [move, store_apply, if_neg (by omega), ih]

theorem move_behind (m : Mem) {d s n j : Nat} (h : d + n ≤ j) : m.move d s n j = m j := by
  induction n with
  | zero => rfl
  | succ n ih => rw [move, store_apply, if_neg (by omega), ih (by omega)]

-- When the destination is the later one the loop reads what it has written, over and over.
theorem move_overlapping (m : Mem) {d s : Nat} (h : s < d) {n i : Nat} (hi : i < n)
    : m.move d s n (d + i) = m (s + i % (d - s)) := by
  induction n generalizing i with
  | zero => omega
  | succ n ih =>
    rw [move, store_apply]
    by_cases hlast : d + i = d + n
    . rw [if_pos hlast]
      have hi : i = n := by omega
      subst hi
      by_cases hgap : i < d - s
      . rw [move_before _ (by omega), Nat.mod_eq_of_lt hgap]
      . rw [show s + i = d + (i - (d - s)) by omega, ih (by omega),
          Nat.mod_eq_sub_mod (Nat.le_of_not_lt hgap)]
    . rw [if_neg hlast, ih (by omega)]

theorem copyFrom_at {dst src : Mem} {d s n : Nat} {bs : List UInt8} (h : src.At s bs)
    (hn : bs.length ≤ n) : (dst.copyFrom d src s n).At d bs := by
  rw [at_iff_get]
  intro i hi
  rw [copyFrom_apply, if_pos (by omega), show s + (d + i - d) = s + i by omega]
  apply h.get i hi

theorem move_at {m : Mem} {d s n : Nat} {bs : List UInt8} (hds : d ≤ s) (h : m.At s bs)
    (hn : bs.length ≤ n) : (m.move d s n).At d bs := by
  rw [at_iff_get]
  intro i hi
  rw [move_apply m hds, if_pos (by omega), show s + (d + i - d) = s + i by omega]
  apply h.get i hi

theorem copyFrom_frame {dst src : Mem} {d s n off : Nat} {bs : List UInt8}
    (h : off + bs.length ≤ d ∨ d + n ≤ off)
    : (dst.copyFrom d src s n).At off bs ↔ dst.At off bs := by
  apply at_congr
  intro j h1 h2
  apply copyFrom_outside
  omega

theorem move_frame {m : Mem} {d s n off : Nat} {bs : List UInt8} (hds : d ≤ s)
    (h : off + bs.length ≤ d ∨ d + n ≤ off) : (m.move d s n).At off bs ↔ m.At off bs := by
  apply at_congr
  intro j h1 h2
  apply move_outside m hds
  omega

theorem store16_frame {m : Mem} {i off v : Nat} {bs : List UInt8}
    (h : off + bs.length ≤ i ∨ i + 2 ≤ off) : (m.store16 i v).At off bs ↔ m.At off bs := by
  apply at_congr
  intro j h1 h2
  apply store16_ne <;> omega

theorem At.store16_be16 {m : Mem} {off v : Nat} {xs ys : List UInt8}
    (h : m.At off (xs ++ be16 v ++ ys)) (w : Nat)
    : (m.store16 (off + xs.length) (htons w)).At off (xs ++ be16 w ++ ys) := by
  simp only [at_append, List.length_append, length_be16] at *
  rcases h with ⟨⟨hxs, -⟩, hys⟩
  refine ⟨⟨?_, store16_htons_at _ _ _⟩, ?_⟩
  . rw [store16_frame (by omega)]
    exact hxs
  . rw [store16_frame (by omega)]
    exact hys

-- Two memories hold the same bytes below `n`.
def Agree (n : Nat) (m m' : Mem) : Prop := ∀ j < n, m' j = m j

theorem At.agree {m m' : Mem} {bs : List UInt8} (h : m.At 0 bs) (h' : m'.At 0 bs)
    : Agree bs.length m m' := by
  intro j hj
  have heq := h.get j hj
  have heq' := h'.get j hj
  rw [Nat.zero_add] at heq heq'
  rw [heq, heq']

namespace Agree

variable {n : Nat} {m m' : Mem}

theorem load16 (h : Agree n m m') {i : Nat} (hi : i + 2 ≤ n) : m'.load16 i = m.load16 i := by
  unfold Mem.load16
  rw [h i (by omega), h (i + 1) (by omega)]

theorem load32 (h : Agree n m m') {i : Nat} (hi : i + 4 ≤ n) : m'.load32 i = m.load32 i := by
  unfold Mem.load32
  rw [h.load16 (by omega), h.load16 (by omega)]

-- Copying out of the part that is the same makes no difference.
theorem copyFrom_eq (h : Agree n m m') (dst : Mem) (d : Nat) {s len : Nat} (hn : s + len ≤ n)
    : dst.copyFrom d m' s len = dst.copyFrom d m s len := by
  funext j
  rw [copyFrom_apply, copyFrom_apply]
  split
  . rw [h _ (by omega)]
  . rfl

theorem bytes (h : Agree n m m') {len : Nat} (hn : len ≤ n) : m'.bytes 0 len = m.bytes 0 len := by
  apply List.ext_getElem
  . simp
  . intro i hi hi'
    rw [getElem_bytes, getElem_bytes]
    rw [length_bytes] at hi
    apply h
    omega

end Agree

end Mem
end OfpProxy
