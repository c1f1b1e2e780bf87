import Mathlib.Data.List.Basic
import Mathlib.Data.UInt

/-!
This module contains a flat byte memory with the loads and stores a little-endian host performs on
it, and the predicate `Mem.At` that says which bytes stand at an offset.
-/

namespace OfpProxy

abbrev Mem := Nat → UInt8

-- The value a `uint16_t` holds after `x` was assigned to it.
def u16 (x : Int) : Nat := (x % 65536).toNat

theorem u16_of_lt {x : Int} (h1 : 0 ≤ x) (h2 : x < 65536) : u16 x = x.toNat := by
  unfold u16
  rw [Int.emod_eq_of_lt h1 h2]

theorem u16_add {a b : Nat} (h : a + b < 65536) : u16 (a + b) = a + b := by
  rw [u16_of_lt] <;> omega

theorem u16_sub {a b : Nat} (hle : b ≤ a) (ha : a < 65536) : u16 (a - b) = a - b := by
  rw [u16_of_lt] <;> omega

-- Network to host byte order, which is also the way back.
def ntohs (x : Nat) : Nat := x % 256 * 256 + x / 256 % 256

def htons (x : Nat) : Nat := ntohs x

theorem ntohs_lt (x : Nat) : ntohs x < 65536 := by
  unfold ntohs
  omega

def be16 (v : Nat) : List UInt8 := [UInt8.ofNat (v / 256), UInt8.ofNat v]

@[simp]
theorem length_be16 (v : Nat) : (be16 v).length = 2 := rfl

theorem be16_of_bytes (b1 b0 : UInt8) : be16 (b1.toNat * 256 + b0.toNat) = [b1, b0] := by
  have h1 := b1.toNat_lt
  have h0 := b0.toNat_lt
  simp only [be16, List.cons.injEq, and_true]
  constructor
  . apply UInt8.toNat_inj.mp
    simp
    omega
  . apply UInt8.toNat_inj.mp
    simp

theorem toNat_be16 {v : Nat} (hv : v < 65536)
    : (UInt8.ofNat (v / 256)).toNat * 256 + (UInt8.ofNat v).toNat = v := by
  simp
  omega

-- the `k` bytes of a word, the low one first
def leBytes : Nat → Nat → List UInt8
  | 0, _ => []
  | k + 1, n => UInt8.ofNat n :: leBytes k (n / 256)

theorem leBytes_succ (k : Nat) (b : UInt8) (n : Nat)
    : leBytes (k + 1) (b.toNat + 256 * n) = b :: leBytes k n := by
  have hb := b.toNat_lt
  have hlow : UInt8.ofNat (b.toNat + 256 * n) = b := by
    apply UInt8.toNat_inj.mp
    rw [UInt8.toNat_ofNat']
    omega
  have hhigh : (b.toNat + 256 * n) / 256 = n := by omega
  rw [leBytes, hlow, hhigh]

namespace Mem

def store (m : Mem) (i : Nat) (b : UInt8) : Mem := fun j => if j = i then b else m j

-- `*(uint16_t*)(p)`
def load16 (m : Mem) (i : Nat) : Nat := (m i).toNat + 256 * (m (i + 1)).toNat

-- `*(uint16_t*)(p) = v`
def store16 (m : Mem) (i : Nat) (v : Nat) : Mem :=
  (m.store i (UInt8.ofNat v)).store (i + 1) (UInt8.ofNat (v / 256))

-- `*(uint32_t*)(p)`
def load32 (m : Mem) (i : Nat) : Nat := m.load16 i + 65536 * m.load16 (i + 2)

-- `*(uint64_t*)(p)`
def load64 (m : Mem) (i : Nat) : Nat := m.load32 i + 4294967296 * m.load32 (i + 4)

def bytes (m : Mem) (off : Nat) : Nat → List UInt8
  | 0 => []
  | n + 1 => m off :: bytes m (off + 1) n

def At (m : Mem) (off : Nat) : List UInt8 → Prop
  | [] => True
  | b :: bs => m off = b ∧ At m (off + 1) bs

def ofList (bs : List UInt8) : Mem := fun i => bs.getD i 0

theorem store_apply (m : Mem) (i j : Nat) (b : UInt8)
    : m.store i b j = if j = i then b else m j := rfl

theorem store16_apply (m : Mem) (i j v : Nat)
    : m.store16 i v j =
        if j = i + 1 then UInt8.ofNat (v / 256) else if j = i then UInt8.ofNat v else m j := rfl

theorem store16_ne {i j : Nat} (m : Mem) (v : Nat) (h1 : j ≠ i) (h2 : j ≠ i + 1)
    : m.store16 i v j = m j := by
  simp [store16_apply, h1, h2]

theorem load16_lt (m : Mem) (i : Nat) : m.load16 i < 65536 := by
  have h1 := (m i).toNat_lt
  have h2 := (m (i + 1)).toNat_lt
  unfold load16
  omega

theorem ntohs_load16 (m : Mem) (i : Nat)
    : ntohs (m.load16 i) = (m i).toNat * 256 + (m (i + 1)).toNat := by
  have h1 := (m i).toNat_lt
  have h2 := (m (i + 1)).toNat_lt
  unfold ntohs load16
  omega

theorem load16_eq_iff {m : Mem} {i v w : Nat} (h : ntohs (m.load16 i) = v) (hw : w < 65536)
    : m.load16 i = w ↔ v = ntohs w := by
  have hlt := m.load16_lt i
  unfold ntohs at *
  omega

@[simp]
theorem at_nil (m : Mem) (off : Nat) : m.At off [] := trivial

@[simp]
theorem at_cons (m : Mem) (off : Nat) (b : UInt8) (bs : List UInt8)
    : m.At off (b :: bs) ↔ m off = b ∧ m.At (off + 1) bs := Iff.rfl

@[simp]
theorem at_append (m : Mem) (off : Nat) (xs ys : List UInt8)
    : m.At off (xs ++ ys) ↔ m.At off xs ∧ m.At (off + xs.length) ys := by
  induction xs generalizing off with
  | nil => simp
  | cons x xs ih =>
    have : off + 1 + xs.length = off + (xs.length + 1) := by omega
    simp [ih, this, and_assoc]

theorem at_iff_get (m : Mem) (off : Nat) (bs : List UInt8)
    : m.At off bs ↔ ∀ (i : Nat) (h : i < bs.length), m (off + i) = bs[i] := by
  induction bs generalizing off with
  | nil => simp
  | cons b bs ih =>
    rw [at_cons, ih]
    constructor
    . rintro ⟨h0, hs⟩ i hi
      cases i with
      | zero => exact h0
      | succ i =>
        have := hs i (by simpa using hi)
        rw [show off + (i + 1) = off + 1 + i by omega]
        simpa using this
    . intro h
      refine ⟨h 0 (by simp), ?_⟩
      intro i hi
      have := h (i + 1) (by simpa using hi)
      rw [show off + 1 + i = off + (i + 1) by omega]
      simpa using this

theorem At.get {m : Mem} {off : Nat} {bs : List UInt8} (h : m.At off bs) (i : Nat)
    (hi : i < bs.length) : m (off + i) = bs[i] :=
  (m.at_iff_get off bs).mp h i hi

@[simp]
theorem length_bytes (m : Mem) (off n : Nat) : (m.bytes off n).length = n := by
  induction n generalizing off with
  | zero => rfl
  | succ n ih => simp [bytes, ih]

theorem getElem_bytes (m : Mem) (off n i : Nat) (hi : i < (m.bytes off n).length)
    : (m.bytes off n)[i] = m (off + i) := by
  induction n generalizing off i with
  | zero => simp [bytes] at hi
  | succ n ih =>
    cases i with
    | zero => rfl
    | succ i =>
      simp only [bytes, List.getElem_cons_succ]
      rw [ih]
      congr 1
      omega

theorem at_bytes (m : Mem) (off n : Nat) : m.At off (m.bytes off n) := by
  rw [at_iff_get]
  intro i hi
  rw [getElem_bytes]

theorem bytes_eq_iff (m : Mem) (off n : Nat) (bs : List UInt8)
    : m.bytes off n = bs ↔ n = bs.length ∧ m.At off bs := by
  constructor
  . intro h
    subst h
    exact ⟨by simp, m.at_bytes off n⟩
  . rintro ⟨rfl, h⟩
    apply List.ext_getElem
    . simp
    . intro i h1 h2
      rw [getElem_bytes, h.get i h2]

theorem At.bytes_eq {m : Mem} {off : Nat} {bs : List UInt8} (h : m.At off bs)
    : m.bytes off bs.length = bs := by
  rw [bytes_eq_iff]
  exact ⟨rfl, h⟩

theorem at_congr {m m' : Mem} {off : Nat} {bs : List UInt8}
    (h : ∀ j, off ≤ j → j < off + bs.length → m' j = m j) : m'.At off bs ↔ m.At off bs := by
  rw [at_iff_get, at_iff_get]
  constructor
  . intro ha i hi
    rw [← h (off + i) (by omega) (by omega)]
    apply ha i hi
  . intro ha i hi
    rw [h (off + i) (by omega) (by omega)]
    apply ha i hi

theorem At.of_eq {m m' : Mem} {off : Nat} {bs : List UInt8} (ha : m.At off bs)
    (h : ∀ j, off ≤ j → j < off + bs.length → m' j = m j) : m'.At off bs :=
  (at_congr h).mpr ha

theorem At.unique {m : Mem} {off : Nat} {xs ys : List UInt8} (hx : m.At off xs) (hy : m.At off ys)
    (hlen : xs.length = ys.length) : xs = ys := by
  rw [← hx.bytes_eq, ← hy.bytes_eq, hlen]

theorem at_ofList (bs : List UInt8) : (ofList bs).At 0 bs := by
  rw [at_iff_get]
  intro i hi
  simp [ofList, List.getD_eq_getElem?_getD, hi]

theorem At.prefix_of {m : Mem} {off : Nat} {xs ys : List UInt8} (hx : m.At off xs) (hy : m.At off ys)
    (hle : xs.length ≤ ys.length) : xs <+: ys := by
  have hlen : xs.length = (ys.take xs.length).length := by
    rw [List.length_take]
    omega
  rw [← List.take_append_drop xs.length ys, at_append] at hy
  rw [hx.unique hy.1 hlen]
  apply List.take_prefix

theorem At.of_prefix {m : Mem} {off : Nat} {xs ys : List UInt8} (hy : m.At off ys) (h : xs <+: ys)
    : m.At off xs := by
  rcases h with ⟨zs, rfl⟩
  rw [at_append] at hy
  apply hy.1

theorem At.drop {m : Mem} {bs : List UInt8} {off : Nat} (h : m.At 0 bs) (hle : off ≤ bs.length)
    : m.At off (bs.drop off) := by
  have hoff : 0 + (bs.take off).length = off := by
    rw [List.length_take]
    omega
  rw [← List.take_append_drop off bs, at_append, hoff] at h
  apply h.2

theorem at_replicate (m : Mem) (off n : Nat) (b : UInt8)
    : m.At off (List.replicate n b) ↔ ∀ j, off ≤ j → j < off + n → m j = b := by
  rw [at_iff_get]
  constructor
  . intro h j h1 h2
    have := h (j - off) (by simp; omega)
    simpa [show off + (j - off) = j by omega] using this
  . intro h i hi
    rw [h]
    . simp
    . omega
    . simp at hi
      omega

theorem store16_htons_at (m : Mem) (i v : Nat) : (m.store16 i (htons v)).At i (be16 v) := by
  have hlo : v / 256 % 256 < 256 := Nat.mod_lt _ (by omega)
  simp only [be16, at_cons, at_nil, and_true, store16_apply, htons, ntohs]
  constructor
  . apply UInt8.toNat_inj.mp
    simp
  . apply UInt8.toNat_inj.mp
    have : (v % 256 * 256 + v / 256 % 256) / 256 = v % 256 := by omega
    simp [this]

theorem store16_load16_apply (m src : Mem) (i s j : Nat)
    : m.store16 i (src.load16 s) j = if i ≤ j ∧ j < i + 2 then src (s + (j - i)) else m j := by
  have hlo : UInt8.ofNat (src.load16 s) = src s := by
    apply UInt8.toNat_inj.mp
    simp [load16]
  have hhi : UInt8.ofNat (src.load16 s / 256) = src (s + 1) := by
    have := (src s).toNat_lt
    have := (src (s + 1)).toNat_lt
    apply UInt8.toNat_inj.mp
    simp only [load16, UInt8.toNat_ofNat']
    omega
  rw [store16_apply, hlo, hhi]
  split
  . rw [if_pos (by omega), show s + (j - i) = s + 1 by omega]
  . split
    . rw [if_pos (by omega), show s + (j - i) = s by omega]
    . rw [if_neg (by omega)]

theorem store16_load16_at {m src : Mem} {i s : Nat} {bs : List UInt8} (h : src.At s bs)
    (hlen : bs.length = 2) : (m.store16 i (src.load16 s)).At i bs := by
  rw [at_iff_get]
  intro j hj
  rw [store16_load16_apply, if_pos (by omega), show s + (i + j - i) = s + j by omega]
  apply h.get j hj

theorem At.ntohs_load16 {m : Mem} {i v : Nat} (h : m.At i (be16 v)) (hv : v < 65536)
    : ntohs (m.load16 i) = v := by
  simp only [be16, at_cons, at_nil, and_true] at h
  rw [Mem.ntohs_load16, h.1, h.2]
  simp
  omega

theorem leBytes_load64 (m : Mem) (i : Nat) : leBytes 8 (m.load64 i) = m.bytes i 8 := by
  have hload : m.load64 i
      = (m i).toNat + 256 * ((m (i + 1)).toNat + 256 * ((m (i + 2)).toNat + 256 * ((m (i + 2 + 1)).toNat
        + 256 * ((m (i + 4)).toNat + 256 * ((m (i + 4 + 1)).toNat + 256 * ((m (i + 4 + 2)).toNat
        + 256 * ((m (i + 4 + 2 + 1)).toNat + 256 * 0))))))) := by
    unfold load64 load32 load16
    omega
  rw [hload]
  simp only [leBytes_succ]
  rfl

end Mem
end OfpProxy
