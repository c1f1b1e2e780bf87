import Mathlib.Data.List.Basic

/-!
This module contains prefix codecs: an encoding into bytes together with the decoder that takes
exactly one encoded value off the front of its input. Lists of such values tile a byte string, and
`Codec.decodeAll` finds the tiling.
-/

namespace OfpProxy

structure Codec (α : Type) where
  encode : α → List UInt8
  decode : List UInt8 → Option (α × List UInt8)
  encode_ne_nil : ∀ a, encode a ≠ []
  decode_encode : ∀ a rest, decode (encode a ++ rest) = some (a, rest)
  encode_of_decode : ∀ bs a rest, decode bs = some (a, rest) → bs = encode a ++ rest

namespace Codec

variable {α : Type} (c : Codec α)

def encodeAll (xs : List α) : List UInt8 := xs.flatMap c.encode

def decodeAll (bs : List UInt8) : Option (List α) :=
  go bs.length bs
where
  go : Nat → List UInt8 → Option (List α)
    | _, [] => some []
    | 0, _ :: _ => none
    | fuel + 1, b :: bs =>
      match c.decode (b :: bs) with
      | none => none
      | some (a, rest) => (go fuel rest).map (a :: ·)

@[simp]
theorem encodeAll_nil : c.encodeAll [] = [] := rfl

@[simp]
theorem encodeAll_cons (x : α) (xs : List α)
    : c.encodeAll (x :: xs) = c.encode x ++ c.encodeAll xs := rfl

theorem length_encode_pos (a : α) : 0 < (c.encode a).length := by
  have := c.encode_ne_nil a
  rw [List.length_pos_iff]
  exact this

theorem length_le_length_encodeAll (xs : List α) : xs.length ≤ (c.encodeAll xs).length := by
  induction xs with
  | nil => exact Nat.le_refl _
  | cons x xs ih =>
    have := c.length_encode_pos x
    simp only [encodeAll_cons, List.length_cons, List.length_append]
    omega

theorem length_encodeAll_filter (p : α → Bool) (xs : List α)
    : (c.encodeAll (xs.filter p)).length + (c.encodeAll (xs.filter fun x => !p x)).length
        =
      (c.encodeAll xs).length := by
  induction xs with
  | nil => rfl
  | cons x xs ih =>
    cases h : p x
    all_goals
      simp [h]
      omega

theorem decodeAll.go_encodeAll (xs : List α) (fuel : Nat)
    (hfuel : (c.encodeAll xs).length ≤ fuel) : go c fuel (c.encodeAll xs) = some xs := by
  induction xs generalizing fuel with
  | nil => cases fuel <;> rfl
  | cons x xs ih =>
    have hpos := c.length_encode_pos x
    simp only [encodeAll_cons, List.length_append] at hfuel
    cases fuel with
    | zero => omega
    | succ fuel =>
      have hdec := c.decode_encode x (c.encodeAll xs)
      rw [encodeAll_cons]
      cases henc : c.encode x ++ c.encodeAll xs with
      | nil => simp [c.encode_ne_nil] at henc
      | cons b bs =>
        rw [henc] at hdec
        simp only [go, hdec]
        rw [ih fuel (by omega)]
        rfl

theorem decodeAll.go_sound (fuel : Nat) (bs : List UInt8) (xs : List α)
    (h : go c fuel bs = some xs) : bs = c.encodeAll xs := by
  induction fuel generalizing bs xs with
  | zero =>
    cases bs with
    | nil =>
      simp only [go, Option.some.injEq] at h
      subst h
      rfl
    | cons b bs => simp [go] at h
  | succ fuel ih =>
    cases bs with
    | nil =>
      simp only [go, Option.some.injEq] at h
      subst h
      rfl
    | cons b bs =>
      simp only [go] at h
      split at h
      . simp at h
      . next a rest hdec =>
        simp only [Option.map_eq_some_iff] at h
        rcases h with ⟨ys, hys, rfl⟩
        rw [c.encode_of_decode _ _ _ hdec, ih rest ys hys]
        rfl

theorem decodeAll_eq_some_iff (bs : List UInt8) (xs : List α)
    : c.decodeAll bs = some xs ↔ bs = c.encodeAll xs := by
  constructor
  . apply decodeAll.go_sound
  . intro h
    subst h
    apply decodeAll.go_encodeAll
    apply Nat.le_refl

/--
The encoding of a list says where each of its values ends, so changing values one by one never
gives a proper prefix of it.
-/
theorem map_eq_self_of_prefix {g : α → α} {xs : List α}
    (h : c.encodeAll (xs.map g) <+: c.encodeAll xs) : xs.map g = xs := by
  induction xs with
  | nil => rfl
  | cons x xs ih =>
    rcases h with ⟨rest, hrest⟩
    simp only [List.map_cons, encodeAll_cons, List.append_assoc] at hrest
    have hdec := c.decode_encode (g x) (c.encodeAll (xs.map g) ++ rest)
    rw [hrest, c.decode_encode] at hdec
    simp only [Option.some.injEq, Prod.mk.injEq] at hdec
    rw [List.map_cons, ← hdec.1, ih ⟨rest, hdec.2.symm⟩]

/--
A codec for the values some `α` stands for: `view` checks a decoded value, `toRaw` undoes it.
-/
def pmap {β : Type} (view : α → Option β) (toRaw : β → α) (view_toRaw : ∀ b, view (toRaw b) = some b)
    (toRaw_view : ∀ a b, view a = some b → toRaw b = a) : Codec β where
  encode b := c.encode (toRaw b)
  decode bs :=
    match c.decode bs with
    | none => none
    | some (a, rest) => (view a).map (·, rest)
  encode_ne_nil b := c.encode_ne_nil (toRaw b)
  decode_encode b rest := by simp [c.decode_encode, view_toRaw]
  encode_of_decode bs b rest h := by
    split at h
    . simp at h
    . next a rest' hdec =>
      simp only [Option.map_eq_some_iff, Prod.mk.injEq] at h
      rcases h with ⟨b', hview, rfl, rfl⟩
      rw [toRaw_view a b' hview]
      apply c.encode_of_decode _ _ _ hdec

end Codec
end OfpProxy
