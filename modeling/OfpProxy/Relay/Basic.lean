import Mathlib.Data.List.Nodup
import Mathlib.Logic.Function.Basic
import OfpProxy.Machine.Basic

/-!
This module contains relays. What arrives is handed on at most once, as a whole or cut short, and in
any order, except that some of the items keep their places among each other.
-/

namespace OfpProxy

/--
The items that arrived, the places of those that were handed on, and what has come out of this.
-/
structure Relay (μ β : Type) where
  arrived : List μ
  handed : List Nat
  output : List β

namespace Relay

variable {μ β : Type}

inductive Label (μ β : Type) where
  | arrive (item : μ)
  | hand (i : Nat) (piece : List β)

-- the item at this place is one of those that keep their places
def keeps (inOrder : μ → Bool) (r : Relay μ β) (i : Nat) : Bool := r.arrived[i]?.any inOrder

def mayHand (inOrder : μ → Bool) (r : Relay μ β) (i : Nat) : Prop :=
  i ∉ r.handed ∧ ∀ j < i, r.keeps inOrder j = true → r.keeps inOrder i = true → j ∈ r.handed

instance (inOrder : μ → Bool) (r : Relay μ β) (i : Nat) : Decidable (r.mayHand inOrder i) :=
  inferInstanceAs (Decidable (_ ∧ _))

def step (inOrder : μ → Bool) (r : Relay μ β) : Label μ β → Option (Relay μ β)
  | .arrive item => some { r with arrived := r.arrived ++ [item] }
  | .hand i piece =>
    if r.mayHand inOrder i then
      some
        { r with
            handed := r.handed ++ [i]
            output := r.output ++ piece }
    else
      none

def machine (inOrder : μ → Bool) : Machine (Relay μ β) (Label μ β) where
  init r := r = ⟨[], [], []⟩
  step := step inOrder

-- What comes out is a piece of the item that stands at the place.
def Passes (pieceOf : μ → List β → Prop) (r : Relay μ β) : Label μ β → Prop
  | .arrive _ => True
  | .hand i piece => ∃ item, r.arrived[i]? = some item ∧ pieceOf item piece

/--
Nothing comes out twice, what keeps its place comes out in order, and nothing else comes out.
-/
structure Faithful (inOrder : μ → Bool) (pieceOf : μ → List β → Prop) (r : Relay μ β) : Prop where
  nodup : r.handed.Nodup
  kept : ∀ i j, i < j → r.keeps inOrder i = true → r.keeps inOrder j = true → j ∈ r.handed
    → [i, j].Sublist r.handed
  output : ∃ pieces : Nat → List β, r.output = r.handed.flatMap pieces
    ∧ ∀ i ∈ r.handed, ∃ item, r.arrived[i]? = some item ∧ pieceOf item (pieces i)

namespace Faithful

variable {inOrder : μ → Bool} {pieceOf : μ → List β → Prop} {r : Relay μ β}

theorem lt_length (h : Faithful inOrder pieceOf r) {i : Nat} (hi : i ∈ r.handed)
    : i < r.arrived.length := by
  rcases h.output with ⟨pieces, -, hpieces⟩
  rcases hpieces i hi with ⟨item, hitem, -⟩
  exact (List.getElem?_eq_some_iff.mp hitem).1

theorem arrive (h : Faithful inOrder pieceOf r) (item : μ)
    : Faithful inOrder pieceOf { r with arrived := r.arrived ++ [item] } where
  nodup := h.nodup
  kept := by
    intro i j hlt hi hj hmem
    have hlen := h.lt_length hmem
    unfold keeps at hi hj
    dsimp only at hi hj
    rw [List.getElem?_append_left (by omega)] at hi hj
    exact h.kept i j hlt hi hj hmem
  output := by
    rcases h.output with ⟨pieces, houtput, hpieces⟩
    refine ⟨pieces, houtput, ?_⟩
    intro i hi
    rw [List.getElem?_append_left (h.lt_length hi)]
    exact hpieces i hi

theorem hand (h : Faithful inOrder pieceOf r) {i : Nat} {piece : List β} (hmay : r.mayHand inOrder i)
    (hpasses : Passes pieceOf r (.hand i piece))
    : Faithful inOrder pieceOf
        { r with
            handed := r.handed ++ [i]
            output := r.output ++ piece } where
  nodup := by
    rw [List.nodup_append]
    refine ⟨h.nodup, List.nodup_singleton i, ?_⟩
    intro j hj k hk
    rw [List.mem_singleton] at hk
    rintro rfl
    rw [hk] at hj
    exact hmay.1 hj
  kept := by
    intro j k hlt hj hk hmem
    rw [List.mem_append, List.mem_singleton] at hmem
    rcases hmem with hold | rfl
    . exact (h.kept j k hlt hj hk hold).trans (List.sublist_append_left _ _)
    . have hbefore : [j].Sublist r.handed := List.singleton_sublist.mpr (hmay.2 j hlt hj hk)
      exact hbefore.append (List.Sublist.refl [k])
  output := by
    rcases h.output with ⟨pieces, houtput, hpieces⟩
    have hold : ∀ j ∈ r.handed, Function.update pieces i piece j = pieces j := by
      intro j hj
      rw [Function.update_of_ne]
      rintro rfl
      exact hmay.1 hj
    refine ⟨Function.update pieces i piece, ?_, ?_⟩
    . rw [List.flatMap_append, List.flatMap_singleton, Function.update_self, houtput,
        List.flatMap_congr hold]
    . intro j hj
      rw [List.mem_append, List.mem_singleton] at hj
      rcases hj with hj | rfl
      . rw [hold j hj]
        exact hpieces j hj
      . rw [Function.update_self]
        exact hpasses

end Faithful

theorem faithful_of_reachableBy {inOrder : μ → Bool} {pieceOf : μ → List β → Prop} {r : Relay μ β}
    (h : (machine inOrder).ReachableBy (Passes pieceOf) r) : Faithful inOrder pieceOf r := by
  apply h.invariant
  . rintro r rfl
    exact ⟨List.nodup_nil, by simp, fun _ => [], rfl, by simp⟩
  . intro r label r' _ hfaithful hpasses hstep
    cases label with
    | arrive item =>
      rw [← Option.some.inj hstep]
      exact hfaithful.arrive item
    | hand i piece =>
      change (if r.mayHand inOrder i then some _ else none) = some r' at hstep
      split at hstep
      . next hmay =>
        rw [← Option.some.inj hstep]
        exact hfaithful.hand hmay hpasses
      . contradiction

end Relay
end OfpProxy
