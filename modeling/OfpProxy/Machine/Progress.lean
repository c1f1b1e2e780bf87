import Mathlib.Algebra.BigOperators.Group.List.Basic
import Mathlib.Algebra.GroupWithZero.Nat
import OfpProxy.Machine.Basic

/-!
This module contains the runs between two states, with their labels, and the rule by which a rank
bounds how much work can be done before something happens.
-/

namespace OfpProxy
namespace Machine

variable {σ α : Type} (m : Machine σ α)

/--
The steps of `as` lead from one state to another, and all of them meet `ok`.
-/
inductive Path (ok : σ → α → Prop) : σ → List α → σ → Prop where
  | nil {s : σ} : Path ok s [] s
  | cons {s t u : σ} {a : α} {as : List α} :
    ok s a → m.step s a = some t → Path ok t as u → Path ok s (a :: as) u

variable {m} {ok : σ → α → Prop} {s t u : σ} {as bs : List α}

theorem Path.le {size : σ → Nat} (h : m.Path ok s as t)
    (hstep : ∀ s a t, m.step s a = some t → size s ≤ size t) : size s ≤ size t := by
  induction h with
  | nil => exact Nat.le_refl _
  | cons _ hs _ ih => exact Nat.le_trans (hstep _ _ _ hs) ih

theorem Path.invariant {I : σ → Prop} (h : m.Path ok s as t) (hs : I s)
    (hstep : ∀ s a t, I s → ok s a → m.step s a = some t → I t) : I t := by
  induction h with
  | nil => exact hs
  | cons hok hs' _ ih => exact ih (hstep _ _ _ hs hok hs')

theorem Path.append (h : m.Path ok s as t) (h' : m.Path ok t bs u) : m.Path ok s (as ++ bs) u := by
  induction h with
  | nil => exact h'
  | cons hok hstep _ ih => exact .cons hok hstep (ih h')

theorem Path.mono {ok' : σ → α → Prop} (h : m.Path ok s as t) (hok : ∀ s a, ok s a → ok' s a)
    : m.Path ok' s as t := by
  induction h with
  | nil => exact .nil
  | cons hfirst hstep _ ih => exact .cons (hok _ _ hfirst) hstep ih

theorem ReachableBy.path (hs : m.ReachableBy ok s) (h : m.Path ok s as t) : m.ReachableBy ok t := by
  induction h with
  | nil => exact hs
  | cons hok hstep _ ih => exact ih (.step hs hok hstep)

theorem path_of_replay_all {ok : σ → α → Bool} {p : α → Prop} (hp : ∀ a ∈ as, p a)
    (h : m.replay ok s as = some t) : m.Path (fun s a => p a ∧ ok s a = true) s as t := by
  induction as generalizing s with
  | nil =>
    rw [← Option.some.inj h]
    exact .nil
  | cons a as ih =>
    rw [List.forall_mem_cons] at hp
    rw [replay] at h
    split at h
    . next hok =>
      cases hstep : m.step s a with
      | none => simp [hstep] at h
      | some u =>
        simp only [hstep] at h
        exact .cons ⟨hp.1, hok⟩ hstep (ih hp.2 h)
    . contradiction

/--
In states where `I` holds and `Q` does not yet, every step that does some work lowers the rank by as
much, unless it costs something.
-/
structure Progress (m : Machine σ α) (ok : σ → α → Prop) (work cost : α → Nat) (I Q : σ → Prop)
    (rank : σ → Nat) : Prop where
  keeps : ∀ s a t, I s → ok s a → m.step s a = some t → I t
  stays : ∀ s a t, I s → Q s → ok s a → m.step s a = some t → Q t
  lowers : ∀ s a t, I s → ¬Q s → ok s a → m.step s a = some t
    → Q t ∨ rank t + work a ≤ rank s + cost a

theorem Progress.path {work cost : α → Nat} {I Q : σ → Prop} {rank : σ → Nat}
    (hp : Progress m ok work cost I Q rank) (h : m.Path ok s as t) (hs : I s)
    : Q t ∨ rank t + (as.map work).sum ≤ rank s + (as.map cost).sum := by
  have hstay : ∀ {s as t}, m.Path ok s as t → I s → Q s → Q t := by
    intro s as t hpath
    induction hpath with
    | nil => exact fun _ hq => hq
    | cons hok hstep _ ih =>
      intro hi hq
      exact ih (hp.keeps _ _ _ hi hok hstep) (hp.stays _ _ _ hi hq hok hstep)
  induction h with
  | nil => exact .inr (Nat.le_refl _)
  | @cons s t u a as hok hstep hrest ih =>
    have hi := hp.keeps _ _ _ hs hok hstep
    rcases Classical.em (Q s) with hq | hq
    . exact .inl (hstay hrest hi (hp.stays _ _ _ hs hq hok hstep))
    . rcases hp.lowers _ _ _ hs hq hok hstep with hnow | hlower
      . exact .inl (hstay hrest hi hnow)
      . rcases ih hi with hlater | hle
        . exact .inl hlater
        . apply Or.inr
          rw [List.map_cons, List.sum_cons, List.map_cons, List.sum_cons]
          omega

theorem Progress.holds {work cost : α → Nat} {I Q : σ → Prop} {rank : σ → Nat}
    (hp : Progress m ok work cost I Q rank) (h : m.Path ok s as t) (hs : I s)
    (hlong : rank s + (as.map cost).sum < (as.map work).sum) : Q t := by
  rcases hp.path h hs with hq | hle
  . exact hq
  . omega

/--
If there is a way on from everywhere that lowers the rank, then there is a way to where `Q` holds.
-/
theorem exists_path {I Q : σ → Prop} {r : σ → Nat}
    (hway : ∀ s, I s → ∃ as t, m.Path ok s as t ∧ (Q t ∨ I t ∧ r t < r s)) (hs : I s)
    : ∃ as t, m.Path ok s as t ∧ Q t := by
  induction hn : r s using Nat.strongRecOn generalizing s with
  | ind n ih =>
    rcases hway s hs with ⟨as, t, hpath, hq | ⟨ht, hlt⟩⟩
    . exact ⟨as, t, hpath, hq⟩
    . rw [hn] at hlt
      rcases ih _ hlt ht rfl with ⟨bs, u, hpath', hq⟩
      exact ⟨as ++ bs, u, hpath.append hpath', hq⟩

end Machine
end OfpProxy
