import Mathlib.Logic.Function.Basic
import OfpProxy.Machine.Basic

/-!
This module contains machines of which one is seen through another: every step of the larger machine
is one step of the smaller one, or none at all. It also contains machines that run side by side.
-/

namespace OfpProxy
namespace Machine

variable {σ τ α β : Type}

/--
`abs` shows each run of `m` that stays inside of `I` as a run of `m'` whose steps meet `ok`.
-/
structure Simulates (m : Machine σ α) (m' : Machine τ β) (ok : τ → β → Prop) (I : σ → Prop)
    (abs : σ → τ) : Prop where
  init : ∀ s, m.init s → m'.init (abs s)
  -- a state outside of I never leads back to it
  closed : ∀ s a s', m.step s a = some s' → I s' → I s
  step : ∀ s a s', m.Reachable s → I s' → m.step s a = some s'
    → abs s' = abs s ∨ ∃ b, ok (abs s) b ∧ m'.step (abs s) b = some (abs s')

theorem Simulates.reachableBy {m : Machine σ α} {m' : Machine τ β} {ok : τ → β → Prop} {I : σ → Prop}
    {abs : σ → τ} (h : Simulates m m' ok I abs) {s : σ} (hs : m.Reachable s) (hI : I s)
    : m'.ReachableBy ok (abs s) := by
  induction hs with
  | init hinit => exact .init (h.init _ hinit)
  | step hreach _ hstep ih =>
    have hbefore := ih (h.closed _ _ _ hstep hI)
    rcases h.step _ _ _ hreach hI hstep with hsame | ⟨b, hok, hb⟩
    . rw [hsame]
      exact hbefore
    . exact .step hbefore hok hb

-- machines next to each other, where a step is one of a single machine
def family {ι : Type} [DecidableEq ι] (m : ι → Machine τ β) : Machine (ι → τ) (ι × β) where
  init t := ∀ i, (m i).init (t i)
  step t a := ((m a.1).step (t a.1) a.2).map (Function.update t a.1)

theorem family_step {ι : Type} [DecidableEq ι] {m : ι → Machine τ β} {t t' : ι → τ} {i : ι} {b : β}
    (hstep : (m i).step (t i) b = some (t' i)) (hothers : ∀ j, j ≠ i → t' j = t j)
    : (family m).step t (i, b) = some t' := by
  unfold family
  dsimp only
  rw [hstep, Option.map_some, Option.some_inj]
  funext j
  by_cases hj : j = i
  . subst hj
    rw [Function.update_self]
  . rw [Function.update_of_ne hj, hothers j hj]

end Machine
end OfpProxy
