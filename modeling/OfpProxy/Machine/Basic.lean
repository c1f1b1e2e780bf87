import Mathlib.Data.List.Basic

/-!
This module contains labelled transition systems whose step function is partial: a step is `none`
where it is not enabled. A condition on states and labels restricts the runs that are looked at.
-/

namespace OfpProxy

structure Machine (σ α : Type) where
  init : σ → Prop
  step : σ → α → Option σ

namespace Machine

variable {σ α : Type} (m : Machine σ α)

/--
The states of the runs all of whose steps meet `ok`.
-/
inductive ReachableBy (ok : σ → α → Prop) : σ → Prop where
  | init {s : σ} : m.init s → ReachableBy ok s
  | step {s s' : σ} {a : α} : ReachableBy ok s → ok s a → m.step s a = some s' → ReachableBy ok s'

def Reachable (s : σ) : Prop := m.ReachableBy (fun _ _ => True) s

variable {m}

theorem ReachableBy.mono {ok ok' : σ → α → Prop} {s : σ} (h : m.ReachableBy ok s)
    (hok : ∀ s a, ok s a → ok' s a) : m.ReachableBy ok' s := by
  induction h with
  | init hinit => exact .init hinit
  | step _ hs hstep ih => exact .step ih (hok _ _ hs) hstep

theorem ReachableBy.reachable {ok : σ → α → Prop} {s : σ} (h : m.ReachableBy ok s) : m.Reachable s :=
  h.mono fun _ _ _ => trivial

theorem ReachableBy.invariant {ok : σ → α → Prop} {I : σ → Prop} (hinit : ∀ s, m.init s → I s)
    (hstep : ∀ s a s', m.ReachableBy ok s → I s → ok s a → m.step s a = some s' → I s') {s : σ}
    (h : m.ReachableBy ok s) : I s := by
  induction h with
  | init hs => exact hinit _ hs
  | step hreach hok hs ih => exact hstep _ _ _ hreach ih hok hs

theorem Reachable.invariant {I : σ → Prop} (hinit : ∀ s, m.init s → I s)
    (hstep : ∀ s a s', m.Reachable s → I s → m.step s a = some s' → I s') {s : σ}
    (h : m.Reachable s) : I s := by
  apply ReachableBy.invariant hinit _ h
  intro s a s' hreach hs _
  apply hstep s a s' hreach hs

def replay (m : Machine σ α) (ok : σ → α → Bool) : σ → List α → Option σ
  | s, [] => some s
  | s, a :: as =>
    if ok s a then
      match m.step s a with
      | none => none
      | some s' => replay m ok s' as
    else
      none

theorem replay_append (ok : σ → α → Bool) (as bs : List α) (s : σ)
    : m.replay ok s (as ++ bs) = (m.replay ok s as).bind fun s' => m.replay ok s' bs := by
  induction as generalizing s with
  | nil => rfl
  | cons a as ih =>
    rw [List.cons_append, replay, replay]
    split
    . cases m.step s a with
      | none => rfl
      | some s' => apply ih
    . rfl

theorem reachableBy_of_replay {ok : σ → α → Bool} {as : List α} {s s' : σ}
    (hs : m.ReachableBy (fun s a => ok s a = true) s) (h : m.replay ok s as = some s')
    : m.ReachableBy (fun s a => ok s a = true) s' := by
  induction as generalizing s with
  | nil =>
    simp only [replay, Option.some.injEq] at h
    subst h
    exact hs
  | cons a as ih =>
    unfold replay at h
    split at h
    . next hok =>
      cases hstep : m.step s a with
      | none => simp [hstep] at h
      | some t =>
        simp only [hstep] at h
        apply ih (.step hs hok hstep) h
    . simp at h

-- A condition on the labels alone is checked on the list.
theorem reachableBy_of_replay_all {ok : σ → α → Bool} {p : α → Prop} {as : List α} {s s' : σ}
    (hs : m.ReachableBy (fun s a => p a ∧ ok s a = true) s) (hp : ∀ a ∈ as, p a)
    (h : m.replay ok s as = some s') : m.ReachableBy (fun s a => p a ∧ ok s a = true) s' := by
  induction as generalizing s with
  | nil =>
    simp only [replay, Option.some.injEq] at h
    subst h
    exact hs
  | cons a as ih =>
    rw [List.forall_mem_cons] at hp
    unfold replay at h
    split at h
    . next hok =>
      cases hstep : m.step s a with
      | none => simp [hstep] at h
      | some t =>
        simp only [hstep] at h
        apply ih (.step hs ⟨hp.1, hok⟩ hstep) hp.2 h
    . simp at h

theorem exists_of_replay {ok : σ → α → Bool} {as : List α} {s : σ} {p : σ → Bool}
    (hs : m.ReachableBy (fun s a => ok s a = true) s) (h : (m.replay ok s as).map p = some true)
    : ∃ s', m.ReachableBy (fun s a => ok s a = true) s' ∧ p s' = true := by
  rw [Option.map_eq_some_iff] at h
  rcases h with ⟨s', hreplay, hp⟩
  exact ⟨s', reachableBy_of_replay hs hreplay, hp⟩

end Machine
end OfpProxy
