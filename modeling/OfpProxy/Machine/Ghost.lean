import OfpProxy.Machine.Basic

/-!
This module contains machines that carry a record of their own run. The steps write the record and
never look at it.
-/

namespace OfpProxy
namespace Machine

variable {σ α γ : Type}

def withRecord (m : Machine σ α) (start : σ → γ → Prop) (record : σ → α → γ → γ) : Machine (σ × γ) α where
  init x := m.init x.1 ∧ start x.1 x.2
  step x a := (m.step x.1 a).map fun s => (s, record x.1 a x.2)

variable {m : Machine σ α} {start : σ → γ → Prop} {record : σ → α → γ → γ}

theorem withRecord_step {x x' : σ × γ} {a : α} (h : (m.withRecord start record).step x a = some x')
    : m.step x.1 a = some x'.1 ∧ x'.2 = record x.1 a x.2 := by
  simp only [withRecord, Option.map_eq_some_iff] at h
  rcases h with ⟨s, hstep, rfl⟩
  exact ⟨hstep, rfl⟩

theorem ReachableBy.of_withRecord {ok : σ × γ → α → Prop} {x : σ × γ}
    (h : (m.withRecord start record).ReachableBy ok x) : m.Reachable x.1 := by
  induction h with
  | init hinit => exact .init hinit.1
  | step _ _ hstep ih => exact .step ih trivial (withRecord_step hstep).1

/--
The record does not keep the machine from any of its runs.
-/
theorem Reachable.exists_record (hstart : ∀ s, m.init s → ∃ g, start s g) {s : σ}
    (h : m.Reachable s) : ∃ g, (m.withRecord start record).Reachable (s, g) := by
  induction h with
  | init hinit =>
    rcases hstart _ hinit with ⟨g, hg⟩
    exact ⟨g, .init ⟨hinit, hg⟩⟩
  | @step s s' a _ _ hstep ih =>
    rcases ih with ⟨g, hg⟩
    have hrecord : (m.withRecord start record).step (s, g) a = some (s', record s a g) := by
      simp [withRecord, hstep]
    exact ⟨_, .step hg trivial hrecord⟩

end Machine
end OfpProxy
