import Mathlib.Data.List.Basic

/-!
This module contains loops that move a cursor by a step read at the cursor until it is at an end.
Such a loop ends if and only if it never stands on a step of zero, and what it computes is then a
fold over the places it stands on.
-/

namespace OfpProxy
namespace Walk

variable {σ : Type}

def run (step : Nat → Nat) (fin : Nat) (body : Nat → σ → σ) : Nat → Nat → σ → Option σ
  | 0, _, _ => none
  | fuel + 1, pos, st =>
    if pos < fin then
      run step fin body fuel (pos + step pos) (body pos st)
    else
      some st

-- the cursor that starts at the first place stands on the second one
inductive Visits (step : Nat → Nat) (fin : Nat) : Nat → Nat → Prop where
  | here {pos : Nat} : pos < fin → Visits step fin pos pos
  | later {pos p : Nat} : pos < fin → Visits step fin (pos + step pos) p → Visits step fin pos p

-- all the places the cursor stands on before it is at the end
inductive Path (step : Nat → Nat) (fin : Nat) : Nat → List Nat → Prop where
  | done {pos : Nat} : fin ≤ pos → Path step fin pos []
  | next {pos : Nat} {ps : List Nat} :
    pos < fin → Path step fin (pos + step pos) ps → Path step fin pos (pos :: ps)

variable {step : Nat → Nat} {fin : Nat}

theorem Visits.le {pos p : Nat} (h : Visits step fin pos p) : pos ≤ p := by
  induction h with
  | here hlt => omega
  | later hlt hvisits ih => omega

theorem Visits.congr {step' : Nat → Nat} {pos p : Nat} (h : Visits step fin pos p)
    (heq : ∀ p, pos ≤ p → step' p = step p) : Visits step' fin pos p := by
  induction h with
  | here hlt => exact .here hlt
  | @later pos p hlt hvisits ih =>
    apply Visits.later hlt
    rw [heq pos (by omega)]
    apply ih
    intro p hp
    apply heq p (by omega)

theorem visits_congr {step' : Nat → Nat} {pos : Nat} (heq : ∀ p, pos ≤ p → step' p = step p) (p : Nat)
    : Visits step' fin pos p ↔ Visits step fin pos p := by
  constructor
  . intro h
    apply h.congr
    intro p hp
    rw [heq p hp]
  . intro h
    apply h.congr heq

namespace Path

theorem unique {pos : Nat} {ps qs : List Nat} (hp : Path step fin pos ps) (hq : Path step fin pos qs)
    : ps = qs := by
  induction hp generalizing qs with
  | done hle =>
    cases hq with
    | done _ => rfl
    | next hlt _ => omega
  | next hlt _ ih =>
    cases hq with
    | done hle => omega
    | next _ hrest => rw [ih hrest]

theorem mem_iff {pos : Nat} {ps : List Nat} (h : Path step fin pos ps) (p : Nat)
    : p ∈ ps ↔ Visits step fin pos p := by
  induction h with
  | done hle =>
    constructor
    . intro hmem
      simp at hmem
    . intro hvisits
      cases hvisits <;> omega
  | @next pos ps hlt hpath ih =>
    rw [List.mem_cons, ih]
    constructor
    . rintro (rfl | hvisits)
      . exact .here hlt
      . exact .later hlt hvisits
    . intro hvisits
      cases hvisits with
      | here _ => exact .inl rfl
      | later _ hrest => exact .inr hrest

theorem step_pos {pos : Nat} {ps : List Nat} (h : Path step fin pos ps) {p : Nat} (hp : p ∈ ps)
    : 0 < step p := by
  induction h with
  | done hle => simp at hp
  | @next pos ps hlt hpath ih =>
    rw [List.mem_cons] at hp
    rcases hp with rfl | hp
    . rw [Nat.pos_iff_ne_zero]
      intro hzero
      rw [hzero, Nat.add_zero] at hpath
      have hlen := congrArg List.length (hpath.unique (.next hlt (by rw [hzero]; exact hpath)))
      simp at hlen
    . exact ih hp

theorem length_le {pos : Nat} {ps : List Nat} (h : Path step fin pos ps) : ps.length ≤ fin - pos := by
  induction h with
  | done hle => simp
  | @next pos ps hlt hpath ih =>
    have := (Path.next hlt hpath).step_pos List.mem_cons_self
    rw [List.length_cons]
    omega

theorem congr {step' : Nat → Nat} {pos : Nat} {ps : List Nat} (h : Path step fin pos ps)
    (heq : ∀ p, pos ≤ p → step' p = step p) : Path step' fin pos ps := by
  induction h with
  | done hle => exact .done hle
  | @next pos ps hlt hpath ih =>
    apply Path.next hlt
    rw [heq pos (by omega)]
    apply ih
    intro p hp
    apply heq p (by omega)

end Path

theorem exists_path_iff (pos : Nat)
    : (∃ ps, Path step fin pos ps) ↔ ∀ p, Visits step fin pos p → 0 < step p := by
  constructor
  . rintro ⟨ps, hps⟩ p hp
    apply hps.step_pos ((hps.mem_iff p).mpr hp)
  . intro h
    generalize hrest : fin - pos = rest
    induction rest using Nat.strongRecOn generalizing pos with
    | ind rest ih =>
      by_cases hlt : pos < fin
      . have hpos := h pos (.here hlt)
        rcases ih (fin - (pos + step pos)) (by omega) (pos + step pos)
            (fun p hp => h p (.later hlt hp)) rfl with
          ⟨ps, hps⟩
        exact ⟨pos :: ps, .next hlt hps⟩
      . exact ⟨[], .done (by omega)⟩

theorem run_eq_some_iff {body : Nat → σ → σ} {fuel pos : Nat} {st st' : σ}
    : run step fin body fuel pos st = some st'
        ↔
      ∃ ps, Path step fin pos ps ∧ ps.length < fuel
        ∧ st' = ps.foldl (fun st p => body p st) st := by
  induction fuel generalizing pos st with
  | zero => simp [run]
  | succ fuel ih =>
    rw [run]
    split
    . next hlt =>
      rw [ih]
      constructor
      . rintro ⟨ps, hps, hlen, hst⟩
        exact ⟨pos :: ps, .next hlt hps, by simpa using hlen, hst⟩
      . rintro ⟨qs, hqs, hlen, hst⟩
        cases hqs with
        | done hle => omega
        | next _ hps => exact ⟨_, hps, by simpa using hlen, hst⟩
    . next hge =>
      constructor
      . intro h
        exact ⟨[], .done (by omega), by simp, Eq.symm (Option.some.inj h)⟩
      . rintro ⟨qs, hqs, hlen, hst⟩
        cases hqs with
        | done hle => rw [hst, List.foldl_nil]
        | next hlt _ => omega

/--
With one round more than there are bytes to go, the loop ends if and only if some number of rounds
is enough, and that is when it never stands on a step of zero.
-/
theorem exists_run_iff {body : Nat → σ → σ} {rounds pos : Nat} (st : σ) (hle : fin - pos ≤ rounds)
    : (∃ st', run step fin body (rounds + 1) pos st = some st')
        ↔ ∀ p, Visits step fin pos p → 0 < step p := by
  rw [← exists_path_iff]
  constructor
  . rintro ⟨st', hst⟩
    rw [run_eq_some_iff] at hst
    rcases hst with ⟨ps, hps, -⟩
    exact ⟨ps, hps⟩
  . rintro ⟨ps, hps⟩
    have := hps.length_le
    exact ⟨_, run_eq_some_iff.mpr ⟨ps, hps, by omega, rfl⟩⟩

theorem run_never {body : Nat → σ → σ} {pos : Nat} (st : σ)
    (h : ∃ p, Visits step fin pos p ∧ step p = 0) (fuel : Nat)
    : run step fin body fuel pos st = none := by
  rcases h with ⟨p, hvisits, hzero⟩
  cases hrun : run step fin body fuel pos st with
  | none => rfl
  | some st' =>
    rw [run_eq_some_iff] at hrun
    rcases hrun with ⟨ps, hps, -⟩
    have := hps.step_pos ((hps.mem_iff p).mpr hvisits)
    omega

end Walk
end OfpProxy
