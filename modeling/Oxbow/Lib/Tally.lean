import Mathlib.Algebra.BigOperators.Fin
import Mathlib.Algebra.Order.BigOperators.Group.Finset

/-! A counter that is the number of threads in some phases: one thread changes its phase, the
counter changes with it, and a positive counter has a thread behind it. -/
namespace Oxbow.Lib

variable {ι φ : Type} [Fintype ι]

def tally (weight : φ → Nat) (phase : ι → φ) : Nat := ∑ t, weight (phase t)

section

variable [DecidableEq ι] (weight : φ → Nat) (phase : ι → φ)

theorem tally_update (t : ι) (p : φ) :
    tally weight (Function.update phase t p) + weight (phase t) = tally weight phase + weight p := by
  have pointwise : ∀ u, weight (Function.update phase t p u) =
      Function.update (fun u => weight (phase u)) t (weight p) u := by
    intro u
    by_cases same : u = t
    · subst same
      simp
    · simp [same]
  have all := Finset.add_sum_erase Finset.univ (fun u => weight (phase u)) (Finset.mem_univ t)
  rw [tally,tally,Finset.sum_congr rfl fun u _ => pointwise u,Finset.sum_update_of_mem (Finset.mem_univ t),
    Finset.sdiff_singleton_eq_erase]
  omega

theorem le_tally (t : ι) : weight (phase t) ≤ tally weight phase := by
  have all := Finset.add_sum_erase Finset.univ (fun u => weight (phase u)) (Finset.mem_univ t)
  rw [tally]
  omega

theorem add_le_tally (apart : t ≠ u) : weight (phase t) + weight (phase u) ≤ tally weight phase := by
  have all := Finset.add_sum_erase Finset.univ (fun u => weight (phase u)) (Finset.mem_univ t)
  have rest := Finset.add_sum_erase (Finset.univ.erase t) (fun u => weight (phase u))
    (Finset.mem_erase.mpr ⟨apart.symm,Finset.mem_univ u⟩)
  rw [tally]
  omega

end

theorem tally_le (weight : φ → Nat) (phase : ι → φ) (each : ∀ t, weight (phase t) ≤ most) :
    tally weight phase ≤ Fintype.card ι * most :=
  Finset.sum_le_card_nsmul Finset.univ _ most fun t _ => each t

/-- A counter at its largest value has every thread at its own. -/
theorem eq_of_le_tally [DecidableEq ι] (weight : φ → Nat) (phase : ι → φ) (each : ∀ t, weight (phase t) ≤ most)
    (full : Fintype.card ι * most ≤ tally weight phase) (t : ι) : weight (phase t) = most := by
  by_contra other
  have less : tally weight phase < ∑ _t : ι, most :=
    Finset.sum_lt_sum (fun t _ => each t) ⟨t,Finset.mem_univ t,Nat.lt_of_le_of_ne (each t) other⟩
  rw [Finset.sum_const,Finset.card_univ,smul_eq_mul] at less
  omega

theorem tally_eq_zero (weight : φ → Nat) (phase : ι → φ) (each : ∀ t, weight (phase t) = 0) : tally weight phase = 0 :=
  Finset.sum_eq_zero fun t _ => each t

theorem exists_of_tally_pos (weight : φ → Nat) (phase : ι → φ) (positive : 0 < tally weight phase) :
    ∃ t, 0 < weight (phase t) := by
  by_contra none
  have zero := tally_eq_zero weight phase fun t => by
    have := not_exists.mp none t
    omega
  omega

end Oxbow.Lib
