import Mathlib.Data.List.Nodup
import Mathlib.Data.List.Perm.Basic
import Mathlib.Logic.Function.Basic

/-! Exclusive ownership written down in a ledger: every owned resource has exactly one entry,
with its owner, whoever keeps the entry. -/
namespace Oxbow.Lib

open Function

structure Ledger (owner : ρ → Option κ) (entries : List (ρ × κ)) : Prop where
  once : (entries.map Prod.fst).Nodup
  owned : ∀ r k, (r,k) ∈ entries ↔ owner r = some k

namespace Ledger

variable {ρ κ : Type} {owner : ρ → Option κ} {entries entries' : List (ρ × κ)} {r : ρ} {k : κ}

theorem empty : Ledger (fun _ => none : ρ → Option κ) [] := ⟨by simp,by simp⟩

theorem perm (ledger : Ledger owner entries) (moved : entries.Perm entries') : Ledger owner entries' :=
  ⟨(moved.map Prod.fst).nodup_iff.mp ledger.once,fun r k => moved.mem_iff.symm.trans (ledger.owned r k)⟩

theorem free_iff (ledger : Ledger owner entries) : owner r = none ↔ r ∉ entries.map Prod.fst := by
  constructor
  · intro free member
    obtain ⟨⟨r',k⟩,there,rfl⟩ := List.mem_map.mp member
    have owned := (ledger.owned r' k).mp there
    simp [free] at owned
  · intro absent
    cases found : owner r with
    | none => rfl
    | some k => exact absurd (List.mem_map_of_mem ((ledger.owned r k).mpr found)) absent

variable [DecidableEq ρ]

theorem acquire (ledger : Ledger owner entries) (free : owner r = none) (k : κ) :
    Ledger (update owner r (some k)) ((r,k) :: entries) := by
  have absent := ledger.free_iff.mp free
  refine ⟨by simpa using ⟨by simpa using absent,ledger.once⟩,fun r' k' => ?_⟩
  by_cases same : r' = r
  · subst same
    have unlisted : (r',k') ∉ entries := fun member => absent (List.mem_map_of_mem member)
    simp [unlisted,eq_comm]
  · simp [same,ledger.owned r' k']

theorem release (ledger : Ledger owner ((r,k) :: entries)) : Ledger (update owner r none) entries := by
  have once := ledger.once
  rw [List.map_cons,List.nodup_cons] at once
  refine ⟨once.2,fun r' k' => ?_⟩
  by_cases same : r' = r
  · subst same
    have unlisted : (r',k') ∉ entries := fun member => once.1 (List.mem_map.mpr ⟨(r',k'),member,rfl⟩)
    simp [unlisted]
  · simp [same,← ledger.owned r' k']

/-- A resource changes its owner. -/
theorem change (ledger : Ledger owner ((r,k) :: entries)) (k' : κ) :
    Ledger (update owner r (some k')) ((r,k') :: entries) := by
  have changed := ledger.release.acquire (update_self r none owner) k'
  rwa [update_idem] at changed

end Ledger

end Oxbow.Lib
