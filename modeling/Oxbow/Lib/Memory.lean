import Mathlib.Logic.Basic

/-! Memory as a function from addresses, and copies between memories. -/
namespace Oxbow.Lib

variable {α : Type}

def memcpy (dst : Nat → α) (dstOfs : Nat) (src : Nat → α) (srcOfs n : Nat) : Nat → α :=
  fun i => if dstOfs ≤ i ∧ i < dstOfs + n then src (srcOfs + (i - dstOfs)) else dst i

section

variable (dst src : Nat → α)

theorem memcpy_inside (srcOfs : Nat) (lower : dstOfs ≤ i) (upper : i < dstOfs + n) :
    memcpy dst dstOfs src srcOfs n i = src (srcOfs + (i - dstOfs)) := if_pos ⟨lower,upper⟩

theorem memcpy_outside (srcOfs : Nat) (outside : i < dstOfs ∨ dstOfs + n ≤ i) :
    memcpy dst dstOfs src srcOfs n i = dst i := if_neg (by omega)

@[simp] theorem memcpy_zero (dstOfs srcOfs : Nat) : memcpy dst dstOfs src srcOfs 0 = dst := by
  funext i
  exact memcpy_outside dst src srcOfs (by omega)

theorem memcpy_memcpy (dstOfs srcOfs m n : Nat) :
    memcpy (memcpy dst dstOfs src srcOfs m) (dstOfs + m) src (srcOfs + m) n = memcpy dst dstOfs src srcOfs (m + n) := by
  funext i
  by_cases second : dstOfs + m ≤ i ∧ i < dstOfs + m + n
  · rw [memcpy_inside _ _ _ second.1 second.2,memcpy_inside _ _ _ (by omega) (by omega)]
    congr 1
    omega
  · rw [memcpy_outside _ _ _ (by omega)]
    by_cases first : dstOfs ≤ i ∧ i < dstOfs + m
    · rw [memcpy_inside _ _ _ first.1 first.2,memcpy_inside _ _ _ (by omega) (by omega)]
    · rw [memcpy_outside _ _ _ (by omega),memcpy_outside _ _ _ (by omega)]

end

end Oxbow.Lib
