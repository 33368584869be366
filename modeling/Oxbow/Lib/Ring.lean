import Mathlib.Data.List.Basic
import Mathlib.Tactic.Ring

/-! Fixed-width arithmetic and a ring of consecutive addresses. A ring position may
also be written one past the last address; it then names the first one. Nothing here
depends on what the addresses hold. -/
namespace Oxbow.Lib

def u16 (n : Nat) : Nat := n % 2^16
def u32 (n : Nat) : Nat := n % 2^32
def u64 (n : Nat) : Nat := n % 2^64

def sub32 (a b : Nat) : Nat := u32 (u32 a + (2^32 - u32 b))
def sub64 (a b : Nat) : Nat := u64 (u64 a + (2^64 - u64 b))

def int32 (z : Int) : Int := if z % 2^32 < 2^31 then z % 2^32 else z % 2^32 - 2^32
def int64 (z : Int) : Int := if z % 2^64 < 2^63 then z % 2^64 else z % 2^64 - 2^64

theorem int32_natCast (small : n < 2^31) : int32 (n : Nat) = n := by
  simp only [int32]
  omega

theorem int64_natCast (small : n < 2^63) : int64 (n : Nat) = n := by
  simp only [int64]
  omega

theorem int64_congr (same : y % 2^64 = z % 2^64) : int64 y = int64 z := by
  rw [int64,int64,same]

theorem int64_sub (y z : Int) : int64 (int64 y - int64 z) = int64 (y - z) := by
  have mod : ∀ x, int64 x % 2^64 = x % 2^64 := by
    intro x
    simp only [int64]
    omega
  apply int64_congr
  rw [Int.sub_emod,mod,mod,← Int.sub_emod]

theorem u32_lt (n : Nat) : u32 n < 2^32 := Nat.mod_lt _ (by decide)
theorem u32_of_lt (small : n < 2^32) : u32 n = n := Nat.mod_eq_of_lt small
theorem u64_of_lt (small : n < 2^64) : u64 n = n := Nat.mod_eq_of_lt small

theorem sub32_of_le (ordered : b ≤ a) (small : a < 2^32) : sub32 a b = a - b := by
  simp only [sub32,u32]
  omega

theorem sub64_of_le (ordered : b ≤ a) (small : a < 2^64) : sub64 a b = a - b := by
  simp only [sub64,u64]
  omega

structure Ring where
  first : Nat
  last : Nat
  nonempty : first ≤ last
  deriving DecidableEq

namespace Ring

def size (r : Ring) : Nat := r.last - r.first + 1

/-- A position from which the ring is walked; one past the end is the same as `first`. -/
def Position (r : Ring) (start : Nat) : Prop := r.first ≤ start ∧ start ≤ r.last + 1

def Holds (r : Ring) (address : Nat) : Prop := r.first ≤ address ∧ address ≤ r.last

instance (r : Ring) (a : Nat) : Decidable (r.Position a) := inferInstanceAs (Decidable (_ ∧ _))
instance (r : Ring) (a : Nat) : Decidable (r.Holds a) := inferInstanceAs (Decidable (_ ∧ _))

/-- The `k`-th address from `start`, counting `start` itself as the zeroth. -/
def block (r : Ring) (start k : Nat) : Nat :=
  if start + k ≤ r.last then start + k else r.first + (start + k - (r.last + 1))

theorem block_holds (r : Ring) (position : r.Position start) (within : k < r.size) :
    r.Holds (r.block start k) := by
  have := r.nonempty
  simp only [Position,size] at position within
  simp only [Holds,block]
  split <;> omega

theorem block_injective (r : Ring) (hi : i < r.size) (hj : j < r.size)
    (same : r.block start i = r.block start j) : i = j := by
  have := r.nonempty
  simp only [size] at hi hj
  simp only [block] at same
  split at same <;> split at same <;> omega

theorem block_before_end (r : Ring) (inside : start + k ≤ r.last) : r.block start k = start + k := by
  simp [block,inside]

theorem block_past_end (r : Ring) (outside : r.last < start + k) :
    r.block start k = r.first + (start + k - (r.last + 1)) := by
  simp [block,Nat.not_le.mpr outside]

end Ring

end Oxbow.Lib
