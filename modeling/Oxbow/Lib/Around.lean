import Oxbow.Lib.Ring
import Oxbow.Lib.Extent

/-! Extents laid end to end around a ring. An extent may run over the last address and
continue at the first one; a queue of them occupies the ring from its tail to its head. -/
namespace Oxbow.Lib.Ring

section

variable (r : Ring) (holds : r.Holds start)
include holds

theorem block_zero : r.block start 0 = start := by
  simp [block,holds.2]

theorem block_wraps (within : k ≤ r.size) : r.Holds (r.block start k) := by
  simp only [Holds,size] at holds within
  simp only [Holds,block]
  split <;> omega

theorem block_block (within : i + j ≤ r.size) : r.block (r.block start i) j = r.block start (i + j) := by
  simp only [Holds,size] at holds within
  simp only [block]
  split <;> split <;> split <;> omega

end

/-- The addresses of an extent, the ones over the end taken from the first address on. -/
def addresses (r : Ring) (e : Extent) : List Nat := (List.range e.len).map (r.block e.start)

def Apart (r : Ring) (e f : Extent) : Prop := ∀ a ∈ r.addresses e, a ∉ r.addresses f

instance (r : Ring) (e f : Extent) : Decidable (r.Apart e f) := inferInstanceAs (Decidable (∀ a ∈ _, _))

/-- The extents follow each other around the ring from `a` to `b`. -/
def Around (r : Ring) : Nat → List Extent → Nat → Prop
  | a, [], b => a = b
  | a, e :: es, b => e.start = a ∧ r.Around (r.block a e.len) es b

namespace Around

variable {r : Ring} {a b : Nat} {es : List Extent}

theorem stop (around : r.Around a es b) (holds : r.Holds a) (within : blocks es ≤ r.size) :
    b = r.block a (blocks es) := by
  induction es generalizing a with
  | nil =>
    obtain rfl : a = b := around
    exact (r.block_zero holds).symm
  | cons e es ih =>
    rw [blocks_cons] at within ⊢
    have rest := ih around.2 (r.block_wraps holds (by omega)) (by omega)
    rw [rest,r.block_block holds within]

theorem snoc (around : r.Around a es b) (n : Nat) : r.Around a (es ++ [⟨b,n⟩]) (r.block b n) := by
  induction es generalizing a with
  | nil =>
    obtain rfl : a = b := around
    exact ⟨rfl,rfl⟩
  | cons e es ih => exact ⟨around.1,ih around.2⟩

section

variable (around : r.Around a es b) (holds : r.Holds a) (within : blocks es ≤ r.size)
include around holds within

theorem drop (k : Nat) : r.Around (r.block a (blocks (es.take k))) (es.drop k) b := by
  induction es generalizing a k with
  | nil => simpa [r.block_zero holds] using around
  | cons e es ih =>
    rw [blocks_cons] at within
    cases k with
    | zero => simpa [r.block_zero holds] using around
    | succ k =>
      have part : blocks (es.take k) ≤ blocks es := by
        have whole := blocks_append (es.take k) (es.drop k)
        rw [List.take_append_drop] at whole
        omega
      have later := ih around.2 (r.block_wraps holds (by omega)) (by omega) k
      rwa [r.block_block holds (by omega)] at later

theorem offset : ∀ e ∈ es, ∃ k, e.start = r.block a k ∧ k + e.len ≤ blocks es := by
  induction es generalizing a with
  | nil => simp
  | cons e es ih =>
    rw [blocks_cons] at within ⊢
    intro f member
    rcases List.mem_cons.mp member with rfl | member
    · exact ⟨0,by rw [r.block_zero holds,around.1],by omega⟩
    · obtain ⟨k,start,short⟩ := ih around.2 (r.block_wraps holds (by omega)) (by omega) f member
      exact ⟨e.len + k,by rw [start,r.block_block holds (by omega)],by omega⟩

theorem pairwise : es.Pairwise r.Apart := by
  induction es generalizing a with
  | nil => exact .nil
  | cons e es ih =>
    rw [blocks_cons] at within
    have next := r.block_wraps holds (show e.len ≤ r.size by omega)
    refine .cons ?_ (ih around.2 next (by omega))
    intro f member address inE inF
    obtain ⟨i,early,rfl⟩ := List.mem_map.mp inE
    obtain ⟨j,late,same⟩ := List.mem_map.mp inF
    obtain ⟨k,start,short⟩ := around.2.offset next (by omega) f member
    rw [List.mem_range] at early late
    rw [start,around.1,r.block_block holds (by omega),r.block_block holds (by omega)] at same
    have := r.block_injective (show e.len + k + j < r.size by omega) (by omega) same
    omega

end

end Around

end Oxbow.Lib.Ring
