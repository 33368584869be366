import Mathlib.Algebra.Ring.Nat
import Mathlib.Data.List.Basic

/-! Extents of consecutive blocks, and extents laid end to end. -/
namespace Oxbow.Lib

open List

structure Extent where
  start : Nat
  len : Nat
  deriving DecidableEq, Repr

def Extent.stop (e : Extent) : Nat := e.start + e.len

def Extent.addresses (e : Extent) : List Nat := (List.range e.len).map (e.start + ·)

def Extent.Disjoint (e f : Extent) : Prop := e.stop ≤ f.start ∨ f.stop ≤ e.start

instance (e f : Extent) : Decidable (e.Disjoint f) := inferInstanceAs (Decidable (_ ∨ _))

def blocks (es : List Extent) : Nat := (es.map Extent.len).sum

@[simp] theorem blocks_nil : blocks [] = 0 := rfl

@[simp] theorem blocks_cons (e : Extent) (es : List Extent) : blocks (e :: es) = e.len + blocks es := by
  simp [blocks]

@[simp] theorem blocks_append (es fs : List Extent) : blocks (es ++ fs) = blocks es + blocks fs := by
  simp [blocks]

theorem blocks_pos (positive : ∀ e ∈ es, 0 < e.len) (some : es ≠ []) : 0 < blocks es := by
  cases es with
  | nil => exact absurd rfl some
  | cons e es =>
    have := positive e mem_cons_self
    rw [blocks_cons]
    omega

/-- The extents cover the blocks from `a` up to `b` in order. -/
def Laid : Nat → List Extent → Nat → Prop
  | a, [], b => a = b
  | a, e :: es, b => e.start = a ∧ Laid e.stop es b

theorem Laid.blocks (laid : Laid a es b) : a + blocks es = b := by
  induction es generalizing a with
  | nil => exact laid
  | cons e es ih =>
    have := ih laid.2
    have start := laid.1
    simp only [Extent.stop,blocks_cons] at *
    omega

theorem Laid.append (first : Laid a es b) (second : Laid b fs c) : Laid a (es ++ fs) c := by
  induction es generalizing a with
  | nil =>
    obtain rfl : a = b := first
    exact second
  | cons e es ih => exact ⟨first.1,ih first.2⟩

theorem Laid.of_append (laid : Laid a (es ++ fs) c) : ∃ b, Laid a es b ∧ Laid b fs c := by
  induction es generalizing a with
  | nil => exact ⟨a,rfl,laid⟩
  | cons e es ih =>
    obtain ⟨b,first,second⟩ := ih laid.2
    exact ⟨b,⟨laid.1,first⟩,second⟩

theorem Laid.cons (here : e = ⟨a,n⟩) (rest : Laid (a + n) es b) : Laid a (e :: es) b := by
  subst here
  exact ⟨rfl,rest⟩

theorem laid_one (a len : Nat) : Laid a [⟨a,len⟩] (a + len) := ⟨rfl,rfl⟩

section

variable (laid : Laid a es b)
include laid

theorem Laid.drop (k : Nat) : Laid (a + Oxbow.Lib.blocks (es.take k)) (es.drop k) b := by
  induction es generalizing a k with
  | nil => simpa using laid
  | cons e es ih =>
    cases k with
    | zero => exact laid
    | succ k =>
      have later := ih laid.2 k
      rw [Extent.stop,laid.1,Nat.add_assoc] at later
      simpa using later

theorem Laid.inside : ∀ e ∈ es, a ≤ e.start ∧ e.stop ≤ b := by
  induction es generalizing a with
  | nil => simp
  | cons e es ih =>
    have sum := laid.2.blocks
    have start := laid.1
    intro f member
    rcases mem_cons.mp member with rfl | member
    · exact ⟨by omega,by omega⟩
    · have := ih laid.2 f member
      simp only [Extent.stop] at *
      exact ⟨by omega,by omega⟩

theorem Laid.pairwise : es.Pairwise Extent.Disjoint := by
  induction es generalizing a with
  | nil => exact .nil
  | cons e es ih => exact .cons (fun f member => .inl (laid.2.inside f member).1) (ih laid.2)

theorem Laid.le : a ≤ b := by
  have := laid.blocks
  omega

theorem Laid.addresses : es.flatMap Extent.addresses = (List.range (b - a)).map (a + ·) := by
  induction es generalizing a with
  | nil =>
    obtain rfl : a = b := laid
    simp
  | cons e es ih =>
    obtain ⟨rfl,rest⟩ := laid
    have ordered := rest.le
    rw [Extent.stop] at rest ordered
    have both : b - e.start = e.len + (b - (e.start + e.len)) := by omega
    rw [flatMap_cons,ih rest,both,range_add,map_append,map_map,Extent.addresses]
    simp only [Function.comp_def,Nat.add_assoc]

end

def pieces (m n k : Nat) : List Extent := (List.range k).map fun i => ⟨i * m,min m (n - i * m)⟩

theorem pieces_laid (m n k : Nat) (needed : k ≤ (n + m - 1) / m) : Laid 0 (pieces m n k) (min (k * m) n) := by
  induction k with
  | zero => simp [pieces,Laid]
  | succ k ih =>
    have positive : 0 < m := by
      by_contra zero
      simp [Nat.eq_zero_of_not_pos zero] at needed
    have below : k * m < n := by
      have := (Nat.le_div_iff_mul_le positive).mp needed
      rw [Nat.succ_mul] at this
      omega
    have before := ih (by omega)
    rw [Nat.min_eq_left (by omega)] at before
    rw [pieces,range_succ,map_append]
    refine before.append ⟨rfl,?_⟩
    rw [Nat.succ_mul]
    change k * m + min m (n - k * m) = _
    omega

def coverings (es : List Extent) (p : Nat) : Nat := es.countP fun e => e.start ≤ p ∧ p < e.stop

theorem Laid.coverings (laid : Laid a es b) (p : Nat) : coverings es p = if a ≤ p ∧ p < b then 1 else 0 := by
  induction es generalizing a with
  | nil =>
    obtain rfl : a = b := laid
    rw [if_neg (by omega)]
    rfl
  | cons e es ih =>
    obtain ⟨start,rest⟩ := laid
    have later := ih rest
    have ordered := rest.le
    have nonneg : e.start ≤ e.stop := Nat.le_add_right e.start e.len
    simp only [Oxbow.Lib.coverings,countP_cons,decide_eq_true_eq] at later ⊢
    rw [later]
    split <;> split <;> split <;> omega

/-- Extents laid from `a` on hold each block from `a` up to `c` once, and no other, if they end at `c`. -/
theorem Laid.coverings_iff (laid : Laid a es b) (ordered : a ≤ c) :
    (∀ p, Oxbow.Lib.coverings es p = if a ≤ p ∧ p < c then 1 else 0) ↔ b = c := by
  constructor
  · intro exact
    have upper := laid.le
    have atEnd := (laid.coverings b).symm.trans (exact b)
    have atStop := (laid.coverings c).symm.trans (exact c)
    rw [if_neg (by omega)] at atEnd
    rw [if_neg (c := a ≤ c ∧ c < c) (by omega)] at atStop
    split at atEnd
    · cases atEnd
    · split at atStop
      · cases atStop
      · omega
  · rintro rfl
    exact laid.coverings

end Oxbow.Lib
