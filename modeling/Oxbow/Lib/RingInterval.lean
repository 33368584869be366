import Oxbow.Lib.BitRun

/-! Intervals of the `n` places of a ring. -/
namespace Oxbow.Lib.RingInterval

/-- The place `add` behind, where `add` is not more than `n`. -/
def advance (n i add : Nat) : Nat := if n ≤ i + add then i + add - n else i + add

/-- One of the `len` places from `start` on, around the end. -/
def InRing (n start len i : Nat) : Prop := i < n ∧ (start ≤ i ∧ i < start + len ∨ i + n < start + len)

instance InRing.decidable (n start len i : Nat) : Decidable (InRing n start len i) :=
  inferInstanceAs (Decidable (_ ∧ _))

variable {n start len k i : Nat}

theorem advance_lt (inside : start < n) (most : k ≤ n) : advance n start k < n := by
  unfold advance
  split <;> omega

theorem advance_zero (inside : start < n) : advance n start 0 = start := if_neg (Nat.not_le.mpr inside)

theorem advance_advance (inside : start < n) (most : k < n) : advance n (advance n start 1) k = advance n start (k + 1) := by
  unfold advance
  split <;> split <;> split <;> omega

theorem not_inRing_advance (start : Nat) (most : len < n) : ¬ InRing n start len (advance n start len) := by
  unfold InRing advance
  split <;> omega

theorem inRing_all (start : Nat) (below : i < n) : InRing n start n i := by
  unfold InRing
  omega

theorem inRing_iff (inside : start < n) (most : len ≤ n) : InRing n start len i ↔ ∃ k < len, advance n start k = i := by
  constructor
  · rintro ⟨below,⟨low,high⟩ | wrapped⟩
    · refine ⟨i - start,by omega,?_⟩
      unfold advance
      split <;> omega
    · refine ⟨i + n - start,by omega,?_⟩
      unfold advance
      split <;> omega
  · rintro ⟨k,below,rfl⟩
    unfold advance InRing
    split <;> omega

theorem advance_injOn (n start : Nat) (most : len ≤ n) :
    Set.InjOn (advance n start) (Finset.range len : Set Nat) := by
  intro j hj k hk same
  rw [Finset.mem_coe,Finset.mem_range] at hj hk
  unfold advance at same
  split at same <;> split at same <;> omega

@[simp] theorem not_inRing_zero (inside : start < n) : ¬ InRing n start 0 i := by
  unfold InRing
  omega

theorem inRing_succ (inside : start < n) (most : len < n) :
    InRing n start (len + 1) i ↔ InRing n start len i ∨ i = advance n start len := by
  unfold InRing advance
  split <;> omega

theorem inRing_advance (inside : start < n) (most : len < n) :
    InRing n (advance n start 1) len i ↔ InRing n start (len + 1) i ∧ i ≠ start := by
  unfold InRing advance
  split <;> omega

theorem inRing_goes_on (ends : start + len = n ∨ start = 0 ∧ len = 0) (most : len + k ≤ n) :
    InRing n start (len + k) i ↔ i < k ∨ InRing n start len i := by
  unfold InRing
  omega

/-- As many set bits as places, if the set ones make up an interval. -/
theorem count_inRing (inside : start < n) (most : len ≤ n) (set : ∀ i, map i = true ↔ InRing n start len i) :
    BitRun.count map 0 n = len := by
  have places : (Finset.Ico 0 n).filter (fun i => map i = true) = (Finset.range len).image (advance n start) := by
    ext i
    rw [Finset.mem_filter,Finset.mem_Ico,set,inRing_iff inside most,Finset.mem_image]
    simp only [Finset.mem_range]
    constructor
    · exact And.right
    · rintro ⟨k,below,rfl⟩
      exact ⟨⟨Nat.zero_le _,advance_lt inside (by omega)⟩,k,below,rfl⟩
  rw [BitRun.count,places,Finset.card_image_of_injOn (advance_injOn n start most),Finset.card_range]

end Oxbow.Lib.RingInterval
