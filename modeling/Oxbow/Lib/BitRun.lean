import Mathlib.Algebra.Ring.Nat
import Mathlib.Order.Interval.Finset.Nat

/-! Runs of set bits in a bitmap. A scan that knows how many set bits come right before it
finds the first run of a length; setting and clearing a run changes the count by its length. -/
namespace Oxbow.Lib.BitRun

open Function List

variable {map : Nat → Bool} {b len : Nat}

def RunAt (map : Nat → Bool) (b len : Nat) : Prop := ∀ j < len, map (b + j) = true

instance RunAt.decidable (map : Nat → Bool) (b len : Nat) : Decidable (RunAt map b len) :=
  inferInstanceAs (Decidable (∀ j < len,_))

def FirstRun (map : Nat → Bool) (size len b : Nat) : Prop :=
  b + len ≤ size ∧ RunAt map b len ∧ ∀ c < b, ¬ RunAt map c len

instance FirstRun.decidable (map : Nat → Bool) (size len b : Nat) : Decidable (FirstRun map size len b) :=
  inferInstanceAs (Decidable (_ ∧ _ ∧ ∀ c < b,_))

theorem FirstRun.unique (one : FirstRun map size len b) (other : FirstRun map size len c) : b = c := by
  rcases Nat.lt_trichotomy b c with before | same | after
  · exact absurd one.2.1 (other.2.2 b before)
  · exact same
  · exact absurd other.2.1 (one.2.2 c after)

theorem RunAt.first (run : RunAt map b len) (within : b + len ≤ size) : ∃ c, FirstRun map size len c := by
  have somewhere : ∃ c, RunAt map c len := ⟨b,run⟩
  have least := Nat.find_min' somewhere run
  exact ⟨Nat.find somewhere,by omega,Nat.find_spec somewhere,fun c before => Nat.find_min somewhere before⟩

def streak (map : Nat → Bool) : Nat → Nat
  | 0 => 0
  | b + 1 => if map b then streak map b + 1 else 0

theorem streak_le (map : Nat → Bool) (b : Nat) : streak map b ≤ b := by
  induction b with
  | zero => exact Nat.le_refl 0
  | succ b ih =>
    rw [streak]
    split
    · exact Nat.succ_le_succ ih
    · exact Nat.zero_le _

theorem runAt_iff_streak : RunAt map b len ↔ len ≤ streak map (b + len) := by
  induction len with
  | zero => simp [RunAt]
  | succ len ih =>
    rw [RunAt,Nat.forall_lt_succ_right,← Nat.add_assoc,streak]
    cases set : map (b + len)
    · simp
    · simp only [and_true,if_true,Nat.add_le_add_iff_right]
      exact ih

def fill (map : Nat → Bool) (b len : Nat) (value : Bool) : Nat → Bool :=
  fun j => if b ≤ j ∧ j < b + len then value else map j

theorem fill_inside (low : b ≤ j) (high : j < b + len) (value : Bool) : fill map b len value j = value :=
  if_pos ⟨low,high⟩

theorem fill_outside (outside : j < b ∨ b + len ≤ j) (value : Bool) : fill map b len value j = map j :=
  if_neg (by omega)

def count (map : Nat → Bool) (lo hi : Nat) : Nat := ((Finset.Ico lo hi).filter fun j => map j = true).card

theorem count_congr (same : ∀ j, lo ≤ j → j < hi → map j = other j) : count map lo hi = count other lo hi := by
  refine congrArg Finset.card (Finset.filter_congr ?_)
  intro j within
  rw [same j (Finset.mem_Ico.mp within).1 (Finset.mem_Ico.mp within).2]

theorem count_full (full : ∀ j, lo ≤ j → j < hi → map j = true) : count map lo hi = hi - lo := by
  rw [count,Finset.filter_true_of_mem,Nat.card_Ico]
  intro j within
  exact full j (Finset.mem_Ico.mp within).1 (Finset.mem_Ico.mp within).2

theorem count_le (map : Nat → Bool) (lo hi : Nat) : count map lo hi ≤ hi - lo := by
  rw [count,← Nat.card_Ico]
  exact Finset.card_filter_le _ _

theorem count_clear (low : lo ≤ b) (high : b + len ≤ hi) (set : RunAt map b len) :
    count (fill map b len false) lo hi + len = count map lo hi := by
  have cleared : (Finset.Ico lo hi).filter (fun j => fill map b len false j = true) =
      (Finset.Ico lo hi).filter (fun j => map j = true) \ Finset.Ico b (b + len) := by
    ext j
    simp only [Finset.mem_filter,Finset.mem_sdiff,Finset.mem_Ico]
    by_cases inside : b ≤ j ∧ j < b + len
    · simp [fill_inside inside.1 inside.2,inside]
    · simp [fill_outside (show j < b ∨ b + len ≤ j by omega),inside]
  have within : Finset.Ico b (b + len) ⊆ (Finset.Ico lo hi).filter (fun j => map j = true) := by
    intro j inside
    obtain ⟨above,below⟩ := Finset.mem_Ico.mp inside
    have here := set (j - b) (by omega)
    rw [Nat.add_sub_cancel' above] at here
    exact Finset.mem_filter.mpr ⟨Finset.mem_Ico.mpr (by omega),here⟩
  have smaller := Finset.card_le_card within
  rw [Nat.card_Ico] at smaller
  rw [count,count,cleared,Finset.card_sdiff_of_subset within,Nat.card_Ico]
  omega

theorem count_set (low : lo ≤ b) (high : b + len ≤ hi) (clear : ∀ j, b ≤ j → j < b + len → map j = false) :
    count (fill map b len true) lo hi = count map lo hi + len := by
  have set : RunAt (fill map b len true) b len := fun j below => fill_inside (by omega) (by omega) true
  rw [← count_clear low high set]
  congr 1
  refine count_congr fun j _ _ => ?_
  by_cases inside : b ≤ j ∧ j < b + len
  · rw [fill_inside inside.1 inside.2,clear j inside.1 inside.2]
  · rw [fill_outside (by omega),fill_outside (by omega)]

theorem fill_one (map : Nat → Bool) (b : Nat) (value : Bool) : fill map b 1 value = update map b value := by
  funext j
  by_cases here : j = b
  · rw [here,fill_inside (Nat.le_refl b) (Nat.lt_succ_self b),update_self]
  · rw [fill_outside (by omega),update_of_ne here]

theorem count_update_true (low : lo ≤ b) (high : b < hi) (clear : map b = false) :
    count (update map b true) lo hi = count map lo hi + 1 := by
  rw [← fill_one]
  refine count_set low high ?_
  intro j above below
  rw [show j = b by omega,clear]

theorem count_update_false (low : lo ≤ b) (high : b < hi) (set : map b = true) :
    count (update map b false) lo hi + 1 = count map lo hi := by
  rw [← fill_one]
  exact count_clear low high (by simpa [RunAt] using set)

theorem count_pos_iff : 0 < count map lo hi ↔ ∃ j, (lo ≤ j ∧ j < hi) ∧ map j = true := by
  rw [count,Finset.card_pos]
  simp only [Finset.Nonempty,Finset.mem_filter,Finset.mem_Ico]

/-! The runs of a bitmap that cannot be made longer. -/

/-- A run among the bits below `size` that no set bit adjoins. -/
structure MaxRun (map : Nat → Bool) (size b len : Nat) : Prop where
  positive : 0 < len
  within : b + len ≤ size
  set : RunAt map b len
  left : b = 0 ∨ map (b - 1) = false
  right : b + len = size ∨ map (b + len) = false

def endedRuns (map : Nat → Bool) : Nat → List (Nat × Nat)
  | 0 => []
  | b + 1 =>
    if map b = false ∧ streak map b ≠ 0 then endedRuns map b ++ [(b - streak map b,streak map b)] else endedRuns map b

def maxRuns (map : Nat → Bool) (size : Nat) : List (Nat × Nat) :=
  endedRuns map size ++ if streak map size = 0 then [] else [(size - streak map size,streak map size)]

theorem streak_set (map : Nat → Bool) (size : Nat) : RunAt map (size - streak map size) (streak map size) := by
  rw [runAt_iff_streak,Nat.sub_add_cancel (streak_le map size)]

theorem streak_maxRun (map : Nat → Bool) (some : streak map size ≠ 0) :
    MaxRun map size (size - streak map size) (streak map size) := by
  have most := streak_le map size
  refine ⟨by omega,by omega,streak_set map size,?_,by omega⟩
  · rw [or_iff_not_imp_left,← Bool.not_eq_true]
    intro later set
    -- one more set bit in front would make the streak longer
    have longer : RunAt map (size - streak map size - 1) (streak map size + 1) := by
      intro j below
      cases j with
      | zero => exact set
      | succ j =>
        have place : size - streak map size - 1 + (j + 1) = size - streak map size + j := by omega
        rw [place]
        exact streak_set map size j (by omega)
    have place : size - streak map size - 1 + (streak map size + 1) = size := by omega
    rw [runAt_iff_streak,place] at longer
    omega

theorem maxRun_end (run : MaxRun map size b len) (last : b + len = size) :
    b = size - streak map size ∧ len = streak map size := by
  have least := runAt_iff_streak.mp run.set
  have most := streak_le map size
  rw [last] at least
  suffices streak map size ≤ len by omega
  by_contra longer
  rcases run.left with first | clear
  · omega
  · have set := streak_set map size (b - 1 - (size - streak map size)) (by omega)
    have place : size - streak map size + (b - 1 - (size - streak map size)) = b - 1 := by omega
    rw [place,clear] at set
    exact Bool.false_ne_true set

theorem mem_endedRuns : (b,len) ∈ endedRuns map size ↔ MaxRun map size b len ∧ b + len < size := by
  induction size with
  | zero => simp [endedRuns]
  | succ size ih =>
    have earlier : MaxRun map (size + 1) b len ∧ b + len < size ↔ MaxRun map size b len ∧ b + len < size := by
      constructor
      · rintro ⟨⟨positive,_,set,left,right⟩,before⟩
        exact ⟨⟨positive,by omega,set,left,.inr (right.resolve_left (by omega))⟩,before⟩
      · rintro ⟨⟨positive,_,set,left,right⟩,before⟩
        exact ⟨⟨positive,by omega,set,left,.inr (right.resolve_left (by omega))⟩,before⟩
    have ends : MaxRun map (size + 1) b len ∧ b + len = size ↔ MaxRun map size b len ∧
        b + len = size ∧ map size = false := by
      constructor
      · rintro ⟨⟨positive,_,set,left,right⟩,last⟩
        have clear := right.resolve_left (by omega)
        rw [last] at clear
        exact ⟨⟨positive,by omega,set,left,.inl last⟩,last,clear⟩
      · rintro ⟨⟨positive,_,set,left,_⟩,last,clear⟩
        rw [← last] at clear
        exact ⟨⟨positive,by omega,set,left,.inr clear⟩,last⟩
    have split : MaxRun map (size + 1) b len ∧ b + len < size + 1 ↔
        (b,len) ∈ endedRuns map size ∨ MaxRun map size b len ∧ b + len = size ∧ map size = false := by
      rw [ih,← earlier,← ends,← and_or_left,← Nat.lt_succ_iff_lt_or_eq]
    rw [split,endedRuns]
    split_ifs with ended
    · rw [mem_append,mem_singleton,Prod.mk.injEq]
      apply or_congr_right
      constructor
      · rintro ⟨rfl,rfl⟩
        have most := streak_le map size
        exact ⟨streak_maxRun map ended.2,by omega,ended.1⟩
      · rintro ⟨run,last,-⟩
        exact maxRun_end run last
    · constructor
      · exact .inl
      · rintro (member | ⟨run,last,clear⟩)
        · exact member
        · have positive := run.positive
          have length := (maxRun_end run last).2
          exact absurd ⟨clear,by omega⟩ ended

theorem mem_maxRuns : (b,len) ∈ maxRuns map size ↔ MaxRun map size b len := by
  have split : MaxRun map size b len ↔ (b,len) ∈ endedRuns map size ∨ MaxRun map size b len ∧ b + len = size := by
    rw [mem_endedRuns,← and_or_left,← Nat.le_iff_lt_or_eq]
    exact ⟨fun run => ⟨run,run.within⟩,And.left⟩
  rw [split,maxRuns]
  split_ifs with none
  · rw [append_nil]
    constructor
    · exact .inl
    · rintro (member | ⟨run,last⟩)
      · exact member
      · have positive := run.positive
        have length := (maxRun_end run last).2
        omega
  · rw [mem_append,mem_singleton,Prod.mk.injEq]
    apply or_congr_right
    constructor
    · rintro ⟨rfl,rfl⟩
      have most := streak_le map size
      exact ⟨streak_maxRun map none,by omega⟩
    · rintro ⟨run,last⟩
      exact maxRun_end run last

/-- One run ends before the next begins. -/
def Before (r r' : Nat × Nat) : Prop := r.1 + r.2 ≤ r'.1

/-- A run behind the ended ones ends at the place itself, and what it follows ends before the clear bit in front of it. -/
theorem endedRuns_before (size : Nat) : ∀ r ∈ endedRuns map size, Before r (size - streak map size,streak map size) := by
  rintro ⟨b,len⟩ member
  obtain ⟨run,ended⟩ := mem_endedRuns.mp member
  have clear := run.right.resolve_left (by omega)
  by_contra inside
  rw [Before,Nat.not_le] at inside
  have here := streak_set map size (b + len - (size - streak map size)) (by omega)
  rw [Nat.add_sub_cancel' (by omega),clear] at here
  exact Bool.false_ne_true here

theorem endedRuns_pairwise (size : Nat) : (endedRuns map size).Pairwise Before := by
  induction size with
  | zero => exact .nil
  | succ size ih =>
    rw [endedRuns]
    split_ifs
    · exact pairwise_append.mpr ⟨ih,pairwise_singleton _ _,by simpa using endedRuns_before size⟩
    · exact ih

theorem maxRuns_pairwise (size : Nat) : (maxRuns map size).Pairwise Before := by
  rw [maxRuns]
  split_ifs
  · rw [append_nil]
    exact endedRuns_pairwise size
  · exact pairwise_append.mpr ⟨endedRuns_pairwise size,pairwise_singleton _ _,by simpa using endedRuns_before size⟩

def total (runs : List (Nat × Nat)) : Nat := (runs.map Prod.snd).sum

@[simp] theorem total_nil : total [] = 0 := rfl

@[simp] theorem total_singleton (r : Nat × Nat) : total [r] = r.2 := by simp [total]

@[simp] theorem total_append (runs runs' : List (Nat × Nat)) : total (runs ++ runs') = total runs + total runs' := by
  simp [total]

theorem total_endedRuns_le (map : Nat → Bool) (size : Nat) : total (endedRuns map size) + streak map size ≤ size := by
  induction size with
  | zero => exact Nat.le_refl 0
  | succ size ih =>
    rw [endedRuns,streak]
    split_ifs with ended set set
    · rw [ended.1] at set
      exact absurd set Bool.false_ne_true
    · rw [total_append,total_singleton]
      omega
    · omega
    · omega

theorem total_maxRuns_le (map : Nat → Bool) (size : Nat) : total (maxRuns map size) ≤ size := by
  have ended := total_endedRuns_le map size
  rw [maxRuns]
  split_ifs
  · rw [append_nil]
    omega
  · rw [total_append,total_singleton]
    exact ended

def spread (r : Nat × Nat) : List Nat := (List.range r.2).map (r.1 + ·)

theorem spread_succ (b len : Nat) : spread (b,len + 1) = spread (b,len) ++ [b + len] := by
  simp [spread,range_succ]

theorem spread_endedRuns (map : Nat → Bool) (size : Nat) :
    (endedRuns map size).flatMap spread ++ spread (size - streak map size,streak map size) = (List.range size).filter map := by
  induction size with
  | zero => rfl
  | succ size ih =>
    have most := streak_le map size
    rw [range_succ,filter_append,← ih,endedRuns,streak]
    cases set : map size with
    | true =>
      rw [if_neg (by simp),if_pos rfl,spread_succ,show size + 1 - (streak map size + 1) = size - streak map size by omega,
        Nat.sub_add_cancel most]
      simp [set]
    | false =>
      by_cases none : streak map size = 0
      · simp [none,set,spread]
      · simp [none,set,spread]

theorem spread_maxRuns (map : Nat → Bool) (size : Nat) : (maxRuns map size).flatMap spread = (List.range size).filter map := by
  rw [← spread_endedRuns,maxRuns,flatMap_append]
  split
  next none => simp [none,spread]
  next => simp

end Oxbow.Lib.BitRun
