import Oxbow.Lib.Extent
import Oxbow.Lib.Ring
import Oxbow.Lib.Run

/-! The stage area as a ring of blocks: `stage_reserve_area` hands out contiguous regions,
skipping the end of the area when a region would cross it, and `stage_free_blks` takes the
oldest ones back. All the arithmetic is that of `u32`, but for block addresses, which have 64 bits. -/
namespace Oxbow.Daemon.StageArea

open Oxbow.Lib List

structure Journal where
  stageStart : Nat
  stageTail : Nat
  stageGapStart : Nat
  stageEnd : Nat
  stageTotal : Nat
  deriving DecidableEq, Repr

section

variable (j : Journal)

def Journal.base : Nat := sub32 j.stageEnd j.stageTotal

def getStageUsedBlks : Nat :=
  let head := sub32 j.stageStart j.base
  let tail := sub32 j.stageTail j.base
  if tail ≤ head then sub32 head tail else u32 (sub32 j.stageTotal tail + head)

def skipGap : Journal :=
  if j.stageGapStart ≠ 0 ∧ j.stageGapStart ≤ j.stageTail then
    { j with stageTail := u32 (j.base + sub32 j.stageTail j.stageGapStart), stageGapStart := 0 }
  else j

def wrapTail : Journal :=
  if j.stageEnd ≤ j.stageTail then
    { j with stageTail := u32 (j.base + sub32 j.stageTail j.stageEnd) }
  else j

def stageFreeBlks (nrBlks : Nat) : Journal :=
  wrapTail (skipGap { j with stageTail := u32 (j.stageTail + nrBlks) })

def gapFor (nrBlks : Nat) : Nat :=
  if j.stageEnd < u32 (j.stageStart + nrBlks) then sub32 j.stageEnd j.stageStart else 0

end

inductive Bug
  | exceedsArea
  | overrun
  deriving DecidableEq, Repr

inductive Reserved
  | full
  | bugOn (bug : Bug)
  | ok (j : Journal) (start commitBaddr : Nat)
  deriving DecidableEq, Repr

def place (j : Journal) (start newStart nrBlks : Nat) : Reserved :=
  if (j.stageStart < j.stageTail ∨ start < j.stageStart) ∧ j.stageTail < newStart then
    .bugOn .overrun
  else
    .ok { j with stageStart := if newStart = j.stageEnd then j.base else newStart } start
      (start + nrBlks - 1)

def stageReserveArea (j : Journal) (nrBlks : Nat) : Reserved :=
  if sub32 j.stageTotal (getStageUsedBlks j) < u32 (nrBlks + gapFor j nrBlks) then .full
  else if j.stageEnd < u32 (j.stageStart + nrBlks) then
    if j.stageEnd < u32 (j.base + nrBlks) then .bugOn .exceedsArea
    else place { j with stageGapStart := j.stageStart } j.base (u32 (j.base + nrBlks)) nrBlks
  else place j j.stageStart (u32 (j.stageStart + nrBlks)) nrBlks

structure State where
  journal : Journal
  live : List Extent
  bug : Option Bug
  deriving DecidableEq, Repr

inductive Act
  | reserve (nrBlks : Nat)
  | free (count : Nat)
  deriving DecidableEq, Repr

def reserve (s : State) (nrBlks : Nat) : Option State :=
  match stageReserveArea s.journal nrBlks with
  | .full => none
  | .bugOn bug => some { s with bug := some bug }
  | .ok j start _ => some { s with journal := j, live := s.live ++ [⟨start,nrBlks⟩] }

/-- Sizes are positive and fit in a `u32`; nothing happens after a failed `BUG_ON`. -/
def step (s : State) : Act → Option State
  | .reserve nrBlks =>
    if s.bug ≠ none ∨ nrBlks = 0 ∨ 2^32 ≤ nrBlks then none else reserve s nrBlks
  | .free count =>
    if s.bug ≠ none ∨ s.live.length < count then none
    else
      some { s with
        journal := stageFreeBlks s.journal (blocks (s.live.take count))
        live := s.live.drop count }

structure Empty where
  stageStart : Nat
  stageEnd : Nat
  stageTotal : Nat
  ends : stageEnd < 2^32
  fits : stageTotal ≤ stageEnd
  inside : stageEnd - stageTotal ≤ stageStart ∧ stageStart < stageEnd

def Empty.state (e : Empty) : State :=
  ⟨⟨e.stageStart,e.stageStart,0,e.stageEnd,e.stageTotal⟩,[],none⟩

def skipped (j : Journal) : Nat := if j.stageGapStart = 0 then 0 else j.stageEnd - j.stageGapStart

/-- The regions handed out lie in the area and apart; the used blocks are theirs and those skipped. -/
structure Sound (s : State) : Prop where
  noBug : s.bug = none
  inside : ∀ e ∈ s.live, s.journal.stageEnd - s.journal.stageTotal ≤ e.start ∧ e.stop ≤ s.journal.stageEnd
  disjoint : s.live.Pairwise Extent.Disjoint
  used : getStageUsedBlks s.journal = blocks s.live + skipped s.journal

/-- A reservation leaves at least one free block, the gap counted in. -/
def Spare (s : State) : Act → Prop
  | .reserve nrBlks =>
    nrBlks + (if s.journal.stageEnd < s.journal.stageStart + nrBlks
      then s.journal.stageEnd - s.journal.stageStart else 0) <
      s.journal.stageTotal - getStageUsedBlks s.journal
  | .free _ => True

instance (s : State) (a : Act) : Decidable (Spare s a) :=
  match a with
  | .reserve _ => inferInstanceAs (Decidable (_ < _))
  | .free _ => .isTrue trivial

structure Bounds (j : Journal) : Prop where
  fits : j.stageTotal ≤ j.stageEnd
  small : j.stageEnd + j.stageTotal ≤ 2^32
  start : j.stageEnd - j.stageTotal ≤ j.stageStart ∧ j.stageStart < j.stageEnd
  tail : j.stageEnd - j.stageTotal ≤ j.stageTail ∧ j.stageTail < j.stageEnd

theorem Bounds.base (bounds : Bounds j) : j.base = j.stageEnd - j.stageTotal := by
  have := bounds.fits
  have := bounds.small
  have := bounds.start
  exact sub32_of_le bounds.fits (by omega)

theorem Bounds.used (bounds : Bounds j) :
    getStageUsedBlks j =
      if j.stageTail ≤ j.stageStart then j.stageStart - j.stageTail
      else j.stageEnd - j.stageTail + (j.stageStart - (j.stageEnd - j.stageTotal)) := by
  obtain ⟨fits,small,start,tail⟩ := bounds
  have base : j.base = j.stageEnd - j.stageTotal := Bounds.base ⟨fits,small,start,tail⟩
  have head : sub32 j.stageStart j.base = j.stageStart - (j.stageEnd - j.stageTotal) := by
    rw [base]
    exact sub32_of_le start.1 (by omega)
  have back : sub32 j.stageTail j.base = j.stageTail - (j.stageEnd - j.stageTotal) := by
    rw [base]
    exact sub32_of_le tail.1 (by omega)
  unfold getStageUsedBlks
  rw [head,back]
  by_cases ahead : j.stageTail ≤ j.stageStart
  · rw [if_pos (by omega),if_pos ahead,sub32_of_le (by omega) (by omega)]
    omega
  · rw [if_neg (by omega),if_neg ahead,sub32_of_le (by omega) (by omega),u32_of_lt (by omega)]
    omega

def turn (j : Journal) : Nat := if j.stageGapStart = 0 then j.stageEnd else j.stageGapStart

theorem stageFreeBlks_eq (bounds : Bounds j) (gap : j.stageGapStart = 0 ∨ j.stageGapStart < j.stageEnd)
    (few : n ≤ j.stageTotal)
    (after : j.stageEnd - j.stageTotal + (j.stageTail + n - turn j) < j.stageEnd) :
    stageFreeBlks j n =
      if j.stageTail + n < turn j then { j with stageTail := j.stageTail + n }
      else { j with
        stageTail := j.stageEnd - j.stageTotal + (j.stageTail + n - turn j), stageGapStart := 0 } := by
  obtain ⟨fits,small,start,tail⟩ := bounds
  have base : sub32 j.stageEnd j.stageTotal = j.stageEnd - j.stageTotal := sub32_of_le fits (by omega)
  unfold stageFreeBlks
  rw [u32_of_lt (by omega)]
  unfold turn at after ⊢
  by_cases none : j.stageGapStart = 0
  · rw [if_pos none] at after ⊢
    rw [skipGap,if_neg (by simp [none]),wrapTail]
    simp only [Journal.base,base]
    by_cases before : j.stageTail + n < j.stageEnd
    · rw [if_neg (by omega),if_pos before]
    · rw [if_pos (by omega),if_neg before,sub32_of_le (by omega) (by omega),u32_of_lt (by omega),none]
  · rw [if_neg none] at after ⊢
    rw [skipGap]
    simp only [Journal.base,base]
    by_cases before : j.stageTail + n < j.stageGapStart
    · rw [if_neg (by omega),wrapTail,if_neg (by simp only; omega),if_pos before]
    · rw [if_pos (by omega),if_neg before,wrapTail,sub32_of_le (by omega) (by omega),
        u32_of_lt (by omega),if_neg (by simp only; omega)]

theorem place_eq (bounds : Bounds j) (start newStart nrBlks : Nat)
    (safe : j.stageStart < j.stageTail ∨ start < j.stageStart → newStart ≤ j.stageTail) :
    ∃ commit, place j start newStart nrBlks =
      .ok { j with stageStart := if newStart = j.stageEnd then j.stageEnd - j.stageTotal else newStart }
        start commit := by
  refine ⟨start + nrBlks - 1,?_⟩
  rw [place,if_neg (fun h => Nat.not_lt.mpr (safe h.1) h.2),bounds.base]

/-- A reservation that leaves a block free, when the area has not wrapped or the region
does not reach the end of the area. -/
theorem stageReserveArea_straight (bounds : Bounds j) (room : nrBlks < j.stageTotal - getStageUsedBlks j)
    (inside : j.stageStart + nrBlks ≤ j.stageEnd)
    (safe : j.stageStart < j.stageTail → j.stageStart + nrBlks ≤ j.stageTail) :
    ∃ commit, stageReserveArea j nrBlks =
      .ok { j with stageStart := if j.stageStart + nrBlks = j.stageEnd
        then j.stageEnd - j.stageTotal else j.stageStart + nrBlks } j.stageStart commit := by
  have fits := bounds.fits
  have small := bounds.small
  have sum : u32 (j.stageStart + nrBlks) = j.stageStart + nrBlks := u32_of_lt (by omega)
  obtain ⟨commit,placed⟩ := place_eq bounds j.stageStart (j.stageStart + nrBlks) nrBlks (by omega)
  refine ⟨commit,?_⟩
  rw [stageReserveArea,gapFor,sum,if_neg (Nat.not_lt.mpr inside),Nat.add_zero,
    sub32_of_le (by omega) (by omega),u32_of_lt (by omega),if_neg (by omega),
    if_neg (Nat.not_lt.mpr inside),placed]

theorem stageReserveArea_wrap (bounds : Bounds j)
    (ahead : j.stageTail ≤ j.stageStart) (crosses : j.stageEnd < j.stageStart + nrBlks)
    (room : nrBlks + (j.stageEnd - j.stageStart) < j.stageTotal - getStageUsedBlks j) :
    ∃ commit, stageReserveArea j nrBlks =
      .ok { j with
        stageStart := j.stageEnd - j.stageTotal + nrBlks, stageGapStart := j.stageStart }
        (j.stageEnd - j.stageTotal) commit := by
  have fits := bounds.fits
  have small := bounds.small
  have start := bounds.start
  have tail := bounds.tail
  have used := bounds.used
  rw [if_pos ahead] at used
  have base := bounds.base
  have sum : u32 (j.stageStart + nrBlks) = j.stageStart + nrBlks := u32_of_lt (by omega)
  have again : u32 (j.stageEnd - j.stageTotal + nrBlks) = j.stageEnd - j.stageTotal + nrBlks :=
    u32_of_lt (by omega)
  have gapped : Bounds { j with stageGapStart := j.stageStart } := ⟨fits,small,start,tail⟩
  obtain ⟨commit,placed⟩ := place_eq gapped (j.stageEnd - j.stageTotal)
    (j.stageEnd - j.stageTotal + nrBlks) nrBlks (by simp only; omega)
  refine ⟨commit,?_⟩
  rw [stageReserveArea,gapFor,sum,if_pos crosses,sub32_of_le (by omega) (by omega),
    sub32_of_le (by omega) (by omega),u32_of_lt (by omega),if_neg (by omega),if_pos crosses,base,again,
    if_neg (by omega),placed]
  simp only
  rw [if_neg (by omega)]

theorem place_ok (handed : place j at' newStart nrBlks = .ok j' start commit) : start = at' ∧ commit = at' + nrBlks - 1 := by
  unfold place at handed
  split at handed
  · cases handed
  · simp only [Reserved.ok.injEq] at handed
    exact ⟨handed.2.1.symm,handed.2.2.symm⟩

theorem stageReserveArea_commit (handed : stageReserveArea j nrBlks = .ok j' start commit) : commit = start + nrBlks - 1 := by
  unfold stageReserveArea at handed
  split at handed
  next => cases handed
  next =>
    split at handed
    next =>
      split at handed
      next => cases handed
      next =>
        obtain ⟨rfl,last⟩ := place_ok handed
        exact last
    next =>
      obtain ⟨rfl,last⟩ := place_ok handed
      exact last

/-- A region that is handed out lies inside the area, its commit block at the end. -/
theorem stageReserveArea_inside (bounds : Bounds j) (positive : 0 < nrBlks)
    (small : nrBlks < 2^32) (handed : stageReserveArea j nrBlks = .ok j' start commit) :
    j.stageEnd - j.stageTotal ≤ start ∧ start + nrBlks ≤ j.stageEnd ∧ commit = start + nrBlks - 1 := by
  obtain ⟨fits,area,begins,tail⟩ := bounds
  have base : j.base = j.stageEnd - j.stageTotal := Bounds.base ⟨fits,area,begins,tail⟩
  have used := Bounds.used ⟨fits,area,begins,tail⟩
  have few : getStageUsedBlks j ≤ j.stageTotal := by
    rw [used]
    split <;> omega
  have free := sub32_of_le few (by omega)
  unfold stageReserveArea at handed
  split at handed
  next => cases handed
  next room =>
    rw [free,gapFor] at room
    split at handed
    next crosses =>
      rw [if_pos crosses,sub32_of_le (by omega) (by omega)] at room
      split at handed
      next => cases handed
      next again =>
        rw [base] at again
        obtain ⟨first,commits⟩ := place_ok handed
        simp only [u32] at crosses room again
        rw [commits,first,base]
        omega
    next straight =>
      rw [if_neg straight,Nat.add_zero,u32_of_lt small] at room
      obtain ⟨first,commits⟩ := place_ok handed
      rw [u32_of_lt (by omega)] at straight
      rw [commits,first]
      omega

structure Straight (j : Journal) (live : List Extent) : Prop where
  noGap : j.stageGapStart = 0
  ahead : j.stageTail ≤ j.stageStart
  laid : Laid j.stageTail live j.stageStart

structure Wrapped (j : Journal) (older newer : List Extent) : Prop where
  behind : j.stageStart < j.stageTail
  gap : j.stageGapStart = 0 ∨ (j.stageTail ≤ j.stageGapStart ∧ j.stageGapStart < j.stageEnd)
  older : Laid j.stageTail older (turn j)
  newer : Laid (j.stageEnd - j.stageTotal) newer j.stageStart

structure Invariant (s : State) : Prop where
  noBug : s.bug = none
  bounds : Bounds s.journal
  positive : ∀ e ∈ s.live, 0 < e.len
  layout : Straight s.journal s.live ∨
    ∃ older newer, s.live = older ++ newer ∧ Wrapped s.journal older newer

theorem Wrapped.turn_le {older newer : List Extent} (wrapped : Wrapped j older newer) : turn j ≤ j.stageEnd := by
  unfold turn
  split
  · exact Nat.le_refl _
  · rcases wrapped.gap with none | ⟨_,inside⟩ <;> omega

theorem turn_skipped (gap : j.stageGapStart = 0 ∨ j.stageGapStart < j.stageEnd) : turn j + skipped j = j.stageEnd := by
  unfold turn skipped
  split <;> omega

theorem Invariant.sound (inv : Invariant s) : Sound s := by
  obtain ⟨noBug,bounds,_,layout⟩ := inv
  obtain ⟨start,startEnd⟩ := bounds.start
  have tail := bounds.tail
  rcases layout with ⟨noGap,ahead,laid⟩ | ⟨older,newer,live,wrapped⟩
  · refine ⟨noBug,?_,laid.pairwise,?_⟩
    · intro e member
      have := laid.inside e member
      omega
    · have sum := laid.blocks
      rw [bounds.used,if_pos ahead,skipped,if_pos noGap]
      omega
  · have behind := wrapped.behind
    have turning := wrapped.turn_le
    have first := wrapped.older.inside
    have second := wrapped.newer.inside
    refine ⟨noBug,?_,?_,?_⟩
    · intro e member
      rw [live] at member
      rcases mem_append.mp member with old | new
      · have := first e old
        omega
      · have := second e new
        omega
    · rw [live]
      refine pairwise_append.mpr ⟨wrapped.older.pairwise,wrapped.newer.pairwise,?_⟩
      intro e old f new
      have := first e old
      have := second f new
      exact .inr (by omega)
    · have sumOld := wrapped.older.blocks
      have sumNew := wrapped.newer.blocks
      have skip := turn_skipped (wrapped.gap.imp_right And.right)
      rw [bounds.used,if_neg (by omega),live,blocks_append]
      omega

theorem positive_snoc {live : List Extent} (start : Nat) (each : ∀ e ∈ live, 0 < e.len) (positive : 0 < nrBlks) :
    ∀ e ∈ live ++ [⟨start,nrBlks⟩], 0 < e.len := by
  intro e member
  rcases mem_append.mp member with old | new
  · exact each e old
  · rw [mem_singleton.mp new]
    exact positive

theorem reserve_straight (inv : Invariant s) (straight : Straight s.journal s.live)
    (positive : 0 < nrBlks) (spare : Spare s (.reserve nrBlks)) :
    ∃ t, reserve s nrBlks = some t ∧ Invariant t := by
  obtain ⟨noBug,bounds,each,_⟩ := inv
  obtain ⟨noGap,ahead,laid⟩ := straight
  have used := bounds.used
  rw [if_pos ahead] at used
  have fits := bounds.fits
  have small := bounds.small
  have start := bounds.start
  have tail := bounds.tail
  simp only [Spare] at spare
  unfold reserve
  by_cases crosses : s.journal.stageEnd < s.journal.stageStart + nrBlks
  · rw [if_pos crosses] at spare
    obtain ⟨commit,reserved⟩ := stageReserveArea_wrap bounds ahead crosses spare
    rw [reserved]
    refine ⟨_,rfl,noBug,⟨fits,small,by simp only; omega,tail⟩,positive_snoc _ each positive,
      .inr ⟨s.live,_,rfl,?_⟩⟩
    have gapped : s.journal.stageStart ≠ 0 := by omega
    refine ⟨by simp only; omega,.inr ⟨ahead,start.2⟩,?_,laid_one _ _⟩
    rw [turn,if_neg gapped]
    exact laid
  · rw [if_neg crosses,Nat.add_zero] at spare
    obtain ⟨commit,reserved⟩ := stageReserveArea_straight bounds spare (Nat.not_lt.mp crosses)
      (by omega)
    rw [reserved]
    have grown := laid.append (laid_one s.journal.stageStart nrBlks)
    have each := positive_snoc s.journal.stageStart each positive
    refine ⟨_,rfl,?_⟩
    by_cases last : s.journal.stageStart + nrBlks = s.journal.stageEnd
    · rw [if_pos last]
      refine ⟨noBug,⟨fits,small,by simp only; omega,tail⟩,each,
        .inr ⟨_,[],(append_nil _).symm,by simp only; omega,.inl noGap,?_,rfl⟩⟩
      rw [turn,if_pos noGap]
      exact last ▸ grown
    · rw [if_neg last]
      exact ⟨noBug,⟨fits,small,by simp only; omega,tail⟩,each,
        .inl ⟨noGap,by simp only; omega,grown⟩⟩

theorem reserve_wrapped (inv : Invariant s) (live : s.live = older ++ newer)
    (wrapped : Wrapped s.journal older newer) (positive : 0 < nrBlks)
    (spare : Spare s (.reserve nrBlks)) :
    ∃ t, reserve s nrBlks = some t ∧ Invariant t := by
  obtain ⟨noBug,bounds,each,_⟩ := inv
  have behind := wrapped.behind
  have used := bounds.used
  rw [if_neg (by omega)] at used
  have fits := bounds.fits
  have small := bounds.small
  have start := bounds.start
  have tail := bounds.tail
  simp only [Spare] at spare
  -- Less than the blocks up to the tail are free, so the region stays below it.
  have below : s.journal.stageStart + nrBlks < s.journal.stageTail := by
    split at spare <;> omega
  have room : nrBlks < s.journal.stageTotal - getStageUsedBlks s.journal := by
    split at spare <;> omega
  obtain ⟨commit,reserved⟩ := stageReserveArea_straight bounds room (by omega) (by omega)
  unfold reserve
  rw [reserved,if_neg (by omega)]
  refine ⟨_,rfl,noBug,⟨fits,small,by simp only; omega,tail⟩,positive_snoc _ each positive,
    .inr ⟨older,newer ++ [⟨s.journal.stageStart,nrBlks⟩],?_,below,wrapped.gap,wrapped.older,?_⟩⟩
  · rw [live,append_assoc]
  · exact wrapped.newer.append (laid_one _ _)

theorem free_straight (inv : Invariant s) (straight : Straight s.journal s.live) (count : Nat) :
    Invariant { s with
      journal := stageFreeBlks s.journal (blocks (s.live.take count)), live := s.live.drop count } := by
  obtain ⟨noBug,bounds,each,_⟩ := inv
  obtain ⟨noGap,ahead,laid⟩ := straight
  have start := bounds.start
  have tail := bounds.tail
  have rest := laid.drop count
  have sum := rest.blocks
  have turning : turn s.journal = s.journal.stageEnd := if_pos noGap
  rw [stageFreeBlks_eq bounds (.inl noGap) (by omega) (by omega),if_pos (by omega)]
  exact ⟨noBug,⟨bounds.fits,bounds.small,start,by simp only; omega⟩,
    fun e member => each e (mem_of_mem_drop member),.inl ⟨noGap,by simp only; omega,rest⟩⟩

theorem free_wrapped (inv : Invariant s) (live : s.live = older ++ newer)
    (wrapped : Wrapped s.journal older newer) (count : Nat) :
    Invariant { s with
      journal := stageFreeBlks s.journal (blocks (s.live.take count)), live := s.live.drop count } := by
  obtain ⟨noBug,bounds,each,_⟩ := inv
  have fits := bounds.fits
  have start := bounds.start
  have tail := bounds.tail
  have behind := wrapped.behind
  have turning := wrapped.turn_le
  have gap := wrapped.gap.imp_right And.right
  have restOld := wrapped.older.drop count
  have restNew := wrapped.newer.drop (count - older.length)
  have sumOld := restOld.blocks
  have sumNew := restNew.blocks
  have each' : ∀ e ∈ s.live.drop count, 0 < e.len := fun e member => each e (mem_of_mem_drop member)
  rw [live,drop_append] at each'
  rw [live,take_append,drop_append,blocks_append,
    stageFreeBlks_eq bounds gap (by omega) (by omega)]
  rcases Nat.lt_or_ge count older.length with few | all
  · -- Some of the older reservations are left.
    have left := blocks_pos (fun e member => each' e (mem_append_left _ member))
      (mt drop_eq_nil_iff.mp (Nat.not_le.mpr few))
    rw [Nat.sub_eq_zero_of_le (Nat.le_of_lt few),drop_zero] at each' ⊢
    rw [take_zero,blocks_nil,Nat.add_zero,if_pos (by omega)]
    refine ⟨noBug,⟨fits,bounds.small,start,by simp only; omega⟩,each',
      .inr ⟨_,_,rfl,by simp only; omega,?_,restOld,wrapped.newer⟩⟩
    rcases wrapped.gap with none | ⟨_,inside⟩
    · exact .inl none
    · refine .inr ⟨?_,inside⟩
      unfold turn at sumOld
      simp only
      split at sumOld <;> omega
  · rw [drop_eq_nil_of_le all,blocks_nil] at sumOld
    rw [drop_eq_nil_of_le all,nil_append] at each' ⊢
    rw [if_neg (by omega)]
    have past : s.journal.stageTail + (blocks (older.take count) +
        blocks (newer.take (count - older.length))) - turn s.journal =
        blocks (newer.take (count - older.length)) := by omega
    rw [past]
    exact ⟨noBug,⟨fits,bounds.small,start,by simp only; omega⟩,each',
      .inl ⟨rfl,by simp only; omega,restNew⟩⟩

theorem step_preserves (s : State) (a : Act) (t : State) (inv : Invariant s)
    (spare : Spare s a) (next : step s a = some t) : Invariant t := by
  cases a with
  | reserve nrBlks =>
    simp only [step] at next
    split at next
    · cases next
    · rename_i allowed
      have positive : 0 < nrBlks := Nat.pos_of_ne_zero (not_or.mp (not_or.mp allowed).2).1
      have kept : ∃ t, reserve s nrBlks = some t ∧ Invariant t := by
        rcases inv.layout with straight | ⟨older,newer,live,wrapped⟩
        · exact reserve_straight inv straight positive spare
        · exact reserve_wrapped inv live wrapped positive spare
      obtain ⟨u,reserved,kept⟩ := kept
      obtain rfl : u = t := Option.some.inj (reserved.symm.trans next)
      exact kept
  | free count =>
    simp only [step] at next
    split at next
    · cases next
    · rw [← Option.some.inj next]
      rcases inv.layout with straight | ⟨older,newer,live,wrapped⟩
      · exact free_straight inv straight count
      · exact free_wrapped inv live wrapped count

theorem Empty.invariant (e : Empty) (small : e.stageEnd + e.stageTotal ≤ 2^32) : Invariant e.state :=
  ⟨rfl,⟨e.fits,small,e.inside,e.inside⟩,by simp [Empty.state],.inl ⟨rfl,Nat.le_refl _,rfl⟩⟩

/-- As long as every reservation leaves a block free, and no sum of block numbers exceeds
32 bits, the live reservations stay apart and inside the area, the used blocks are the live
ones and the skipped ones, and no check fails. -/
theorem stageReserveArea_sound (e : Empty) (small : e.stageEnd + e.stageTotal ≤ 2^32)
    (acts : List Act) (s : State) (spare : Along step Spare e.state acts)
    (ran : run step e.state acts = some s) : Sound s :=
  (run_invariant step Invariant Spare step_preserves e.state acts s (e.invariant small) spare ran).sound

def tenBlocks : Empty := ⟨15,20,10,by decide,by decide,by decide⟩

/-- The second reservation skips blocks 18 and 19. -/
theorem stageReserveArea_sound_tenBlocks :
    ∃ s, run step tenBlocks.state [.reserve 3,.reserve 4,.free 1] = some s ∧
      s.live = [⟨10,4⟩] ∧ Sound s := by
  have spare : Along step Spare tenBlocks.state [.reserve 3,.reserve 4,.free 1] := by decide
  exact ⟨_,rfl,by decide,stageReserveArea_sound tenBlocks (by decide) _ _ spare rfl⟩

/-- The check lets a reservation take all the free blocks. The head has then come round to
the tail, the area counts as empty, and the next reservation overlaps the first. -/
theorem stageReserveArea_full_looks_empty :
    ∃ s, run step tenBlocks.state [.reserve 5,.reserve 5] = some s ∧
      s.live = [⟨15,5⟩,⟨10,5⟩] ∧ getStageUsedBlks s.journal = 0 ∧
      ∃ t, step s (.reserve 1) = some t ∧ t.live = [⟨15,5⟩,⟨10,5⟩,⟨15,1⟩] :=
  ⟨_,rfl,by decide,by decide,_,rfl,by decide⟩

end Oxbow.Daemon.StageArea
