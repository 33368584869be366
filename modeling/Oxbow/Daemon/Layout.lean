import Oxbow.Daemon.StageArea

/-! The areas `ext4_mkfs` lays out on the device, what the daemon loads of them at mount, and
the blocks `stage_reserve_area` then hands out. Blocks have 4096 bytes. -/
namespace Oxbow.Daemon.Layout

open Oxbow.Lib Oxbow.Daemon.StageArea List

def blockSize : Nat := 4096

structure MkfsInfo where
  len : Nat
  journalBlocks : Nat
  blocksPerGroup : Nat
  inodesPerGroup : Nat
  inodeSize : Nat
  dscSize : Nat
  sparseSuper : Bool
  len_lt : len < 2^64
  journalBlocks_lt : journalBlocks < 2^32
  groups : 0 < blocksPerGroup
  journalFits : 2 * journalBlocks < len / blockSize

def divRoundUp (x y : Nat) : Nat := (x + y - 1) / y

def divRoundUp32 (x y : Nat) : Nat := u32 (x + y - 1) / y

/-- `is_power_of`; each round divides, so `a` rounds are enough. -/
def isPowerOf (b : Nat) : (rounds a : Nat) → Bool
  | 0, _ => false
  | rounds + 1, a =>
    if a < b then false else if a = b then true else if a % b ≠ 0 then false else isPowerOf b rounds (a / b)

def ext4SbSparse (group : Nat) : Bool :=
  if group ≤ 1 then true
  else if group % 2 = 0 then false
  else isPowerOf 7 group group || isPowerOf 5 group group || isPowerOf 3 group group

variable (info : MkfsInfo)

def hasSuperblock (bgid : Nat) : Bool := if info.sparseSuper then ext4SbSparse bgid else true

namespace MkfsInfo

def deviceBlocks : Nat := info.len / blockSize
def journalSb : Nat := sub64 info.deviceBlocks (u32 (2 * info.journalBlocks))
def nrJournalBlocks : Nat := sub32 info.journalBlocks 1
def stagingSb : Nat := sub64 info.deviceBlocks info.journalBlocks
def nrStagingBlocks : Nat := sub32 info.journalBlocks 1

def fsLen : Nat :=
  sub64 (info.deviceBlocks * blockSize) (u64 (2 * info.nrJournalBlocks * blockSize))

def lastHeaderSize (lenBlocks : Nat) : Nat :=
  let groups := u32 (divRoundUp lenBlocks info.blocksPerGroup)
  let inodeTableBlocks := divRoundUp32 (u32 (info.inodesPerGroup * info.inodeSize)) blockSize
  let bgDescBlocks := divRoundUp32 (u32 (groups * info.dscSize)) blockSize
  u32 (2 + inodeTableBlocks + if hasSuperblock info (sub32 groups 1) then 1 + bgDescBlocks else 0)

/-- `len_blocks` of `create_fs_aux_info`, the block count in the ext4 superblock: a last
group too short for its own header is dropped. -/
def fsBlocks : Nat :=
  let lenBlocks := info.fsLen / blockSize
  let lastGroupSize := u32 (lenBlocks % info.blocksPerGroup)
  if 0 < lastGroupSize ∧ lastGroupSize < info.lastHeaderSize lenBlocks then lenBlocks - lastGroupSize
  else lenBlocks

end MkfsInfo

structure StagingSuperblock where
  blockNr : Nat
  start : Nat
  stop : Nat

def writeStageSuperBlock : StagingSuperblock where
  blockNr := info.nrStagingBlocks
  start := u64 (info.stagingSb + 1)
  stop := sub64 (u64 (info.stagingSb + info.nrStagingBlocks)) 1

def ext4FillJournalSb (ssb : StagingSuperblock) : Journal where
  stageStart := u32 ssb.start
  stageTail := u32 ssb.start
  stageGapStart := 0
  stageEnd := u32 ssb.stop
  stageTotal := ssb.blockNr

def mounted : State := ⟨ext4FillJournalSb (writeStageSuperBlock info),[],none⟩

def firstStageLogBlk : Nat := info.stagingSb + 1
def lastStageLogBlk : Nat := info.stagingSb + info.nrStagingBlocks

def areas : List Extent :=
  [⟨0,info.fsBlocks⟩,⟨info.journalSb,1⟩,⟨info.journalSb + 1,info.nrJournalBlocks⟩,⟨info.stagingSb,1⟩,
    ⟨firstStageLogBlk info,info.nrStagingBlocks⟩]

/-- The areas are apart and on the device, and the stage log keeps to its own. -/
structure LayoutSafe : Prop where
  disjoint : (areas info).Pairwise Extent.Disjoint
  inside : ∀ area ∈ areas info, area.stop ≤ info.deviceBlocks
  /-- Whatever is reserved and freed after the mount, each region handed out lies after the
  staging superblock and inside the log DevFS reads. -/
  handedOut : ∀ acts s, run StageArea.step (mounted info) acts = some s → ∀ region ∈ s.live,
    info.stagingSb < region.start ∧ firstStageLogBlk info ≤ region.start ∧
      region.stop ≤ lastStageLogBlk info + 1

/-- The journal and the staging area have no block but their superblocks, and the ext4
block count loses a last group that reaches over both. -/
def OnlySuperblocks : Prop :=
  info.journalBlocks = 1 ∧
  2 ≤ u32 (info.deviceBlocks % info.blocksPerGroup) ∧
  u32 (info.deviceBlocks % info.blocksPerGroup) < info.lastHeaderSize info.deviceBlocks

theorem deviceBlocks_small : info.deviceBlocks < 2^52 := by
  have := info.len_lt
  unfold MkfsInfo.deviceBlocks blockSize
  omega

theorem journalBlocks_two : 2 * info.journalBlocks < info.deviceBlocks := info.journalFits

theorem stagingSb_eq : info.stagingSb = info.deviceBlocks - info.journalBlocks := by
  have := deviceBlocks_small info
  have := journalBlocks_two info
  exact sub64_of_le (by omega) (by omega)

theorem nrStagingBlocks_eq (some : 0 < info.journalBlocks) :
    info.nrStagingBlocks = info.journalBlocks - 1 :=
  sub32_of_le some info.journalBlocks_lt

theorem mounted_eq (some : 0 < info.journalBlocks) :
    mounted info =
      ⟨⟨u32 (info.stagingSb + 1),u32 (info.stagingSb + 1),0,
        u32 (info.stagingSb + info.journalBlocks - 2),info.journalBlocks - 1⟩,[],none⟩ := by
  have small := deviceBlocks_small info
  have two := journalBlocks_two info
  have staging := stagingSb_eq info
  have nr := nrStagingBlocks_eq info some
  unfold mounted ext4FillJournalSb writeStageSuperBlock
  rw [nr,u64_of_lt (by omega),u64_of_lt (by omega),sub64_of_le (by omega) (by omega)]
  rw [show info.stagingSb + (info.journalBlocks - 1) - 1 =
    info.stagingSb + info.journalBlocks - 2 by omega]

theorem sub32_self (a : Nat) : sub32 a a = 0 := by
  simp only [sub32,u32]
  omega

theorem getStageUsedBlks_empty (empty : j.stageTail = j.stageStart) : getStageUsedBlks j = 0 := by
  unfold getStageUsedBlks
  rw [empty]
  rw [if_pos (Nat.le_refl _),sub32_self]

theorem stageReserveArea_to_end (nrBlks : Nat) (empty : j.stageTail = j.stageStart)
    (total : j.stageTotal < 2^32) (fits : nrBlks ≤ j.stageTotal)
    (reaches : u32 (j.stageStart + nrBlks) = j.stageEnd) :
    ∃ commit, stageReserveArea j nrBlks = .ok { j with stageStart := j.base } j.stageStart commit := by
  refine ⟨j.stageStart + nrBlks - 1,?_⟩
  rw [stageReserveArea,gapFor,reaches,if_neg (Nat.lt_irrefl _),getStageUsedBlks_empty empty,
    sub32_of_le (Nat.zero_le _) total,Nat.add_zero,u32_of_lt (by omega),if_neg (by omega),
    if_neg (Nat.lt_irrefl _),place,if_neg (by omega),if_pos rfl]

theorem stageReserveArea_from_base (empty : j.stageTail = j.stageStart)
    (total : j.stageTotal < 2^32) (crosses : j.stageEnd < u32 (j.stageStart + nrBlks))
    (fits : u32 (nrBlks + sub32 j.stageEnd j.stageStart) ≤ j.stageTotal)
    (whole : u32 (j.base + nrBlks) = j.stageEnd) (below : j.stageEnd ≤ j.stageTail) :
    ∃ commit, stageReserveArea j nrBlks =
      .ok { j with stageStart := j.base, stageGapStart := j.stageStart } j.base commit := by
  refine ⟨j.base + nrBlks - 1,?_⟩
  rw [stageReserveArea,gapFor,if_pos crosses,getStageUsedBlks_empty empty,
    sub32_of_le (Nat.zero_le _) total,Nat.sub_zero,if_neg (Nat.not_lt.mpr fits),if_pos crosses,whole,
    if_neg (Nat.lt_irrefl _),place,if_neg (fun h => Nat.not_lt.mpr below h.2),if_pos rfl]
  rfl

theorem stageFreeBlks_to_end (nrBlks : Nat) (noGap : j.stageGapStart = 0) (reaches : u32 (j.stageTail + nrBlks) = j.stageEnd) :
    stageFreeBlks j nrBlks = { j with stageTail := j.base } := by
  have base : u32 (j.base + 0) = j.base := u32_of_lt (u32_lt _)
  rw [stageFreeBlks,reaches,skipGap,if_neg (fun h => h.1 noGap),wrapTail,if_pos (Nat.le_refl _)]
  simp only [Journal.base] at base ⊢
  rw [sub32_self,base]

theorem step_reserve (live : List Extent) (positive : 0 < nrBlks) (small : nrBlks < 2^32)
    (reserved : stageReserveArea j nrBlks = .ok j' start commit) :
    StageArea.step ⟨j,live,none⟩ (.reserve nrBlks) = some ⟨j',live ++ [⟨start,nrBlks⟩],none⟩ := by
  rw [StageArea.step,if_neg (by simp; omega),reserve]
  simp only [reserved]

theorem step_free_one (j : Journal) (region : Extent) :
    StageArea.step ⟨j,[region],none⟩ (.free 1) = some ⟨stageFreeBlks j region.len,[],none⟩ := rfl

theorem mounted_base (two : 2 ≤ info.journalBlocks) :
    sub32 (u32 (info.stagingSb + info.journalBlocks - 2)) (info.journalBlocks - 1) =
      u32 (info.stagingSb - 1) := by
  have := journalBlocks_two info
  have := stagingSb_eq info
  have := info.journalBlocks_lt
  simp only [sub32,u32]
  omega

variable {info}

/-- Some sequence of calls after the mount makes a region start at or before the staging
superblock. -/
def HandsOutEarly (info : MkfsInfo) : Prop :=
  ∃ acts s region, run StageArea.step (mounted info) acts = some s ∧ region ∈ s.live ∧
    region.start ≤ info.stagingSb

/-- With four blocks or more: fill the area up to its end, empty it, and fill it from the
base. -/
theorem handsOutEarly_large (four : 4 ≤ info.journalBlocks) : HandsOutEarly info := by
  have small := info.journalBlocks_lt
  have two := journalBlocks_two info
  have staging := stagingSb_eq info
  have base := mounted_base info (by omega)
  have below : u32 (info.stagingSb - 1) ≤ info.stagingSb := (Nat.mod_le _ _).trans (Nat.sub_le _ _)
  have up : u32 (u32 (info.stagingSb + 1) + (info.journalBlocks - 3)) =
      u32 (info.stagingSb + info.journalBlocks - 2) := by
    simp only [u32]
    omega
  have again : u32 (u32 (info.stagingSb - 1) + (info.journalBlocks - 1)) =
      u32 (info.stagingSb + info.journalBlocks - 2) := by
    simp only [u32]
    omega
  have start := mounted_eq info (by omega)
  generalize u32 (info.stagingSb + info.journalBlocks - 2) = stop at *
  generalize u32 (info.stagingSb - 1) = bottom at *
  generalize u32 (info.stagingSb + 1) = first at *
  obtain ⟨_,filled⟩ := stageReserveArea_to_end (info.journalBlocks - 3)
    (j := ⟨first,first,0,stop,info.journalBlocks - 1⟩) rfl (by simp only; omega) (by simp only; omega) up
  have emptied := stageFreeBlks_to_end (info.journalBlocks - 3)
    (j := ⟨bottom,first,0,stop,info.journalBlocks - 1⟩) rfl up
  obtain ⟨_,wrapped⟩ := stageReserveArea_to_end (info.journalBlocks - 1)
    (j := ⟨bottom,bottom,0,stop,info.journalBlocks - 1⟩) rfl (by simp only; omega) (Nat.le_refl _) again
  simp only [Journal.base,base] at filled emptied wrapped
  have reserve₁ := step_reserve [] (by omega) (by omega) filled
  have reserve₂ := step_reserve [] (by omega) (by omega) wrapped
  refine ⟨[.reserve (info.journalBlocks - 3),.free 1,.reserve (info.journalBlocks - 1)],
    ⟨⟨bottom,bottom,0,stop,info.journalBlocks - 1⟩,[⟨bottom,info.journalBlocks - 1⟩],none⟩,
    ⟨bottom,info.journalBlocks - 1⟩,?_,mem_singleton_self _,below⟩
  rw [start]
  simp only [run,reserve₁,nil_append,step_free_one,emptied,reserve₂,Option.bind_some]

theorem handsOutEarly_of_base (nrBlks : Nat) (mount : mounted info = ⟨j,[],none⟩)
    (positive : 0 < nrBlks) (small : nrBlks < 2^32) (empty : j.stageTail = j.stageStart)
    (total : j.stageTotal < 2^32) (crosses : j.stageEnd < u32 (j.stageStart + nrBlks))
    (fits : u32 (nrBlks + sub32 j.stageEnd j.stageStart) ≤ j.stageTotal)
    (whole : u32 (j.base + nrBlks) = j.stageEnd) (below : j.stageEnd ≤ j.stageTail)
    (early : j.base ≤ info.stagingSb) : HandsOutEarly info := by
  obtain ⟨_,reserved⟩ := stageReserveArea_from_base empty total crosses fits whole below
  have next := step_reserve [] positive small reserved
  refine ⟨[.reserve nrBlks],
    ⟨{ j with stageStart := j.base, stageGapStart := j.stageStart },[⟨j.base,nrBlks⟩],none⟩,
    ⟨j.base,nrBlks⟩,?_,mem_singleton_self _,early⟩
  rw [mount]
  simp only [run,next,Option.bind_some,nil_append]

/-- Block numbers just below `2^32` need one more round, which starts at block 0 or 1. -/
theorem handsOutEarly_of_round (nrBlks : Nat) (mount : mounted info = ⟨j,[],none⟩) (start : Nat)
    (round : (run StageArea.step ⟨j,[],none⟩ [.reserve nrBlks,.free 1,.reserve 1]).map State.live =
      some [⟨start,1⟩]) (early : start ≤ info.stagingSb) : HandsOutEarly info := by
  obtain ⟨s,ran,live⟩ := Option.map_eq_some_iff.mp round
  exact ⟨_,s,⟨start,1⟩,mount ▸ ran,by simp [live],early⟩

theorem handsOutEarly_two (two : info.journalBlocks = 2) : HandsOutEarly info := by
  have base := mounted_base info (by omega)
  have mount := mounted_eq info (by omega)
  have below : u32 (info.stagingSb - 1) ≤ info.stagingSb := (Nat.mod_le _ _).trans (Nat.sub_le _ _)
  have fits := journalBlocks_two info
  have staging := stagingSb_eq info
  rw [two] at base mount
  simp only [Nat.reduceSub,Nat.add_sub_cancel] at base mount
  rcases Nat.lt_or_ge (u32 info.stagingSb) (2^32 - 2) with plain | high
  · refine handsOutEarly_of_base 1 mount (by decide) (by decide) rfl
      (show 1 < 2^32 by decide) ?_ ?_ ?_ ?_ ?_
    · simp only [u32] at *
      omega
    · simp only [u32,sub32] at *
      omega
    · simp only [Journal.base,base]
      simp only [u32]
      omega
    · simp only [u32] at *
      omega
    · simpa only [Journal.base,base] using below
  · have values : (u32 info.stagingSb = 2^32 - 2 ∧ u32 (info.stagingSb + 1) = 2^32 - 1) ∨
        (u32 info.stagingSb = 2^32 - 1 ∧ u32 (info.stagingSb + 1) = 0) := by
      simp only [u32] at *
      omega
    rcases values with ⟨stop,start⟩ | ⟨stop,start⟩
    · rw [stop,start] at mount
      exact handsOutEarly_of_round 1 mount 0 (by decide) (Nat.zero_le _)
    · rw [stop,start] at mount
      exact handsOutEarly_of_round 1 mount 1 (by decide) (by omega)

theorem handsOutEarly_three (three : info.journalBlocks = 3) : HandsOutEarly info := by
  have base := mounted_base info (by omega)
  have mount := mounted_eq info (by omega)
  have below : u32 (info.stagingSb - 1) ≤ info.stagingSb := (Nat.mod_le _ _).trans (Nat.sub_le _ _)
  have fits := journalBlocks_two info
  have staging := stagingSb_eq info
  rw [three] at base mount
  simp only [Nat.reduceSub,show info.stagingSb + 3 - 2 = info.stagingSb + 1 by omega] at base mount
  rcases Nat.lt_or_ge (u32 (info.stagingSb + 1)) (2^32 - 2) with plain | high
  · refine handsOutEarly_of_base 2 mount (by decide) (by decide) rfl
      (show 2 < 2^32 by decide) ?_ ?_ ?_ (Nat.le_refl _) ?_
    · simp only [u32] at *
      omega
    · simp only [sub32_self]
      decide
    · simp only [Journal.base,base]
      simp only [u32]
      omega
    · simpa only [Journal.base,base] using below
  · have values : u32 (info.stagingSb + 1) = 2^32 - 2 ∨ u32 (info.stagingSb + 1) = 2^32 - 1 := by
      simp only [u32] at *
      omega
    rcases values with start | start
    · rw [start] at mount
      exact handsOutEarly_of_round 2 mount 0 (by decide) (Nat.zero_le _)
    · rw [start] at mount
      exact handsOutEarly_of_round 2 mount 1 (by decide) (by omega)

theorem handsOutEarly_of_two (two : 2 ≤ info.journalBlocks) : HandsOutEarly info := by
  rcases Nat.lt_or_ge info.journalBlocks 4 with few | four
  · have cases : info.journalBlocks = 2 ∨ info.journalBlocks = 3 := by omega
    rcases cases with two | three
    · exact handsOutEarly_two two
    · exact handsOutEarly_three three
  · exact handsOutEarly_large four

structure NoBlocks (j : Journal) : Prop where
  ends : j.stageEnd < 2^32
  total : j.stageTotal = 0
  noGap : j.stageGapStart = 0
  start : j.stageStart = u32 (j.stageEnd + 2)
  empty : j.stageTail = j.stageStart

theorem NoBlocks.base (none : NoBlocks j) : j.base = j.stageEnd := by
  rw [Journal.base,none.total]
  exact sub32_of_le (Nat.zero_le _) none.ends

theorem NoBlocks.reserve (none : NoBlocks j) (nrBlks : Nat) (positive : 0 < nrBlks) (fits : nrBlks < 2^32) :
    ∀ j' start commit, stageReserveArea j nrBlks ≠ .ok j' start commit := by
  intro j' start commit
  have ends := none.ends
  rw [stageReserveArea,getStageUsedBlks_empty none.empty,none.total,sub32_self,gapFor]
  by_cases crosses : j.stageEnd < u32 (j.stageStart + nrBlks)
  · rw [if_pos crosses]
    by_cases full : 0 < u32 (nrBlks + sub32 j.stageEnd j.stageStart)
    · rw [if_pos full]
      exact Reserved.noConfusion
    · -- Two blocks pass the check, and then exceed the area.
      rw [none.start] at crosses full
      have two : nrBlks = 2 := by
        simp only [sub32,u32] at full
        omega
      subst two
      have exceeds : j.stageEnd < u32 (j.stageEnd + 2) := by
        simp only [u32] at crosses ⊢
        omega
      rw [none.start,if_neg full,if_pos crosses,none.base,if_pos exceeds]
      exact Reserved.noConfusion
  · rw [if_neg crosses,Nat.add_zero,u32_of_lt fits,if_pos positive]
    exact Reserved.noConfusion

theorem NoBlocks.free (none : NoBlocks j) : stageFreeBlks j 0 = j := by
  have ends := none.ends
  have tail : j.stageTail = u32 (j.stageEnd + 2) := none.empty.trans none.start
  have same : u32 (j.stageTail + 0) = j.stageTail := by
    rw [tail]
    exact u32_of_lt (u32_lt _)
  have again : u32 (j.base + sub32 j.stageTail j.stageEnd) = j.stageTail := by
    rw [none.base,tail]
    simp only [sub32,u32]
    omega
  rw [stageFreeBlks,same,skipGap,if_neg (fun h => h.1 none.noGap),wrapTail]
  split
  · rw [again]
  · rfl

theorem NoBlocks.live (none : NoBlocks j) (acts : List Act) (s : State)
    (ran : run StageArea.step ⟨j,[],.none⟩ acts = some s) : s.live = [] := by
  refine (run_invariant_always StageArea.step (fun s => s.journal = j ∧ s.live = []) ?_ _ acts s
    ⟨rfl,rfl⟩ ran).2
  rintro s a t ⟨rfl,live⟩ next
  cases a with
  | reserve nrBlks =>
    simp only [StageArea.step] at next
    split at next
    · cases next
    · rename_i allowed
      have never := none.reserve nrBlks (by omega) (by omega)
      unfold StageArea.reserve at next
      split at next
      · cases next
      · rw [← Option.some.inj next]
        exact ⟨rfl,live⟩
      · rename_i j start commit reserved
        exact absurd reserved (never j start commit)
  | free count =>
    simp only [StageArea.step] at next
    split at next
    · cases next
    · rw [← Option.some.inj next,live]
      simp [none.free]

theorem fsBlocks_one (one : info.journalBlocks = 1) :
    info.fsBlocks =
      if 0 < u32 (info.deviceBlocks % info.blocksPerGroup) ∧
        u32 (info.deviceBlocks % info.blocksPerGroup) < info.lastHeaderSize info.deviceBlocks
      then info.deviceBlocks - u32 (info.deviceBlocks % info.blocksPerGroup) else info.deviceBlocks := by
  have none : info.nrJournalBlocks = 0 := by
    rw [MkfsInfo.nrJournalBlocks,one]
    exact sub32_self 1
  have size : info.deviceBlocks * blockSize < 2^64 := by
    have := deviceBlocks_small info
    unfold blockSize
    omega
  have len : info.fsLen / blockSize = info.deviceBlocks := by
    rw [MkfsInfo.fsLen,none,Nat.mul_zero,Nat.zero_mul,u64_of_lt (by decide),
      sub64_of_le (Nat.zero_le _) size,Nat.sub_zero,Nat.mul_div_cancel _ (by decide)]
  unfold MkfsInfo.fsBlocks
  rw [len]

theorem journalSb_one (one : info.journalBlocks = 1) : info.journalSb = info.deviceBlocks - 2 := by
  have := deviceBlocks_small info
  have := journalBlocks_two info
  rw [MkfsInfo.journalSb,one,u32_of_lt (by decide)]
  exact sub64_of_le (by omega) (by omega)

theorem fsBlocks_below_iff (one : info.journalBlocks = 1) :
    info.fsBlocks ≤ info.journalSb ↔ OnlySuperblocks info := by
  have := journalBlocks_two info
  have part : u32 (info.deviceBlocks % info.blocksPerGroup) ≤ info.deviceBlocks :=
    (Nat.mod_le _ _).trans (Nat.mod_le _ _)
  rw [OnlySuperblocks,fsBlocks_one one,journalSb_one one]
  constructor
  · intro below
    refine ⟨one,?_⟩
    split at below <;> omega
  · rintro ⟨_,two,short⟩
    rw [if_pos ⟨by omega,short⟩]
    omega

/-- The layout is safe for no journal of two blocks or more: after a wrap the stage area
starts at the last block of the journal log and goes over its own superblock. -/
theorem layoutSafe_iff (info : MkfsInfo) : LayoutSafe info ↔ OnlySuperblocks info := by
  have device := journalBlocks_two info
  have small := deviceBlocks_small info
  constructor
  · intro safe
    rcases Nat.lt_or_ge info.journalBlocks 2 with few | two
    · rcases Nat.eq_zero_or_pos info.journalBlocks with zero | positive
      · have outside : info.journalSb = info.deviceBlocks := by
          rw [MkfsInfo.journalSb,zero,Nat.mul_zero,u32_of_lt (by decide)]
          exact sub64_of_le (Nat.zero_le _) (by omega)
        have := safe.inside ⟨info.journalSb,1⟩ (by simp [areas])
        simp only [Extent.stop,outside] at this
        omega
      · have one : info.journalBlocks = 1 := by omega
        refine (fsBlocks_below_iff one).mp ?_
        have apart := rel_of_pairwise_cons safe.disjoint
          (show ⟨info.journalSb,1⟩ ∈ (areas info).tail by simp [areas])
        rcases apart with below | above
        · simpa [Extent.stop] using below
        · simp [Extent.stop] at above
    · obtain ⟨acts,s,region,ran,member,early⟩ := handsOutEarly_of_two two
      have := (safe.handedOut acts s ran region member).1
      omega
  · intro only
    have one := only.1
    have below := (fsBlocks_below_iff one).mpr only
    have journal := journalSb_one one
    have staging := stagingSb_eq info
    have nr := nrStagingBlocks_eq info (by omega)
    have nrJournal : info.nrJournalBlocks = 0 := nr.trans (by omega)
    rw [one] at staging nr
    refine ⟨?_,?_,?_⟩
    · simp only [areas,firstStageLogBlk,nrJournal,nr,pairwise_cons,mem_cons,not_mem_nil,
        or_false,forall_eq_or_imp,forall_eq,Extent.Disjoint,Extent.stop,List.Pairwise.nil,and_true,
        IsEmpty.forall_iff,implies_true]
      omega
    · simp only [areas,firstStageLogBlk,nrJournal,nr,mem_cons,not_mem_nil,or_false,
        forall_eq_or_imp,forall_eq,Extent.stop]
      omega
    · intro acts s ran
      rw [mounted_eq info (by omega),one] at ran
      have none := NoBlocks.live ⟨u32_lt _,rfl,rfl,?_,rfl⟩ acts s ran
      · simp [none]
      · simp only [u32]
        omega

def hundredBlocks : MkfsInfo where
  len := 409600
  journalBlocks := 10
  blocksPerGroup := 32768
  inodesPerGroup := 16
  inodeSize := 256
  dscSize := 32
  sparseSuper := true
  len_lt := by decide
  journalBlocks_lt := by decide
  groups := by decide
  journalFits := by decide

/-- The wrapped region takes block 89 of the journal log and the staging superblock, and
the ext4 block count reaches over the journal superblock. -/
theorem mkfs_areas_overlap :
    (run StageArea.step (mounted hundredBlocks) [.reserve 7,.free 1,.reserve 9]).map State.live =
      some [⟨89,9⟩] ∧
    hundredBlocks.stagingSb = 90 ∧ hundredBlocks.journalSb = 80 ∧ hundredBlocks.fsBlocks = 82 := by
  decide

end Oxbow.Daemon.Layout
