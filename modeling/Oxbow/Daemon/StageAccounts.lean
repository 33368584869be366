import Oxbow.Daemon.StageReserve

/-! The accounts of a stage transaction, `stage_file` of `fs/sync.c`. Before the commit block is written, the blocks written
and those of the skipped waiting lists are compared with the region that `stage_fix_blocks` reserved. -/

namespace Oxbow.Daemon.Stage

open Oxbow.Lib Oxbow.Sjd Function Option

variable {f : RegularFile}

namespace Inode

section

variable (inode : Inode) (o : Outcome)

def dataBlks (dfId : DfId) : Nat :=
  match inode with
  | .regular f => f.dataBlks o dfId
  | .directory _ _ => 0

def irdBlks (dfId : DfId) : Nat :=
  match inode with
  | .regular f => f.irdBlks o dfId
  | .directory _ _ => 0

def blks : Nat :=
  inode.dataBlks o .zero + inode.irdBlks o .zero + (inode.dataBlks o .one + inode.irdBlks o .one)

end

/-- The region fits in 32 bits and one of the lists at most is skipped; the tags of a directory fit in the descriptor. -/
def Balanced : Inode → Prop
  | .regular f => f.toFile.nrBlks < 2^32 ∧ ¬(f.outcome .zero = .skipped ∧ f.outcome .one = .skipped)
  | .directory _ privateList => privateList.countP BufferHead.dirty < stageDescBlkTagMax

end Inode

/-- Where `stage_file` asserts: the blocks written, those of the skipped lists and the commit block are the reserved region,
both assertions hold, and the commit block has the counts of the lists that were written. -/
structure Accounts (inode : Inode) (s : Tx) : Prop where
  region : s.stx.nrIssued + inode.blks .skipped + 1 = s.stx.commitBaddr + 1 - s.stx.start
  issued : u32 s.stx.nrIssued = u64 (s.dataBlksCnt + s.nrOtherBlks + (reckon s).nrWaitingDirtyIrdBlksWritten)
  commit : s.stx.commitBaddr = (reckon s).commitBaddr
  data : ∀ dfId, (reckon s).commitBlk.waitingDirtyDataBlks dfId = inode.dataBlks .staged dfId
  ird : ∀ dfId, (reckon s).commitBlk.waitingDirtyIrdBlks dfId = inode.irdBlks .staged dfId

theorem stageIo_some (written : stageIo c commitBlk s = some t) :
    s.start ≠ 0 ∧ t.nrIssued = s.count ∧ t.start = s.start ∧ t.commitBaddr = s.commitBaddr := by
  rw [stageIo] at written
  obtain ⟨reserved,⟨⟩⟩ := ite_none_right_eq_some.mp written
  exact ⟨reserved.1,rfl,rfl,rfl⟩

namespace RegularFile

structure Counted (f : RegularFile) (s : Tx) : Prop where
  start : s.stx.start ≠ 0
  issued : s.stx.nrIssued = f.toFile.frontBlks + nrDirtyBlks f.ird + f.toFile.waiting
  commitBaddr : s.stx.commitBaddr = s.stx.start + u32 f.toFile.nrBlks - 1
  other : s.nrOtherBlks = f.toFile.frontBlks
  data : s.dataBlksCnt = nrDirtyBlks f.ird + (f.dataBlks .staged .zero + f.dataBlks .staged .one)
  skipped : s.waitingDirtySkipped = f.skips
  nrData : s.nrWaitingDirtyDataBlks = f.nrWaitingDirtyDataBlks
  nrIrd : s.nrWaitingDirtyIrdBlks = f.nrWaitingDirtyIrdBlks

theorem counted (staged : stageFileCounted c frame x j (.regular f) = some s) : f.Counted s := by
  obtain ⟨⟨slot,r⟩,first,staged⟩ := bind_eq_some_iff.mp staged
  obtain ⟨b,built,staged⟩ := bind_eq_some_iff.mp staged
  obtain ⟨u,wrote,rfl⟩ := map_eq_some_iff.mp staged
  obtain ⟨start,issued,start',commit'⟩ := stageIo_some wrote
  have built : buildStageTx c frame x j f r = some b := built
  rw [buildStageTx_eq] at built
  obtain ⟨r₁,indexed,built⟩ := bind_eq_some_iff.mp built
  obtain ⟨r₂,tagged,built⟩ := bind_eq_some_iff.mp built
  obtain ⟨r₃,fixed,built⟩ := bind_eq_some_iff.mp built
  obtain ⟨r₄,copied,rfl⟩ := map_eq_some_iff.mp built
  obtain ⟨early,count,commit,-,-⟩ := stageFixBlocks_some fixed
  obtain ⟨more,same⟩ := copyAll_some copied
  have front : r₂.nrPending = f.toFile.frontBlks := front_pending first indexed tagged early
  have amount : r₂.nrPending + (nrDirtyBlks f.ird + (f.toFile.waiting + f.toFile.skipped)) + 1 = f.toFile.nrBlks := by
    rw [front]
    rfl
  have pages : (f.toFile.pages.map x.page ++ f.waitingPages frame x).length = nrDirtyBlks f.ird + f.toFile.waiting := by
    rw [List.length_append,List.length_map,waitingPages_length,File.pages,pages_length]
    rfl
  rw [amount] at commit
  rw [pages,count,front] at more
  simp only at start issued start' commit'
  exact ⟨by rw [start']; exact start,by rw [issued,more,Nat.add_assoc],
    by rw [commit',same.commitBaddr,commit,start',same.start],front,rfl,rfl,rfl,rfl⟩

theorem nrBlks_eq (f : RegularFile) :
    f.toFile.nrBlks = f.toFile.frontBlks + (nrDirtyBlks f.ird +
      (f.dataBlks .staged .zero + f.irdBlks .staged .zero + (f.dataBlks .staged .one + f.irdBlks .staged .one) +
      (f.dataBlks .skipped .zero + f.irdBlks .skipped .zero + (f.dataBlks .skipped .one + f.irdBlks .skipped .one)))) + 1 := rfl

theorem waiting_eq (f : RegularFile) :
    f.toFile.waiting = f.dataBlks .staged .zero + f.irdBlks .staged .zero +
    (f.dataBlks .staged .one + f.irdBlks .staged .one) := rfl

theorem Counted.region_iff (counted : f.Counted s) :
    s.stx.nrIssued + (Inode.regular f).blks .skipped + 1 = s.stx.commitBaddr + 1 - s.stx.start ↔ f.toFile.nrBlks < 2^32 := by
  have start := counted.start
  have whole : s.stx.nrIssued + (Inode.regular f).blks .skipped + 1 = f.toFile.nrBlks := by
    rw [counted.issued,nrBlks_eq,waiting_eq]
    simp only [Inode.blks,Inode.dataBlks,Inode.irdBlks]
    omega
  rw [whole,counted.commitBaddr]
  have less := u32_lt f.toFile.nrBlks
  constructor
  · intro region
    omega
  · intro small
    rw [u32_of_lt small]
    omega

theorem skipped_irdBlks (skipped : f.outcome dfId = .skipped) : 0 < f.irdBlks .skipped dfId := by
  rw [irdBlks,if_pos skipped]
  cases given : f.waiting dfId with
  | none =>
    rw [outcome,given] at skipped
    cases skipped
  | some w => exact w.irdBlks_pos

theorem none_staged (skipped : f.outcome dfId = .skipped) : f.dataBlks .staged dfId = 0 ∧ f.irdBlks .staged dfId = 0 :=
  none_of_outcome (by rw [skipped]; decide)

theorem counts_of_small (small : f.toFile.nrBlks < 2^32) (dfId : DfId) :
    f.nrWaitingDirtyDataBlks dfId = f.dataBlks .staged dfId + f.dataBlks .skipped dfId ∧
      f.nrWaitingDirtyIrdBlks dfId = f.irdBlks .staged dfId + f.irdBlks .skipped dfId := by
  obtain ⟨data,ird⟩ := f.counts_eq dfId
  have size := f.nrBlks_eq
  cases dfId
  all_goals
    rw [data,ird,u32_of_lt (by omega),u32_of_lt (by omega)]
    exact ⟨rfl,rfl⟩

theorem update_counts (small : f.toFile.nrBlks < 2^32) (skipped : f.outcome dfId = .skipped)
    (only : ∀ other, other ≠ dfId → f.outcome other ≠ .skipped) :
    update f.nrWaitingDirtyDataBlks dfId 0 = f.dataBlks .staged ∧
      update f.nrWaitingDirtyIrdBlks dfId 0 = f.irdBlks .staged := by
  have cleared := none_staged skipped
  constructor
  all_goals
    funext other
    by_cases same : other = dfId
    · subst same
      rw [update_self]
      first | exact cleared.1.symm | exact cleared.2.symm
    · have kept := counts_of_small small other
      have none := none_of_outcome (only other same)
      rw [update_of_ne same]
      omega

/-- Unless both lists were skipped, `stage_file` computes what was written. -/
theorem Counted.reckon_eq (counted : f.Counted s) (small : f.toFile.nrBlks < 2^32)
    (notBoth : ¬(f.outcome .zero = .skipped ∧ f.outcome .one = .skipped)) :
    reckon s = ⟨⟨f.dataBlks .staged,f.irdBlks .staged⟩,f.irdBlks .staged .zero + f.irdBlks .staged .one,
      s.stx.start + s.stx.nrIssued + (Inode.regular f).blks .skipped⟩ := by
  obtain ⟨-,issued,-,-,-,skipped,nrData,nrIrd⟩ := counted
  have size := f.nrBlks_eq
  have waiting := f.waiting_eq
  have total : u32 s.stx.nrIssued = s.stx.nrIssued := u32_of_lt (by omega)
  obtain ⟨data0,ird0⟩ := counts_of_small small .zero
  obtain ⟨data1,ird1⟩ := counts_of_small small .one
  simp only [reckon,skipped,skips,nrData,nrIrd,total,Inode.blks,Inode.dataBlks,Inode.irdBlks,decide_eq_true_eq]
  by_cases zero : f.outcome .zero = .skipped
  · have one : f.outcome .one ≠ .skipped := fun one => notBoth ⟨zero,one⟩
    obtain ⟨data,ird⟩ := update_counts small zero fun other different => by
      cases other with
      | zero => exact absurd rfl different
      | one => exact one
    obtain ⟨noData,noIrd⟩ := none_of_outcome one
    obtain ⟨noData',noIrd'⟩ := none_staged zero
    rw [if_pos zero,data,ird,data0,ird0,ird1]
    congr 1 <;> omega
  · obtain ⟨noData,noIrd⟩ := none_of_outcome zero
    by_cases one : f.outcome .one = .skipped
    · obtain ⟨data,ird⟩ := update_counts small one fun other different => by
        cases other with
        | zero => exact zero
        | one => exact absurd rfl different
      obtain ⟨noData',noIrd'⟩ := none_staged one
      rw [if_neg zero,if_pos one,data,ird,data1,ird1,ird0]
      congr 1 <;> omega
    · obtain ⟨noData',noIrd'⟩ := none_of_outcome one
      have data : f.nrWaitingDirtyDataBlks = f.dataBlks .staged := by
        funext dfId
        cases dfId <;> omega
      have ird : f.nrWaitingDirtyIrdBlks = f.irdBlks .staged := by
        funext dfId
        cases dfId <;> omega
      rw [if_neg zero,if_neg one,data,ird,u32_of_lt (by omega)]
      congr 1
      omega

theorem Counted.ird_one (counted : f.Counted s) (small : f.toFile.nrBlks < 2^32) (zero : f.outcome .zero = .skipped)
    (one : f.outcome .one = .skipped) : f.irdBlks .staged .one < (reckon s).commitBlk.waitingDirtyIrdBlks .one := by
  have marked : s.waitingDirtySkipped .zero = true := by
    rw [counted.skipped]
    exact decide_eq_true zero
  have some := skipped_irdBlks one
  have count : (reckon s).commitBlk.waitingDirtyIrdBlks .one = f.irdBlks .staged .one + f.irdBlks .skipped .one := by
    rw [reckon,if_pos marked,counted.nrIrd]
    change update f.nrWaitingDirtyIrdBlks .zero 0 .one = _
    rw [update_of_ne (by decide)]
    exact (counts_of_small small .one).2
  omega

theorem Counted.accounts_iff (counted : f.Counted s) : Accounts (.regular f) s ↔ (Inode.regular f).Balanced := by
  constructor
  · intro accounts
    have small := counted.region_iff.mp accounts.region
    refine ⟨small,?_⟩
    rintro ⟨zero,one⟩
    exact absurd (accounts.ird .one) (counted.ird_one small zero one).ne'
  · rintro ⟨small,notBoth⟩
    have region := counted.region_iff.mpr small
    have size := f.nrBlks_eq
    have waiting := f.waiting_eq
    obtain ⟨start,issued,commitBaddr,other,data,-,-,-⟩ := id counted
    have marks := counted.reckon_eq small notBoth
    refine ⟨region,?_,?_,fun dfId => by rw [marks]; rfl,fun dfId => by rw [marks]; rfl⟩
    · rw [marks,u32_of_lt (by omega),u64_of_lt (by simp only; omega)]
      simp only
      omega
    · rw [marks]
      simp only
      omega

end RegularFile

structure DirCounted (bhs : List BufferHead) (s : Tx) : Prop where
  start : s.stx.start ≠ 0
  issued : s.stx.nrIssued = 1 + bhs.countP BufferHead.dirty ↔ bhs.countP BufferHead.dirty < stageDescBlkTagMax
  least : 1 + bhs.countP BufferHead.dirty ≤ s.stx.nrIssued
  commitBaddr : s.stx.commitBaddr = s.stx.start + u32 (1 + bhs.countP BufferHead.dirty + 1) - 1
  other : s.nrOtherBlks = u32 (1 + bhs.countP BufferHead.dirty)
  data : s.dataBlksCnt = 0
  reckon : reckon s = ⟨⟨fun _ => 0,fun _ => 0⟩,0,s.stx.start + u32 s.stx.nrIssued⟩

theorem dirCounted (staged : stageFileCounted c frame x j (.directory deleted bhs) = some s) : DirCounted bhs s := by
  obtain ⟨⟨slot,r⟩,first,staged⟩ := bind_eq_some_iff.mp staged
  obtain ⟨b,built,staged⟩ := bind_eq_some_iff.mp staged
  obtain ⟨u,wrote,rfl⟩ := map_eq_some_iff.mp staged
  obtain ⟨start,issued,start',commit'⟩ := stageIo_some wrote
  obtain ⟨one,same,desc,ext⟩ := resvBlk_some first
  have built : buildStageDir c x j deleted bhs r = some b := built
  rw [buildStageDir] at built
  split at built
  next =>
    -- a deleted directory has no region: the assertion on `start` stops it
    obtain rfl := some.inj built
    exact absurd same.start start
  next =>
    obtain ⟨t,fixed,built⟩ := bind_eq_some_iff.mp built
    obtain ⟨v,filled,rfl⟩ := map_eq_some_iff.mp built
    obtain ⟨early,count,commit,desc',ext'⟩ := stageFixBlocks_some fixed
    obtain ⟨least,same'⟩ := stageFillIndexBlk_grows filled
    have pending : r.nrPending = 1 := by
      rw [StageTx.count,early] at one
      exact (Nat.zero_add _).symm.trans one
    have empty : stageDescBlk.nr t.descBlkCopy = 0 := by
      rw [desc',desc]
      exact stageDescBlk.nr_clear _
    have whole := stageFillIndexBlk_count (ext'.trans ext) empty (by decide) filled
    rw [pending] at count
    rw [count,← issued] at whole least
    rw [Nat.zero_add] at whole
    rw [pending] at commit
    refine ⟨?_,whole,least,?_,congrArg (fun n => u32 (n + _)) pending,rfl,rfl⟩
    · rw [start']
      exact start
    · rw [commit',start']
      exact same'.commitBaddr.trans (commit.trans (by rw [same'.start]; rfl))

theorem DirCounted.accounts_iff (counted : DirCounted bhs s) :
    Accounts (.directory deleted bhs) s ↔ (Inode.directory deleted bhs).Balanced := by
  obtain ⟨start,issued,least,commitBaddr,other,data,marks⟩ := counted
  have max : stageDescBlkTagMax = 316 := rfl
  have none : (Inode.directory deleted bhs).blks .skipped = 0 := rfl
  constructor
  · intro accounts
    have region := accounts.region
    have most : u32 (1 + bhs.countP BufferHead.dirty + 1) ≤ 1 + bhs.countP BufferHead.dirty + 1 := Nat.mod_le _ _
    refine issued.mp ?_
    omega
  · intro few
    have few : bhs.countP BufferHead.dirty < stageDescBlkTagMax := few
    have total := issued.mpr few
    rw [u32_of_lt (by omega)] at commitBaddr other
    refine ⟨by omega,?_,?_,fun _ => by rw [marks]; rfl,fun _ => by rw [marks]; rfl⟩
    · rw [marks,data,other,total,u32_of_lt (by omega),u64_of_lt (by simp only; omega)]
      simp only
      omega
    · rw [marks,total,u32_of_lt (by omega)]
      simp only
      omega

theorem stageFileCounted_reaches (admitted : Admitted c j stage f.toFile) :
    ∃ s, stageFileCounted c frame x j (.regular f) = some s := by
  obtain ⟨t,made,-,-⟩ := stageFile_onDisk c j stage f.toFile (f.contents frame x) (fun _ => x.header) admitted
  rw [← stageFileCounted_stx] at made
  obtain ⟨s,staged,-⟩ := map_eq_some_iff.mp made
  exact ⟨s,staged⟩

/-- The assertions of `stage_file` hold, and the commit block is right, exactly for the balanced inodes. -/
theorem stage_accounts_iff (inode : Inode) (s : Tx) (staged : stageFileCounted c frame x j inode = some s) :
    Accounts inode s ↔ inode.Balanced := by
  cases inode with
  | regular f => exact (RegularFile.counted staged).accounts_iff
  | directory deleted bhs => exact (dirCounted staged).accounts_iff

def oneWaiting (txid : Nat) : WaitingList := ⟨txid,Ird.empty.add ⟨7,1,by decide⟩,by decide,by decide⟩

def waitingFile (ongoing : Bool) : RegularFile where
  privateList := (sampleFile 2 two_fits).privateList
  distinct := (sampleFile 2 two_fits).distinct
  addressable := (sampleFile 2 two_fits).addressable
  ird := (sampleFile 2 two_fits).ird
  extents := scattered
  waiting dfId := some (oneWaiting (if dfId = .zero then 1 else 2))
  txid dfId := if dfId = .zero ∧ ongoing = true then some 1 else none

theorem waitingFile_staged (ongoing : Bool) :
    ∃ s, stageFileCounted sampleBufs (fun _ _ => 0) (marked 500) sampleArea (.regular (waitingFile ongoing)) = some s := by
  have nrBlks : (waitingFile ongoing).toFile.nrBlks = 9 := by cases ongoing <;> decide
  have buffered :
      1 + ((waitingFile ongoing).toFile.dirtyIndex.length + (waitingFile ongoing).toFile.nrEtagBlks) ≤
      sampleBufs.capacity := by
    cases ongoing <;> decide
  have admitted : Admitted sampleBufs sampleArea sampleStageLog (waitingFile ongoing).toFile :=
    ⟨buffered,sampleArea_bounds,by decide,by decide,by rw [nrBlks]; decide,
      ⟨1010,1001,0,2000,999⟩,1001,1009,by rw [nrBlks]; decide⟩
  exact stageFileCounted_reaches admitted

theorem stage_accounts_iff_waitingFile :
    ∃ s, stageFileCounted sampleBufs (fun _ _ => 0) (marked 500) sampleArea (.regular (waitingFile true)) = some s ∧
      Accounts (.regular (waitingFile true)) s := by
  obtain ⟨s,staged⟩ := waitingFile_staged true
  exact ⟨s,staged,(stage_accounts_iff _ s staged).mpr ⟨by decide,by decide⟩⟩

/-- Both transactions have completed: four blocks are written and none of the lists, but the commit block has a page of the
second one, five blocks are expected, and the commit block is expected two blocks before the end of the region. -/
theorem second_list_taken_as_written :
    ∃ s, stageFileCounted sampleBufs (fun _ _ => 0) (marked 500) sampleArea (.regular (waitingFile false)) = some s ∧
      u32 s.stx.nrIssued = 4 ∧ u64 (s.dataBlksCnt + s.nrOtherBlks + (reckon s).nrWaitingDirtyIrdBlksWritten) = 5 ∧
      s.stx.commitBaddr = (reckon s).commitBaddr + 2 ∧
      (reckon s).commitBlk.waitingDirtyDataBlks .one = 1 ∧ (Inode.regular (waitingFile false)).dataBlks .staged .one = 0 := by
  obtain ⟨s,staged⟩ := waitingFile_staged false
  obtain ⟨start,issued,commitBaddr,other,data,skipped,nrData,nrIrd⟩ := RegularFile.counted staged
  have issued : s.stx.nrIssued = 4 := issued
  have commitBaddr : s.stx.commitBaddr = s.stx.start + 9 - 1 := commitBaddr
  have other : s.nrOtherBlks = 2 := other
  have data : s.dataBlksCnt = 2 := data
  have marked : s.waitingDirtySkipped .zero = true := by
    rw [skipped]
    decide
  have marks : reckon s = ⟨⟨update (waitingFile false).nrWaitingDirtyDataBlks .zero 0,
      update (waitingFile false).nrWaitingDirtyIrdBlks .zero 0⟩,1,s.stx.start + 4 + 1 + 1⟩ := by
    rw [reckon,if_pos marked,nrData,nrIrd,issued]
    rfl
  refine ⟨s,staged,by rw [issued]; rfl,by rw [other,data,marks]; rfl,?_,by rw [marks]; rfl,by decide⟩
  rw [commitBaddr,marks]
  rfl

end Oxbow.Daemon.Stage
