import Oxbow.Daemon.IrdDump
import Oxbow.Daemon.StageCommit

/-! The blocks of a stage transaction as `stage_file` counts them: the region is reserved before it is known which of the two
waiting lists will be staged, and the commit block says which of them were. -/
namespace Oxbow.Daemon.Stage

open Oxbow.Lib Oxbow.Sjd Function List Option

inductive DfId
  | zero
  | one
  deriving DecidableEq, Repr

/-- A waiting list with the id of the journal transaction that writes it. One without ranges counts as absent. -/
structure WaitingList where
  txid : Nat
  ird : Ird
  first : ird.first ≠ []
  positive : ∀ rd ∈ ird.ranges, 0 < rd.nr

/-- A regular file about to be staged; `txid` is what `i_journal_waiting_dirty_txid` holds when a list is looked at again. -/
structure RegularFile where
  privateList : List BufferHead
  distinct : (privateList.map BufferHead.blocknr).Nodup
  addressable : ∀ bh ∈ privateList, bh.blocknr < 2^64
  ird : Ird
  extents : ExtentMap
  waiting : DfId → Option WaitingList
  txid : DfId → Option Nat

inductive Inode
  | regular (f : RegularFile)
  | directory (deleted : Bool) (privateList : List BufferHead)

structure Tx where
  stx : StageTx
  nrWaitingDirtyDataBlks : DfId → Nat
  nrWaitingDirtyIrdBlks : DfId → Nat
  nrOtherBlks : Nat
  dataBlksCnt : Nat
  waitingDirtySkipped : DfId → Bool

structure StageCommitBlock where
  waitingDirtyDataBlks : DfId → Nat
  waitingDirtyIrdBlks : DfId → Nat

section

variable (c : SeqBufs) (frame : IrdFrame → Page) (x : Contents)

def Tx.stageFillData (ird : Ird) (s : Tx) : Option Tx :=
  (Stage.stageFillData c x.page ird.nodes s.stx).map fun t => { s with stx := t, dataBlksCnt := s.dataBlksCnt + nrDirtyBlks ird }

def stageWaitingDirtyData (w : WaitingList) (dfId : DfId) (s : Tx) : Option Tx :=
  (serializeAndFillIrdList c frame w.ird s.stx).bind fun r =>
    if u32 r.1 = s.nrWaitingDirtyIrdBlks dfId then Tx.stageFillData c x w.ird { s with stx := r.2 } else none

section

variable (f : RegularFile)

def stageIfWaiting (w : WaitingList) (dfId : DfId) (s : Tx) : Option Tx :=
  if f.txid dfId = some w.txid then stageWaitingDirtyData c frame x w dfId s
  else some { s with waitingDirtySkipped := update s.waitingDirtySkipped dfId true }

def stageWaitingLists (s : Tx) : Option Tx :=
  match f.waiting .zero,f.waiting .one with
  | none,none => some s
  | none,some w => stageIfWaiting c frame x f w .one s
  | some w,none => stageIfWaiting c frame x f w .zero s
  | some w,some v =>
    if w.txid < v.txid then
      (stageIfWaiting c frame x f v .one { s with waitingDirtySkipped := fun _ => false }).bind
        (stageIfWaiting c frame x f w .zero)
    else
      (stageIfWaiting c frame x f w .zero { s with waitingDirtySkipped := fun _ => false }).bind
        (stageIfWaiting c frame x f v .one)

def RegularFile.nrWaitingDirtyDataBlks (dfId : DfId) : Nat :=
  (f.waiting dfId).elim 0 fun w => u32 (nrDirtyBlks w.ird)

def RegularFile.nrWaitingDirtyIrdBlks (dfId : DfId) : Nat :=
  (f.waiting dfId).elim 0 fun w => countIrdDumpBlocks w.ird

def RegularFile.nrWaiting (dfId : DfId) : Nat := f.nrWaitingDirtyDataBlks dfId + f.nrWaitingDirtyIrdBlks dfId

end

section

variable (j : StageArea.Journal)

def buildStageTx (f : RegularFile) (s : StageTx) : Option Tx :=
  (stageFillIndexBlk c x.block f.privateList s).bind fun s =>
  (stageFillTags c f.extents f.ird.nodes s).bind fun s =>
  (stageFixBlocks j (nrDirtyBlks f.ird) (f.nrWaiting .zero + f.nrWaiting .one) s).bind fun t =>
  (Tx.stageFillData c x f.ird ⟨t,f.nrWaitingDirtyDataBlks,f.nrWaitingDirtyIrdBlks,s.nrPending,0,fun _ => false⟩).bind
  (stageWaitingLists c frame x f)

def stageFixDirBlocks (nBlks : Nat) (s : StageTx) : Option StageTx := stageFixBlocks j nBlks 0 s

/-- The directory's blocks are copied and tagged like index blocks, but after the region has been reserved. -/
def buildStageDir (deleted : Bool) (privateList : List BufferHead) (s : StageTx) : Option Tx :=
  if deleted then some ⟨s,fun _ => 0,fun _ => 0,0,0,fun _ => false⟩
  else
    let nBlks := privateList.countP BufferHead.dirty
    (stageFixDirBlocks j nBlks s).bind fun t =>
    (stageFillIndexBlk c x.block privateList t).map fun t =>
      ⟨t,fun _ => 0,fun _ => 0,u32 (s.nrPending + nBlks),0,fun _ => false⟩

def build (inode : Inode) (s : StageTx) : Option Tx :=
  match inode with
  | .regular f => buildStageTx c frame x j f s
  | .directory deleted privateList => buildStageDir c x j deleted privateList s

end

end

structure Reckoning where
  commitBlk : StageCommitBlock
  nrWaitingDirtyIrdBlksWritten : Nat
  commitBaddr : Nat

def reckon (s : Tx) : Reckoning :=
  let data := s.nrWaitingDirtyDataBlks
  let ird := s.nrWaitingDirtyIrdBlks
  if s.waitingDirtySkipped .zero then
    ⟨⟨update data .zero 0,update ird .zero 0⟩,ird .one,
      s.stx.start + u32 s.stx.nrIssued + data .zero + ird .zero⟩
  else if s.waitingDirtySkipped .one then
    ⟨⟨update data .one 0,update ird .one 0⟩,ird .zero,
      s.stx.start + u32 s.stx.nrIssued + data .one + ird .one⟩
  else ⟨⟨data,ird⟩,u32 (ird .zero + ird .one),s.stx.start + u32 s.stx.nrIssued⟩

def StageCommitBlock.page (b : StageCommitBlock) (old : Page) : Page :=
  let counts := setWord (setWord (setWord (setWord old 0 (b.waitingDirtyDataBlks .zero)) 1 (b.waitingDirtyDataBlks .one))
    2 (b.waitingDirtyIrdBlks .zero)) 3 (b.waitingDirtyIrdBlks .one)
  setWord counts 4 (word counts 4 / 256 * 256 + 67)

def stageFileCounted (c : SeqBufs) (frame : IrdFrame → Page) (x : Contents) (j : StageArea.Journal)
    (inode : Inode) : Option Tx :=
  (resvBlk c (newStageTx c x)).bind fun r =>
  (build c frame x j inode r.2).bind fun s =>
  (stageIo c ((reckon s).commitBlk.page x.commitBlk) s.stx).map fun t => { s with stx := t }

variable {f : RegularFile}

theorem resvBlk_some (taken : resvBlk c s = some (slot,t)) :
    t.count = s.count + 1 ∧ Same s t ∧ t.descBlkCopy = s.descBlkCopy ∧ t.extBlk = s.extBlk := by
  obtain ⟨u,ready,next⟩ := map_eq_some_iff.mp taken
  obtain ⟨-,rfl⟩ := Prod.mk.inj next
  have kept : u.count = s.count ∧ Same s u ∧ u.descBlkCopy = s.descBlkCopy ∧ u.extBlk = s.extBlk := by
    rw [freeSeq] at ready
    split at ready
    next =>
      obtain ⟨v,moved,rfl⟩ := map_eq_some_iff.mp ready
      rw [nextSeq] at moved
      split at moved
      next =>
        obtain ⟨-,⟨⟩⟩ := ite_none_right_eq_some.mp moved
        exact ⟨Nat.add_zero _,⟨rfl,rfl,rfl⟩,rfl,rfl⟩
      next =>
        obtain rfl := some.inj moved
        exact ⟨rfl,⟨rfl,rfl,rfl⟩,rfl,rfl⟩
    next =>
      obtain rfl := some.inj ready
      exact ⟨rfl,⟨rfl,rfl,rfl⟩,rfl,rfl⟩
  obtain ⟨count,same,desc,ext⟩ := kept
  exact ⟨by rw [← count]; rfl,⟨same.start,same.commitBaddr,same.reserved⟩,desc,ext⟩

theorem copyBlk_some (copied : copyBlk c s p = some t) :
    t.count = s.count + 1 ∧ Same s t ∧ t.descBlkCopy = s.descBlkCopy ∧ t.extBlk = s.extBlk := by
  obtain ⟨⟨slot,u⟩,taken,rfl⟩ := map_eq_some_iff.mp copied
  obtain ⟨count,same,desc,ext⟩ := resvBlk_some taken
  exact ⟨count,⟨same.start,same.commitBaddr,same.reserved⟩,desc,ext⟩

theorem copyAll_some (copied : copyAll c ps s = some t) : t.count = s.count + ps.length ∧ Same s t := by
  induction ps generalizing s with
  | nil =>
    obtain rfl := some.inj copied
    exact ⟨rfl,⟨rfl,rfl,rfl⟩⟩
  | cons p ps ih =>
    obtain ⟨u,first,rest⟩ := bind_eq_some_iff.mp copied
    obtain ⟨one,same,-,-⟩ := copyBlk_some first
    obtain ⟨more,same'⟩ := ih rest
    refine ⟨?_,same.trans same'⟩
    rw [more,one,length_cons]
    omega

theorem openExtBlk_some (opened : openExtBlk c s = some t) : t.count = s.count + 1 ∧ Same s t := by
  obtain ⟨⟨slot,u⟩,taken,rfl⟩ := map_eq_some_iff.mp opened
  obtain ⟨count,same,-,-⟩ := resvBlk_some taken
  exact ⟨count,⟨same.start,same.commitBaddr,same.reserved⟩⟩

theorem stxWrtag_some (tagged : stxWrtag c s tag = some t) : s.count ≤ t.count ∧ Same s t := by
  rw [stxWrtag] at tagged
  split at tagged
  all_goals
    obtain ⟨w,-,tagged⟩ := bind_eq_some_iff.mp tagged
    split at tagged
    · obtain ⟨count,same⟩ := openExtBlk_some tagged
      exact ⟨Nat.le_of_succ_le (Nat.le_of_eq count.symm),⟨same.start,same.commitBaddr,same.reserved⟩⟩
    · obtain rfl := some.inj tagged
      exact ⟨Nat.le_refl _,⟨rfl,rfl,rfl⟩⟩

def WaitingList.pages (frame : IrdFrame → Page) (x : Contents) (w : WaitingList) : List Page :=
  (frames w.ird.ranges).map frame ++ (w.ird.ranges.flatMap RangeDirty.pages).map x.page

def WaitingList.irdBlks (w : WaitingList) : Nat := (w.ird.ranges.length + entsPerBlock - 1) / entsPerBlock

def WaitingList.blks (w : WaitingList) : Nat := nrDirtyBlks w.ird + w.irdBlks

theorem WaitingList.pages_length (frame : IrdFrame → Page) (x : Contents) (w : WaitingList) :
    (w.pages frame x).length = w.blks := by
  rw [pages,length_append,length_map,length_map,frames_length _ w.positive,Stage.pages_length,Nat.add_comm]
  rfl

theorem WaitingList.irdBlks_pos (w : WaitingList) : 0 < w.irdBlks := by
  have some : 0 < w.ird.ranges.length := by
    have first := length_pos_iff.mpr w.first
    simp only [Ird.ranges,Ird.nodes,flatten_cons,length_append]
    omega
  rw [irdBlks,entsPerBlock_eq]
  omega

inductive Outcome
  | absent
  | staged
  | skipped
  deriving DecidableEq, Repr

namespace RegularFile

def outcome (f : RegularFile) (dfId : DfId) : Outcome :=
  match f.waiting dfId with
  | none => .absent
  | some w => if f.txid dfId = some w.txid then .staged else .skipped

section

variable (f : RegularFile) (o : Outcome) (dfId : DfId)

def dataBlks : Nat :=
  if f.outcome dfId = o then (f.waiting dfId).elim 0 fun w => nrDirtyBlks w.ird else 0

def irdBlks : Nat :=
  if f.outcome dfId = o then (f.waiting dfId).elim 0 WaitingList.irdBlks else 0

def blks : Nat := f.dataBlks o dfId + f.irdBlks o dfId

end

def stagedPages (frame : IrdFrame → Page) (x : Contents) (f : RegularFile) (dfId : DfId) : List Page :=
  if f.outcome dfId = .staged then (f.waiting dfId).elim [] (WaitingList.pages frame x) else []

def waitingPages (frame : IrdFrame → Page) (x : Contents) (f : RegularFile) : List Page :=
  match f.waiting .zero,f.waiting .one with
  | some w,some v =>
    if w.txid < v.txid then f.stagedPages frame x .one ++ f.stagedPages frame x .zero
    else f.stagedPages frame x .zero ++ f.stagedPages frame x .one
  | _,_ => f.stagedPages frame x .zero ++ f.stagedPages frame x .one

theorem stagedPages_length (f : RegularFile) (dfId : DfId) : (f.stagedPages frame x dfId).length = f.blks .staged dfId := by
  rw [stagedPages,blks,dataBlks,irdBlks]
  split
  next =>
    cases f.waiting dfId with
    | none => rfl
    | some w => exact w.pages_length frame x
  next => rfl

theorem waitingPages_length (f : RegularFile) :
    (f.waitingPages frame x).length = f.blks .staged .zero + f.blks .staged .one := by
  rw [waitingPages]
  split
  next =>
    split
    · rw [length_append,stagedPages_length,stagedPages_length,Nat.add_comm]
    · rw [length_append,stagedPages_length,stagedPages_length]
  next => rw [length_append,stagedPages_length,stagedPages_length]

end RegularFile

theorem Tx.stageFillData_eq (ird : Ird) (s : Tx) :
    Tx.stageFillData c x ird s = (copyAll c ((ird.ranges.flatMap RangeDirty.pages).map x.page) s.stx).map fun t =>
      { s with stx := t, dataBlksCnt := s.dataBlksCnt + nrDirtyBlks ird } := by
  rw [Tx.stageFillData,Stage.stageFillData_eq]
  rfl

theorem stageWaitingDirtyData_eq (w : WaitingList) (dfId : DfId) (s : Tx)
    (counted : s.nrWaitingDirtyIrdBlks dfId = countIrdDumpBlocks w.ird) :
    stageWaitingDirtyData c frame x w dfId s = (copyAll c (w.pages frame x) s.stx).map fun t =>
      { s with stx := t, dataBlksCnt := s.dataBlksCnt + nrDirtyBlks w.ird } := by
  have blocks : u32 (frames w.ird.ranges).length = s.nrWaitingDirtyIrdBlks dfId := by
    rw [counted,frames_length _ w.positive]
    rfl
  rw [stageWaitingDirtyData,serializeAndFillIrdList_eq,WaitingList.pages,copyAll_append]
  cases copyAll c ((frames w.ird.ranges).map frame) s.stx with
  | none => rfl
  | some t =>
    simp only [map_some,bind_some,blocks,if_true]
    exact Tx.stageFillData_eq w.ird { s with stx := t }

def RegularFile.skips (f : RegularFile) (dfId : DfId) : Bool := decide (f.outcome dfId = .skipped)

def Tx.past (f : RegularFile) (dfId : DfId) (s : Tx) (t : StageTx) : Tx :=
  { s with
    stx := t
    dataBlksCnt := s.dataBlksCnt + f.dataBlks .staged dfId
    waitingDirtySkipped := if f.skips dfId then update s.waitingDirtySkipped dfId true else s.waitingDirtySkipped }

theorem stageIfWaiting_eq (given : f.waiting dfId = some w) (s : Tx)
    (counted : s.nrWaitingDirtyIrdBlks = f.nrWaitingDirtyIrdBlks) :
    stageIfWaiting c frame x f w dfId s = (copyAll c (f.stagedPages frame x dfId) s.stx).map (s.past f dfId) := by
  have ird : s.nrWaitingDirtyIrdBlks dfId = countIrdDumpBlocks w.ird := by
    rw [counted,RegularFile.nrWaitingDirtyIrdBlks,given,elim_some]
  by_cases waits : f.txid dfId = some w.txid
  · have outcome : f.outcome dfId = .staged := by simp only [RegularFile.outcome,given,waits,if_true]
    rw [stageIfWaiting,if_pos waits,stageWaitingDirtyData_eq w dfId s ird,RegularFile.stagedPages,if_pos outcome,given,elim_some]
    congr 1
    funext t
    simp [Tx.past,RegularFile.skips,RegularFile.dataBlks,outcome,given]
  · have outcome : f.outcome dfId = .skipped := by simp only [RegularFile.outcome,given,waits,if_false]
    rw [stageIfWaiting,if_neg waits,RegularFile.stagedPages,if_neg (by rw [outcome]; decide),copyAll,map_some]
    simp [Tx.past,RegularFile.skips,RegularFile.dataBlks,outcome]

def Tx.pastBoth (f : RegularFile) (s : Tx) (t : StageTx) : Tx :=
  { s with
    stx := t
    dataBlksCnt := s.dataBlksCnt + (f.dataBlks .staged .zero + f.dataBlks .staged .one)
    waitingDirtySkipped := f.skips }

theorem Tx.past_past (apart : first ≠ second) (s : Tx) (fresh : s.waitingDirtySkipped = fun _ => false)
    (t u : StageTx) : (s.past f first t).past f second u = s.pastBoth f u := by
  have marks : ((s.past f first t).past f second u).waitingDirtySkipped = f.skips := by
    funext dfId
    simp only [past,fresh]
    cases first <;> cases second <;> cases dfId <;> first | exact absurd rfl apart | skip
    all_goals cases f.skips .zero <;> cases f.skips .one <;> simp_all
  have data : ((s.past f first t).past f second u).dataBlksCnt = s.dataBlksCnt +
      (f.dataBlks .staged .zero + f.dataBlks .staged .one) := by
    cases first <;> cases second <;> first | exact absurd rfl apart | skip
    all_goals
      simp only [past]
      omega
  rw [pastBoth,← marks,← data]
  rfl

theorem Tx.past_absent (absent : f.waiting dfId = none) (s : Tx) (t : StageTx) : s.past f dfId t = { s with stx := t } := by
  have outcome : f.outcome dfId = .absent := by simp only [RegularFile.outcome,absent]
  simp [past,RegularFile.dataBlks,RegularFile.skips,outcome]

theorem RegularFile.stagedPages_absent (absent : f.waiting dfId = none) : f.stagedPages frame x dfId = [] := by
  rw [stagedPages,absent,elim_none,ite_self]

/-- What the waiting lists add: the pages of those that are staged, their counts, and the marks of the skipped ones. -/
theorem stageWaitingLists_eq (s : Tx) (counted : s.nrWaitingDirtyIrdBlks = f.nrWaitingDirtyIrdBlks)
    (fresh : s.waitingDirtySkipped = fun _ => false) :
    stageWaitingLists c frame x f s = (copyAll c (f.waitingPages frame x) s.stx).map (s.pastBoth f) := by
  have again : { s with waitingDirtySkipped := fun _ => false } = s := by rw [← fresh]
  have two : ∀ {first second w v}, first ≠ second → f.waiting first = some w → f.waiting second = some v →
      (stageIfWaiting c frame x f w first s).bind (stageIfWaiting c frame x f v second) =
        (copyAll c (f.stagedPages frame x first ++ f.stagedPages frame x second) s.stx).map (s.pastBoth f) := by
    intro first second w v apart one other
    rw [stageIfWaiting_eq one s counted,copyAll_append]
    cases copyAll c (f.stagedPages frame x first) s.stx with
    | none => rfl
    | some t =>
      rw [map_some,bind_some,bind_some,stageIfWaiting_eq other (s.past f first t) counted]
      congr 1
      funext u
      exact s.past_past apart fresh t u
  have alone : ∀ {present absent w}, absent ≠ present → f.waiting present = some w → f.waiting absent = none →
      stageIfWaiting c frame x f w present s = (copyAll c (f.stagedPages frame x present) s.stx).map (s.pastBoth f) := by
    intro present absent w apart one other
    rw [stageIfWaiting_eq one s counted]
    congr 1
    funext t
    rw [← s.past_past apart fresh s.stx t,Tx.past_absent other]
  rw [stageWaitingLists,RegularFile.waitingPages]
  cases zero : f.waiting .zero with
  | none =>
    cases one : f.waiting .one with
    | none =>
      simp only [RegularFile.stagedPages_absent zero,RegularFile.stagedPages_absent one,append_nil,copyAll,map_some]
      rw [← s.past_past (show DfId.zero ≠ .one by decide) fresh s.stx,Tx.past_absent one,Tx.past_absent zero]
    | some v =>
      simp only [RegularFile.stagedPages_absent zero,nil_append]
      exact alone (by decide) one zero
  | some w =>
    cases one : f.waiting .one with
    | none =>
      simp only [RegularFile.stagedPages_absent one,append_nil]
      exact alone (by decide) zero one
    | some v =>
      simp only [again]
      split
      next => exact two (by decide) one zero
      next => exact two (by decide) zero one

def RegularFile.toFile (f : RegularFile) : File :=
  ⟨f.privateList,f.distinct,f.addressable,f.ird,f.extents,f.blks .staged .zero + f.blks .staged .one,
    f.blks .skipped .zero + f.blks .skipped .one⟩

theorem RegularFile.none_of_outcome (other : f.outcome dfId ≠ o) : f.dataBlks o dfId = 0 ∧ f.irdBlks o dfId = 0 :=
  ⟨if_neg other,if_neg other⟩

theorem RegularFile.counts_eq (f : RegularFile) (dfId : DfId) :
    f.nrWaitingDirtyDataBlks dfId = u32 (f.dataBlks .staged dfId + f.dataBlks .skipped dfId) ∧
      f.nrWaitingDirtyIrdBlks dfId = u32 (f.irdBlks .staged dfId + f.irdBlks .skipped dfId) := by
  rw [nrWaitingDirtyDataBlks,nrWaitingDirtyIrdBlks,dataBlks,dataBlks,irdBlks,irdBlks]
  cases given : f.waiting dfId with
  | none => simp [u32]
  | some w =>
    have either : f.outcome dfId = .staged ∨ f.outcome dfId = .skipped := by
      simp only [outcome,given]
      split <;> simp
    have ird : countIrdDumpBlocks w.ird = u32 w.irdBlks := rfl
    rcases either with staged | skipped
    · simp [staged,ird]
    · simp [skipped,ird]

theorem RegularFile.nrWaiting_eq (f : RegularFile) (dfId : DfId) :
    u32 (f.nrWaiting dfId) = u32 (f.blks .staged dfId + f.blks .skipped dfId) := by
  obtain ⟨data,ird⟩ := f.counts_eq dfId
  rw [nrWaiting,data,ird,blks,blks]
  simp only [u32]
  omega

theorem stageFixBlocks_congr (same : u32 nrWaiting = u32 nrWaiting') (s : StageTx) :
    stageFixBlocks j nrDirty nrWaiting s = stageFixBlocks j nrDirty nrWaiting' s := by
  have sum : u32 (s.nrPending + (nrDirty + nrWaiting) + 1) = u32 (s.nrPending + (nrDirty + nrWaiting') + 1) := by
    simp only [u32] at same ⊢
    omega
  rw [stageFixBlocks,stageFixBlocks,sum]

theorem stageFixBlocks_some (fixed : stageFixBlocks j nrDirty nrWaiting s = some t) :
    s.nrIssued = 0 ∧ t.count = s.nrPending ∧ t.commitBaddr = t.start + u32 (s.nrPending + (nrDirty + nrWaiting) + 1) - 1 ∧
      t.descBlkCopy = s.descBlkCopy ∧ t.extBlk = s.extBlk := by
  rw [stageFixBlocks] at fixed
  obtain ⟨early,fixed⟩ := ite_none_right_eq_some.mp fixed
  split at fixed
  next handed =>
    obtain rfl := some.inj fixed
    exact ⟨early,by rw [StageTx.count,early,Nat.zero_add],StageArea.stageReserveArea_commit handed,rfl,rfl⟩
  next => cases fixed
  next => cases fixed

theorem buildStageTx_eq (s : StageTx) :
    buildStageTx c frame x j f s =
      (stageFillIndexBlk c x.block f.privateList s).bind fun s =>
      (wrtags c f.toFile.tags s).bind fun s =>
      (stageFixBlocks j (nrDirtyBlks f.ird) (f.toFile.waiting + f.toFile.skipped) s).bind fun t =>
      (copyAll c (f.toFile.pages.map x.page ++ f.waitingPages frame x) t).map fun u =>
        ⟨u,f.nrWaitingDirtyDataBlks,f.nrWaitingDirtyIrdBlks,s.nrPending,
          nrDirtyBlks f.ird + (f.dataBlks .staged .zero + f.dataBlks .staged .one),f.skips⟩ := by
  have waiting : u32 (f.nrWaiting .zero + f.nrWaiting .one) = u32 (f.toFile.waiting + f.toFile.skipped) := by
    have zero := f.nrWaiting_eq .zero
    have one := f.nrWaiting_eq .one
    simp only [RegularFile.toFile,u32] at zero one ⊢
    omega
  have tags : (f.ird.first :: f.ird.next).flatten.flatMap (rangeTags f.extents) = f.toFile.tags := rfl
  have pages : f.ird.ranges.flatMap RangeDirty.pages = f.toFile.pages := rfl
  rw [buildStageTx]
  refine congrArg (Option.bind _) (funext fun s => ?_)
  rw [Ird.nodes,stageFillTags_eq c f.extents _ _ f.ird.filled,tags]
  refine congrArg (Option.bind _) (funext fun s => ?_)
  rw [stageFixBlocks_congr waiting]
  refine congrArg (Option.bind _) (funext fun t => ?_)
  rw [Tx.stageFillData_eq,copyAll_append,pages]
  cases copyAll c (f.toFile.pages.map x.page) t with
  | none => rfl
  | some u =>
    simp only [map_some,bind_some]
    rw [stageWaitingLists_eq _ rfl rfl]
    simp only [Nat.zero_add]
    rfl

def RegularFile.commitBlk (f : RegularFile) : StageCommitBlock :=
  if f.skips .zero then
    ⟨update f.nrWaitingDirtyDataBlks .zero 0,update f.nrWaitingDirtyIrdBlks .zero 0⟩
  else if f.skips .one then
    ⟨update f.nrWaitingDirtyDataBlks .one 0,update f.nrWaitingDirtyIrdBlks .one 0⟩
  else ⟨f.nrWaitingDirtyDataBlks,f.nrWaitingDirtyIrdBlks⟩

theorem RegularFile.reckon_commitBlk (f : RegularFile) (s : StageTx) (other cnt : Nat) :
    (reckon ⟨s,f.nrWaitingDirtyDataBlks,f.nrWaitingDirtyIrdBlks,other,cnt,f.skips⟩).commitBlk = f.commitBlk := by
  rw [reckon,commitBlk]
  split
  · rfl
  · split <;> rfl

def RegularFile.contents (frame : IrdFrame → Page) (x : Contents) (f : RegularFile) : Contents :=
  { x with
    waiting := fun k => (f.waitingPages frame x).getD k x.header
    commitBlk := f.commitBlk.page x.commitBlk }

theorem map_getD_range (ps : List α) (p : α) : (List.range ps.length).map (fun k => ps.getD k p) = ps := by
  refine ext_getElem (by simp) fun k inside inside' => ?_
  simp [inside']

/-- Counting does not change what is staged: the transaction is that of `stageFile`. -/
theorem stageFileCounted_stx :
    (stageFileCounted c frame x j (.regular f)).map Tx.stx = stageFile c j f.toFile (f.contents frame x) := by
  have waiting : (List.range f.toFile.waiting).map (f.contents frame x).waiting = f.waitingPages frame x := by
    have length : f.toFile.waiting = (f.waitingPages frame x).length := f.waitingPages_length.symm
    rw [length]
    exact map_getD_range _ _
  rw [stageFileCounted,stageFile,map_bind]
  refine congrArg (Option.bind _) (funext fun r => ?_)
  have built : build c frame x j (.regular f) r.2 = buildStageTx c frame x j f r.2 := rfl
  simp only [comp_apply]
  rw [built,buildStageTx_eq,stageFileData_eq,waiting]
  simp only [bind_assoc,map_bind,bind_map,comp_def]
  refine congrArg (Option.bind _) (funext fun s => ?_)
  refine congrArg (Option.bind _) (funext fun s => ?_)
  refine congrArg (Option.bind _) (funext fun t => ?_)
  refine congrArg (Option.bind _) (funext fun a => ?_)
  rw [RegularFile.reckon_commitBlk,Option.map_map]
  exact map_id' ..

/-! Before the region is reserved, blocks are taken only while the sequence buffers have room. -/

theorem resvBlk_room (buffered : Buffered c s) (start : s.start = 0) (taken : resvBlk c s = some r) :
    s.nrPending < c.capacity := by
  obtain ⟨t,ready,-⟩ := map_eq_some_iff.mp taken
  exact (freeSeq_room buffered ready).resolve_right fun reserved => reserved.1 start

section

theorem Rep.length_lt (rep : Rep c d s i) (opened : Open s i) : i.body.length < c.capacity := by
  have pending := rep.count
  rw [StageTx.count,opened.early,Nat.zero_add] at pending
  have small := rep.buffered.small
  omega

theorem stxWrtag_room (rep : Rep c d s i) (opened : Open s i) (start : s.start = 0) (storable : extent96.Storable tag)
    (tagged : stxWrtag c s tag = some t) : (i.wrtag tag).body.length < c.capacity := by
  have pending := rep.count
  rw [StageTx.count,opened.early,Nat.zero_add] at pending
  have few := rep.length_lt opened
  rw [Image.wrtag,← rep.counted]
  split
  next full =>
    -- the table is full, so a block is taken
    have opens : ∃ u r, resvBlk c u = some r ∧ u.nrPending = s.nrPending ∧ Buffered c u ∧ u.start = 0 := by
      rw [stxWrtag] at tagged
      split at tagged
      next slot ext =>
        obtain ⟨k,rfl,found,last⟩ := opened.ext slot ext
        obtain ⟨write,shows'⟩ := wrtag_ext c d s i tag rep opened.early found last storable
        simp only [write,bind_some] at tagged
        rw [if_pos (decide_eq_true full)] at tagged
        obtain ⟨r,taken,-⟩ := map_eq_some_iff.mp tagged
        exact ⟨_,r,taken,rfl,shows'.buffered,start⟩
      next ext =>
        have unopened := opened.noExt ext
        obtain ⟨write,shows'⟩ := wrtag_desc c d s i tag rep unopened storable
        have full : i.tags.length + 1 = stageDescBlkTagMax := by
          rw [unopened,Nat.mul_zero] at full
          exact full
        simp only [write,bind_some] at tagged
        rw [if_pos (decide_eq_true full)] at tagged
        obtain ⟨r,taken,-⟩ := map_eq_some_iff.mp tagged
        exact ⟨_,r,taken,rfl,shows'.buffered,start⟩
    obtain ⟨u,r,taken,same,buffered,start'⟩ := opens
    have room := resvBlk_room buffered start' taken
    rw [length_append,length_singleton]
    omega
  next => exact few

theorem wrtags_room (storable : ∀ tag ∈ tags, extent96.Storable tag) (rep : Rep c d s i) (opened : Open s i)
    (start : s.start = 0) (tagged : wrtags c tags s = some t) : (i.wrtags tags).body.length < c.capacity := by
  induction tags generalizing s i with
  | nil => exact rep.length_lt opened
  | cons tag tags ih =>
    rw [forall_mem_cons] at storable
    obtain ⟨u,one,rest⟩ := bind_eq_some_iff.mp tagged
    have room := stxWrtag_room rep opened start storable.1 one
    obtain ⟨v,again,rep',opened',same⟩ := stxWrtag_rep c d s i tag rep opened room storable.1
    obtain rfl := some.inj (again.symm.trans one)
    exact ih storable.2 rep' opened' (same.start.trans start) rest

theorem stageFillIndexBlk_room (addressable : ∀ bh ∈ bhs, bh.blocknr < 2^64)
    (rep : Rep c d s i) (opened : Open s i) (start : s.start = 0) (filled : stageFillIndexBlk c data bhs s = some t) :
    (i.index data (bhs.filter BufferHead.dirty)).body.length < c.capacity ∧ t.start = 0 := by
  induction bhs generalizing s i with
  | nil =>
    obtain rfl := some.inj filled
    exact ⟨rep.length_lt opened,start⟩
  | cons bh bhs ih =>
    rw [forall_mem_cons] at addressable
    rw [stageFillIndexBlk] at filled
    cases dirty : bh.dirty with
    | false =>
      rw [filter_cons_of_neg (by simp [dirty])]
      rw [dirty,if_neg (by decide)] at filled
      exact ih addressable.2 rep opened start filled
    | true =>
      rw [filter_cons_of_pos dirty]
      rw [dirty,if_pos rfl] at filled
      obtain ⟨u,copied,filled⟩ := bind_eq_some_iff.mp filled
      obtain ⟨v,tagged,rest⟩ := bind_eq_some_iff.mp filled
      have free : s.nrPending < c.capacity := by
        obtain ⟨r,taken,-⟩ := map_eq_some_iff.mp copied
        exact resvBlk_room rep.buffered start taken
      obtain ⟨u',again,repCopy,same,ext,inBuffer⟩ := copyBlk_rep c d s i (data bh.blocknr) rep (.inl free)
      obtain rfl := some.inj (again.symm.trans copied)
      have openCopy := copyBlk_open opened (data bh.blocknr) ext ((inBuffer free).trans opened.early)
      have storable : extent96.Storable ⟨bh.blocknr,1⟩ := ⟨addressable.1,show 1 < 2^32 by decide⟩
      have room := stxWrtag_room repCopy openCopy (same.start.trans start) storable tagged
      obtain ⟨v',again,repTag,openTag,same'⟩ := stxWrtag_rep c d u' _ ⟨bh.blocknr,1⟩ repCopy openCopy room storable
      obtain rfl := some.inj (again.symm.trans tagged)
      exact ih addressable.2 repTag openTag (same'.start.trans (same.start.trans start)) rest

end

def File.frontBlks (f : File) : Nat := 1 + (f.dirtyIndex.length + f.nrEtagBlks)

theorem front_pending {f : File} (first : resvBlk c (newStageTx c x) = some (slot,s))
    (indexed : stageFillIndexBlk c x.block f.privateList s = some t) (tagged : wrtags c f.tags t = some u)
    (early : u.nrIssued = 0) :
    u.nrPending = f.frontBlks := by
  obtain ⟨slot',s',taken,rep,opened⟩ := newStageTx_rep c (fun _ => x.header) x
  obtain ⟨-,rfl⟩ := Prod.mk.inj (some.inj (taken.symm.trans first))
  have start : s'.start = 0 := (resvBlk_some taken).2.1.start
  obtain ⟨room,start'⟩ := stageFillIndexBlk_room f.addressable rep opened start indexed
  obtain ⟨t',again,rep',opened'⟩ := stageFillIndexBlk_rep c _ x.block f.privateList f.addressable s' _ rep opened room
  obtain rfl := some.inj (again.symm.trans indexed)
  obtain ⟨u',again,rep'',opened''⟩ := wrtags_rep c _ f.tags f.tags_storable t' _ rep' opened'
    (wrtags_room f.tags_storable rep' opened' start' tagged)
  obtain rfl := some.inj (again.symm.trans tagged)
  have pending := rep''.count
  rw [StageTx.count,early,Nat.zero_add] at pending
  obtain ⟨-,-,-,size⟩ := f.front_shape x
  change u'.nrPending = (f.front x).body.length + 1 at pending
  rw [pending,size,File.frontBlks]
  omega

section

theorem stxWrtag_desc (ext : s.extBlk = none) (nr : stageDescBlk.nr s.descBlkCopy = k)
    (few : k < stageDescBlkTagMax) (tagged : stxWrtag c s tag = some t) :
    (k + 1 < stageDescBlkTagMax ∧ t.count = s.count ∧ t.extBlk = none ∧ stageDescBlk.nr t.descBlkCopy = k + 1) ∨
      (k + 1 = stageDescBlkTagMax ∧ t.count = s.count + 1) := by
  have pushed : stageDescBlk.nr (stageDescBlk.push s.descBlkCopy tag) = k + 1 := by
    rw [stageDescBlk.nr_push _ (by rw [nr]; exact few),nr]
  rw [stxWrtag,ext] at tagged
  simp only [stxWriteDescTag,nr,if_neg (Nat.not_le.mpr few),fill,pushed,bind_some] at tagged
  split at tagged
  next full => exact .inr ⟨of_decide_eq_true full,(openExtBlk_some tagged).1⟩
  next open' =>
    obtain rfl := some.inj tagged
    have notFull : k + 1 ≠ stageDescBlkTagMax := fun full => open' (decide_eq_true full)
    exact .inl ⟨by omega,rfl,rfl,pushed⟩

theorem stageFillIndexBlk_grows (filled : stageFillIndexBlk c data bhs s = some t) :
    s.count + bhs.countP BufferHead.dirty ≤ t.count ∧ Same s t := by
  induction bhs generalizing s with
  | nil =>
    obtain rfl := some.inj filled
    exact ⟨Nat.le_refl _,⟨rfl,rfl,rfl⟩⟩
  | cons bh bhs ih =>
    rw [stageFillIndexBlk] at filled
    rw [countP_cons]
    split at filled
    next dirty =>
      obtain ⟨u,copied,filled⟩ := bind_eq_some_iff.mp filled
      obtain ⟨v,tagged,rest⟩ := bind_eq_some_iff.mp filled
      obtain ⟨one,same,-,-⟩ := copyBlk_some copied
      obtain ⟨more,same'⟩ := stxWrtag_some tagged
      obtain ⟨others,same''⟩ := ih rest
      rw [if_pos dirty]
      exact ⟨by omega,(same.trans same').trans same''⟩
    next clean =>
      rw [if_neg clean]
      exact ih filled

/-- The blocks of a directory: one for each dirty buffer, and more if their tags do not fit in the descriptor. -/
theorem stageFillIndexBlk_count (ext : s.extBlk = none)
    (nr : stageDescBlk.nr s.descBlkCopy = k) (few : k < stageDescBlkTagMax) (filled : stageFillIndexBlk c data bhs s = some t) :
    t.count = s.count + bhs.countP BufferHead.dirty ↔ k + bhs.countP BufferHead.dirty < stageDescBlkTagMax := by
  induction bhs generalizing s k with
  | nil =>
    obtain rfl := some.inj filled
    simpa using few
  | cons bh bhs ih =>
    rw [stageFillIndexBlk] at filled
    rw [countP_cons]
    split at filled
    next dirty =>
      obtain ⟨u,copied,filled⟩ := bind_eq_some_iff.mp filled
      obtain ⟨v,tagged,rest⟩ := bind_eq_some_iff.mp filled
      obtain ⟨one,-,desc,ext'⟩ := copyBlk_some copied
      rw [if_pos dirty]
      rcases stxWrtag_desc (ext'.trans ext) (by rw [desc]; exact nr) few tagged with ⟨less,same,ext'',nr''⟩ | ⟨full,more⟩
      · have others := ih ext'' nr'' less rest
        omega
      · have others := (stageFillIndexBlk_grows rest).1
        omega
    next clean =>
      rw [if_neg clean]
      exact ih ext nr few filled

end

/-! The commit block is issued while others are outstanding, also that of a directory. -/

theorem reckon_stx (s : Tx) (t : StageTx) : (reckon { s with stx := t }).commitBlk = (reckon s).commitBlk := by
  rw [reckon,reckon]
  split
  · rfl
  · split <;> rfl

theorem build_filling (filling : Filling c r) (built : build c frame x j inode r = some b) :
    Filling c b.stx := by
  cases inode with
  | regular f =>
    have built : buildStageTx c frame x j f r = some b := built
    rw [buildStageTx_eq] at built
    obtain ⟨s,indexed,built⟩ := bind_eq_some_iff.mp built
    obtain ⟨t,tagged,built⟩ := bind_eq_some_iff.mp built
    obtain ⟨u,fixed,built⟩ := bind_eq_some_iff.mp built
    obtain ⟨v,copied,rfl⟩ := map_eq_some_iff.mp built
    have tags := wrtags_filling _ (stageFillIndexBlk_filling x.block f.privateList filling indexed) tagged
    exact copyAll_filling _ (stageFixBlocks_filling tags fixed) copied
  | directory deleted bhs =>
    have built : buildStageDir c x j deleted bhs r = some b := built
    rw [buildStageDir] at built
    split at built
    · obtain rfl := some.inj built
      exact filling
    · obtain ⟨t,fixed,built⟩ := bind_eq_some_iff.mp built
      obtain ⟨u,filled,rfl⟩ := map_eq_some_iff.mp built
      exact stageFillIndexBlk_filling x.block bhs (stageFixBlocks_filling filling fixed) filled

theorem stageFileCounted_filling (staged : stageFileCounted c frame x j inode = some s) :
    ∃ u, Filling c u ∧ stageIo c ((reckon s).commitBlk.page x.commitBlk) u = some s.stx := by
  obtain ⟨⟨slot,r⟩,taken,staged⟩ := bind_eq_some_iff.mp staged
  obtain ⟨b,built,staged⟩ := bind_eq_some_iff.mp staged
  obtain ⟨t,wrote,rfl⟩ := map_eq_some_iff.mp staged
  exact ⟨b.stx,build_filling (newStageTx_filling taken) built,by rw [reckon_stx]; exact wrote⟩

/-- The commit block of every stage transaction, of a file with any waiting blocks and of a directory, can be issued
and be on the disk while blocks of the transaction are outstanding. -/
theorem stageFile_not_writeAhead (c : SeqBufs) (frame : IrdFrame → Page) (x : Contents) (j : StageArea.Journal) :
    (∀ f s, stageFile c j f x = some s → Unwaited c x.commitBlk s) ∧
      ∀ inode s, stageFileCounted c frame x j inode = some s → Unwaited c ((reckon s).commitBlk.page x.commitBlk) s.stx := by
  constructor
  · intro f s made
    obtain ⟨u,filling,wrote⟩ := stageFile_filling made
    exact unwaited_of_filling filling wrote
  · intro inode s staged
    obtain ⟨u,filling,wrote⟩ := stageFileCounted_filling staged
    exact unwaited_of_filling filling wrote

theorem sampleFile_staged (x : Contents) : ∃ s, stageFile sampleBufs sampleArea (sampleFile 2 (by decide)) x = some s := by
  obtain ⟨s,made,_⟩ := stageFile_onDisk sampleBufs sampleArea sampleStageLog (sampleFile 2 (by decide)) x (fun _ _ => 0)
    ⟨by decide,sampleArea_bounds,by decide,by decide,by decide,⟨1006,1001,0,2000,999⟩,1001,1005,by decide⟩
  exact ⟨s,made⟩

theorem two_fits : 2 < 2^31 := by decide

def sampleDir : Inode := .directory false (sampleFile 2 two_fits).privateList

theorem stageFile_not_writeAhead_twoPages :
    (∃ s, stageFile sampleBufs sampleArea (sampleFile 2 (by decide)) (marked 500) = some s ∧
      ¬ WriteAhead sampleBufs s.trace) ∧
      ∃ s, stageFileCounted sampleBufs (fun _ _ => 0) (marked 500) sampleArea sampleDir = some s ∧
        ¬ WriteAhead sampleBufs s.stx.trace := by
  have unwaited := stageFile_not_writeAhead sampleBufs (fun _ _ => 0) (marked 500) sampleArea
  obtain ⟨s,made⟩ := sampleFile_staged (marked 500)
  have some : (stageFileCounted sampleBufs (fun _ _ => 0) (marked 500) sampleArea sampleDir).isSome := by decide +kernel
  obtain ⟨t,staged⟩ := isSome_iff_exists.mp some
  exact ⟨⟨s,made,(unwaited.1 _ s made).1⟩,t,staged,(unwaited.2 _ t staged).1⟩

/-- One index block and two pages: the commit block is next, and the only write before it
has not completed. -/
theorem stageFile_commit_unwaited :
    ∃ s, stageFile sampleBufs sampleArea (sampleFile 2 (by decide)) (marked 500) = some s ∧
      ∃ acts io r n, run (Io.step sampleBufs) (.idle s.trace (fun _ _ => 0) 0) acts = some io ∧
        io.todo = [.issue ⟨.commit,s.commitBaddr,[(marked 500).commitBlk]⟩,.drainAllOutstanding] ∧
        r ∈ io.outstanding ∧ r.origin = .seq n := by
  obtain ⟨s,made⟩ := sampleFile_staged (marked 500)
  obtain ⟨u,filling,wrote⟩ := stageFile_filling made
  exact ⟨s,made,stageIo_outstanding filling wrote fun _ _ => 0⟩

end Oxbow.Daemon.Stage
