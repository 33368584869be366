import Oxbow.Daemon.Readahead
import Oxbow.Daemon.SefsExtents
import Oxbow.Daemon.StageTx
import Oxbow.Lib.Locks

/-! The locks of a file that `sync_file`, `build_stage_tx` and `build_stage_dir` take. What the calls
under them answer is given with the call; the lists of the file and the journal have locks of their own. -/
namespace Oxbow.Daemon.FsyncLocks

open Oxbow.Lib Locks Function List
open Readahead (sizeToBlkNr)
open SefsExtents (nrBlksToAlloc)
open Stage (BufferExtent)

inductive Lock
  | shared
  | dir
  | inode
  | idx
  deriving DecidableEq, Repr

inductive Mode
  | reg
  | dir
  | other
  deriving DecidableEq, Repr

/-- A run of dirty pages and the extents that `get_blocks` answers for it one after another; it fails
when it is asked for more. -/
structure DirtyRun where
  start : Nat
  nr : Nat
  extents : List BufferExtent

structure Outcomes where
  mode : Mode
  deleted : Bool
  iSize : Nat
  recentIsize : Nat
  allocations : Nat
  dirty : List (List DirtyRun)
  syncDirent : Bool
  /-- `sync_inode_metadata` and the file system's `stage_inode` take none of the locks. -/
  syncInodeMetadata : Bool
  stageInode : Bool

def getBlocks (answer : Bool) : Call Lock Bool := do
  acquire .idx
  release .idx
  return answer

def allocRounds : Nat → Nat → Call Lock Bool
  | 0, _ => getBlocks false
  | allocations + 1, cnt => do
    let _ ← getBlocks true
    if nrBlksToAlloc < cnt then allocRounds allocations (cnt - nrBlksToAlloc) else return true

def inodeAllocBlocks (o : Outcomes) : Call Lock Bool :=
  let old := sizeToBlkNr o.iSize
  let new := sizeToBlkNr o.recentIsize
  if new ≤ old then return true else allocRounds o.allocations (new - old)

def updateSize (o : Outcomes) : Call Lock Bool :=
  if o.iSize = o.recentIsize then return true else inodeAllocBlocks o

def mapRun : List BufferExtent → Nat → Nat → Call Lock Bool
  | [], _, _ => getBlocks false
  | be :: extents, start, cnt => do
    let _ ← getBlocks true
    if start + cnt ≤ be.iblock + be.nr then return true
    else if start < be.iblock + be.nr then
      let tmp := be.iblock + be.nr - start
      mapRun extents (start + tmp) (cnt - tmp)
    else mapRun extents start cnt

def mapNode : List DirtyRun → Call Lock Bool
  | [] => return true
  | r :: rest => do
    if r.nr = 0 then mapNode rest
    else if ← mapRun r.extents r.start r.nr then mapNode rest
    else return false

/-- The loop over the dirty runs, which `sync_file_data` and `stage_fill_tags` both have: the chain is
followed up to a node without entries, and left at the first failure. -/
def mapRuns : List (List DirtyRun) → Call Lock Bool
  | [] => return true
  | node :: next => do
    if ← mapNode node then
      if (next.head?.getD []).isEmpty then return true else mapRuns next
    else return false

section

variable (o : Outcomes)

def syncFileData : Call Lock Bool := mapRuns o.dirty

def syncFile : Call Lock Bool :=
  match o.mode with
  | .reg => do
    acquire .shared
    if ← updateSize o then
      let data ← syncFileData o
      release .shared
      return data && o.syncInodeMetadata
    else return false
  | .dir => do
    acquire .inode
    release .inode
    return o.syncDirent && o.syncInodeMetadata
  | .other => return false

def stageInode : Call Lock Bool :=
  if o.mode = .dir then return o.stageInode
  else do
    if ← updateSize o then return o.stageInode else return false

/-- The tags are left as they are where `get_blocks` fails; nothing is reported. -/
def stageFillTags : Call Lock Unit := do
  let _ ← mapRuns o.dirty

def buildStageTx : Call Lock Bool := do
  acquire .shared
  if ← stageInode o then
    -- `check_and_add_journal_file` and the stage list
    acquire .inode
    release .inode
    release .shared
    stageFillTags o
    return true
  else return false

def buildStageDir : Call Lock Bool := do
  acquire .inode
  if o.deleted then
    release .inode
    return true
  else
    release .inode
    acquire .dir
    if ← stageInode o then
      release .dir
      return true
    else
      release .dir
      return false

end

inductive Act
  | syncFile (o : Outcomes)
  | buildStageTx (o : Outcomes)
  | buildStageDir (o : Outcomes)
  | write

def Act.call : Act → Call Lock Bool
  | .syncFile o => FsyncLocks.syncFile o
  | .buildStageTx o => FsyncLocks.buildStageTx o
  | .buildStageDir o => FsyncLocks.buildStageDir o
  | .write => do
    acquire .shared
    release .shared
    return true

/-- The call returns, holds what it held before and has released each lock as often as it acquired it. -/
def Releases (held : Lock → Bool) (act : Act) (after : Lock → Bool) : Prop :=
  act.call.Takes held after ∧ after = held ∧
    ∀ lock, count (.acquire lock) act.call.events = count (.release lock) act.call.events

/-- `get_blocks` does not fail before every block the file has grown by is allocated. -/
def Outcomes.Allocates (o : Outcomes) : Prop :=
  sizeToBlkNr o.recentIsize - sizeToBlkNr o.iSize ≤ o.allocations * nrBlksToAlloc

instance (o : Outcomes) : Decidable o.Allocates := inferInstanceAs (Decidable (_ ≤ _))

/-- No failure falls between the shared lock and its release. -/
def Act.Clean : Act → Prop
  | .syncFile o => o.mode = .reg → o.Allocates
  | .buildStageTx o => (o.mode ≠ .dir → o.Allocates) ∧ o.stageInode = true
  | .buildStageDir _ | .write => True

variable {held : Lock → Bool}

section

variable (idx : held .idx = false)
include idx

theorem getBlocks_takes (answer : Bool) : (getBlocks answer).Takes held held :=
  .locked idx (.unlocked idx (takes_pure answer))

theorem allocRounds_takes (allocations cnt : Nat) : (allocRounds allocations cnt).Takes held held := by
  induction allocations generalizing cnt with
  | zero => exact getBlocks_takes idx false
  | succ allocations ih =>
    refine (getBlocks_takes idx true).bind ?_
    split
    · exact ih (cnt - nrBlksToAlloc)
    · exact takes_pure true

theorem updateSize_takes (o : Outcomes) : (updateSize o).Takes held held := by
  rw [updateSize,inodeAllocBlocks]
  split
  · exact takes_pure true
  · split
    · exact takes_pure true
    · exact allocRounds_takes idx _ _

theorem stageInode_takes (o : Outcomes) : (stageInode o).Takes held held := by
  rw [stageInode]
  split
  · exact takes_pure _
  · refine (updateSize_takes idx o).bind ?_
    split
    · exact takes_pure _
    · exact takes_pure _

theorem mapRun_takes (extents : List BufferExtent) (start cnt : Nat) : (mapRun extents start cnt).Takes held held := by
  induction extents generalizing start cnt with
  | nil => exact getBlocks_takes idx false
  | cons be extents ih =>
    refine (getBlocks_takes idx true).bind ?_
    split
    · exact takes_pure true
    · split
      · exact ih _ _
      · exact ih start cnt

theorem mapNode_takes (node : List DirtyRun) : (mapNode node).Takes held held := by
  induction node with
  | nil => exact takes_pure true
  | cons r rest ih =>
    rw [mapNode]
    split
    · exact ih
    · refine (mapRun_takes idx r.extents r.start r.nr).bind ?_
      split
      · exact ih
      · exact takes_pure false

theorem mapRuns_takes (nodes : List (List DirtyRun)) : (mapRuns nodes).Takes held held := by
  induction nodes with
  | nil => exact takes_pure true
  | cons node next ih =>
    refine (mapNode_takes idx node).bind ?_
    split
    · split
      · exact takes_pure true
      · exact ih
    · exact takes_pure false

end

theorem allocRounds_result (grown : 0 < cnt) (allocations : Nat) :
    (allocRounds allocations cnt).result = true ↔ cnt ≤ allocations * nrBlksToAlloc := by
  induction allocations generalizing cnt with
  | zero => simp [allocRounds,getBlocks,Nat.not_le.mpr grown]
  | succ allocations ih =>
    rw [allocRounds,bind_result,Nat.succ_mul]
    split
    next more =>
      rw [ih (Nat.sub_pos_of_lt more),Nat.sub_le_iff_le_add]
    next last =>
      simp only [pure_result,true_iff]
      omega

theorem updateSize_result (o : Outcomes) : (updateSize o).result = true ↔ o.Allocates := by
  rw [updateSize,inodeAllocBlocks,Outcomes.Allocates]
  split
  next same => simp [same]
  next =>
    split
    next shrunk => simp [Nat.sub_eq_zero_of_le shrunk]
    next grown => exact allocRounds_result (Nat.sub_pos_of_lt (Nat.lt_of_not_le grown)) o.allocations

theorem stageInode_result (o : Outcomes) :
    (stageInode o).result = true ↔ (o.mode ≠ .dir → o.Allocates) ∧ o.stageInode = true := by
  rw [stageInode]
  split
  next dir => simp [dir]
  next file =>
    rw [bind_result,← updateSize_result]
    split
    next allocated => simp [allocated]
    next failed => simp [file,failed]

def free : Lock → Bool := fun _ => false

def sharedHeld : Lock → Bool := update free .shared true

theorem Act.Clean.takes {act : Act} (clean : act.Clean) : act.call.Takes free free := by
  cases act with
  | syncFile o =>
    rw [Act.call,FsyncLocks.syncFile]
    split
    next reg =>
      refine .locked rfl ((updateSize_takes rfl o).bind ?_)
      rw [if_pos ((updateSize_result o).mpr (clean reg))]
      exact (mapRuns_takes rfl o.dirty).bind (.unlocked rfl (takes_pure _))
    next => exact .locked rfl (.unlocked rfl (takes_pure _))
    next => exact takes_pure _
  | buildStageTx o =>
    refine .locked rfl ((stageInode_takes rfl o).bind ?_)
    rw [if_pos ((stageInode_result o).mpr clean)]
    have tagged : (stageFillTags o).Takes free free := (mapRuns_takes rfl o.dirty).bind (takes_pure ())
    exact .locked rfl (.unlocked rfl (.unlocked rfl (tagged.bind (takes_pure true))))
  | buildStageDir o =>
    refine .locked rfl ?_
    split
    · exact .unlocked rfl (takes_pure true)
    · refine .unlocked rfl (.locked rfl ((stageInode_takes rfl o).bind ?_))
      split
      · exact .unlocked rfl (takes_pure true)
      · exact .unlocked rfl (takes_pure false)
  | write => exact .locked rfl (.unlocked rfl (takes_pure true))

theorem takes_failed {act : Act} (failed : ¬act.Clean) : act.call.Takes free sharedHeld := by
  cases act with
  | syncFile o =>
    obtain ⟨reg,failed⟩ : o.mode = .reg ∧ ¬o.Allocates := by simpa [Act.Clean] using failed
    rw [Act.call,FsyncLocks.syncFile,reg]
    refine .locked rfl ((updateSize_takes rfl o).bind ?_)
    rw [if_neg (failed ∘ (updateSize_result o).mp)]
    exact takes_pure false
  | buildStageTx o =>
    refine .locked rfl ((stageInode_takes rfl o).bind ?_)
    rw [if_neg (failed ∘ (stageInode_result o).mp)]
    exact takes_pure false
  | buildStageDir | write => exact absurd trivial failed

theorem releases_iff (act : Act) (after : Lock → Bool) : Releases free act after ↔ after = free ∧ act.Clean := by
  constructor
  · rintro ⟨takes,rfl,-⟩
    refine ⟨rfl,?_⟩
    by_contra failed
    have same : free = sharedHeld := takes.unique (takes_failed failed)
    exact Bool.false_ne_true (congrFun same .shared)
  · rintro ⟨rfl,clean⟩
    refine ⟨clean.takes,rfl,?_⟩
    intro lock
    exact Nat.add_right_cancel (clean.takes.count lock)

/-- Every call releases what it acquired, once, if and only if no failure falls between the shared lock
and its release. -/
theorem fsync_releases_iff (acts : List Act) : Meets Releases free acts ↔ ∀ act ∈ acts, act.Clean := by
  induction acts with
  | nil => simp [Meets]
  | cons act acts ih =>
    rw [forall_mem_cons,← ih,Meets]
    constructor
    · rintro ⟨after,releases,rest⟩
      obtain ⟨rfl,clean⟩ := (releases_iff act after).mp releases
      exact ⟨clean,rest⟩
    · rintro ⟨clean,rest⟩
      exact ⟨free,(releases_iff act free).mpr ⟨rfl,clean⟩,rest⟩

def noSpace : Outcomes where
  mode := .reg
  deleted := false
  iSize := 0
  recentIsize := 4096
  allocations := 0
  dirty := []
  syncDirent := true
  syncInodeMetadata := true
  stageInode := true

/-- `sync_file` and `build_stage_tx` fail for it with the shared lock held, and a writer waits for ever. -/
theorem failed_fsync_blocks_writer :
    run step free (syncFile noSpace).events = some sharedHeld ∧ (syncFile noSpace).result = false ∧
      run step free (buildStageTx noSpace).events = some sharedHeld ∧ (buildStageTx noSpace).result = false ∧
      run step sharedHeld Act.write.call.events = none := by
  have full : ¬noSpace.Allocates := by decide
  have unsynced : ¬(Act.syncFile noSpace).Clean := fun clean => full (clean rfl)
  have unstaged : ¬(Act.buildStageTx noSpace).Clean := fun clean => full (clean.1 (by decide))
  exact ⟨takes_failed unsynced,rfl,takes_failed unstaged,by decide,rfl⟩

end Oxbow.Daemon.FsyncLocks
