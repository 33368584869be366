import Oxbow.Common.Sjd
import Oxbow.DevFS.Coalesce

/-! Pass 1 of `do_checkpoint_coalesce` for one stage transaction: the tags of its descriptor
and of the extent tag blocks behind it become one group of the tag list, and the group's data
blocks are taken to follow the tag blocks. -/
namespace Oxbow.DevFS

open Oxbow.Lib Oxbow.Sjd

def readBl (disk : Disk) (bl : List Bio) : List Page := (blBlocks bl).map fun b => disk b.1

def readStageDescBlk (stage : LogRing) (disk : Disk) (stageStart : Nat) : Page :=
  disk (if checkWrapAround stageStart 1 stage.last then wrappedBaddr stage.first stage.last stageStart
    else stageStart)

def nrEtagBlks (sdb : Page) : Nat := word sdb stageNrEtagBlksAt

def readEtagBlocks (stage : LogRing) (disk : Disk) (etagBlkStart nrEtagBlks : Nat) : List Page :=
  if checkWrapAround etagBlkStart nrEtagBlks stage.last then
    let nBlks := u64 (sub64 stage.last etagBlkStart + 1)
    readBl disk (addBioToBl 0 etagBlkStart nBlks ++ addBioToBl nBlks stage.first (sub64 nrEtagBlks nBlks))
  else readBl disk (addBioToBl 0 etagBlkStart nrEtagBlks)

/-- The tag list nodes of one stage transaction, or `none` when the assertion on an empty
transaction fails. -/
def scanStageTx (stage : LogRing) (disk : Disk) (stageStart : Nat) : Option (List TagListNode) :=
  let sdb := readStageDescBlk stage disk stageStart
  if stageDescBlk.nr sdb = 0 then if nrEtagBlks sdb = 0 then some [] else none
  else
    let jebs := if 0 < nrEtagBlks sdb then readEtagBlocks stage disk (stageStart + 1) (nrEtagBlks sdb) else []
    let srcStartBaddr := stageStart + nrEtagBlks sdb + 1
    some ((stageDescBlk.entries sdb ++ jebs.flatMap etagBlk.entries).map fun tag =>
      ⟨tag.start,srcStartBaddr,tag.len,true⟩)

def groupWrites (ring : Ring) (src : Nat) (nodes : List TagListNode) : List (Nat × Nat) :=
  (nodes.flatMap fun n => (List.range n.cnt).map (n.start + ·)).mapIdx fun k d => (ring.block src k,d)

def decodeStageTx (stage : LogRing) (disk : Disk) (stageStart : Nat) : Option (List (Page × Nat)) :=
  (scanStageTx stage disk stageStart).map fun nodes =>
    (groupWrites stage.toRing (stageStart + nrEtagBlks (readStageDescBlk stage disk stageStart) + 1) nodes).map
      fun w => (disk w.1,w.2)

theorem readBl_add (disk : Disk) (buf start n : Nat) :
    readBl disk (addBioToBl buf start n) = (List.range n).map fun i => disk (start + i) := by
  simp only [readBl,addBioToBl_blocks,List.map_map]
  rfl

section

variable (stage : LogRing) (disk : Disk)

theorem readStageDescBlk_inside (inside : start ≤ stage.last) : readStageDescBlk stage disk start = disk start := by
  have := stage.addressable
  have straight : checkWrapAround start 1 stage.last = false := by
    rw [Bool.eq_false_iff,ne_eq,checkWrapAround_iff _ _ _ (by omega) (by omega)]
    omega
  rw [readStageDescBlk,straight]
  rfl

theorem readEtagBlocks_inside (positive : 0 < n) (inside : start + n ≤ stage.last + 1) :
    readEtagBlocks stage disk start n = (List.range n).map fun i => disk (start + i) := by
  have := stage.addressable
  have straight : checkWrapAround start n stage.last = false := by
    rw [Bool.eq_false_iff,ne_eq,checkWrapAround_iff _ _ _ positive (by omega)]
    omega
  rw [readEtagBlocks,straight]
  exact readBl_add disk 0 start n

theorem scanStageTx_inside (tagged : stageDescBlk.nr (disk start) ≠ 0)
    (inside : start + nrEtagBlks (disk start) ≤ stage.last) : scanStageTx stage disk start = some
      ((stageDescBlk.entries (disk start) ++
        (List.range (nrEtagBlks (disk start))).flatMap fun i => etagBlk.entries (disk (start + 1 + i))).map
        fun tag => ⟨tag.start,start + nrEtagBlks (disk start) + 1,tag.len,true⟩) := by
  rw [scanStageTx,readStageDescBlk_inside stage disk (by omega)]
  simp only [if_neg tagged]
  by_cases spilled : 0 < nrEtagBlks (disk start)
  · rw [if_pos spilled,readEtagBlocks_inside stage disk spilled (by omega),List.flatMap_map]
  · have none : nrEtagBlks (disk start) = 0 := by omega
    simp [none]

end

end Oxbow.DevFS
