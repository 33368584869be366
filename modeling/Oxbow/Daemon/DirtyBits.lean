import Oxbow.Daemon.Fsync
import Oxbow.Daemon.IrdCodec
import Oxbow.Lib.BitRun
import Oxbow.Lib.ByteMap

/-! Gathering the dirty pages of an inode, `inode_gather_dirty_pagebits` of `libfs/shm.c`. A bit of the group bitmap stands for
the 32 MB of one page entry block, which has the dirty and the lock bits of their pages. The pages whose dirty bits are taken are
locked and go to the dirty lists in runs. -/
namespace Oxbow.Daemon.DirtyBits

open Oxbow.Lib.BitRun Oxbow.Lib.ByteMap Function
open Oxbow.Lib (u32)
open Fsync (Fetcher)
open Stage (IrdNode rangeDirtyEntMax)

def pageSize : Nat := 4096
def nrPageState : Nat := 4
def bitsInByte : Nat := 8
def bytesPerState : Nat := pageSize / nrPageState
def nrPagesInPeb : Nat := pageSize * bitsInByte / nrPageState
def lockbitStartIndex : Nat := bytesPerState * 1

/-! The lists of dirty ranges. -/

inductive Packed : List IrdNode → Prop
  | last (node : IrdNode) (room : node.dirtyPages.length ≤ rangeDirtyEntMax) : Packed [node]
  | cons (node : IrdNode) (next : List IrdNode) (full : node.dirtyPages.length = rangeDirtyEntMax) (rest : Packed next) :
    Packed (node :: next)

def addAt (start nr : Nat) : Nat → List IrdNode → List IrdNode × Nat
  | _, [] => ([⟨[(start,(nr : Int))],u32 (0 + nr)⟩],0)
  | 0, node :: next =>
    if node.dirtyPages.length = rangeDirtyEntMax then
      (node :: (addAt start nr 0 next).1,(addAt start nr 0 next).2 + 1)
    else (⟨node.dirtyPages ++ [(start,(nr : Int))],u32 (node.dirtyBlkNr + nr)⟩ :: next,0)
  | k + 1, node :: next => (node :: (addAt start nr k next).1,(addAt start nr k next).2 + 1)

theorem Packed.length_pos (packed : Packed nodes) : 0 < nodes.length := by
  cases packed <;> simp

theorem Packed.addAt (packed : Packed nodes) (start nr : Nat) : ∀ {k}, k < nodes.length →
    Packed (addAt start nr k nodes).1 := by
  induction packed with
  | last node room =>
    intro k inside
    obtain rfl : k = 0 := by simpa using inside
    rw [DirtyBits.addAt]
    split
    next full => exact .cons node _ full (.last _ (by simp [rangeDirtyEntMax]))
    next more =>
      refine .last _ ?_
      simp only [List.length_append,List.length_singleton]
      omega
  | cons node next full rest ih =>
    intro k inside
    cases k with
    | zero =>
      rw [DirtyBits.addAt,if_pos full]
      exact .cons node _ full (ih rest.length_pos)
    | succ k => exact .cons node _ full (ih (by simpa using inside))

/-- The nodes from `…_dirty_start` on, and `…_dirty_tail`, the place of the node that took the last range. -/
structure DirtyList where
  nodes : List IrdNode
  packed : Packed nodes
  tail : Option Nat

namespace DirtyList

def resetTail (l : DirtyList) : DirtyList := { l with tail := none }

/-- The search starts from the cached tail. A tail that is not in the list is not followed here; it is reset before. -/
def add (l : DirtyList) (start nr : Nat) : DirtyList :=
  if inside : l.tail.getD 0 < l.nodes.length then
    ⟨(addAt start nr (l.tail.getD 0) l.nodes).1,l.packed.addAt start nr inside,
      some (addAt start nr (l.tail.getD 0) l.nodes).2⟩
  else l

def dirtyPages (l : DirtyList) : List (Nat × Int) := l.nodes.flatMap IrdNode.dirtyPages

end DirtyList

inductive Target
  | journal (df : Fetcher)
  | staging
  deriving DecidableEq, Repr

structure Lists where
  iJournalDirty : DirtyList
  iJournalWaitingDirty : Fetcher → DirtyList
  iJournalWaitingNrDirtyBlks : Fetcher → BitVec 32
  iStgDirty : DirtyList

def addRangeDirtyJournal (start nr : Nat) (df : Fetcher) (l : Lists) : Lists :=
  if nr = 0 then l
  else
    { l with
      iJournalDirty := l.iJournalDirty.add start nr
      iJournalWaitingDirty := update l.iJournalWaitingDirty df ((l.iJournalWaitingDirty df).add start nr)
      iJournalWaitingNrDirtyBlks :=
        update l.iJournalWaitingNrDirtyBlks df (l.iJournalWaitingNrDirtyBlks df + BitVec.ofNat 32 nr) }

def addRangeDirtyStaging (start nr : Nat) (l : Lists) : Lists :=
  if nr = 0 then l else { l with iStgDirty := l.iStgDirty.add start nr }

def addRangeDirty (target : Target) (start nr : Nat) (l : Lists) : Lists :=
  match target with
  | .journal df => addRangeDirtyJournal start nr df l
  | .staging => addRangeDirtyStaging start nr l

def resetTails (target : Target) (l : Lists) : Lists :=
  match target with
  | .journal df =>
    { l with
      iJournalDirty := l.iJournalDirty.resetTail
      iJournalWaitingDirty := update l.iJournalWaitingDirty df (l.iJournalWaitingDirty df).resetTail }
  | .staging => { l with iStgDirty := l.iStgDirty.resetTail }

/-! The scan of a page entry block. -/

structure Scan where
  dlBmap : Nat → BitVec 8
  lists : Lists
  pos : Nat
  count : Nat

section

variable (target : Target) (bmapIdx : Nat)

def flush (z : Scan) : Scan :=
  if z.count ≠ 0 then
    { z with lists := addRangeDirty target (z.pos + bmapIdx * nrPagesInPeb) z.count z.lists, count := 0 }
  else z

/-- A page that is locked already ends the scan where it stands. -/
def gatherBit (currByte : BitVec 8) (byteOffset : Nat) (z : Scan) (bit : Nat) : Except Scan Scan :=
  let lockByteOffset := byteOffset + lockbitStartIndex
  if currByte.getLsbD bit then
    let z := { z with
      pos := if z.count = 0 then bit + byteOffset * bitsInByte else z.pos
      count := z.count + 1
      dlBmap := clearBit z.dlBmap byteOffset bit }
    if (z.dlBmap lockByteOffset).getLsbD bit then .error z
    else .ok { z with dlBmap := setBit z.dlBmap lockByteOffset bit }
  else .ok (flush target bmapIdx z)

def gatherByte (word : BitVec 64) (i : Nat) (z : Scan) (byte : Nat) : Except Scan Scan :=
  let currByte := byteOf word byte
  if currByte = 0#8 then .ok (flush target bmapIdx z)
  else (List.range bitsInByte).foldlM (gatherBit target bmapIdx currByte (i * 8 + byte)) z

def gatherWord (z : Scan) (i : Nat) : Except Scan Scan :=
  let word := word64 z.dlBmap i
  if word = 0#64 then .ok (flush target bmapIdx z)
  else (List.range 8).foldlM (gatherByte target bmapIdx word i) z

def gatherDirtyBits (dlBmap : Nat → BitVec 8) (l : Lists) : Scan × Int :=
  match (List.range (bytesPerState / 8)).foldlM (gatherWord target bmapIdx) ⟨dlBmap,resetTails target l,0,0⟩ with
  | .ok z => (flush target bmapIdx z,0)
  | .error z => (z,-1)

end

/-! The scan of the group bitmap. -/

structure Inode where
  dgBmap : Nat → BitVec 8
  dlBmap : Nat → Nat → BitVec 8
  lists : Lists

def firstSetBit (byte : BitVec 8) (pos : Nat) : Nat :=
  if pos < 8 ∧ byte.getLsbD pos = false then firstSetBit byte (pos + 1) else pos
termination_by 8 - pos

theorem firstSetBit_least (byte : BitVec 8) (pos : Nat) (most : pos ≤ 8) :
    firstSetBit byte pos ≤ 8 ∧ (∀ j, pos ≤ j → j < firstSetBit byte pos → byte.getLsbD j = false) ∧
      (firstSetBit byte pos < 8 → byte.getLsbD (firstSetBit byte pos) = true) := by
  fun_induction firstSetBit byte pos with
  | case1 pos clear ih =>
    obtain ⟨bound,least,set⟩ := ih (by omega)
    refine ⟨bound,?_,set⟩
    intro j low high
    by_cases first : j = pos
    · rw [first]
      exact clear.2
    · exact least j (by omega) high
  | case2 pos stop =>
    refine ⟨most,by omega,?_⟩
    intro small
    simpa [small] using stop

section

variable (dgBmap : Nat → BitVec 8) (i : Nat)

def bytePos : Nat := i * 8 + (word64 dgBmap i).ctz.toNat / 8
def bitPos : Nat := firstSetBit (dgBmap (bytePos dgBmap i)) 0

def nextGroup : Nat := bitPos dgBmap i + bytePos dgBmap i * bitsInByte

end

theorem nextGroup_first (some : word64 dgBmap i ≠ 0#64) :
    bitPos dgBmap i < 8 ∧ i * 64 ≤ nextGroup dgBmap i ∧ nextGroup dgBmap i < i * 64 + 64 ∧
      bit dgBmap (nextGroup dgBmap i) = true ∧ ∀ g, i * 64 ≤ g → g < nextGroup dgBmap i → bit dgBmap g = false := by
  have low : (word64 dgBmap i).ctz.toNat < 64 := by
    have small := BitVec.ctz_lt_iff_ne_zero.mpr some
    rw [BitVec.lt_def] at small
    simpa using small
  have set := BitVec.getLsbD_true_ctz_of_ne_zero some
  have lowest : ∀ k < (word64 dgBmap i).ctz.toNat, bit dgBmap (i * 64 + k) = false := by
    intro k below
    rw [← getLsbD_word64 dgBmap i (by omega)]
    exact BitVec.getLsbD_false_of_lt_ctz below
  rw [getLsbD_word64 dgBmap i low] at set
  have byte : i * 64 + (word64 dgBmap i).ctz.toNat = bytePos dgBmap i * 8 + (word64 dgBmap i).ctz.toNat % 8 := by
    rw [bytePos]
    omega
  rw [byte,bit_eq dgBmap _ (by omega)] at set
  obtain ⟨-,least,first⟩ := firstSetBit_least (dgBmap (bytePos dgBmap i)) 0 (by omega)
  change bitPos dgBmap i < 8 → _ at first
  have reached : bitPos dgBmap i ≤ (word64 dgBmap i).ctz.toNat % 8 := by
    by_contra beyond
    have clear := least _ (Nat.zero_le _) (Nat.not_le.mp beyond)
    rw [set] at clear
    exact Bool.false_ne_true clear.symm
  have group : nextGroup dgBmap i = bytePos dgBmap i * 8 + bitPos dgBmap i := Nat.add_comm _ _
  refine ⟨by omega,by omega,by omega,?_,?_⟩
  · rw [group,bit_eq dgBmap _ (by omega)]
    exact first (by omega)
  · intro g above below
    by_cases earlier : g - i * 64 < (word64 dgBmap i).ctz.toNat
    · have place : i * 64 + (g - i * 64) = g := by omega
      rw [← place]
      exact lowest _ earlier
    · -- the lowest bit of the word is in the same byte, at or behind the lowest bit of the byte
      omega

theorem nextGroup_count (some : word64 dgBmap i ≠ 0#64) :
    count (bit (clearBit dgBmap (bytePos dgBmap i) (bitPos dgBmap i))) (i * 64) (i * 64 + 64) <
      count (bit dgBmap) (i * 64) (i * 64 + 64) := by
  obtain ⟨small,above,below,set,-⟩ := nextGroup_first some
  have group : nextGroup dgBmap i = bytePos dgBmap i * 8 + bitPos dgBmap i := Nat.add_comm _ _
  have cleared : bit (clearBit dgBmap (bytePos dgBmap i) (bitPos dgBmap i)) = fill (bit dgBmap)
      (nextGroup dgBmap i) 1 false := by
    funext g
    rw [bit_clearBit dgBmap small,fill,group]
    exact if_congr (by omega) rfl rfl
  have fewer := count_clear above (show nextGroup dgBmap i + 1 ≤ i * 64 + 64 from below)
    (show RunAt (bit dgBmap) (nextGroup dgBmap i) 1 by simpa [RunAt] using set)
  rw [cleared]
  omega

def gatherGroup (target : Target) (bmapIdx : Nat) (dgBmap : Nat → BitVec 8) (s : Inode) : Inode :=
  let z := (gatherDirtyBits target bmapIdx (s.dlBmap bmapIdx) s.lists).1
  ⟨dgBmap,update s.dlBmap bmapIdx z.dlBmap,z.lists⟩

def gatherGroups (target : Target) (i : Nat) (s : Inode) : Inode :=
  if _ : word64 s.dgBmap i = 0#64 then s
  else
    gatherGroups target i
      (gatherGroup target (nextGroup s.dgBmap i) (clearBit s.dgBmap (bytePos s.dgBmap i) (bitPos s.dgBmap i)) s)
termination_by count (bit s.dgBmap) (i * 64) (i * 64 + 64)
decreasing_by exact nextGroup_count ‹_›

def resetWaitingNr (target : Target) (l : Lists) : Lists :=
  match target with
  | .journal df => { l with iJournalWaitingNrDirtyBlks := update l.iJournalWaitingNrDirtyBlks df 0#32 }
  | .staging => l

def inodeGatherDirtyPagebits (target : Target) (s : Inode) : Inode :=
  (List.range (pageSize / 8)).foldl (fun s i => gatherGroups target i s) { s with lists := resetWaitingNr target s.lists }

end Oxbow.Daemon.DirtyBits
