import Mathlib.Algebra.Ring.Nat
import Oxbow.Lib.BitRun
import Oxbow.Lib.Ring
import Oxbow.Lib.Run

/-! Block allocation of sefs: the bitmap and the superblock that `mkfs` writes, the counters that the mount computes,
and `sefs_get_free_blocks` and `sefs_put_blocks` on them. A bit that is set is a free block. -/
namespace Oxbow.Daemon.SefsBlocks

open Oxbow.Lib Oxbow.Lib.BitRun

def sefsBlockSize : Nat := 4096
def bitmapBlkNr : Nat := 32768
def sefsInodesPerBlock : Nat := 56
def sefsFsMaxSize : Nat := 2^41

structure SbInfo where
  nrIstoreBlocks : Nat
  nrIfreeBlocks : Nat
  nrBfreeBlocks : Nat
  nrFreeBlocks : Nat
  journalSb : Nat
  deriving DecidableEq, Repr

def idivCeil (a b : Nat) : Nat := if a % b ≠ 0 then a / b + 1 else a / b

def writeSuperblock (size : Nat) (hasJournal : Bool) : SbInfo :=
  let nrBlocks := u32 (size / sefsBlockSize)
  let nrJournalBlocks := if hasJournal then nrBlocks / 5 else 0
  let nrInodes := sub32 nrBlocks nrJournalBlocks / 64
  let mod := nrInodes % sefsInodesPerBlock
  let nrInodes := if mod ≠ 0 then u32 (nrInodes + (sefsInodesPerBlock - mod)) else nrInodes
  let nrIstoreBlocks := idivCeil nrInodes sefsInodesPerBlock
  let nrIfreeBlocks := idivCeil nrInodes bitmapBlkNr
  let nrBfreeBlocks := idivCeil nrBlocks bitmapBlkNr
  let nrDataBlocks :=
    sub32 (sub32 (sub32 (sub32 (sub32 nrBlocks nrIstoreBlocks) nrIfreeBlocks) nrBfreeBlocks) (u32 (2 * nrJournalBlocks))) 1
  { nrIstoreBlocks, nrIfreeBlocks, nrBfreeBlocks
    nrFreeBlocks := sub32 nrDataBlocks 1
    journalSb := sub32 nrBlocks (u32 (2 * nrJournalBlocks)) }

def mkfs (blockDevice hasJournal : Bool) (size : Nat) : Option SbInfo :=
  let size := if blockDevice ∧ sefsFsMaxSize < size then sefsFsMaxSize else size
  if size ≤ 100 * sefsBlockSize then none else some (writeSuperblock size hasJournal)

def SbInfo.firstDataBlock (sb : SbInfo) : Nat := u32 (1 + sb.nrBfreeBlocks + sb.nrIfreeBlocks + sb.nrIstoreBlocks)

def SbInfo.nrUsed (sb : SbInfo) : Nat := u32 (sb.nrIstoreBlocks + sb.nrIfreeBlocks + sb.nrBfreeBlocks + 2)

/-- The loop over the bits of a line in `write_bfree_blocks`; `bits` is how many shifts leave the mask nonzero. -/
def usedLine : Nat → BitVec 64 → BitVec 64 → Nat → BitVec 64 × Nat
  | 0,_,line,nrUsed => (line,nrUsed)
  | bits + 1,mask,line,nrUsed =>
    if nrUsed - 1 = 0 then (line &&& ~~~mask,0) else usedLine bits (mask <<< 1) (line &&& ~~~mask) (nrUsed - 1)

def usedWord (nrUsed : Nat) : Nat → BitVec 64
  | 0 => if nrUsed = 0 then BitVec.allOnes 64 else (usedLine 64 1 (BitVec.allOnes 64) nrUsed).1
  | j + 1 => if nrUsed = 0 then BitVec.allOnes 64 else usedWord (usedLine 64 1 (BitVec.allOnes 64) nrUsed).2 j

def writeBfreeBlocks (nrUsed : Nat) : Nat → Nat → BitVec 64
  | 0 => if bitmapBlkNr < nrUsed then fun _ => 0 else usedWord nrUsed
  | i + 1 => if bitmapBlkNr < nrUsed then writeBfreeBlocks (nrUsed - bitmapBlkNr) i else fun _ => BitVec.allOnes 64

/-- The place of the lowest set bit; the builtin has no defined value at zero. -/
def builtinCtzll (atZero : Nat) (word : BitVec 64) : Nat := ((List.range 64).find? fun j => word.getLsbD j).getD atZero

def countZeroBits (atZero : Nat) (bmap : Nat → BitVec 64) : Nat :=
  sub32 (sefsBlockSize * 8) ((List.range 512).map fun j => builtinCtzll atZero (bmap j)).sum

structure Fs where
  bfree : Nat → Nat → Bool
  bfreeBitLeft : Nat → Nat
  nrFreeBlocks : Nat

def fillSuper (atZero : Nat) (sb : SbInfo) : Fs where
  bfree i b := (writeBfreeBlocks sb.nrUsed i (b / 64)).getLsbD (b % 64)
  bfreeBitLeft i := countZeroBits atZero (writeBfreeBlocks sb.nrUsed i)
  nrFreeBlocks := sb.nrFreeBlocks

def firstFreeBits (freemap : Nat → Bool) (len : Nat) : (left bit prev count : Nat) → Option Nat
  | 0,_,_,_ => none
  | left + 1,bit,prev,count =>
    if freemap bit then
      let count := if prev ≠ sub32 bit 1 then 0 else count
      if count + 1 = len then some (bit + 1 - len) else firstFreeBits freemap len left (bit + 1) bit (count + 1)
    else firstFreeBits freemap len left (bit + 1) prev count

def getFirstFreeBits (freemap : Nat → Bool) (size len : Nat) : Nat × (Nat → Bool) :=
  match firstFreeBits freemap len size 0 0 0 with
  | some bit => (bit,fill freemap bit len false)
  | none => (0,freemap)

def putFreeBits (freemap : Nat → Bool) (size i len : Nat) : Nat → Bool :=
  if size < sub32 (u32 (i + len)) 1 then freemap else fill freemap i len true

/-- `sefs_get_free_blocks`: the block it returns, or nothing if the check of the length aborts; `read` tells whether
the bitmap block can be read. -/
def getFreeBlocks (sb : SbInfo) (fs : Fs) (len : Nat) (read : Bool) : Option (Nat × Fs) :=
  if bitmapBlkNr < len then none
  else
    match (List.range sb.nrBfreeBlocks).find? fun i => decide (len ≤ fs.bfreeBitLeft i) with
    | none => some (0,fs)
    | some i =>
      if read then
        let found := getFirstFreeBits (fs.bfree i) bitmapBlkNr len
        some (u32 (found.1 + i * bitmapBlkNr),
          { bfree := Function.update fs.bfree i found.2
            bfreeBitLeft := Function.update fs.bfreeBitLeft i (sub32 (fs.bfreeBitLeft i) len)
            nrFreeBlocks := sub32 fs.nrFreeBlocks len })
      else some (0,fs)

def putBlocks (fs : Fs) (bno len : Nat) (read : Bool) : Fs :=
  let i := bno / bitmapBlkNr
  if read then
    { bfree := Function.update fs.bfree i (putFreeBits (fs.bfree i) bitmapBlkNr (bno % bitmapBlkNr) len)
      bfreeBitLeft := Function.update fs.bfreeBitLeft i (u32 (fs.bfreeBitLeft i + len))
      nrFreeBlocks := u32 (fs.nrFreeBlocks + len) }
  else fs

inductive Act
  | getFreeBlocks (len : Nat) (read : Bool)
  | putBlocks (bno len : Nat) (read : Bool)
  deriving DecidableEq, Repr

structure State where
  fs : Fs
  owned : List (Nat × Nat)

/-- A caller takes zero for a failure, and gives back what it was given. -/
def step (sb : SbInfo) (s : State) : Act → Option State
  | .getFreeBlocks len read =>
    (getFreeBlocks sb s.fs len read).map fun got => ⟨got.2,if got.1 = 0 then s.owned else (got.1,len) :: s.owned⟩
  | .putBlocks bno len read =>
    if (bno,len) ∈ s.owned then some ⟨putBlocks s.fs bno len read,s.owned.erase (bno,len)⟩ else none

def mount (atZero : Nat) (sb : SbInfo) : State := ⟨fillSuper atZero sb,[]⟩

def Fs.free (fs : Fs) (b : Nat) : Bool := fs.bfree (b / bitmapBlkNr) (b % bitmapBlkNr)

/-- The call fails and changes nothing, or takes free blocks of the data area. -/
def Sound (sb : SbInfo) (fs : Fs) (len ret : Nat) (after : Fs) : Prop :=
  ret = 0 ∧ after = fs ∨
  (∀ b, ret ≤ b → b < ret + len → fs.free b = true ∧ after.free b = false) ∧
    sb.firstDataBlock ≤ ret ∧ ret + len ≤ sb.journalSb ∧
    after.nrFreeBlocks + len = fs.nrFreeBlocks ∧
    after.bfreeBitLeft (ret / bitmapBlkNr) + len = fs.bfreeBitLeft (ret / bitmapBlkNr) ∧
    ∀ k, k ≠ ret / bitmapBlkNr → after.bfreeBitLeft k = fs.bfreeBitLeft k

def FirstFit (sb : SbInfo) (fs : Fs) (len i : Nat) : Prop :=
  i < sb.nrBfreeBlocks ∧ len ≤ fs.bfreeBitLeft i ∧ ∀ k < i, fs.bfreeBitLeft k < len

/-- There is nothing to take; or the first bitmap block whose counter allows the length has a run of it, and its first
such run ends before the journal. -/
def Fits (sb : SbInfo) (fs : Fs) (len : Nat) (read : Bool) : Prop :=
  len ≤ bitmapBlkNr ∧
    (len = 0 ∨ read = false ∨ (∀ i < sb.nrBfreeBlocks, fs.bfreeBitLeft i < len) ∨
      ∃ i b, FirstFit sb fs len i ∧ FirstRun (fs.bfree i) bitmapBlkNr len b ∧ i * bitmapBlkNr + b + len ≤ sb.journalSb)

/-! The bitmap that `mkfs` writes. -/

variable {bits k n : Nat} {mask line : BitVec 64}

theorem shiftLeft_mask (one : ∀ j < 64, mask.getLsbD j = decide (j = k)) (j : Nat) (within : j < 64) :
    (mask <<< 1).getLsbD j = decide (j = k + 1) := by
  rw [BitVec.getLsbD_shiftLeft]
  cases j with
  | zero => simp
  | succ j =>
    rw [Nat.add_sub_cancel,one j (by omega)]
    simp [within]

theorem usedLine_spec (place : k + bits = 64) (one : ∀ j < 64, mask.getLsbD j = decide (j = k)) (used : 0 < n) :
    (usedLine bits mask line n).2 = n - bits ∧
    ∀ j < 64, (usedLine bits mask line n).1.getLsbD j = (line.getLsbD j && !decide (k ≤ j ∧ j < k + min n bits)) := by
  induction bits generalizing k mask line n with
  | zero =>
    refine ⟨rfl,fun j _ => ?_⟩
    have outside : ¬ (k ≤ j ∧ j < k + min n 0) := by omega
    simp only [usedLine,outside,decide_false,Bool.not_false,Bool.and_true]
  | succ bits ih =>
    have cleared : ∀ j < 64, (line &&& ~~~mask).getLsbD j = (line.getLsbD j && !decide (j = k)) := by
      intro j within
      rw [BitVec.getLsbD_and,BitVec.getLsbD_not,one j within,decide_eq_true within,Bool.true_and]
    rw [usedLine]
    split
    next last =>
      obtain rfl : n = 1 := by omega
      refine ⟨by omega,fun j within => ?_⟩
      rw [cleared j within]
      congr 2
      exact decide_eq_decide.mpr (by omega)
    next more =>
      obtain ⟨rest,bits'⟩ := @ih (k + 1) (n - 1) (mask <<< 1) (line &&& ~~~mask) (by omega) (shiftLeft_mask one) (by omega)
      refine ⟨by rw [rest]; omega,fun j within => ?_⟩
      rw [bits' j within,cleared j within,Bool.and_assoc,← Bool.not_or,← Bool.decide_or]
      congr 2
      exact decide_eq_decide.mpr (by omega)

theorem usedLine_full (used : 0 < n) : (usedLine 64 1 (BitVec.allOnes 64) n).2 = n - 64 ∧
    ∀ b < 64, (usedLine 64 1 (BitVec.allOnes 64) n).1.getLsbD b = decide (n ≤ b) := by
  have first : ∀ j < 64, (1 : BitVec 64).getLsbD j = decide (j = 0) := by
    intro j within
    simp [BitVec.getLsbD_one]
  obtain ⟨rest,bits⟩ := @usedLine_spec 64 0 n 1 (BitVec.allOnes 64) (Nat.zero_add 64) first used
  refine ⟨rest,fun b within => ?_⟩
  rw [bits b within,BitVec.getLsbD_allOnes,decide_eq_true within,Bool.true_and,← decide_not]
  exact decide_eq_decide.mpr (by omega)

theorem usedWord_bit (n j b : Nat) (within : b < 64) : (usedWord n j).getLsbD b = decide (n ≤ j * 64 + b) := by
  induction j generalizing n with
  | zero =>
    rw [usedWord]
    split
    next unused => rw [BitVec.getLsbD_allOnes,decide_eq_true within,decide_eq_true (by omega)]
    next used =>
      rw [(usedLine_full (Nat.pos_of_ne_zero used)).2 b within]
      exact decide_eq_decide.mpr (by omega)
  | succ j ih =>
    rw [usedWord]
    split
    next unused => rw [BitVec.getLsbD_allOnes,decide_eq_true within,decide_eq_true (by omega)]
    next used =>
      rw [(usedLine_full (Nat.pos_of_ne_zero used)).1,ih]
      exact decide_eq_decide.mpr (by omega)

theorem writeBfreeBlocks_bit (n i b : Nat) (within : b < bitmapBlkNr) :
    (writeBfreeBlocks n i (b / 64)).getLsbD (b % 64) = decide (n ≤ i * bitmapBlkNr + b) := by
  have bit : b % 64 < 64 := Nat.mod_lt _ (by decide)
  induction i generalizing n with
  | zero =>
    rw [writeBfreeBlocks]
    split
    next more =>
      have used : ¬ n ≤ 0 * bitmapBlkNr + b := by omega
      rw [decide_eq_false used]
      exact BitVec.getLsbD_zero
    next last =>
      rw [usedWord_bit n (b / 64) (b % 64) bit]
      exact decide_eq_decide.mpr (by omega)
  | succ i ih =>
    rw [writeBfreeBlocks]
    split
    next more =>
      rw [ih]
      exact decide_eq_decide.mpr (by rw [Nat.succ_mul]; omega)
    next last =>
      have free : n ≤ (i + 1) * bitmapBlkNr + b := by rw [Nat.succ_mul]; omega
      rw [BitVec.getLsbD_allOnes,decide_eq_true bit,decide_eq_true free]

theorem fillSuper_free (atZero : Nat) (sb : SbInfo) (b : Nat) : (fillSuper atZero sb).free b = decide (sb.nrUsed ≤ b) := by
  have within : b % bitmapBlkNr < bitmapBlkNr := Nat.mod_lt _ (by decide)
  have bit := writeBfreeBlocks_bit sb.nrUsed (b / bitmapBlkNr) _ within
  rwa [Nat.div_add_mod'] at bit

/-! The superblock that `mkfs` writes. -/

/-- What the allocator needs of a superblock; an area that is not there has no blocks to count. -/
structure SbInfo.Layout (sb : SbInfo) : Prop where
  used : sb.nrUsed = sb.firstDataBlock + 1
  bitmaps : sb.nrBfreeBlocks ≤ 2^17
  counted : sb.nrUsed ≤ sb.journalSb → sb.nrFreeBlocks = sb.journalSb - sb.nrUsed
  total : sb.nrFreeBlocks < 2^32
  journal : sb.journalSb < 2^32

theorem idivCeil_le (a : Nat) (positive : 0 < b) : idivCeil a b * b < a + b := by
  rw [idivCeil]
  have whole := Nat.div_add_mod' a b
  split
  · rw [Nat.succ_mul]
    omega
  · omega

theorem sub32_sub32 (n a b : Nat) : sub32 (sub32 n a) b = sub32 n (a + b) := by
  simp only [sub32,u32]
  omega

theorem writeSuperblock_layout (size : Nat) (hasJournal : Bool) : (writeSuperblock size hasJournal).Layout := by
  simp only [writeSuperblock]
  generalize blocks : u32 (size / sefsBlockSize) = nrBlocks
  have small : nrBlocks < 2^32 := blocks ▸ u32_lt _
  generalize journalOf : (if hasJournal = true then nrBlocks / 5 else 0) = nrJournalBlocks
  have fifth : nrJournalBlocks ≤ nrBlocks / 5 := by
    rw [← journalOf]
    split <;> omega
  have twice : u32 (2 * nrJournalBlocks) = 2 * nrJournalBlocks := u32_of_lt (by omega)
  have share : sub32 nrBlocks nrJournalBlocks = nrBlocks - nrJournalBlocks := sub32_of_le (by omega) small
  rw [twice,share]
  generalize inodesOf : (if (nrBlocks - nrJournalBlocks) / 64 % sefsInodesPerBlock ≠ 0 then
    u32 ((nrBlocks - nrJournalBlocks) / 64 + (sefsInodesPerBlock - (nrBlocks - nrJournalBlocks) / 64 % sefsInodesPerBlock))
    else (nrBlocks - nrJournalBlocks) / 64) = nrInodes
  have inodes : nrInodes < 2^27 := by
    have round :
        (nrBlocks - nrJournalBlocks) / 64 + (sefsInodesPerBlock - (nrBlocks - nrJournalBlocks) / 64 % sefsInodesPerBlock) <
        2^27 := by
      simp only [sefsInodesPerBlock]
      omega
    rw [← inodesOf]
    split
    · rwa [u32_of_lt (by omega)]
    · omega
  have istore : idivCeil nrInodes sefsInodesPerBlock * 56 < nrInodes + 56 := idivCeil_le nrInodes (by decide)
  have ifree : idivCeil nrInodes bitmapBlkNr * 32768 < nrInodes + 32768 := idivCeil_le nrInodes (by decide)
  have bfree : idivCeil nrBlocks bitmapBlkNr * 32768 < nrBlocks + 32768 := idivCeil_le nrBlocks (by decide)
  generalize idivCeil nrInodes sefsInodesPerBlock = nrIstoreBlocks at istore ⊢
  generalize idivCeil nrInodes bitmapBlkNr = nrIfreeBlocks at ifree ⊢
  generalize idivCeil nrBlocks bitmapBlkNr = nrBfreeBlocks at bfree ⊢
  have before : sub32 nrBlocks (2 * nrJournalBlocks) = nrBlocks - 2 * nrJournalBlocks := sub32_of_le (by omega) small
  have metadata : u32 (nrIstoreBlocks + nrIfreeBlocks + nrBfreeBlocks + 2) = nrIstoreBlocks +
      nrIfreeBlocks + nrBfreeBlocks + 2 :=
    u32_of_lt (by omega)
  refine ⟨?_,?_,?_,u32_lt _,?_⟩
  · simp only [SbInfo.nrUsed,SbInfo.firstDataBlock,u32]
    omega
  · show nrBfreeBlocks ≤ 2^17
    omega
  · simp only [SbInfo.nrUsed]
    rw [before,metadata]
    intro room
    rw [sub32_sub32,sub32_sub32,sub32_sub32,sub32_sub32,sub32_sub32,sub32_of_le (by omega) small]
    omega
  · show sub32 nrBlocks (2 * nrJournalBlocks) < 2^32
    omega

theorem mkfs_layout (made : mkfs blockDevice hasJournal size = some sb) : sb.Layout := by
  simp only [mkfs] at made
  generalize (if blockDevice = true ∧ sefsFsMaxSize < size then sefsFsMaxSize else size) = capped at made
  obtain ⟨-,⟨⟩⟩ := Option.ite_none_left_eq_some.mp made
  exact writeSuperblock_layout capped hasJournal

/-! The search in a bitmap block. -/

theorem firstFreeBits_spec {len left bit prev count : Nat} (small : bit + left < 2^32)
    (counts : (if prev ≠ sub32 bit 1 then 0 else count) = streak freemap bit) (behind : prev < bit ∨ count = 0)
    (short : ∀ e ≤ bit, streak freemap e < len) :
    (∀ b, firstFreeBits freemap len left bit prev count = some b → FirstRun freemap (bit + left) len b) ∧
    (firstFreeBits freemap len left bit prev count = none → ∀ b, ¬ FirstRun freemap (bit + left) len b) := by
  induction left generalizing bit prev count with
  | zero =>
    refine ⟨fun b found => by simp [firstFreeBits] at found,?_⟩
    rintro - b ⟨below,run,-⟩
    exact absurd (short (b + len) below) (Nat.not_lt.mpr (runAt_iff_streak.mp run))
  | succ left ih =>
    have next : sub32 (bit + 1) 1 = bit := sub32_of_le (by omega) (by omega)
    have size : bit + (left + 1) = bit + 1 + left := by omega
    have shorter := short bit (Nat.le_refl bit)
    have further : streak freemap (bit + 1) < len → ∀ e ≤ bit + 1, streak freemap e < len := by
      intro last e upto
      rcases Nat.lt_or_ge bit e with after | before
      · obtain rfl : e = bit + 1 := by omega
        exact last
      · exact short e before
    rw [firstFreeBits]
    split
    next set =>
      have longer : streak freemap (bit + 1) = streak freemap bit + 1 := by rw [streak,if_pos set]
      simp only [counts,← longer]
      split
      next full =>
        have fits : len ≤ bit + 1 := full ▸ streak_le freemap (bit + 1)
        refine ⟨?_,fun missing => by cases missing⟩
        intro b found
        cases found
        refine ⟨by omega,runAt_iff_streak.mpr ?_,fun c before run => ?_⟩
        · rw [Nat.sub_add_cancel fits,full]
        · exact absurd (short (c + len) (by omega)) (Nat.not_lt.mpr (runAt_iff_streak.mp run))
      next more =>
        rw [size]
        refine ih (by omega) ?_ (.inl (by omega)) ?_
        · rw [next,if_neg (by omega)]
        · exact further (by omega)
    next clear =>
      have ended : streak freemap (bit + 1) = 0 := by rw [streak,if_neg clear]
      rw [size]
      refine ih (by omega) ?_ (behind.imp_left (by omega)) ?_
      · rw [next,ended]
        split
        · rfl
        · omega
      · exact further (by omega)

theorem firstFreeBits_zero (freemap : Nat → Bool) (left bit prev count : Nat) :
    firstFreeBits freemap 0 left bit prev count = none := by
  induction left generalizing bit prev count with
  | zero => rfl
  | succ left ih =>
    rw [firstFreeBits]
    split
    · rw [if_neg (Nat.succ_ne_zero _),ih]
    · exact ih _ _ _

theorem getFirstFreeBits_cases (freemap : Nat → Bool) (small : size < 2^32) (positive : 0 < len) :
    (∃ b, FirstRun freemap size len b ∧ getFirstFreeBits freemap size len = (b,fill freemap b len false)) ∨
    (∀ b, ¬ FirstRun freemap size len b) ∧ getFirstFreeBits freemap size len = (0,freemap) := by
  have spec := @firstFreeBits_spec freemap len size 0 0 0 (by omega) (by simp [streak]) (.inr rfl)
    (fun e upto => by rw [Nat.le_zero.mp upto]; exact positive)
  rw [Nat.zero_add] at spec
  rw [getFirstFreeBits]
  split
  next b found => exact .inl ⟨b,spec.1 b found,rfl⟩
  next found => exact .inr ⟨spec.2 found,rfl⟩

/-! What a call does to the bitmap blocks taken together. -/

variable {fs after : Fs} {read : Bool}

def Fs.take (fs : Fs) (i b len : Nat) : Fs where
  bfree := Function.update fs.bfree i (fill (fs.bfree i) b len false)
  bfreeBitLeft := Function.update fs.bfreeBitLeft i (sub32 (fs.bfreeBitLeft i) len)
  nrFreeBlocks := sub32 fs.nrFreeBlocks len

def Fs.charge (fs : Fs) (i len : Nat) : Fs where
  bfree := fs.bfree
  bfreeBitLeft := Function.update fs.bfreeBitLeft i (sub32 (fs.bfreeBitLeft i) len)
  nrFreeBlocks := sub32 fs.nrFreeBlocks len

theorem free_fill (filled : after.bfree = Function.update fs.bfree i (fill (fs.bfree i) b len value))
    (within : b + len ≤ bitmapBlkNr) (x : Nat) : after.free x = fill fs.free (i * bitmapBlkNr + b) len value x := by
  rw [Fs.free,filled]
  by_cases here : x / bitmapBlkNr = i
  · have same : b ≤ x % bitmapBlkNr ∧ x % bitmapBlkNr < b + len ↔ i * bitmapBlkNr + b ≤ x ∧
        x < i * bitmapBlkNr + b + len := by
      simp only [bitmapBlkNr] at here ⊢
      omega
    rw [here,Function.update_self,fill,fill,Fs.free,here]
    exact if_congr same rfl rfl
  · have outside : x < i * bitmapBlkNr + b ∨ i * bitmapBlkNr + b + len ≤ x := by
      simp only [bitmapBlkNr] at here within ⊢
      omega
    rw [Function.update_of_ne here,fill_outside outside,Fs.free]

theorem free_place (fs : Fs) (i : Nat) (within : b < bitmapBlkNr) : fs.free (i * bitmapBlkNr + b) = fs.bfree i b := by
  have place : (i * bitmapBlkNr + b) / bitmapBlkNr = i ∧ (i * bitmapBlkNr + b) % bitmapBlkNr = b := by
    simp only [bitmapBlkNr] at within ⊢
    omega
  rw [Fs.free,place.1,place.2]

theorem FirstFit.unique (one : FirstFit sb fs len i) (other : FirstFit sb fs len k) : i = k := by
  rcases Nat.lt_trichotomy i k with before | same | after
  · exact absurd one.2.1 (Nat.not_le.mpr (other.2.2 i before))
  · exact same
  · exact absurd other.2.1 (Nat.not_le.mpr (one.2.2 k after))

structure Fs.Small (fs : Fs) : Prop where
  left : ∀ i, fs.bfreeBitLeft i < 2^32
  total : fs.nrFreeBlocks < 2^32

theorem sub32_zero (small : n < 2^32) : sub32 n 0 = n := sub32_of_le (Nat.zero_le n) small

theorem getFreeBlocks_cases (layout : sb.Layout) (small : fs.Small) (short : len ≤ bitmapBlkNr) (read : Bool) :
    getFreeBlocks sb fs len read = some (0,fs) ∧
      (len = 0 ∨ read = false ∨ ∀ i < sb.nrBfreeBlocks, fs.bfreeBitLeft i < len) ∨
    ∃ i, FirstFit sb fs len i ∧ 0 < len ∧ read = true ∧
      ((∃ b, FirstRun (fs.bfree i) bitmapBlkNr len b ∧
          getFreeBlocks sb fs len read = some (i * bitmapBlkNr + b,fs.take i b len)) ∨
        (∀ b, ¬ FirstRun (fs.bfree i) bitmapBlkNr len b) ∧
          getFreeBlocks sb fs len read = some (i * bitmapBlkNr,fs.charge i len)) := by
  rw [getFreeBlocks,if_neg (Nat.not_lt.mpr short)]
  split
  next none =>
    refine .inl ⟨rfl,.inr (.inr fun i below => ?_)⟩
    simpa using List.find?_eq_none.mp none i (List.mem_range.mpr below)
  next i found =>
    obtain ⟨allows,member,before⟩ := List.find?_range_eq_some.mp found
    have fit : FirstFit sb fs len i :=
      ⟨List.mem_range.mp member,by simpa using allows,fun k lower => by simpa using before k lower⟩
    have place : i * bitmapBlkNr + bitmapBlkNr ≤ 2^32 := by
      have bitmaps := layout.bitmaps
      have below := fit.1
      simp only [bitmapBlkNr]
      omega
    cases read with
    | false => exact .inl ⟨rfl,.inr (.inl rfl)⟩
    | true =>
      rcases Nat.eq_zero_or_pos len with rfl | positive
      · obtain rfl : i = 0 := Nat.eq_zero_of_not_pos fun above => absurd (fit.2.2 0 above) (Nat.not_lt_zero _)
        refine .inl ⟨?_,.inl rfl⟩
        rw [if_pos rfl,getFirstFreeBits,firstFreeBits_zero]
        simp only [sub32_zero (small.left 0),sub32_zero small.total,Function.update_eq_self]
        rfl
      · refine .inr ⟨i,fit,positive,rfl,?_⟩
        rcases getFirstFreeBits_cases (fs.bfree i) (show bitmapBlkNr < 2^32 by decide) positive with
            ⟨b,run,got⟩ | ⟨none,got⟩
        · refine .inl ⟨b,run,?_⟩
          have inside : b < bitmapBlkNr := by
            have ends := run.1
            omega
          simp only [got,if_true]
          rw [Nat.add_comm b,u32_of_lt (by omega)]
          rfl
        · refine .inr ⟨none,?_⟩
          simp only [got,if_true]
          rw [Nat.zero_add,u32_of_lt (by simp only [bitmapBlkNr] at place ⊢; omega),Function.update_eq_self]
          rfl

/-! The free blocks of the data area are those counted, and every run handed out is in use and no other's. -/

/-- A run that was handed out: in the data area, in one bitmap block, and in use. -/
structure Owned (sb : SbInfo) (fs : Fs) (run : Nat × Nat) : Prop where
  positive : 0 < run.2
  low : sb.nrUsed ≤ run.1
  high : run.1 + run.2 ≤ sb.journalSb
  within : run.1 % bitmapBlkNr + run.2 ≤ bitmapBlkNr
  used : ∀ b, run.1 ≤ b → b < run.1 + run.2 → fs.free b = false

def Apart (one other : Nat × Nat) : Prop := one.1 + one.2 ≤ other.1 ∨ other.1 + other.2 ≤ one.1

structure Invariant (sb : SbInfo) (s : State) : Prop where
  small : s.fs.Small
  above : ∀ b, s.fs.free b = true → sb.nrUsed ≤ b
  counted : sb.nrUsed ≤ sb.journalSb → s.fs.nrFreeBlocks = count s.fs.free sb.nrUsed sb.journalSb
  owned : ∀ run ∈ s.owned, Owned sb s.fs run
  apart : s.owned.Pairwise Apart

theorem mount_invariant (layout : sb.Layout) (atZero : Nat) : Invariant sb (mount atZero sb) := by
  have free := fillSuper_free atZero sb
  refine ⟨⟨fun i => u32_lt _,layout.total⟩,fun b set => ?_,fun room => ?_,by simp [mount],List.Pairwise.nil⟩
  · rw [mount,free] at set
    exact of_decide_eq_true set
  · rw [mount,count_full fun b low _ => (free b).trans (decide_eq_true low)]
    exact layout.counted room

theorem Invariant.run_counted (inv : Invariant sb s) (run : FirstRun (s.fs.bfree i) bitmapBlkNr len b) (positive : 0 < len) :
    sb.nrUsed ≤ i * bitmapBlkNr + b ∧ RunAt s.fs.free (i * bitmapBlkNr + b) len ∧
    (i * bitmapBlkNr + b + len ≤ sb.journalSb → len ≤ s.fs.nrFreeBlocks) := by
  obtain ⟨ends,set,-⟩ := run
  have free : RunAt s.fs.free (i * bitmapBlkNr + b) len := by
    intro j below
    rw [Nat.add_assoc,free_place s.fs i (by omega)]
    exact set j below
  have first := free 0 positive
  rw [Nat.add_zero] at first
  have low := inv.above _ first
  refine ⟨low,free,fun high => ?_⟩
  have total := count_clear low high free
  rw [inv.counted (by omega)]
  omega

/-- If the request fits, it fails and changes nothing, or takes the first run. -/
theorem Invariant.fits_cases (inv : Invariant sb s) (layout : sb.Layout) (fits : Fits sb s.fs len read) :
    getFreeBlocks sb s.fs len read = some (0,s.fs) ∨
    ∃ i b, FirstFit sb s.fs len i ∧ 0 < len ∧ FirstRun (s.fs.bfree i) bitmapBlkNr len b ∧
      i * bitmapBlkNr + b + len ≤ sb.journalSb ∧
      getFreeBlocks sb s.fs len read = some (i * bitmapBlkNr + b,s.fs.take i b len) := by
  obtain ⟨short,fits⟩ := fits
  rcases getFreeBlocks_cases layout inv.small short read with ⟨got,-⟩ | ⟨i,fit,positive,rfl,ends⟩
  · exact .inl got
  · rcases fits with none | unread | scarce | ⟨k,b,other,run,high⟩
    · omega
    · exact absurd unread (by decide)
    · exact absurd fit.2.1 (Nat.not_le.mpr (scarce i fit.1))
    · obtain rfl := fit.unique other
      rcases ends with ⟨c,same,got⟩ | ⟨none,-⟩
      · obtain rfl := run.unique same
        exact .inr ⟨i,b,fit,positive,run,high,got⟩
      · exact absurd run (none b)

theorem take_free (run : FirstRun (fs.bfree i) bitmapBlkNr len b) (x : Nat) :
    (fs.take i b len).free x = fill fs.free (i * bitmapBlkNr + b) len false x := free_fill rfl run.1 x

theorem block_of_run (run : FirstRun (fs.bfree i) bitmapBlkNr len b) (positive : 0 < len) :
    (i * bitmapBlkNr + b) / bitmapBlkNr = i ∧ (i * bitmapBlkNr + b) % bitmapBlkNr = b := by
  have ends := run.1
  simp only [bitmapBlkNr] at ends ⊢
  omega

theorem Invariant.take_sound (inv : Invariant sb s) (layout : sb.Layout) (fit : FirstFit sb s.fs len i) (positive : 0 < len)
    (run : FirstRun (s.fs.bfree i) bitmapBlkNr len b) (high : i * bitmapBlkNr + b + len ≤ sb.journalSb) :
    Sound sb s.fs len (i * bitmapBlkNr + b) (s.fs.take i b len) := by
  obtain ⟨low,free,allowed⟩ := inv.run_counted run positive
  refine .inr ⟨fun x from_ below => ⟨?_,?_⟩,?_,high,?_,?_,?_⟩
  · have here := free (x - (i * bitmapBlkNr + b)) (by omega)
    rwa [Nat.add_sub_cancel' from_] at here
  · rw [take_free run]
    exact fill_inside from_ below false
  · rw [layout.used] at low
    omega
  · rw [Fs.take,sub32_of_le (allowed high) inv.small.total]
    exact Nat.sub_add_cancel (allowed high)
  · have counter : (s.fs.take i b len).bfreeBitLeft i = sub32 (s.fs.bfreeBitLeft i) len := Function.update_self ..
    rw [(block_of_run run positive).1,counter,sub32_of_le fit.2.1 (inv.small.left i)]
    exact Nat.sub_add_cancel fit.2.1
  · intro k other
    rw [(block_of_run run positive).1] at other
    exact Function.update_of_ne other _ _

theorem Invariant.sound_iff_fits (inv : Invariant sb s) (layout : sb.Layout) :
    (∃ got, getFreeBlocks sb s.fs len read = some got ∧ Sound sb s.fs len got.1 got.2) ↔ Fits sb s.fs len read := by
  constructor
  · rintro ⟨⟨ret,after⟩,got,sound⟩
    have short : len ≤ bitmapBlkNr := by
      by_contra long
      rw [getFreeBlocks,if_pos (Nat.not_le.mp long)] at got
      exact nomatch got
    refine ⟨short,?_⟩
    rcases getFreeBlocks_cases layout inv.small short read with
        ⟨-,reason⟩ | ⟨i,fit,positive,rfl,⟨b,run,same⟩ | ⟨none,same⟩⟩
    · rcases reason with zero | unread | scarce
      · exact .inl zero
      · exact .inr (.inl unread)
      · exact .inr (.inr (.inl scarce))
    · obtain ⟨rfl,rfl⟩ := Prod.mk.inj (Option.some.inj (same.symm.trans got))
      have low := (inv.run_counted run positive).1
      rcases sound with ⟨zero,-⟩ | ⟨-,-,high,-⟩
      · have used := layout.used
        omega
      · exact .inr (.inr (.inr ⟨i,b,fit,run,high⟩))
    · -- the search has failed: the counter has changed, and the bitmap has not
      obtain ⟨rfl,rfl⟩ := Prod.mk.inj (Option.some.inj (same.symm.trans got))
      rcases sound with ⟨-,unchanged⟩ | ⟨taken,-⟩
      · have counter := congrArg (fun fs : Fs => fs.bfreeBitLeft i) unchanged
        have allowed := fit.2.1
        simp only [Fs.charge,Function.update_self,sub32_of_le fit.2.1 (inv.small.left i)] at counter
        omega
      · obtain ⟨free,used⟩ := taken (i * bitmapBlkNr) (Nat.le_refl _) (by omega)
        exact absurd (free.symm.trans used) (by decide)
  · intro fits
    rcases inv.fits_cases layout fits with got | ⟨i,b,fit,positive,run,high,got⟩
    · exact ⟨_,got,.inl ⟨rfl,rfl⟩⟩
    · exact ⟨_,got,inv.take_sound layout fit positive run high⟩

theorem Fs.Small.update (small : fs.Small) (left : after.bfreeBitLeft = Function.update fs.bfreeBitLeft i (u32 n))
    (total : after.nrFreeBlocks < 2^32) : after.Small := by
  refine ⟨fun k => ?_,total⟩
  rw [left]
  by_cases here : k = i
  · rw [here,Function.update_self]
    exact u32_lt n
  · rw [Function.update_of_ne here]
    exact small.left k

theorem Invariant.take (inv : Invariant sb s) (positive : 0 < len) (run : FirstRun (s.fs.bfree i) bitmapBlkNr len b)
    (high : i * bitmapBlkNr + b + len ≤ sb.journalSb) :
    Invariant sb ⟨s.fs.take i b len,(i * bitmapBlkNr + b,len) :: s.owned⟩ := by
  obtain ⟨low,free,allowed⟩ := inv.run_counted run positive
  have cleared := take_free run
  have stays : ∀ x, s.fs.free x = false → (s.fs.take i b len).free x = false := by
    intro x used
    rw [cleared,fill]
    split
    · rfl
    · exact used
  refine ⟨inv.small.update rfl (u32_lt _),fun x set => inv.above x ?_,fun room => ?_,?_,
    List.pairwise_cons.mpr ⟨?_,inv.apart⟩⟩
  · by_contra used
    rw [stays x (Bool.eq_false_iff.mpr used)] at set
    exact absurd set (by decide)
  · have total := count_clear low high free
    have counted : (s.fs.take i b len).nrFreeBlocks = s.fs.nrFreeBlocks - len := sub32_of_le (allowed high) inv.small.total
    have same : (s.fs.take i b len).free = fill s.fs.free (i * bitmapBlkNr + b) len false := funext cleared
    rw [counted,same,inv.counted room]
    omega
  · intro other member
    rcases List.mem_cons.mp member with rfl | member
    · refine ⟨positive,low,high,?_,fun x from_ below => ?_⟩
      · rw [(block_of_run run positive).2]
        exact run.1
      · rw [cleared]
        exact fill_inside from_ below false
    · obtain ⟨some,first,last,within,used⟩ := inv.owned other member
      exact ⟨some,first,last,within,fun x from_ below => stays x (used x from_ below)⟩
  · intro other member
    have held := inv.owned other member
    by_contra overlap
    simp only [Apart,not_or,Nat.not_le] at overlap
    have positive' := held.positive
    have used := held.used (max (i * bitmapBlkNr + b) other.1) (by omega) (by omega)
    have set := free (max (i * bitmapBlkNr + b) other.1 - (i * bitmapBlkNr + b)) (by omega)
    rw [Nat.add_sub_cancel' (by omega),used] at set
    exact absurd set (by decide)

theorem Invariant.put (inv : Invariant sb s) (layout : sb.Layout) (held : (bno,len) ∈ s.owned) (read : Bool) :
    Invariant sb ⟨putBlocks s.fs bno len read,s.owned.erase (bno,len)⟩ := by
  have symmetric : ∀ {one other : Nat × Nat}, Apart one other → Apart other one := Or.symm
  have apart : ∀ other ∈ s.owned.erase (bno,len), Apart (bno,len) other :=
    (List.pairwise_cons.mp (((List.perm_cons_erase held).pairwise_iff symmetric).mp inv.apart)).1
  have others : ∀ other ∈ s.owned.erase (bno,len), Owned sb s.fs other := fun other member =>
    inv.owned other (List.mem_of_mem_erase member)
  have kept := inv.apart.sublist (List.erase_sublist (a := (bno,len)))
  cases read with
  | false => exact ⟨inv.small,inv.above,inv.counted,others,kept⟩
  | true =>
    obtain ⟨positive,low,high,within,used⟩ := inv.owned _ held
    have journal := layout.journal
    simp only at positive low high within used
    have block : bitmapBlkNr < 2^32 := by decide
    have fits : ¬ bitmapBlkNr < sub32 (u32 (bno % bitmapBlkNr + len)) 1 := by
      rw [u32_of_lt (by omega),sub32_of_le (by omega) (by omega)]
      omega
    have set : (putBlocks s.fs bno len true).free = fill s.fs.free bno len true := by
      funext x
      have place := @free_fill s.fs (putBlocks s.fs bno len true) (bno / bitmapBlkNr) (bno % bitmapBlkNr) len true
        (by simp only [putBlocks,putFreeBits,if_neg fits,if_true]) within x
      rwa [Nat.div_add_mod'] at place
    have total : (putBlocks s.fs bno len true).nrFreeBlocks = u32 (s.fs.nrFreeBlocks + len) := rfl
    refine ⟨inv.small.update rfl (u32_lt _),fun x free => ?_,fun room => ?_,fun other member => ?_,kept⟩
    · rw [set] at free
      by_cases inside : bno ≤ x ∧ x < bno + len
      · exact low.trans inside.1
      · rw [fill_outside (by omega)] at free
        exact inv.above x free
    · have more := count_set low high used
      have most := count_le (fill s.fs.free bno len true) sb.nrUsed sb.journalSb
      rw [total,set,more,inv.counted room,u32_of_lt (by omega)]
    · obtain ⟨some,first,last,within,used⟩ := others other member
      refine ⟨some,first,last,within,fun x from_ below => ?_⟩
      have away := apart other member
      simp only [Apart] at away
      rw [set,fill_outside (by omega)]
      exact used x from_ below

/-- The call returns, and a run it hands out is sound. -/
def Contract (sb : SbInfo) (s : State) (act : Act) (t : State) : Prop :=
  step sb s act = some t ∧
    match act with
    | .getFreeBlocks len read => ∃ got, getFreeBlocks sb s.fs len read = some got ∧ Sound sb s.fs len got.1 got.2
    | .putBlocks _ _ _ => True

/-- Requests fit, and what is given back was handed out. -/
def Allowed (sb : SbInfo) (s : State) : Act → Prop
  | .getFreeBlocks len read => Fits sb s.fs len read
  | .putBlocks bno len _ => (bno,len) ∈ s.owned

theorem step_put (taken : step sb s (.putBlocks bno len read) = some t) :
    (bno,len) ∈ s.owned ∧ t = ⟨putBlocks s.fs bno len read,s.owned.erase (bno,len)⟩ := by
  rw [step] at taken
  obtain ⟨held,taken⟩ := Option.ite_none_right_eq_some.mp taken
  exact ⟨held,(Option.some.inj taken).symm⟩

theorem contract_iff_allowed (layout : sb.Layout) (inv : Invariant sb s) (act : Act) :
    (∃ t, Contract sb s act t) ↔ Allowed sb s act := by
  cases act with
  | getFreeBlocks len read =>
    refine Iff.trans ⟨fun ⟨_,_,sound⟩ => sound,fun ⟨got,returned,sound⟩ => ?_⟩ (inv.sound_iff_fits layout)
    exact ⟨_,by rw [step,returned]; rfl,got,returned,sound⟩
  | putBlocks bno len read =>
    constructor
    · rintro ⟨t,taken,-⟩
      exact step_put taken |>.1
    · intro held
      exact ⟨_,if_pos held,trivial⟩

theorem Invariant.contract (layout : sb.Layout) (inv : Invariant sb s) (kept : Contract sb s act t) : Invariant sb t := by
  have allowed := (contract_iff_allowed layout inv act).mp ⟨t,kept⟩
  have taken := kept.1
  cases act with
  | getFreeBlocks len read =>
    rcases inv.fits_cases layout allowed with got | ⟨i,b,-,positive,run,high,got⟩
    · rw [step,got] at taken
      obtain rfl := Option.some.inj taken
      exact inv
    · have low := (inv.run_counted run positive).1
      have used := layout.used
      have owned : t = ⟨s.fs.take i b len,(i * bitmapBlkNr + b,len) :: s.owned⟩ := by
        rw [step,got,Option.map_some,if_neg (by omega)] at taken
        exact (Option.some.inj taken).symm
      rw [owned]
      exact inv.take positive run high
  | putBlocks bno len read =>
    obtain ⟨held,rfl⟩ := step_put taken
    exact inv.put layout held read

/-- In every run of allocations and frees after `mkfs`, all calls are sound exactly if every request that a bitmap
block's counter allows finds a run there, and the first one ends before the journal. -/
theorem getFreeBlocks_sound_iff (blockDevice hasJournal : Bool) (size atZero : Nat) (sb : SbInfo)
    (made : mkfs blockDevice hasJournal size = some sb) (acts : List Act) :
    Meets (Contract sb) (mount atZero sb) acts ↔ Along (step sb) (Allowed sb) (mount atZero sb) acts := by
  have layout := mkfs_layout made
  exact meets_iff_along (step sb) (Contract sb) (Allowed sb) (Invariant sb) (fun _ => True) (fun _ _ _ kept => kept.1)
    (fun s act inv _ => contract_iff_allowed layout inv act) (fun s act t inv _ kept => inv.contract layout kept)
    (mount atZero sb) acts (mount_invariant layout atZero) (fun _ _ => trivial)

/-- A device of 101 blocks, on which the data area has 56 free blocks: all of them are taken and given back. -/
theorem getFreeBlocks_sound_iff_small : ∃ sb, mkfs false true (101 * 4096) = some sb ∧
    Along (step sb) (Allowed sb) (mount 64 sb) [.getFreeBlocks 56 true,.putBlocks 5 56 true] ∧
    Meets (Contract sb) (mount 64 sb) [.getFreeBlocks 56 true,.putBlocks 5 56 true] := by
  have fits : Fits ⟨1,1,1,56,61⟩ (mount 64 ⟨1,1,1,56,61⟩).fs 56 true :=
    ⟨by decide,.inr (.inr (.inr ⟨0,5,⟨by decide,by decide +kernel,nofun⟩,by decide +kernel,by decide⟩))⟩
  have returns : (getFreeBlocks ⟨1,1,1,56,61⟩ (mount 64 ⟨1,1,1,56,61⟩).fs 56 true).map Prod.fst = some 5 := by
    decide +kernel
  obtain ⟨⟨ret,after⟩,got,rfl⟩ := Option.map_eq_some_iff.mp returns
  have taken : step ⟨1,1,1,56,61⟩ (mount 64 ⟨1,1,1,56,61⟩) (.getFreeBlocks 56 true) = some ⟨after,[(5,56)]⟩ := by
    rw [step,got]
    rfl
  have allowed : Along (step ⟨1,1,1,56,61⟩) (Allowed ⟨1,1,1,56,61⟩) (mount 64 ⟨1,1,1,56,61⟩)
      [.getFreeBlocks 56 true,.putBlocks 5 56 true] :=
    .cons (step ⟨1,1,1,56,61⟩) fits taken ⟨List.mem_singleton.mpr rfl,fun _ _ => trivial⟩
  exact ⟨⟨1,1,1,56,61⟩,by decide,allowed,
    (getFreeBlocks_sound_iff false true (101 * 4096) 64 _ (by decide) _).mpr allowed⟩

/-- On it a request for 60 blocks is not refused: it gets those from 5 to 64, and the journal's superblock is 61. -/
theorem journal_superblock_handed_out : ∃ sb after, mkfs false true (101 * 4096) = some sb ∧ sb.journalSb = 61 ∧
    getFreeBlocks sb (mount 64 sb).fs 60 true = some (5,after) ∧
      ¬ Meets (Contract sb) (mount 64 sb) [.getFreeBlocks 60 true] := by
  have returns : (getFreeBlocks ⟨1,1,1,56,61⟩ (mount 64 ⟨1,1,1,56,61⟩).fs 60 true).map Prod.fst = some 5 := by
    decide +kernel
  obtain ⟨⟨ret,after⟩,got,rfl⟩ := Option.map_eq_some_iff.mp returns
  refine ⟨⟨1,1,1,56,61⟩,after,by decide,rfl,got,?_⟩
  rintro ⟨t,⟨-,other,same,sound⟩,-⟩
  obtain rfl := Option.some.inj (got.symm.trans same)
  rcases sound with ⟨zero,-⟩ | ⟨-,-,high,-⟩
  · exact absurd zero (Nat.succ_ne_zero 4)
  · exact absurd high (show ¬ 5 + 60 ≤ 61 by decide)

end Oxbow.Daemon.SefsBlocks
