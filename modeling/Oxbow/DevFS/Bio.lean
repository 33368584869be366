import Oxbow.Lib.Ring

/-! Block I/O descriptors of DevFS and the log rings they address. Buffers are block
offsets into the one allocation a descriptor was made for; every size handed to these
functions is a whole number of blocks, which `bytes_to_nblks` asserts. -/
namespace Oxbow.DevFS

open Oxbow.Lib List

def blockSize : Nat := 4096
/-- `BIO_MAX_BIO_SIZE` and `DATA_FETCHER_BUF_SIZE` in blocks (32 MB of 4 KB blocks). -/
def bioMaxBlks : Nat := 8192
def nBlksPerChunk : Nat := 8192

/-- A block address no device has; `(baddr_t)-1` in the code. -/
def invalid : Nat := 2^64 - 1

/-- A log area on the device. The superblock stores its length in a `u32`, and the byte
addresses of its 4 KB blocks are 64-bit. -/
structure LogRing extends Ring where
  fits : toRing.size < 2^32
  addressable : last < 2^52

structure Bio where
  blkNo : Nat
  buf : Nat
  nBlks : Nat
  deriving DecidableEq, Repr

def Bio.blocks (b : Bio) : List (Nat × Nat) :=
  (List.range b.nBlks).map fun i => (b.blkNo + i,b.buf + i)

def addBioLoop : Nat → Nat → Nat → Nat → Nat → List Bio
  | 0, _, _, _, _ => []
  | fuel + 1, total, copied, curStart, bufP =>
    if copied < total then
      let toCopy := min (total - copied) bioMaxBlks
      ⟨curStart,bufP,toCopy⟩ :: addBioLoop fuel total (copied + bioMaxBlks) (curStart + toCopy) (bufP + toCopy)
    else []

/-- A round transfers at least one block, so `nBlks` rounds are enough. -/
def addBioToBl (buf start nBlks : Nat) : List Bio := addBioLoop nBlks nBlks 0 start buf

def blBlocks (bl : List Bio) : List (Nat × Nat) := bl.flatMap Bio.blocks

theorem blBlocks_append (bl after : List Bio) : blBlocks (bl ++ after) = blBlocks bl ++ blBlocks after :=
  flatMap_append

theorem blocks_split (start buf a b : Nat) :
    (List.range (a + b)).map (fun i => (start + i,buf + i)) =
      (List.range a).map (fun i => (start + i,buf + i)) ++
      (List.range b).map (fun i => (start + a + i,buf + a + i)) := by
  rw [range_add,map_append,map_map]
  simp only [Function.comp_def,Nat.add_assoc]

theorem addBioLoop_blocks (fuel total copied start buf : Nat) (enough : total ≤ copied + fuel) :
    blBlocks (addBioLoop fuel total copied start buf) =
      (List.range (total - copied)).map fun i => (start + i,buf + i) := by
  induction fuel generalizing copied start buf with
  | zero =>
    have done : total - copied = 0 := by omega
    simp [addBioLoop,blBlocks,done]
  | succ fuel ih =>
    rw [addBioLoop]
    split
    next more =>
      have next := ih (copied + bioMaxBlks) (start + min (total - copied) bioMaxBlks)
        (buf + min (total - copied) bioMaxBlks) (by simp only [bioMaxBlks]; omega)
      have split : total - copied =
          min (total - copied) bioMaxBlks + (total - (copied + bioMaxBlks)) := by omega
      simp only [blBlocks,flatMap_cons] at next ⊢
      rw [next]
      conv_rhs => rw [split,blocks_split]
      rfl
    next finished =>
      have done : total - copied = 0 := by omega
      simp [blBlocks,done]

/-- The bios of one call transfer the blocks from `start` in order, each exactly once. -/
@[simp] theorem addBioToBl_blocks (buf start n : Nat) :
    blBlocks (addBioToBl buf start n) = (List.range n).map fun i => (start + i,buf + i) := by
  rw [addBioToBl,addBioLoop_blocks _ _ _ _ _ (by omega),Nat.sub_zero]

theorem addBioToBl_nil (buf start : Nat) : addBioToBl buf start 0 = [] := rfl

/-- `check_wrap_around`: unsigned, so a start past the end also counts as a wrap. -/
def checkWrapAround (start nBlks last : Nat) : Bool := u64 (start + nBlks + (2^64 - 1)) > last

theorem checkWrapAround_iff (start n last : Nat) (positive : 0 < n) (small : start + n ≤ 2^64) :
    checkWrapAround start n last = true ↔ last + 1 < start + n := by
  simp only [checkWrapAround,u64,decide_eq_true_eq,gt_iff_lt]
  omega

/-- The blocks left up to the end of the log, in the `u32` the code keeps them in. -/
def blksToEnd (start last : Nat) : Nat := u32 (u64 (sub64 last start + 1))

theorem blksToEnd_of_le (start last : Nat) (ordered : start ≤ last + 1) (near : last + 1 - start < 2^32)
    (small : last + 1 < 2^64) : blksToEnd start last = last + 1 - start := by
  simp only [blksToEnd,u32,u64,sub64]
  omega

def wrappedBaddr (first last target : Nat) : Nat := u64 (first + sub64 (sub64 target last) 1)

theorem wrappedBaddr_of_lt (first last target : Nat) (past : last < target) (small : target < 2^64)
    (near : first + (target - last - 1) < 2^64) :
    wrappedBaddr first last target = first + (target - last - 1) := by
  rw [wrappedBaddr,sub64_of_le (by omega) small,sub64_of_le (by omega) (by omega),u64_of_lt near]

end Oxbow.DevFS
