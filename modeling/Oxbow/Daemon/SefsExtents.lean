import Mathlib.Data.List.Perm.Subperm
import Oxbow.Lib.Extent
import Oxbow.Lib.Ring
import Oxbow.Lib.Run

/-! The extent map of a regular sefs file: a chain of extent blocks in the buffer cache, searched and extended by
`sefs_get_block`, which `inode_alloc_blocks` calls for the blocks at the end of a growing file. A buffer that `sb_balloc`
has set up is not up to date, and the next `sb_bread` of its block reads the disk over it. -/
namespace Oxbow.Daemon.SefsExtents

open Oxbow.Lib Function List Option

structure SefsExtent where
  bno : Nat
  iblock : Nat
  len : Nat
  deriving DecidableEq, Repr

def sefsMaxExtents : Nat := 292
def pageSize : Nat := 4096

abbrev Extents := Nat → SefsExtent

def scrubbed (last : Nat) : Extents := fun i => if i = 0 then ⟨0,last,0⟩ else ⟨0,0,0⟩

structure EiBlock where
  next : Nat
  extents : Extents

/-- The buffers of the cache by block number: `b_data`, and whether `BH_Uptodate` is set. A block without a buffer counts
as one whose buffer is not up to date. -/
structure Buffers where
  data : Nat → EiBlock
  uptodate : Nat → Bool

structure Volume where
  nrBlocks : Nat
  sefsMaxFilesize : Nat

/-- What `sb_bread` of a block that is not up to date meets: whether it has a buffer to read into, and what the disk holds. -/
structure Disk where
  bread : Nat → Bool
  disk : Nat → EiBlock

structure Env extends Disk where
  /-- `get_free_blocks` for a slot of a block of the chain, and for the block after the last of the chain. -/
  extentBno : Nat → Nat → Nat
  nextBno : Nat → Nat

def sbBread (env : Disk) (bufs : Buffers) (bno : Nat) : Option Buffers :=
  if bufs.uptodate bno then some bufs
  else if env.bread bno then some ⟨update bufs.data bno (env.disk bno),update bufs.uptodate bno true⟩
  else none

def extSearch (index : Extents) (iblock : Nat) : Option Nat :=
  (List.range sefsMaxExtents).find? fun i =>
    decide ((index i).bno = 0 ∨ iblock ≥ (index i).iblock ∧ iblock < u32 ((index i).iblock + (index i).len))

def matchExtent (blocks : Nat) : Nat :=
  if blocks = 1 then 1
  else if blocks ≤ 8 then 8
  else if blocks ≤ 32 then 32
  else if blocks ≤ 128 then 128
  else if blocks ≤ 512 then 512
  else if blocks ≤ 2048 then 2048
  else if blocks ≤ 8192 then 8192
  else 32768

/-- `alloc_file_block` asks for more after four extents of the size of the request, and never for less than the extent
before has. -/
def grownRequest (exts : Extents) (nr ei : Nat) : Nat :=
  if 3 < ei ∧ (exts (ei - 1)).len = matchExtent nr ∧ (exts (ei - 2)).len = matchExtent nr ∧
    (exts (ei - 3)).len = matchExtent nr ∧ (exts (ei - 4)).len = matchExtent nr then u32 (nr * 4) else nr

def extentBlocks (exts : Extents) (nr ei : Nat) : Nat :=
  if ei ≠ 0 then max (exts (ei - 1)).len (matchExtent (grownRequest exts nr ei)) else matchExtent (grownRequest exts nr ei)

def allocFileBlock (exts : Extents) (nr ei bno : Nat) : Option Extents :=
  if bno = 0 then none
  else
    let iblock := if ei ≠ 0 then u32 ((exts (ei - 1)).iblock + (exts (ei - 1)).len) else (exts ei).iblock
    some (update exts ei ⟨bno,iblock,u16 (extentBlocks exts nr ei)⟩)

/-- A block is linked after the last one, scrubbed and given the first index it maps. -/
def linkNext (data : Nat → EiBlock) (last bno start : Nat) : Nat → EiBlock :=
  update (update data last ⟨bno,(data last).extents⟩) bno ⟨0,scrubbed start⟩

/-- Behind the last block a new one is linked. If `sb_balloc` has no buffer for it the process does not go on, and if it has
one the flag of that buffer stays as it is. -/
def getNextEiBlock (env : Env) (bufs : Buffers) (bno : Nat) : Buffers × Option Nat :=
  let index := bufs.data bno
  if index.next ≠ 0 then
    match sbBread env.toDisk bufs index.next with
    | none => (bufs,none)
    | some bufs => (bufs,some index.next)
  else
    let ext := index.extents (sefsMaxExtents - 1)
    let next := env.nextBno bno
    if next = 0 then (bufs,none)
    else
      (⟨linkNext bufs.data bno next (u32 (ext.iblock + ext.len)),bufs.uptodate⟩,some next)

/-- The search from a block of the chain on; it has no result if the walk takes more rounds. -/
def search (env : Env) (iblock : Nat) : (rounds : Nat) → Buffers → Nat → Option (Buffers × Option (Nat × Nat))
  | 0,_,_ => none
  | rounds + 1,bufs,bno =>
    match extSearch (bufs.data bno).extents iblock with
    | some ei => some (bufs,some (bno,ei))
    | none =>
      match getNextEiBlock env bufs bno with
      | (bufs,none) => some (bufs,none)
      | (bufs,some bno) => search env iblock rounds bufs bno

def Volume.rounds (vol : Volume) : Nat := vol.nrBlocks + 1

def setExtents (data : Nat → EiBlock) (bno : Nat) (extents : Extents) : Nat → EiBlock :=
  update data bno ⟨(data bno).next,extents⟩

def createRest (vol : Volume) (env : Env) (iblock create : Nat) :
    (rounds : Nat) → Buffers → Nat → Nat → Option (Buffers × Bool)
  | 0,_,_,_ => none
  | rounds + 1,bufs,bno,ei =>
    let ext := (bufs.data bno).extents ei
    let nIblock := u32 (ext.iblock + ext.len)
    let nCreate := u32 (sub64 create (sub64 nIblock iblock))
    match search env nIblock vol.rounds bufs bno with
    | none => none
    | some (bufs,none) => some (bufs,false)
    | some (bufs,some (bno,ei)) =>
      let exts := (bufs.data bno).extents
      let allocated :=
        if (exts ei).bno = 0 then
          (allocFileBlock exts nCreate ei (env.extentBno bno ei)).map fun exts =>
            ⟨setExtents bufs.data bno exts,bufs.uptodate⟩
        else some bufs
      match allocated with
      | none => some (bufs,false)
      | some bufs =>
        let ext := (bufs.data bno).extents ei
        if nIblock + nCreate > u32 (ext.iblock + ext.len) then createRest vol env iblock create rounds bufs bno ei
        else some (bufs,true)

/-- `sefs_get_block` once the slot is found. -/
def getBlockAt (vol : Volume) (env : Env) (iblock create : Nat) (bufs : Buffers) (bno ei : Nat) :
    Option (Buffers × Option SefsExtent) :=
  let exts := (bufs.data bno).extents
  let ext := exts ei
  if create = 0 then
    if (iblock = 0 ∧ ext.len ≠ 0) ∨ ext.bno ≠ 0 then some (bufs,some ext) else some (bufs,none)
  else if iblock + create ≤ u32 (ext.iblock + ext.len) then some (bufs,some ext)
  else if ext.bno = 0 then
    match allocFileBlock exts create ei (env.extentBno bno ei) with
    | none => some (bufs,none)
    | some exts => some (⟨setExtents bufs.data bno exts,bufs.uptodate⟩,some (exts ei))
  else
    (createRest vol env iblock create create bufs bno ei).map fun (bufs,ok) => (bufs,if ok then some ext else none)

def getBlock (vol : Volume) (env : Env) (bufs : Buffers) (eiBlock iblock create : Nat) :
    Option (Buffers × Option SefsExtent) :=
  if iblock > (vol.sefsMaxFilesize - 1) / pageSize then some (bufs,none)
  else
    match sbBread env.toDisk bufs eiBlock with
    | none => some (bufs,none)
    | some bufs =>
      match search env (u32 iblock) vol.rounds bufs eiBlock with
      | none => none
      | some (bufs,none) => some (bufs,none)
      | some (bufs,some (bno,ei)) => getBlockAt vol env iblock create bufs bno ei

structure File where
  eiBlock : Nat
  bufs : Buffers
  blocks : Nat

def nrBlksToAlloc : Nat := 16384

inductive Act
  | create (env : Env) (n : Nat)
  | lookup (env : Env) (iblock : Nat)

def Act.env : Act → Env
  | .create env _ | .lookup env _ => env

def call (vol : Volume) (file : File) : Act → Option (Buffers × Option SefsExtent)
  | .create env n => if 0 < n ∧ n ≤ nrBlksToAlloc then getBlock vol env file.bufs file.eiBlock file.blocks n else none
  | .lookup env iblock => getBlock vol env file.bufs file.eiBlock iblock 0

def step (vol : Volume) (file : File) (act : Act) : Option File :=
  (call vol file act).map fun (bufs,be) =>
    match act,be with
    | .create _ n,some _ => ⟨file.eiBlock,bufs,file.blocks + n⟩
    | _,_ => ⟨file.eiBlock,bufs,file.blocks⟩

/-- `sefs_new_inode` reads the first extent block before it scrubs it, so that its buffer is up to date. -/
def newFile (bufs : Buffers) (eiBlock : Nat) : File :=
  ⟨eiBlock,⟨update bufs.data eiBlock ⟨0,scrubbed 0⟩,update bufs.uptodate eiBlock true⟩,0⟩

def chainFrom (data : Nat → EiBlock) : (rounds bno : Nat) → List Nat
  | 0,_ => []
  | rounds + 1,bno => if bno = 0 then [] else bno :: chainFrom data rounds (data bno).next

def File.chain (vol : Volume) (file : File) : List Nat := chainFrom file.bufs.data vol.nrBlocks file.eiBlock

def extents (data : Nat → EiBlock) (chain : List Nat) : List SefsExtent :=
  chain.flatMap fun bno => ((List.range sefsMaxExtents).map (data bno).extents).filter fun ext => decide (ext.bno ≠ 0)

/-- The extents that the buffers map for a file, in chain order. -/
def extentMap (vol : Volume) (bufs : Buffers) (eiBlock : Nat) : List SefsExtent :=
  extents bufs.data (chainFrom bufs.data vol.nrBlocks eiBlock)

/-- The allocator has a block of the volume that is not on the chain, or none. -/
def Fresh (vol : Volume) (env : Env) (chain : List Nat) : Prop :=
  ∀ bno ∈ chain, env.nextBno bno ∉ chain ∧ env.nextBno bno < vol.nrBlocks

/-- No block of the chain has a buffer that is neither up to date nor what the disk holds. -/
def Settled (env : Env) (bufs : Buffers) (chain : List Nat) : Prop :=
  ∀ bno ∈ chain, bufs.uptodate bno = true ∨ env.disk bno = bufs.data bno

def SefsExtent.span (ext : SefsExtent) : Extent := ⟨ext.iblock,ext.len⟩

def SefsExtent.Holds (ext : SefsExtent) (iblock : Nat) : Prop := ext.iblock ≤ iblock ∧ iblock < ext.iblock + ext.len

instance SefsExtent.Holds.decidable (ext : SefsExtent) (iblock : Nat) : Decidable (ext.Holds iblock) :=
  inferInstanceAs (Decidable (_ ∧ _))

structure Filled (start : Nat) (index : Extents) (k stop : Nat) : Prop where
  count : k ≤ sefsMaxExtents
  used : ∀ i < k, (index i).bno ≠ 0 ∧ 0 < (index i).len ∧ (index i).len ≤ 32768
  free : ∀ i, k ≤ i → i < sefsMaxExtents → (index i).bno = 0 ∧ (index i).len = 0 ∧ (index i).iblock ≤ start
  laid : Laid start ((List.range k).map fun i => (index i).span) stop
  preset : k = 0 → (index 0).iblock = start

variable {start stop k i x nr bno : Nat} {index after : Extents}

theorem scrubbed_filled (start : Nat) : Filled start (scrubbed start) 0 start := by
  refine ⟨Nat.zero_le _,by simp,fun i _ _ => ?_,rfl,fun _ => rfl⟩
  rw [scrubbed]
  split
  · exact ⟨rfl,rfl,Nat.le_refl start⟩
  · exact ⟨rfl,rfl,Nat.zero_le start⟩

namespace Filled

section

variable (filled : Filled start index k stop)
include filled

theorem inside (below : i < k) : start ≤ (index i).iblock ∧ (index i).iblock + (index i).len ≤ stop :=
  filled.laid.inside _ (mem_map.mpr ⟨i,mem_range.mpr below,rfl⟩)

theorem slot (within : i < sefsMaxExtents) (used : (index i).bno ≠ 0) : i < k := by
  by_contra outside
  exact used (filled.free i (Nat.not_lt.mp outside) within).1

theorem covered (low : start ≤ x) (high : x < stop) : ∃ i < k, (index i).Holds x := by
  have once := filled.laid.coverings x
  rw [if_pos ⟨low,high⟩] at once
  obtain ⟨e,member,holds⟩ := countP_pos_iff.mp (once ▸ Nat.one_pos)
  obtain ⟨i,below,rfl⟩ := mem_map.mp member
  exact ⟨i,mem_range.mp below,of_decide_eq_true holds⟩

end

theorem last (filled : Filled start index (k + 1) stop) : (index k).iblock + (index k).len = stop := by
  have laid := filled.laid
  rw [range_succ,map_append] at laid
  obtain ⟨_,-,end_⟩ := laid.of_append
  exact end_.2

section

variable (filled : Filled start index k stop) (small : stop < 2^32)
include filled small

theorem next : (if k ≠ 0 then u32 ((index (k - 1)).iblock + (index (k - 1)).len) else (index k).iblock) = stop := by
  cases k with
  | zero =>
    rw [if_neg (by simp),filled.preset rfl]
    exact filled.laid
  | succ k =>
    rw [if_pos (Nat.succ_ne_zero k),Nat.add_sub_cancel,filled.last,u32_of_lt small]

theorem search_used (low : start ≤ x) (high : x < stop) : ∃ i < k, extSearch index x = some i ∧ (index i).Holds x := by
  obtain ⟨j,below,holds⟩ := filled.covered low high
  have count := filled.count
  have plain : ∀ i < k, u32 ((index i).iblock + (index i).len) = (index i).iblock + (index i).len := fun i below =>
    u32_of_lt (Nat.lt_of_le_of_lt (filled.inside below).2 small)
  obtain ⟨i,found⟩ : ∃ i, extSearch index x = some i := by
    refine isSome_iff_exists.mp (List.find?_isSome.mpr ⟨j,mem_range.mpr (by omega),?_⟩)
    rw [plain j below]
    exact decide_eq_true (.inr holds)
  obtain ⟨matches_,-,before⟩ := List.find?_range_eq_some.mp found
  have first : i ≤ j := by
    by_contra later
    have skipped := before j (by omega)
    rw [plain j below] at skipped
    simp [holds.1,holds.2] at skipped
  refine ⟨i,by omega,found,?_⟩
  rw [plain i (by omega)] at matches_
  exact (of_decide_eq_true matches_).resolve_left (filled.used i (by omega)).1

theorem search_skips (past : stop ≤ x) (below : i < k) :
    ¬ ((index i).bno = 0 ∨ x ≥ (index i).iblock ∧ x < u32 ((index i).iblock + (index i).len)) := by
  have within := (filled.inside below).2
  rw [u32_of_lt (Nat.lt_of_le_of_lt within small)]
  rintro (free | ⟨-,before⟩)
  · exact (filled.used i below).1 free
  · omega

theorem search_free (past : stop ≤ x) (room : k < sefsMaxExtents) : extSearch index x = some k := by
  refine List.find?_range_eq_some.mpr ⟨decide_eq_true (.inl (filled.free k (Nat.le_refl k) room).1),mem_range.mpr room,?_⟩
  intro i below
  rw [decide_eq_false (filled.search_skips small past below)]
  rfl

end

theorem search_full (filled : Filled start index sefsMaxExtents stop) (small : stop < 2^32) (past : stop ≤ x) :
    extSearch index x = none := by
  refine List.find?_eq_none.mpr fun i member => ?_
  simpa using filled.search_skips small past (mem_range.mp member)

theorem spans_update (index : Extents) (k : Nat) (ext : SefsExtent) :
    (List.range (k + 1)).map (fun i => (update index k ext i).span) =
      (List.range k).map (fun i => (index i).span) ++ [ext.span] := by
  rw [range_succ,map_append,map_singleton,update_self]
  congr 1
  refine map_congr_left fun i member => ?_
  rw [update_of_ne (Nat.ne_of_lt (mem_range.mp member))]

theorem append (filled : Filled start index k stop) (room : k < sefsMaxExtents) {len : Nat} (fresh : bno ≠ 0)
    (positive : 0 < len)
    (most : len ≤ 32768) : Filled start (update index k ⟨bno,stop,len⟩) (k + 1) (stop + len) := by
  refine ⟨room,fun i below => ?_,fun i above within => ?_,?_,fun zero => absurd zero (Nat.succ_ne_zero k)⟩
  · by_cases here : i = k
    · rw [here,update_self]
      exact ⟨fresh,positive,most⟩
    · rw [update_of_ne here]
      exact filled.used i (by omega)
  · rw [update_of_ne (by omega)]
    exact filled.free i (by omega) within
  · rw [spans_update]
    exact filled.laid.append (laid_one stop len)

end Filled

theorem matchExtent_bounds (n : Nat) : 0 < matchExtent n ∧ matchExtent n ≤ 32768 ∧ min n 32768 ≤ matchExtent n := by
  simp only [matchExtent]
  repeat' split
  all_goals omega

theorem extentBlocks_bounds (filled : Filled start index k stop) (most : nr ≤ nrBlksToAlloc) :
    0 < extentBlocks index nr k ∧ extentBlocks index nr k ≤ 32768 ∧ nr ≤ extentBlocks index nr k := by
  simp only [nrBlksToAlloc] at most
  have enough : nr ≤ grownRequest index nr k := by
    rw [grownRequest]
    split
    · rw [u32_of_lt (by omega)]
      omega
    · exact Nat.le_refl nr
  obtain ⟨positive,fits,covers⟩ := matchExtent_bounds (grownRequest index nr k)
  rw [extentBlocks]
  split
  next some =>
    have before := (filled.used (k - 1) (by omega)).2.2
    omega
  next none => omega

/-- A free slot takes an extent that starts where the map ends. -/
theorem allocFileBlock_filled (filled : Filled start index k stop) (room : k < sefsMaxExtents) (small : stop < 2^32)
    (most : nr ≤ nrBlksToAlloc) (allocated : allocFileBlock index nr k bno = some after) :
    ∃ len, nr ≤ len ∧ len ≤ 32768 ∧ 0 < len ∧ bno ≠ 0 ∧ after = update index k ⟨bno,stop,len⟩ ∧
      Filled start after (k + 1) (stop + len) := by
  obtain ⟨positive,fits,covers⟩ := extentBlocks_bounds filled most
  rw [allocFileBlock] at allocated
  obtain ⟨fresh,⟨⟩⟩ := ite_none_left_eq_some.mp allocated
  rw [filled.next small,u16,Nat.mod_eq_of_lt (by omega)]
  exact ⟨_,covers,fits,positive,fresh,rfl,filled.append room fresh positive fits⟩

def bnoAt (chain : List Nat) (p : Nat) : Nat := chain.getD p 0

def block (data : Nat → EiBlock) (chain : List Nat) (p : Nat) : Extents := (data (bnoAt chain p)).extents

variable {chain chain' : List Nat}
 

theorem setExtents_self (data : Nat → EiBlock) (bno : Nat) (exts : Extents) :
    (setExtents data bno exts bno).extents = exts := by
  rw [setExtents,update_self]

theorem bnoAt_eq (within : p < chain.length) : chain[p]? = some (bnoAt chain p) := by
  rw [bnoAt,getD_eq_getElem?_getD,getElem?_eq_getElem within,getD_some]

theorem bnoAt_mem (within : p < chain.length) : bnoAt chain p ∈ chain := mem_of_getElem? (bnoAt_eq within)

theorem bnoAt_append (within : p < chain.length) (more : List Nat) : bnoAt (chain ++ more) p = bnoAt chain p := by
  rw [bnoAt,bnoAt,getD_eq_getElem?_getD,getD_eq_getElem?_getD,getElem?_append_left within]

theorem bnoAt_last (chain : List Nat) (bno : Nat) : bnoAt (chain ++ [bno]) chain.length = bno := by
  simp [bnoAt]

theorem bnoAt_ne (distinct : chain.Nodup) (within : p < chain.length) (within' : q < chain.length) (other : p ≠ q) :
    bnoAt chain p ≠ bnoAt chain q := by
  intro same
  have both := (bnoAt_eq within).trans ((congrArg some same).trans (bnoAt_eq within').symm)
  exact other (getElem?_inj within distinct |>.mp both)

/-- The blocks of the chain are linked, and map the blocks of the file from zero to `total`: all but the last are full, and
`k` slots of the last are used. -/
structure Mapped (vol : Volume) (data : Nat → EiBlock) (chain : List Nat) (total : Nat) (ends : Nat → Nat)
    (k : Nat) : Prop where
  nonempty : 0 < chain.length
  distinct : chain.Nodup
  stored : ∀ bno ∈ chain, bno ≠ 0 ∧ bno < vol.nrBlocks
  linked : ∀ p < chain.length, (data (bnoAt chain p)).next = bnoAt chain (p + 1)
  first : ends 0 = 0
  full : ∀ p, p + 1 < chain.length → Filled (ends p) (block data chain p) sefsMaxExtents (ends (p + 1))
  last : Filled (ends (chain.length - 1)) (block data chain (chain.length - 1)) k total

namespace Mapped

section

variable (mapped : Mapped vol data chain total ends k)
include mapped

theorem length_lt : chain.length < vol.nrBlocks := by
  have distinct : (0 :: chain).Nodup := nodup_cons.mpr ⟨fun zero => (mapped.stored 0 zero).1 rfl,mapped.distinct⟩
  have stored : 0 :: chain ⊆ List.range vol.nrBlocks := by
    intro bno member
    rcases mem_cons.mp member with rfl | member
    · have first := (mapped.stored _ (bnoAt_mem mapped.nonempty)).2
      exact mem_range.mpr (by omega)
    · exact mem_range.mpr (mapped.stored bno member).2
  exact (subperm_of_subset distinct stored).length_le.trans_eq length_range

theorem ends_le (within : p < chain.length) : ends p ≤ total := by
  obtain ⟨d,rfl⟩ : ∃ d, p = chain.length - 1 - d := ⟨chain.length - 1 - p,by omega⟩
  induction d with
  | zero => exact mapped.last.laid.le
  | succ d ih =>
    by_cases same : chain.length - 1 - (d + 1) = chain.length - 1 - d
    · rw [same]
      exact ih (by omega)
    · have here := (mapped.full (chain.length - 1 - (d + 1)) (by omega)).laid.le
      rw [show chain.length - 1 - (d + 1) + 1 = chain.length - 1 - d by omega] at here
      exact here.trans (ih (by omega))

theorem filled (within : p < chain.length) : ∃ j stop, Filled (ends p) (block data chain p) j stop ∧ stop ≤ total := by
  by_cases last : p + 1 < chain.length
  · exact ⟨_,_,mapped.full p last,mapped.ends_le last⟩
  · obtain rfl : p = chain.length - 1 := by omega
    exact ⟨_,_,mapped.last,Nat.le_refl total⟩

theorem slot (within : p < chain.length) (slot : ei < sefsMaxExtents)
    (used : (block data chain p ei).bno ≠ 0) : ends p ≤ (block data chain p ei).iblock ∧
      (block data chain p ei).iblock + (block data chain p ei).len ≤ total ∧ 0 < (block data chain p ei).len := by
  obtain ⟨j,stop,filled,upto⟩ := mapped.filled within
  have below := filled.slot slot used
  have inside := filled.inside below
  exact ⟨inside.1,inside.2.trans upto,(filled.used ei below).2.1⟩

/-- Changes that keep the links and all blocks but the last, which may become fuller. -/
theorem change (links : ∀ bno ∈ chain, (data' bno).next = (data bno).next)
    (kept : ∀ p, p + 1 < chain.length → block data' chain p = block data chain p)
    (filled : Filled (ends (chain.length - 1)) (block data' chain (chain.length - 1)) j stop) :
    Mapped vol data' chain stop ends j := by
  refine ⟨mapped.nonempty,mapped.distinct,mapped.stored,fun p within => ?_,mapped.first,fun p within => ?_,filled⟩
  · rw [links _ (bnoAt_mem within)]
    exact mapped.linked p within
  · rw [kept p within]
    exact mapped.full p within

theorem set (filled : Filled (ends (chain.length - 1)) exts j stop) :
    Mapped vol (setExtents data (bnoAt chain (chain.length - 1)) exts) chain stop ends j := by
  have some := mapped.nonempty
  refine mapped.change (fun bno _ => ?_) (fun p within => ?_) ?_
  · by_cases here : bno = bnoAt chain (chain.length - 1)
    · rw [here,setExtents,update_self]
    · rw [setExtents,update_of_ne here]
  · rw [block,setExtents,update_of_ne (bnoAt_ne mapped.distinct (by omega) (Nat.sub_one_lt_of_lt some) (by omega)),block]
  · rw [block,setExtents_self]
    exact filled

end

end Mapped

theorem linkNext_extents (other : b ≠ bno) : (linkNext data last bno start b).extents = (data b).extents := by
  rw [linkNext,update_of_ne other]
  by_cases here : b = last
  · rw [here,update_self]
  · rw [update_of_ne here]

theorem Mapped.append (mapped : Mapped vol data chain total ends sefsMaxExtents) (fresh : bno ∉ chain) (positive : bno ≠ 0)
    (stored : bno < vol.nrBlocks) :
    Mapped vol (linkNext data (bnoAt chain (chain.length - 1)) bno total) (chain ++ [bno]) total
      (update ends chain.length total) 0 := by
  have some := mapped.nonempty
  have other : ∀ p < chain.length, bnoAt chain p ≠ bno := fun p within same => fresh (same ▸ bnoAt_mem within)
  have kept : ∀ p < chain.length, block (linkNext data (bnoAt chain (chain.length - 1)) bno total) (chain ++ [bno]) p =
      block data chain p := by
    intro p within
    rw [block,bnoAt_append within,linkNext_extents (other p within),block]
  refine ⟨by simp,?_,fun b member => ?_,fun p within => ?_,?_,fun p within => ?_,?_⟩
  · refine nodup_append.mpr ⟨mapped.distinct,by simp,?_⟩
    rintro b member _ listed rfl
    exact fresh (mem_singleton.mp listed ▸ member)
  · rcases mem_append.mp member with member | member
    · exact mapped.stored b member
    · rw [mem_singleton.mp member]
      exact ⟨positive,stored⟩
  · rw [length_append,length_singleton] at within
    rcases Nat.lt_succ_iff_lt_or_eq.mp within with within | rfl
    · rw [bnoAt_append within,linkNext,update_of_ne (other p within)]
      by_cases last : p = chain.length - 1
      · rw [last,update_self,show chain.length - 1 + 1 = chain.length by omega,bnoAt_last]
      · rw [update_of_ne (bnoAt_ne mapped.distinct within (by omega) last),bnoAt_append (by omega)]
        exact mapped.linked p within
    · rw [bnoAt_last,linkNext,update_self]
      simp [bnoAt]
  · rw [update_of_ne (by omega)]
    exact mapped.first
  · rw [length_append,length_singleton] at within
    rw [kept p (by omega),update_of_ne (by omega)]
    by_cases last : p + 1 = chain.length
    · rw [last,update_self]
      obtain rfl : p = chain.length - 1 := by omega
      exact mapped.last
    · rw [update_of_ne last]
      exact mapped.full p (by omega)
  · rw [length_append,length_singleton,Nat.add_sub_cancel,block,bnoAt_last,linkNext,update_self,update_self]
    exact scrubbed_filled total

/-- The blocks of the chain stay where they are and keep their extents. -/
def Extends (data : Nat → EiBlock) (chain : List Nat) (data' : Nat → EiBlock) (chain' : List Nat) : Prop :=
  ∀ p < chain.length, p < chain'.length ∧ bnoAt chain' p = bnoAt chain p ∧
    ∀ ei, (block data chain p ei).bno ≠ 0 → block data' chain' p ei = block data chain p ei

theorem Extends.refl (data : Nat → EiBlock) (chain : List Nat) : Extends data chain data chain := fun _ within =>
  ⟨within,rfl,fun _ _ => rfl⟩

theorem Extends.trans (one : Extends data chain data' chain') (other : Extends data' chain' data'' chain'') :
    Extends data chain data'' chain'' := by
  intro p within
  obtain ⟨within',same,kept⟩ := one p within
  obtain ⟨within'',same',kept'⟩ := other p within'
  refine ⟨within'',same'.trans same,fun ei used => ?_⟩
  rw [kept' ei (by rwa [kept ei used]),kept ei used]

theorem Extends.append (fresh : bno ∉ chain) : Extends data chain (linkNext data last bno start) (chain ++ [bno]) := by
  intro p within
  refine ⟨by rw [length_append]; omega,bnoAt_append within _,fun ei _ => ?_⟩
  have other : bnoAt chain p ≠ bno := fun same => fresh (same ▸ bnoAt_mem within)
  rw [block,bnoAt_append within,linkNext_extents other,block]

theorem Extends.set (distinct : chain.Nodup) (within : p < chain.length) {ext : SefsExtent}
    (free : (block data chain p ei).bno = 0) :
    Extends data chain (setExtents data (bnoAt chain p) (update (block data chain p) ei ext)) chain := by
  intro q below
  refine ⟨below,rfl,fun i used => ?_⟩
  by_cases here : q = p
  · subst here
    rw [block,setExtents_self,update_of_ne]
    rintro rfl
    exact used free
  · rw [block,setExtents,update_of_ne (bnoAt_ne distinct below within here),block]

/-- The chain maps the blocks of the file from zero to `total`, whatever its used slots and its ends are. -/
def Maps (vol : Volume) (data : Nat → EiBlock) (chain : List Nat) (total : Nat) : Prop :=
  ∃ ends k, Mapped vol data chain total ends k

theorem sbBread_settled (settled : Settled env bufs chain) (member : bno ∈ chain) :
    sbBread env.toDisk bufs bno = none ∨
      ∃ bufs', sbBread env.toDisk bufs bno = some bufs' ∧ bufs'.data = bufs.data ∧ Settled env bufs' chain := by
  rw [sbBread]
  split
  next => exact .inr ⟨bufs,rfl,rfl,settled⟩
  next old =>
    split
    next =>
      have same : update bufs.data bno (env.disk bno) = bufs.data := by
        rw [(settled bno member).resolve_left old,update_eq_self]
      refine .inr ⟨_,rfl,same,fun b listed => ?_⟩
      simp only [same]
      by_cases here : b = bno
      · rw [here,update_self]
        exact .inl rfl
      · rw [update_of_ne here]
        exact settled b listed
    next => exact .inl rfl

/-- What a search on a mapped and settled chain comes to: it fails, or finds the slot that holds the block, or the first free
slot of the last block, which may be new. -/
inductive Searched (vol : Volume) (env : Env) (bufs : Buffers) (chain : List Nat) (total iblock : Nat) :
    Option (Buffers × Option (Nat × Nat)) → Prop
  | failed (bufs' : Buffers) (same : bufs'.data = bufs.data) : Searched vol env bufs chain total iblock (some (bufs',none))
  | used (bufs' : Buffers) (p ei : Nat) (same : bufs'.data = bufs.data) (settled : Settled env bufs' chain)
      (within : p < chain.length) (slot : ei < sefsMaxExtents) (used : (block bufs.data chain p ei).bno ≠ 0)
      (holds : (block bufs.data chain p ei).Holds iblock) :
      Searched vol env bufs chain total iblock (some (bufs',some (bnoAt chain p,ei)))
  | free (bufs' : Buffers) (chain' : List Nat) (ei : Nat) (past : total ≤ iblock) (ends : Nat → Nat)
      (mapped : Mapped vol bufs'.data chain' total ends ei) (room : ei < sefsMaxExtents)
      (kept : Extends bufs.data chain bufs'.data chain') :
      Searched vol env bufs chain total iblock (some (bufs',some (bnoAt chain' (chain'.length - 1),ei)))

theorem Searched.of_same (searched : Searched vol env bufs' chain total iblock result) (same : bufs'.data = bufs.data) :
    Searched vol env bufs chain total iblock result := by
  cases searched with
  | failed after kept => exact .failed after (kept.trans same)
  | used after p ei kept settled within slot used holds =>
    rw [same] at used holds
    exact .used after p ei (kept.trans same) settled within slot used holds
  | free after chain' ei past ends mapped room kept => exact .free after chain' ei past ends mapped room (same ▸ kept)

theorem extend_searched (mapped : Mapped vol bufs.data chain total ends sefsMaxExtents) (small : total < 2^32)
    (past : total ≤ iblock) (fresh : Fresh vol env chain) (rounds : Nat) :
    Searched vol env bufs chain total iblock
      (match getNextEiBlock env bufs (bnoAt chain (chain.length - 1)) with
        | (bufs,none) => some (bufs,none)
        | (bufs,some bno) => search env iblock (rounds + 1) bufs bno) := by
  have count := mapped.nonempty
  have ended : _ = total := mapped.last.last (k := sefsMaxExtents - 1)
  have next : (bufs.data (bnoAt chain (chain.length - 1))).next = 0 := by
    rw [mapped.linked _ (by omega)]
    simp [bnoAt,show chain.length ≤ chain.length - 1 + 1 by omega]
  rw [block] at ended
  simp only [getNextEiBlock,next,ne_eq,not_true_eq_false,if_false,ended,u32_of_lt small]
  by_cases none : env.nextBno (bnoAt chain (chain.length - 1)) = 0
  · rw [if_pos none]
    exact .failed bufs rfl
  · rw [if_neg none]
    obtain ⟨apart,stored⟩ := fresh _ (bnoAt_mem (show chain.length - 1 < chain.length by omega))
    generalize env.nextBno (bnoAt chain (chain.length - 1)) = bno at *
    have grown := mapped.append apart none stored
    have slot : extSearch (scrubbed total) iblock = some 0 :=
      (scrubbed_filled total).search_free small past (by decide)
    have found : Searched vol env bufs chain total iblock _ :=
      .free ⟨linkNext bufs.data (bnoAt chain (chain.length - 1)) bno total,bufs.uptodate⟩ (chain ++ [bno]) 0 past _ grown
        (by decide)
        (Extends.append apart)
    rw [length_append,length_singleton,Nat.add_sub_cancel,bnoAt_last] at found
    dsimp only
    rw [search,show (linkNext bufs.data _ bno total bno).extents = scrubbed total by rw [linkNext,update_self],slot]
    exact found

theorem search_searched (left : Nat) (mapped : Mapped vol bufs.data chain total ends k) (small : total < 2^32)
    (settled : Settled env bufs chain) (fresh : Fresh vol env chain) (place : p + left + 1 = chain.length)
    (enough : left + 2 ≤ rounds) (low : ends p ≤ iblock) :
    Searched vol env bufs chain total iblock (search env iblock rounds bufs (bnoAt chain p)) := by
  induction left generalizing p rounds bufs with
  | zero =>
    obtain ⟨more,rfl⟩ : ∃ more, rounds = more + 2 := ⟨rounds - 2,by omega⟩
    obtain rfl : p = chain.length - 1 := by omega
    have last := mapped.last
    rw [search]
    rcases Nat.lt_or_ge iblock total with within | past
    · obtain ⟨i,below,found,holds⟩ := last.search_used small low within
      have count := last.count
      rw [block] at found
      rw [found]
      exact .used bufs _ i rfl settled (by omega) (by omega) (last.used i below).1 holds
    · rcases Nat.lt_or_ge k sefsMaxExtents with room | full
      · have found := last.search_free small past room
        rw [block] at found
        rw [found]
        exact .free bufs chain k past _ mapped room (Extends.refl _ _)
      · obtain rfl : k = sefsMaxExtents := Nat.le_antisymm last.count full
        have silent := last.search_full small past
        rw [block] at silent
        rw [silent]
        exact extend_searched mapped small past fresh more
  | succ left ih =>
    obtain ⟨more,rfl⟩ : ∃ more, rounds = more + 1 := ⟨rounds - 1,by omega⟩
    have filled := mapped.full p (by omega)
    have upto := mapped.ends_le (p := p + 1) (by omega)
    have listed : bnoAt chain (p + 1) ∈ chain := bnoAt_mem (by omega)
    rw [search]
    rcases Nat.lt_or_ge iblock (ends (p + 1)) with within | past
    · obtain ⟨i,below,found,holds⟩ := filled.search_used (by omega) low within
      rw [block] at found
      rw [found]
      exact .used bufs p i rfl settled (by omega) below (filled.used i below).1 holds
    · have silent := filled.search_full (by omega) past
      rw [block] at silent
      rw [silent]
      simp only [getNextEiBlock,mapped.linked p (by omega),ne_eq,(mapped.stored _ listed).1,not_false_eq_true,if_true]
      rcases sbBread_settled settled listed with failed | ⟨bufs',read,same,settled'⟩
      · rw [failed]
        exact .failed bufs rfl
      · rw [read]
        exact (ih (same ▸ mapped) settled' (by omega) (by omega) past).of_same same

theorem searchFrom_searched (iblock : Nat) (mapped : Mapped vol bufs.data chain total ends k) (small : total < 2^32)
    (settled : Settled env bufs chain) (fresh : Fresh vol env chain) (within : p < chain.length) (low : ends p ≤ iblock) :
    Searched vol env bufs chain total iblock (search env iblock vol.rounds bufs (bnoAt chain p)) := by
  have short := mapped.length_lt
  exact search_searched (chain.length - 1 - p) mapped small settled fresh (by omega)
    (by rw [Volume.rounds]; omega) low

theorem Mapped.alloc (mapped : Mapped vol data chain total ends ei) (room : ei < sefsMaxExtents) (small : total < 2^32)
    (most : nr ≤ nrBlksToAlloc) (allocated : allocFileBlock (block data chain (chain.length - 1)) nr ei bno = some after) :
    ∃ len, nr ≤ len ∧ len ≤ 32768 ∧ 0 < len ∧ bno ≠ 0 ∧ after ei = ⟨bno,total,len⟩ ∧
      Mapped vol (setExtents data (bnoAt chain (chain.length - 1)) after) chain (total + len) ends (ei + 1) ∧
      Extends data chain (setExtents data (bnoAt chain (chain.length - 1)) after) chain := by
  have some := mapped.nonempty
  obtain ⟨len,covers,fits,positive,fresh,rfl,filled⟩ := allocFileBlock_filled mapped.last room small most allocated
  have free := (mapped.last.free ei (Nat.le_refl ei) room).1
  exact ⟨len,covers,fits,positive,fresh,update_self ..,mapped.set filled,Extends.set mapped.distinct (by omega) free⟩

/-- The loop ends, and if it succeeds the map reaches the end of the request. -/
theorem createRest_spec (iblock create rounds : Nat) (maps : Maps vol bufs.data chain total)
    (bounded : total ≤ iblock + create + 32768)
    (small : iblock + create + 32768 < 2^32) (most : create ≤ nrBlksToAlloc) (settled : Settled env bufs chain)
    (fresh : Fresh vol env chain) (within : p < chain.length) (slot : ei < sefsMaxExtents)
    (used : (block bufs.data chain p ei).bno ≠ 0)
    (after : iblock < (block bufs.data chain p ei).iblock + (block bufs.data chain p ei).len)
    (early : (block bufs.data chain p ei).iblock + (block bufs.data chain p ei).len < iblock + create)
    (enough : iblock + create < (block bufs.data chain p ei).iblock + (block bufs.data chain p ei).len + rounds + 1) :
    ∃ bufs' ok, createRest vol env iblock create rounds bufs (bnoAt chain p) ei = some (bufs',ok) ∧
      ∃ chain' total', Maps vol bufs'.data chain' total' ∧ Extends bufs.data chain bufs'.data chain' ∧
        (ok = false → total' = total) ∧
        (ok = true → iblock + create ≤ total' ∧ total' ≤ iblock + create + 32768) := by
  induction rounds generalizing bufs p ei with
  | zero => omega
  | succ rounds ih =>
    obtain ⟨ends,k,mapped⟩ := id maps
    obtain ⟨low,upto,-⟩ := mapped.slot within slot used
    generalize stop : (block bufs.data chain p ei).iblock + (block bufs.data chain p ei).len = nIblock at *
    have ahead : sub64 nIblock iblock = nIblock - iblock := sub64_of_le (by omega) (by omega)
    have rest : u32 (sub64 create (sub64 nIblock iblock)) = iblock + create - nIblock := by
      rw [ahead,sub64_of_le (by omega) (by omega),u32_of_lt (by omega)]
      omega
    have searched := searchFrom_searched nIblock mapped (by omega) settled fresh within (by omega)
    have here : (bufs.data (bnoAt chain p)).extents ei = block bufs.data chain p ei := rfl
    rw [createRest,here,stop,u32_of_lt (show nIblock < 2^32 by omega),rest]
    generalize search env nIblock vol.rounds bufs (bnoAt chain p) = result at searched
    cases searched with
    | failed bufs' same =>
      exact ⟨bufs',false,rfl,chain,total,same ▸ maps,same ▸ Extends.refl _ _,fun _ => rfl,nofun⟩
    | used bufs' q i same settled' within' slot' used' holds =>
      obtain ⟨-,upto',-⟩ := mapped.slot within' slot' used'
      have next := holds.2
      have there : (bufs'.data (bnoAt chain q)).extents i = block bufs.data chain q i := by rw [same,block]
      simp only [there,if_neg used']
      rw [u32_of_lt (by omega)]
      split
      next more =>
        rw [← same] at used' next more
        obtain ⟨after,ok,ran,done⟩ := ih (same ▸ maps) settled' within' slot' used' (by omega) (by omega) (by omega)
        exact ⟨after,ok,ran,same ▸ done⟩
      next covered =>
        exact ⟨bufs',true,rfl,chain,total,same ▸ maps,same ▸ Extends.refl _ _,nofun,fun _ => ⟨by omega,bounded⟩⟩
    | free bufs' chain' i past ends' mapped' room kept =>
      have some := mapped'.nonempty
      have there : (bufs'.data (bnoAt chain' (chain'.length - 1))).extents = block bufs'.data chain' (chain'.length - 1) := rfl
      simp only [there,if_pos (mapped'.last.free i (Nat.le_refl i) room).1]
      cases allocated : allocFileBlock (block bufs'.data chain' (chain'.length - 1)) (iblock + create - nIblock) i
          (env.extentBno (bnoAt chain' (chain'.length - 1)) i) with
      | none => exact ⟨bufs',false,rfl,chain',total,⟨_,_,mapped'⟩,kept,fun _ => rfl,nofun⟩
      | some exts =>
        obtain ⟨len,covers,fits,positive,fresh,ext,grown,kept'⟩ := mapped'.alloc room (by omega) (by omega) allocated
        have set := setExtents_self bufs'.data (bnoAt chain' (chain'.length - 1)) exts
        simp only [map_some,set,ext]
        rw [u32_of_lt (show total + len < 2^32 by omega),if_neg (by omega)]
        exact ⟨_,true,rfl,chain',total + len,⟨_,_,grown⟩,kept.trans kept',nofun,fun _ => ⟨by omega,by omega⟩⟩

/-! The extents in chain order. -/

theorem mem_extents (within : p < chain.length) (slot : ei < sefsMaxExtents) (used : (block data chain p ei).bno ≠ 0) :
    block data chain p ei ∈ extents data chain := by
  refine mem_flatMap.mpr ⟨bnoAt chain p,bnoAt_mem within,mem_filter.mpr ⟨?_,decide_eq_true used⟩⟩
  exact mem_map.mpr ⟨ei,mem_range.mpr slot,rfl⟩

theorem Filled.extents (filled : Filled start index k stop) :
    ((List.range sefsMaxExtents).map index).filter (fun ext => decide (ext.bno ≠ 0)) = (List.range k).map index := by
  have count := filled.count
  obtain ⟨rest,all⟩ : ∃ rest, sefsMaxExtents = k + rest := ⟨sefsMaxExtents - k,by omega⟩
  rw [all,range_add,map_append,filter_append,filter_eq_self.mpr,filter_eq_nil_iff.mpr,append_nil]
  · intro ext member
    obtain ⟨i,outside,rfl⟩ := mem_map.mp member
    obtain ⟨j,below,rfl⟩ := mem_map.mp outside
    have free := (filled.free (k + j) (Nat.le_add_right k j) (by have := mem_range.mp below; omega)).1
    simp [free]
  · intro ext member
    obtain ⟨i,below,rfl⟩ := mem_map.mp member
    exact decide_eq_true (filled.used i (mem_range.mp below)).1

theorem extents_append (data : Nat → EiBlock) (chain chain' : List Nat) :
    extents data (chain ++ chain') = extents data chain ++ extents data chain' := flatMap_append

theorem Filled.spans (filled : Filled start (data bno).extents k stop) :
    Laid start ((SefsExtents.extents data [bno]).map SefsExtent.span) stop := by
  rw [SefsExtents.extents,List.flatMap_singleton,filled.extents,List.map_map]
  exact filled.laid

theorem Mapped.laid (mapped : Mapped vol data chain total ends k) : Laid 0 ((extents data chain).map SefsExtent.span) total := by
  have some := mapped.nonempty
  have upto : ∀ p < chain.length, Laid 0 ((extents data (chain.take p)).map SefsExtent.span) (ends p) := by
    intro p within
    induction p with
    | zero => exact mapped.first.symm
    | succ p ih =>
      rw [take_add_one,bnoAt_eq (by omega),extents_append,map_append]
      exact (ih (by omega)).append (mapped.full p within).spans
  have whole := upto (chain.length - 1) (by omega)
  have split : chain = chain.take (chain.length - 1) ++ [bnoAt chain (chain.length - 1)] := by
    have last := take_add_one (l := chain) (i := chain.length - 1)
    rwa [bnoAt_eq (by omega),take_of_length_le (by omega)] at last
  rw [split,extents_append,map_append]
  exact whole.append mapped.last.spans

theorem chainFrom_eq (stored : ∀ bno ∈ chain, bno ≠ 0)
    (linked : ∀ p < chain.length, (data (bnoAt chain p)).next = bnoAt chain (p + 1))
    (enough : chain.length < rounds) : chainFrom data rounds (bnoAt chain 0) = chain := by
  induction chain generalizing rounds with
  | nil => cases rounds <;> rfl
  | cons bno chain ih =>
    obtain ⟨more,rfl⟩ : ∃ more, rounds = more + 1 := ⟨rounds - 1,by omega⟩
    have next : (data bno).next = bnoAt chain 0 := linked 0 (Nat.succ_pos _)
    rw [length_cons] at enough
    show (if bno = 0 then [] else bno :: chainFrom data more (data bno).next) = _
    rw [if_neg (stored bno mem_cons_self),next]
    exact congrArg (bno :: ·) (ih (fun b member => stored b (mem_cons_of_mem bno member))
      (fun p within => linked (p + 1) (Nat.succ_lt_succ within)) (by omega))

theorem Mapped.walked (mapped : Mapped vol data chain total ends k) : chainFrom data vol.nrBlocks (bnoAt chain 0) = chain :=
  chainFrom_eq (fun bno member => (mapped.stored bno member).1) mapped.linked mapped.length_lt

/-- A call fails and leaves the chain as it was, or goes on with what its search has found. -/
theorem getBlock_searched (mapped : Mapped vol bufs.data chain total ends k) (small : total < 2^32)
    (size : vol.sefsMaxFilesize ≤ 2^43) (settled : Settled env bufs chain) (fresh : Fresh vol env chain)
    (iblock create : Nat) :
    (∃ bufs', bufs'.data = bufs.data ∧ getBlock vol env bufs (bnoAt chain 0) iblock create = some (bufs',none)) ∨
    (iblock ≤ 2^31 ∧ ∃ bufs' bno ei, Searched vol env bufs chain total iblock (some (bufs',some (bno,ei))) ∧
      getBlock vol env bufs (bnoAt chain 0) iblock create = getBlockAt vol env iblock create bufs' bno ei) := by
  rw [getBlock]
  split
  next => exact .inl ⟨bufs,rfl,rfl⟩
  next within =>
    have index : iblock ≤ 2^31 := by
      simp only [pageSize] at within
      omega
    rcases sbBread_settled settled (bnoAt_mem mapped.nonempty) with failed | ⟨read,done,same,settled'⟩
    · rw [failed]
      exact .inl ⟨bufs,rfl,rfl⟩
    · have searched := (searchFrom_searched iblock (same ▸ mapped) small settled' fresh mapped.nonempty
        (by rw [mapped.first]; exact Nat.zero_le iblock)).of_same same
      rw [done,u32_of_lt (by omega)]
      dsimp only
      generalize search env iblock vol.rounds read (bnoAt chain 0) = result at searched
      cases id searched with
      | failed bufs' same' => exact .inl ⟨bufs',same',rfl⟩
      | used | free => exact .inr ⟨index,_,_,_,searched,rfl⟩

theorem lookup_spec (maps : Maps vol bufs.data chain total) (small : total < 2^32) (size : vol.sefsMaxFilesize ≤ 2^43)
    (settled : Settled env bufs chain) (fresh : Fresh vol env chain) (iblock : Nat) :
    ∃ bufs' be, getBlock vol env bufs (bnoAt chain 0) iblock 0 = some (bufs',be) ∧
      ∃ chain', Maps vol bufs'.data chain' total ∧ Extends bufs.data chain bufs'.data chain' ∧
        ∀ ext, be = some ext → ext.Holds iblock ∧ ext ∈ extents bufs'.data chain' := by
  obtain ⟨ends,k,mapped⟩ := id maps
  rcases getBlock_searched mapped small size settled fresh iblock 0 with
      ⟨bufs',same,failed⟩ | ⟨-,bufs',bno,ei,searched,got⟩
  · exact ⟨bufs',none,failed,chain,same ▸ maps,same ▸ Extends.refl _ _,nofun⟩
  rw [got,getBlockAt]
  cases searched with
  | used _ p _ same _ within slot used holds =>
    have there : (bufs'.data (bnoAt chain p)).extents ei = block bufs.data chain p ei := by rw [same,block]
    rw [if_pos rfl,there,if_pos (.inr used)]
    refine ⟨bufs',_,rfl,chain,same ▸ maps,same ▸ Extends.refl _ _,?_⟩
    rintro ext ⟨⟩
    have member := mem_extents within slot used
    exact ⟨holds,same ▸ member⟩
  | free _ chain' _ past ends' mapped' room kept =>
    obtain ⟨free,empty,-⟩ := mapped'.last.free ei (Nat.le_refl ei) room
    rw [block] at free empty
    rw [if_pos rfl,if_neg (by simp [free,empty])]
    exact ⟨bufs',none,rfl,chain',⟨_,_,mapped'⟩,kept,nofun⟩

theorem create_spec (maps : Maps vol bufs.data chain total) (low : iblock ≤ total) (high : total ≤ iblock + 32768)
    (index : iblock ≤ 2^31 + 16384) (size : vol.sefsMaxFilesize ≤ 2^43) (positive : 0 < create)
    (most : create ≤ nrBlksToAlloc)
    (settled : Settled env bufs chain) (fresh : Fresh vol env chain) :
    ∃ bufs' be, getBlock vol env bufs (bnoAt chain 0) iblock create = some (bufs',be) ∧
      ∃ chain' total', Maps vol bufs'.data chain' total' ∧ Extends bufs.data chain bufs'.data chain' ∧
        (be = none → total' = total) ∧
        ∀ ext, be = some ext → iblock ≤ 2^31 ∧ ext.Holds iblock ∧ ext ∈ extents bufs'.data chain' ∧
          iblock + create ≤ total' ∧ total' ≤ iblock + create + 32768 := by
  obtain ⟨ends,k,mapped⟩ := id maps
  have step : nrBlksToAlloc = 16384 := rfl
  rcases getBlock_searched mapped (by omega) size settled fresh iblock create with
    ⟨bufs',same,failed⟩ | ⟨index,bufs',bno,ei,searched,got⟩
  · exact ⟨bufs',none,failed,chain,total,same ▸ maps,same ▸ Extends.refl _ _,fun _ => rfl,nofun⟩
  rw [got,getBlockAt,if_neg (by omega)]
  cases searched with
  | used _ p _ same settled' inside slot used holds =>
    have there : (bufs'.data (bnoAt chain p)).extents ei = block bufs.data chain p ei := by rw [same,block]
    obtain ⟨-,upto,-⟩ := mapped.slot inside slot used
    have after := holds.2
    have member := mem_extents inside slot used
    rw [there,u32_of_lt (show (block bufs.data chain p ei).iblock + _ < 2^32 by omega)]
    split
    next covered =>
      refine ⟨bufs',_,rfl,chain,total,same ▸ maps,same ▸ Extends.refl _ _,nofun,?_⟩
      rintro ext ⟨⟩
      exact ⟨index,holds,same ▸ member,by omega,by omega⟩
    next more =>
      obtain ⟨last,ok,ran,chain',total',maps',kept,failed,covers⟩ := createRest_spec iblock create create
        (same ▸ maps) (by omega) (by omega) most settled' fresh inside slot (same ▸ used) (same ▸ after)
          (by rw [same]; omega) (by rw [same]; omega)
      rw [ran]
      rw [same] at kept
      cases ok with
      | false => exact ⟨last,none,rfl,chain',total',maps',kept,fun _ => failed rfl,nofun⟩
      | true =>
        refine ⟨last,_,rfl,chain',total',maps',kept,nofun,?_⟩
        rintro ext ⟨⟩
        obtain ⟨inside',-,still⟩ := kept p inside
        have member' := mem_extents inside' slot (by rwa [still ei used])
        rw [still ei used] at member'
        exact ⟨index,holds,member',covers rfl⟩
  | free _ chain' _ past ends' mapped' room kept =>
    have start := mapped'.last.laid.le
    have count := mapped'.nonempty
    have there : (bufs'.data (bnoAt chain' (chain'.length - 1))).extents = block bufs'.data chain' (chain'.length - 1) := rfl
    obtain ⟨free,empty,preset⟩ := mapped'.last.free ei (Nat.le_refl ei) room
    rw [there,u32_of_lt (by omega),if_neg (by omega),if_pos free]
    cases allocated : allocFileBlock (block bufs'.data chain' (chain'.length - 1)) create ei
        (env.extentBno (bnoAt chain' (chain'.length - 1)) ei) with
    | none => exact ⟨bufs',none,rfl,chain',total,⟨_,_,mapped'⟩,kept,fun _ => rfl,nofun⟩
    | some exts =>
      obtain ⟨len,covers,fits,more,fresh',ext,grown,kept'⟩ := mapped'.alloc room (by omega) most allocated
      have here := setExtents_self bufs'.data (bnoAt chain' (chain'.length - 1)) exts
      have member : block (setExtents bufs'.data (bnoAt chain' (chain'.length - 1)) exts) chain' (chain'.length - 1) ei ∈ _ :=
        mem_extents (by omega) room (by rw [block,here,ext]; exact fresh')
      rw [block,here] at member
      refine ⟨_,_,rfl,chain',total + len,⟨_,_,grown⟩,kept.trans kept',nofun,?_⟩
      rintro _ ⟨⟩
      refine ⟨index,?_,member,by omega,by omega⟩
      rw [ext]
      exact ⟨low.antisymm past ▸ Nat.le_refl iblock,show iblock < total + len by omega⟩

/-- The calls are answered by an allocator with fresh blocks, and find the chain settled. -/
def Meets (vol : Volume) (file : File) (env : Env) : Prop :=
  Fresh vol env (file.chain vol) ∧ Settled env file.bufs (file.chain vol)

/-- The chain of the first block maps the blocks of the file, and at most one extent more. -/
def Invariant (vol : Volume) (file : File) : Prop :=
  ∃ chain total, Maps vol file.bufs.data chain total ∧ bnoAt chain 0 = file.eiBlock ∧ file.blocks ≤ total ∧
    total ≤ file.blocks + 32768 ∧ file.blocks ≤ 2^31 + 16384

theorem newFile_invariant (bufs : Buffers) (positive : eiBlock ≠ 0) (stored : eiBlock < vol.nrBlocks) :
    Invariant vol (newFile bufs eiBlock) := by
  have here : (newFile bufs eiBlock).bufs.data eiBlock = ⟨0,scrubbed 0⟩ := update_self ..
  refine ⟨[eiBlock],0,⟨fun _ => 0,0,Nat.one_pos,by simp,by simp [positive,stored],fun p within => ?_,
    rfl,fun p within => ?_,?_⟩,
    rfl,Nat.le_refl 0,Nat.zero_le _,Nat.zero_le _⟩
  · obtain rfl : p = 0 := by simpa using within
    exact congrArg EiBlock.next here
  · simp at within
  · show Filled 0 ((newFile bufs eiBlock).bufs.data eiBlock).extents 0 0
    rw [here]
    exact scrubbed_filled 0

theorem File.chain_eq {file : File} (maps : Maps vol file.bufs.data chain total) (first : bnoAt chain 0 = file.eiBlock) :
    file.chain vol = chain := by
  obtain ⟨ends,k,mapped⟩ := maps
  rw [File.chain,← first,mapped.walked]

theorem Invariant.laid (inv : Invariant vol file) :
    ∃ total, Laid 0 ((extentMap vol file.bufs file.eiBlock).map SefsExtent.span) total ∧ file.blocks ≤ total := by
  obtain ⟨chain,total,⟨ends,k,mapped⟩,first,low,-⟩ := inv
  rw [extentMap,← first,mapped.walked]
  exact ⟨total,mapped.laid,low⟩

theorem Invariant.covered (inv : Invariant vol file) (below : b < file.blocks) :
    coverings ((extentMap vol file.bufs file.eiBlock).map SefsExtent.span) b = 1 := by
  obtain ⟨total,laid,upto⟩ := inv.laid
  rw [laid.coverings b,if_pos ⟨Nat.zero_le b,by omega⟩]

theorem mem_extentMap {ext : SefsExtent} (maps : Maps vol bufs.data chain total)
    (first : bnoAt chain 0 = eiBlock)
    (member : ext ∈ extents bufs.data chain) : ext ∈ extentMap vol bufs eiBlock := by
  obtain ⟨ends,k,mapped⟩ := maps
  rwa [extentMap,← first,mapped.walked]

theorem create_step (size : vol.sefsMaxFilesize ≤ 2^43) (inv : Invariant vol file) (meets : Meets vol file env)
    (positive : 0 < n) (most : n ≤ nrBlksToAlloc) : ∃ bufs be, call vol file (.create env n) = some (bufs,be) ∧
      Invariant vol ⟨file.eiBlock,bufs,if be.isSome then file.blocks + n else file.blocks⟩ ∧
      ∀ ext, be = some ext → ext ∈ extentMap vol bufs file.eiBlock ∧ ext.Holds file.blocks := by
  obtain ⟨chain,total,maps,first,low,high,small⟩ := inv
  obtain ⟨fresh,settled⟩ := meets
  rw [File.chain_eq maps first] at fresh settled
  have count : 0 < chain.length := maps.elim fun _ ⟨_,mapped⟩ => mapped.nonempty
  obtain ⟨bufs,be,got,chain',total',maps',kept,failed,done⟩ :=
    create_spec maps low high small size positive most settled fresh
  have first' := (kept 0 count).2.1.trans first
  refine ⟨bufs,be,by rw [call,if_pos ⟨positive,most⟩,← first,got],?_⟩
  cases be with
  | none => exact ⟨⟨chain',total',maps',first',by rw [failed rfl]; exact ⟨low,high,small⟩⟩,nofun⟩
  | some ext =>
    obtain ⟨index,holds,member,covers,upto⟩ := done ext rfl
    have steps : nrBlksToAlloc = 16384 := rfl
    refine ⟨⟨chain',total',maps',first',covers,upto,show file.blocks + n ≤ _ by omega⟩,?_⟩
    rintro _ ⟨⟩
    exact ⟨mem_extentMap maps' first' member,holds⟩

theorem lookup_step (size : vol.sefsMaxFilesize ≤ 2^43) (inv : Invariant vol file) (meets : Meets vol file env)
    (iblock : Nat) : ∃ bufs be, call vol file (.lookup env iblock) = some (bufs,be) ∧
      Invariant vol ⟨file.eiBlock,bufs,file.blocks⟩ ∧
      ∀ ext, be = some ext → ext ∈ extentMap vol bufs file.eiBlock ∧ ext.Holds iblock := by
  obtain ⟨chain,total,maps,first,low,high,small⟩ := inv
  obtain ⟨fresh,settled⟩ := meets
  rw [File.chain_eq maps first] at fresh settled
  have count : 0 < chain.length := maps.elim fun _ ⟨_,mapped⟩ => mapped.nonempty
  obtain ⟨bufs,be,got,chain',maps',kept,done⟩ := lookup_spec maps (by omega) size settled fresh iblock
  have first' := (kept 0 count).2.1.trans first
  refine ⟨bufs,be,by rw [call,← first,got],⟨chain',total,maps',first',low,high,small⟩,fun ext found => ?_⟩
  obtain ⟨holds,member⟩ := done ext found
  exact ⟨mem_extentMap maps' first' member,holds⟩

theorem step_create (file : File) (called : call vol file (.create env n) = some (bufs,be)) :
    step vol file (.create env n) = some ⟨file.eiBlock,bufs,if be.isSome then file.blocks + n else file.blocks⟩ := by
  rw [step,called]
  cases be <;> rfl

theorem step_invariant (size : vol.sefsMaxFilesize ≤ 2^43) (file : File) (act : Act) (after : File) (inv : Invariant vol file)
    (meets : Meets vol file act.env) (next : step vol file act = some after) : Invariant vol after := by
  cases act with
  | create env n =>
    by_cases bounds : 0 < n ∧ n ≤ nrBlksToAlloc
    · obtain ⟨bufs,be,called,kept,-⟩ := create_step size inv meets bounds.1 bounds.2
      obtain rfl := some.inj ((step_create file called).symm.trans next)
      exact kept
    · rw [step,call,if_neg bounds] at next
      exact nomatch next
  | lookup env iblock =>
    obtain ⟨bufs,be,called,kept,-⟩ := lookup_step size inv (show Meets vol file env from meets) iblock
    rw [step,called] at next
    obtain rfl := some.inj next
    exact kept

/-- The extents in chain order partition the blocks from zero to a total that is not less than the blocks of the file;
every call returns; a call that succeeds returns the extent that holds its block, and after one that creates blocks all of
them are mapped. -/
structure Partitioned (vol : Volume) (file : File) : Prop where
  laid : ∃ total, Laid 0 ((extentMap vol file.bufs file.eiBlock).map SefsExtent.span) total ∧ file.blocks ≤ total
  lookups : ∀ env iblock, Meets vol file env → ∃ bufs be, call vol file (.lookup env iblock) = some (bufs,be) ∧
    ∀ ext, be = some ext → ext ∈ extentMap vol bufs file.eiBlock ∧ ext.Holds iblock
  creates : ∀ env n, Meets vol file env → 0 < n → n ≤ nrBlksToAlloc →
    ∃ bufs be, call vol file (.create env n) = some (bufs,be) ∧
      ∀ ext, be = some ext → (ext ∈ extentMap vol bufs file.eiBlock ∧ ext.Holds file.blocks) ∧
        ∀ b, file.blocks ≤ b → b < file.blocks + n → ∃ other ∈ extentMap vol bufs file.eiBlock, other.Holds b

/-- It holds after every run of calls that all find the chain settled. -/
theorem extents_partition (vol : Volume) (size : vol.sefsMaxFilesize ≤ 2^43) (bufs : Buffers) (eiBlock : Nat)
    (positive : eiBlock ≠ 0) (stored : eiBlock < vol.nrBlocks) (acts : List Act) (file : File)
    (meets : Along (step vol) (fun file act => Meets vol file act.env) (newFile bufs eiBlock) acts)
    (ran : run (step vol) (newFile bufs eiBlock) acts = some file) : Partitioned vol file := by
  have inv : Invariant vol file := run_invariant (step vol) (Invariant vol) _
    (fun s a t inv meets next => step_invariant size s a t inv meets next) _ acts file
    (newFile_invariant bufs positive stored) meets ran
  refine ⟨inv.laid,fun env iblock meets => ?_,fun env n meets positive most => ?_⟩
  · obtain ⟨bufs,be,called,-,done⟩ := lookup_step size inv meets iblock
    exact ⟨bufs,be,called,done⟩
  · obtain ⟨bufs,be,called,kept,done⟩ := create_step size inv meets positive most
    refine ⟨bufs,be,called,fun ext succeeded => ⟨done ext succeeded,fun b _ below => ?_⟩⟩
    have once := kept.covered (b := b) (by rw [succeeded]; exact below)
    obtain ⟨e,listed,within⟩ := countP_pos_iff.mp (once ▸ Nat.one_pos)
    obtain ⟨other,found,rfl⟩ := mem_map.mp listed
    exact ⟨other,found,of_decide_eq_true within⟩

/-! `inode_alloc_blocks` issues such calls. -/

/-- The sizes of the calls of `inode_alloc_blocks` for `cnt` blocks. -/
def allocRounds (cnt : Nat) : List Nat :=
  if nrBlksToAlloc < cnt then nrBlksToAlloc :: allocRounds (cnt - nrBlksToAlloc) else [cnt]
  termination_by cnt
  decreasing_by simp only [nrBlksToAlloc] at *; omega

/-- The calls in turn, up to the first that fails. -/
def issue (vol : Volume) : File → List (Env × Nat) → Option (File × Bool)
  | file,[] => some (file,true)
  | file,(env,n) :: rest =>
    match call vol file (.create env n) with
    | none => none
    | some (bufs,none) => some (⟨file.eiBlock,bufs,file.blocks⟩,false)
    | some (bufs,some _) => issue vol ⟨file.eiBlock,bufs,file.blocks + n⟩ rest

def growth (file : File) (env : Nat → Env) (new : Nat) : List (Env × Nat) :=
  if new ≤ file.blocks then [] else (allocRounds (new - file.blocks)).zipIdx.map fun (n,i) => (env i,n)

def inodeAllocBlocks (vol : Volume) (env : Nat → Env) (file : File) (new : Nat) : Option (File × Bool) :=
  issue vol file (growth file env new)

theorem allocRounds_bounds (positive : 0 < cnt) :
    (∀ n ∈ allocRounds cnt, 0 < n ∧ n ≤ nrBlksToAlloc) ∧ (allocRounds cnt).sum = cnt := by
  induction cnt using Nat.strongRecOn with
  | ind cnt ih =>
    have steps : nrBlksToAlloc = 16384 := rfl
    rw [allocRounds]
    split
    next more =>
      obtain ⟨bounds,sum⟩ := ih (cnt - nrBlksToAlloc) (by omega) (by omega)
      refine ⟨fun n member => ?_,by rw [sum_cons,sum]; omega⟩
      rcases mem_cons.mp member with rfl | member
      · exact ⟨by decide,Nat.le_refl _⟩
      · exact bounds n member
    next last => simpa using ⟨positive,Nat.not_lt.mp last⟩

theorem issue_keeps (size : vol.sefsMaxFilesize ≤ 2^43) (inv : Invariant vol file) (calls : List (Env × Nat))
    (bounds : ∀ c ∈ calls, 0 < c.2 ∧ c.2 ≤ nrBlksToAlloc)
    (meets : Along (step vol) (fun file act => Meets vol file act.env) file (calls.map fun c => .create c.1 c.2)) :
    ∃ after ok, issue vol file calls = some (after,ok) ∧ Invariant vol after ∧
      (ok = true → after.blocks = file.blocks + (calls.map Prod.snd).sum) := by
  induction calls generalizing file with
  | nil => exact ⟨file,true,rfl,inv,fun _ => rfl⟩
  | cons c calls ih =>
    obtain ⟨env,n⟩ := c
    have here : Meets vol file env := meets.1
    obtain ⟨positive,most⟩ : 0 < n ∧ n ≤ nrBlksToAlloc := bounds (env,n) mem_cons_self
    obtain ⟨bufs,be,called,kept,-⟩ := create_step size inv here positive most
    rw [issue,called]
    cases be with
    | none => exact ⟨_,false,rfl,kept,nofun⟩
    | some ext =>
      obtain ⟨after,ok,done,still,grown⟩ := ih kept (fun c member => bounds c (mem_cons_of_mem _ member))
        (meets.2 _ (step_create file called))
      refine ⟨after,ok,done,still,fun succeeded => ?_⟩
      rw [grown succeeded,map_cons,sum_cons]
      exact Nat.add_assoc ..

/-- A file that has grown can be grown again by `inode_alloc_blocks`, as long as its calls find the chain settled: it returns,
there is no gap or overlap whatever it returns, and if it succeeds every block of the file is mapped once. -/
theorem growth_mapped (vol : Volume) (size : vol.sefsMaxFilesize ≤ 2^43) (bufs : Buffers) (eiBlock : Nat)
    (positive : eiBlock ≠ 0) (stored : eiBlock < vol.nrBlocks) (acts : List Act) (file : File)
    (meets : Along (step vol) (fun file act => Meets vol file act.env) (newFile bufs eiBlock) acts)
    (ran : run (step vol) (newFile bufs eiBlock) acts = some file) (env : Nat → Env) (new : Nat)
    (grows : Along (step vol) (fun file act => Meets vol file act.env) file
      ((growth file env new).map fun c => .create c.1 c.2)) :
    ∃ after ok, inodeAllocBlocks vol env file new = some (after,ok) ∧
      (∃ total, Laid 0 ((extentMap vol after.bufs after.eiBlock).map SefsExtent.span) total ∧ after.blocks ≤ total) ∧
      (ok = true → ∀ b < new, coverings ((extentMap vol after.bufs after.eiBlock).map SefsExtent.span) b = 1) := by
  have inv : Invariant vol file := run_invariant (step vol) (Invariant vol) _
    (fun s a t inv meets next => step_invariant size s a t inv meets next) _ acts file
    (newFile_invariant bufs positive stored) meets ran
  have sizes : (∀ c ∈ growth file env new, 0 < c.2 ∧ c.2 ≤ nrBlksToAlloc) ∧
      new ≤ file.blocks + ((growth file env new).map Prod.snd).sum := by
    rw [growth]
    split
    next still => exact ⟨nofun,still⟩
    next more =>
      obtain ⟨bounds,sum⟩ := allocRounds_bounds (show 0 < new - file.blocks by omega)
      refine ⟨fun c member => ?_,?_⟩
      · obtain ⟨⟨n,i⟩,listed,rfl⟩ := mem_map.mp member
        exact bounds n (fst_mem_of_mem_zipIdx listed)
      · rw [List.map_map,show Prod.snd ∘ (fun (x : Nat × Nat) => (env x.2,x.1)) = Prod.fst from rfl,zipIdx_map_fst,sum]
        omega
  obtain ⟨after,ok,done,kept,grown⟩ := issue_keeps size inv _ sizes.1 grows
  refine ⟨after,ok,done,kept.laid,fun succeeded b below => kept.covered ?_⟩
  rw [grown succeeded]
  omega

/-! A device with an empty cache whose free blocks hold zeroes. -/

def device : Volume := ⟨2^24,2^43⟩

def unread : Buffers := ⟨fun _ => ⟨0,scrubbed 0⟩,fun _ => false⟩

def answers (next extra : Nat) : Env :=
  ⟨⟨fun _ => true,fun _ => ⟨0,scrubbed 0⟩⟩,fun bno i => if bno = 10 then 100 + i * 32768 else extra,fun _ => next⟩

/-- A chain of one block that is up to date. -/
def Single (file : File) : Prop := file.eiBlock = 10 ∧ (file.bufs.data 10).next = 0 ∧ file.bufs.uptodate 10 = true

instance (file : File) : Decidable (Single file) := inferInstanceAs (Decidable (_ ∧ _))

theorem Single.meets (single : Single file) (extra : Nat) : Meets device file (answers 50 extra) := by
  obtain ⟨first,last,current⟩ := single
  have chain : file.chain device = [10] := by
    show chainFrom file.bufs.data (2^24 - 2 + 1 + 1) _ = _
    rw [first,chainFrom,if_neg (by decide),last]
    rfl
  rw [Meets,chain]
  refine ⟨fun bno member => ?_,fun bno member => ?_⟩
  · rw [mem_singleton.mp member]
    exact ⟨(by decide : 50 ∉ [10]),(by decide : 50 < 2^24)⟩
  · rw [mem_singleton.mp member]
    exact .inl current

theorem step_single (acts : List Act) (file : File) (ran : run (step device) (newFile unread 10) acts = some file)
    (single : (run (step device) (newFile unread 10) acts).all fun file => decide (Single file)) : Single file := by
  rw [ran] at single
  exact of_decide_eq_true single

theorem extents_partition_grown : ∃ file,
    run (step device) (newFile unread 10) [.create (answers 50 0) 5,.lookup (answers 50 0) 3] = some file ∧
      file.blocks = 5 ∧ Partitioned device file := by
  have ends : (run (step device) (newFile unread 10) [.create (answers 50 0) 5,.lookup (answers 50 0) 3]).map File.blocks =
      some 5 := by decide +kernel
  obtain ⟨file,ran,blocks⟩ := map_eq_some_iff.mp ends
  have start : Single (newFile unread 10) := by decide
  refine ⟨file,ran,blocks,extents_partition device (Nat.le_refl _) unread 10 (by decide) (by decide)
    [.create (answers 50 0) 5,.lookup (answers 50 0) 3] file ⟨start.meets 0,fun t next => ⟨?_,fun _ _ => trivial⟩⟩ ran⟩
  exact (step_single [.create (answers 50 0) 5] t (run_cons _ next []) (by decide +kernel)).meets 0

theorem growth_mapped_twice : ∃ file after ok, run (step device) (newFile unread 10) [.create (answers 50 0) 5] = some file ∧
    inodeAllocBlocks device (fun _ => answers 50 0) file 20000 = some (after,ok) ∧
    (ok = true → ∀ b < 20000, coverings ((extentMap device after.bufs after.eiBlock).map SefsExtent.span) b = 1) := by
  have ends : (run (step device) (newFile unread 10) [.create (answers 50 0) 5]).map File.blocks = some 5 := by decide +kernel
  obtain ⟨file,ran,blocks⟩ := map_eq_some_iff.mp ends
  have start : Single (newFile unread 10) := by decide
  have calls : growth file (fun _ => answers 50 0) 20000 = [(answers 50 0,16384),(answers 50 0,3611)] := by
    rw [growth,blocks,if_neg (by decide),allocRounds,if_pos (by decide),allocRounds,if_neg (by decide)]
    rfl
  have first := step_single [.create (answers 50 0) 5] file ran (by decide +kernel)
  obtain ⟨after,ok,done,-,once⟩ := growth_mapped device (Nat.le_refl _) unread 10 (by decide) (by decide)
    [.create (answers 50 0) 5] file ⟨start.meets 0,fun _ _ => trivial⟩ ran (fun _ => answers 50 0) 20000 (by
      rw [calls]
      refine ⟨first.meets 0,fun t next => ⟨?_,fun _ _ => trivial⟩⟩
      refine (step_single [.create (answers 50 0) 5,.create (answers 50 0) 16384] t ?_ (by decide +kernel)).meets 0
      rw [show [Act.create (answers 50 0) 5,.create (answers 50 0) 16384] = [.create (answers 50 0) 5] ++
        [.create (answers 50 0) 16384]
        from rfl,run_append,ran]
      exact run_cons _ next [])
  exact ⟨file,after,ok,ran,done,once⟩

/-! The second block of the chain is read over. -/

def largest (k : Nat) : Extents := fun i => if i < k then ⟨100 + i * 32768,i * 32768,32768⟩ else ⟨0,0,0⟩

theorem largest_zero : largest 0 = scrubbed 0 := by
  funext i
  simp [largest,scrubbed]

theorem largest_succ (k : Nat) : update (largest k) k ⟨100 + k * 32768,k * 32768,32768⟩ = largest (k + 1) := by
  funext i
  by_cases here : i = k
  · subst here
    simp [largest]
  · rw [update_of_ne here,largest,largest]
    exact if_congr (by omega) rfl rfl

theorem largest_filled (count : k ≤ sefsMaxExtents) : Filled 0 (largest k) k (k * 32768) := by
  induction k with
  | zero => exact largest_zero ▸ scrubbed_filled 0
  | succ k ih =>
    have next := @Filled.append _ _ k (100 + k * 32768) _ (ih (by omega)) (by omega) 32768 (by omega) (by decide) (by decide)
    rw [largest_succ,← Nat.succ_mul] at next
    exact next

theorem extentBlocks_largest (k : Nat) : extentBlocks (largest k) nrBlksToAlloc k = 32768 := by
  have enough : matchExtent (grownRequest (largest k) nrBlksToAlloc k) = 32768 := by
    rw [grownRequest]
    split <;> decide
  rw [extentBlocks,enough]
  split
  next some =>
    rw [largest,if_pos (by omega)]
    rfl
  next => rfl

theorem allocFileBlock_largest (room : k < sefsMaxExtents) :
    allocFileBlock (largest k) nrBlksToAlloc k (100 + k * 32768) = some (largest (k + 1)) := by
  have small : k * 32768 < 2^32 := by
    simp only [sefsMaxExtents] at room
    omega
  rw [allocFileBlock,if_neg (by omega),extentBlocks_largest,(largest_filled (Nat.le_of_lt room)).next small]
  exact congrArg some (largest_succ k)

/-- The buffers while the first block of the chain has `k` extents. -/
def filledTo (k : Nat) : Buffers := ⟨update unread.data 10 ⟨0,largest k⟩,update unread.uptodate 10 true⟩

theorem filledTo_extents (k : Nat) : ((filledTo k).data 10).extents = largest k := rfl

theorem setExtents_filledTo (k j : Nat) :
    (⟨setExtents (filledTo k).data 10 (largest j),(filledTo k).uptodate⟩ : Buffers) = filledTo j := by
  rw [setExtents,filledTo,filledTo,update_idem]
  rfl

theorem getBlock_found (small : iblock < 2^31) (current : bufs.uptodate eiBlock = true)
    (found : search env iblock device.rounds bufs eiBlock = some (bufs',some (bno,ei))) (create : Nat) :
    getBlock device env bufs eiBlock iblock create = getBlockAt device env iblock create bufs' bno ei := by
  have within : ¬ iblock > (device.sefsMaxFilesize - 1) / pageSize := by
    simp only [device,pageSize]
    omega
  rw [getBlock,if_neg within,sbBread,if_pos current,u32_of_lt (by omega)]
  dsimp only
  rw [found]

theorem search_here (found : extSearch (bufs.data bno).extents iblock = some ei) (rounds : Nat) :
    search env iblock (rounds + 1) bufs bno = some (bufs,some (bno,ei)) := by
  rw [search,found]

theorem largest_used (below : i < k) : largest k i = ⟨100 + i * 32768,i * 32768,32768⟩ := if_pos below

theorem filledTo_grows (room : k < sefsMaxExtents) :
    run (step device) ⟨10,filledTo k,k * 32768⟩ (replicate 2 (.create (answers 50 0) nrBlksToAlloc)) =
      some ⟨10,filledTo (k + 1),(k + 1) * 32768⟩ := by
  have bound : k < 292 := room
  have half : nrBlksToAlloc = 16384 := rfl
  have first : getBlock device (answers 50 0) (filledTo k) 10 (k * 32768) nrBlksToAlloc =
      some (filledTo (k + 1),some (largest (k + 1) k)) := by
    have found : extSearch ((filledTo k).data 10).extents (k * 32768) = some k :=
      (largest_filled (Nat.le_of_lt room)).search_free (by omega) (Nat.le_refl _) room
    have free : largest k k = ⟨0,0,0⟩ := if_neg (Nat.lt_irrefl k)
    have early : ¬ k * 32768 + nrBlksToAlloc ≤ u32 (0 + 0) := by
      rw [u32]
      omega
    rw [getBlock_found (by omega) rfl (search_here found _),getBlockAt,filledTo_extents,free,if_neg (by decide),if_neg early,
      if_pos rfl,show (answers 50 0).extentBno 10 k = 100 + k * 32768 from rfl,allocFileBlock_largest room]
    exact congrArg (fun bufs => some (bufs,some (largest (k + 1) k))) (setExtents_filledTo k (k + 1))
  have second : getBlock device (answers 50 0) (filledTo (k + 1)) 10 (k * 32768 + nrBlksToAlloc) nrBlksToAlloc =
      some (filledTo (k + 1),some (largest (k + 1) k)) := by
    obtain ⟨i,below,found,holds⟩ := @Filled.search_used 0 ((k + 1) * 32768) (k + 1) (k * 32768 + nrBlksToAlloc) _
      (largest_filled (Nat.succ_le_of_lt room)) (by omega) (Nat.zero_le _) (by omega)
    obtain rfl : i = k := by
      rw [largest_used below] at holds
      have upper := holds.2
      simp only at upper
      omega
    have slot : extSearch ((filledTo (i + 1)).data 10).extents (i * 32768 + nrBlksToAlloc) = some i := found
    have covered : i * 32768 + nrBlksToAlloc + nrBlksToAlloc ≤ u32 (i * 32768 + 32768) := by
      rw [u32_of_lt (by omega)]
      omega
    rw [getBlock_found (by omega) rfl (search_here slot _),getBlockAt,filledTo_extents,largest_used below,if_neg (by decide),
      if_pos covered]
  have one := step_create ⟨10,filledTo k,k * 32768⟩ ((if_pos (by decide)).trans first)
  have two := step_create ⟨10,filledTo (k + 1),k * 32768 + nrBlksToAlloc⟩ ((if_pos (by decide)).trans second)
  rw [replicate_succ,run_cons _ one,replicate_succ,replicate_zero]
  refine (run_cons _ two []).trans (congrArg (fun blocks => some (⟨10,filledTo (k + 1),blocks⟩ : File)) ?_)
  show k * 32768 + nrBlksToAlloc + nrBlksToAlloc = (k + 1) * 32768
  omega

theorem filledTo_run (count : k ≤ sefsMaxExtents) :
    run (step device) (newFile unread 10) (replicate (2 * k) (.create (answers 50 0) nrBlksToAlloc)) =
      some ⟨10,filledTo k,k * 32768⟩ := by
  induction k with
  | zero => rw [filledTo,largest_zero]; rfl
  | succ k ih =>
    rw [Nat.mul_succ,← replicate_append_replicate,run_append,ih (by omega)]
    exact filledTo_grows count

theorem largest_full (past : 9568256 ≤ iblock) : extSearch (largest 292) iblock = none :=
  (largest_filled (Nat.le_refl sefsMaxExtents)).search_full (by decide) past

/-- The first block of the chain is full, and the second has one extent. -/
def secondNew : Buffers :=
  ⟨setExtents (linkNext (filledTo 292).data 10 50 9568256) 50 (update (scrubbed 9568256) 0 ⟨9568356,9568256,1⟩),
    (filledTo 292).uptodate⟩

/-- The disk has been read over the second block, and has given it an extent at zero. -/
def secondRead : Buffers :=
  ⟨setExtents (update secondNew.data 50 ⟨0,scrubbed 0⟩) 50 (update (scrubbed 0) 0 ⟨9568357,0,1⟩),
    update (filledTo 292).uptodate 50 true⟩

theorem create_second : step device ⟨10,filledTo 292,9568256⟩ (.create (answers 50 9568356) 1) =
    some ⟨10,secondNew,9568257⟩ := by
  have next : getNextEiBlock (answers 50 9568356) (filledTo 292) 10 =
      (⟨linkNext (filledTo 292).data 10 50 9568256,(filledTo 292).uptodate⟩,some 50) := by
    rw [getNextEiBlock]
    rfl
  have slot : extSearch (scrubbed 9568256) 9568256 = some 0 :=
    (scrubbed_filled _).search_free (by decide) (by decide) (by decide)
  have found : search (answers 50 9568356) 9568256 device.rounds (filledTo 292) 10 =
      some (⟨linkNext (filledTo 292).data 10 50 9568256,(filledTo 292).uptodate⟩,some (50,0)) := by
    rw [Volume.rounds,search,filledTo_extents,largest_full (by decide)]
    rw [next]
    exact search_here slot _
  exact step_create ⟨10,filledTo 292,9568256⟩
    ((if_pos (by decide)).trans ((getBlock_found (by decide) rfl found 1).trans rfl))

theorem create_third : step device ⟨10,secondNew,9568257⟩ (.create (answers 51 9568357) 1) =
    some ⟨10,secondRead,9568258⟩ := by
  have next : getNextEiBlock (answers 51 9568357) secondNew 10 =
      (⟨update secondNew.data 50 ⟨0,scrubbed 0⟩,update (filledTo 292).uptodate 50 true⟩,some 50) := by
    rw [getNextEiBlock]
    rfl
  have slot : extSearch (scrubbed 0) 9568257 = some 0 := (scrubbed_filled _).search_free (by decide) (by decide) (by decide)
  have found : search (answers 51 9568357) 9568257 device.rounds secondNew 10 =
      some (⟨update secondNew.data 50 ⟨0,scrubbed 0⟩,update (filledTo 292).uptodate 50 true⟩,some (50,0)) := by
    rw [Volume.rounds,search,show (secondNew.data 10).extents = largest 292 from rfl,largest_full (by decide)]
    rw [next]
    exact search_here slot _
  exact step_create ⟨10,secondNew,9568257⟩ ((if_pos (by decide)).trans ((getBlock_found (by decide) rfl found 1).trans rfl))

/-- The first block of the chain is full; the next create of a block puts a second block on the chain, and the one after it
reads the disk over that block, here zeroes. The extent of the second create is lost, and that of the third starts at zero. -/
theorem unsettled_block_overlaps : ∃ file, run (step device) (newFile unread 10)
      (replicate (2 * sefsMaxExtents) (.create (answers 50 0) nrBlksToAlloc) ++
        [.create (answers 50 9568356) 1,.create (answers 51 9568357) 1]) = some file ∧
    ¬ ∃ total, Laid 0 ((extentMap device file.bufs file.eiBlock).map SefsExtent.span) total := by
  have filled := largest_filled (Nat.le_refl sefsMaxExtents)
  have overlaps := @Filled.append 0 0 0 9568357 _ (scrubbed_filled 0) (by decide) 1 (by decide) (by decide) (by decide)
  refine ⟨⟨10,secondRead,9568258⟩,?_,?_⟩
  · rw [run_append,filledTo_run (Nat.le_refl sefsMaxExtents)]
    exact (run_cons _ create_second _).trans (run_cons _ create_third [])
  · rintro ⟨total,laid⟩
    change Laid 0 ((extentMap device secondRead 10).map SefsExtent.span) total at laid
    have chain : chainFrom secondRead.data device.nrBlocks 10 = [10] ++ [50] := rfl
    rw [extentMap,chain,extents_append,map_append] at laid
    obtain ⟨mid,one,other⟩ := laid.of_append
    have full : Laid 0 ((extents secondRead.data [10]).map SefsExtent.span) _ := filled.spans
    have again : Laid 0 ((extents secondRead.data [50]).map SefsExtent.span) _ := overlaps.spans
    have reached := one.blocks.symm.trans full.blocks
    generalize (extents secondRead.data [50]).map SefsExtent.span = spans at other again
    cases spans with
    | nil => exact absurd again (show ¬ 0 = 0 + 1 by decide)
    | cons e es =>
      have starts := other.1.symm.trans again.1
      simp only [sefsMaxExtents] at reached
      omega
end Oxbow.Daemon.SefsExtents
