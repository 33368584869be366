import Oxbow.Daemon.SefsBlocks
import Oxbow.Daemon.SefsDirMap

/-! `sefs_create` with everything it changes: the inode bitmap, the block bitmap, their counters and the directory, at every
place where an allocation or a read can fail. -/
namespace Oxbow.Daemon.SefsCreate

open Oxbow.Lib Oxbow.Lib.BitRun Function List Option
open SefsBlocks (SbInfo Fs getFirstFreeBits putFreeBits getFreeBlocks putBlocks bitmapBlkNr FirstFit)
open SefsDir (Name Dirent Dir Slot roomIn sefsDInfoEntMax sefsDentBlocks)

variable {perBlock : Nat}

/-- The inode bitmap blocks, each by its bits, and their counters; a bit that is set is a free inode. -/
structure Inodes where
  ifree : Nat → Nat → Bool
  ifreeBitLeft : Nat → Nat
  nrFreeInodes : Nat

def Inodes.free (inodes : Inodes) (ino : Nat) : Bool := inodes.ifree (ino / bitmapBlkNr) (ino % bitmapBlkNr)

def getFreeInode (sb : SbInfo) (inodes : Inodes) (read : Bool) : Nat × Inodes :=
  match (List.range sb.nrIfreeBlocks).find? fun i => decide (inodes.ifreeBitLeft i ≠ 0) with
  | none => (0,inodes)
  | some i =>
    if read then
      let found := getFirstFreeBits (inodes.ifree i) bitmapBlkNr 1
      let ifree := update inodes.ifree i found.2
      if found.1 = 0 then (0,{ inodes with ifree })
      else
        (found.1 + i * bitmapBlkNr,
          { ifree
            ifreeBitLeft := update inodes.ifreeBitLeft i (sub32 (inodes.ifreeBitLeft i) 1)
            nrFreeInodes := sub32 inodes.nrFreeInodes 1 })
    else (0,inodes)

/-- `sefs_put_inode` of a number taken in the same call: its bitmap block is in the cache. -/
def putInode (inodes : Inodes) (ino : Nat) : Inodes :=
  let i := ino / bitmapBlkNr
  { ifree := update inodes.ifree i (putFreeBits (inodes.ifree i) bitmapBlkNr (ino % bitmapBlkNr) 1)
    ifreeBitLeft := update inodes.ifreeBitLeft i (u32 (inodes.ifreeBitLeft i + 1))
    nrFreeInodes := u32 (inodes.nrFreeInodes + 1) }

inductive Mode
  | dir
  | reg
  | lnk
  | other
  deriving DecidableEq, Repr

structure Env where
  /-- `sb_bread` of the directory's index block, and of the inode bitmap block. -/
  info : Bool
  inodeBitmap : Bool
  /-- `iget_locked`: the index block that the inode is known to have, zero if it is new; nothing if there is no memory. -/
  inode : Option Nat
  /-- `sb_bread` of the bitmap block for the index block of the inode, and of that block. -/
  indexBitmap : Bool
  index : Bool
  /-- `sb_bread` of the bitmap block for the blocks of an entry, and of each of them. -/
  extentBitmap : Fin sefsDInfoEntMax → Bool
  read : Fin sefsDInfoEntMax → Fin sefsDentBlocks → Bool
  /-- `sb_bread` of the bitmap block in `put_blocks`, if the call has not read it yet. -/
  putBitmap : Bool

def Env.blocks (env : Env) : SefsDir.Env := ⟨env.info,env.read,0⟩

structure State (perBlock : Nat) where
  blocks : Fs
  inodes : Inodes
  dir : Dir perBlock

inductive New (perBlock : Nat)
  | error (s : State perBlock)
  /-- With the inode's index block, whether its bitmap block has been read, and the blocks that were overwritten with zeroes. -/
  | inode (s : State perBlock) (ino eiBlock : Nat) (cached : Bool) (cleared : List (Nat × Nat))
  | aborted

def sefsNewInode (sb : SbInfo) (env : Env) (mode : Mode) (s : State perBlock) : New perBlock :=
  if mode = .other then .error s
  else if s.inodes.nrFreeInodes = 0 ∨ s.blocks.nrFreeBlocks = 0 then .error s
  else
    let got := getFreeInode sb s.inodes env.inodeBitmap
    if got.1 = 0 then .error { s with inodes := got.2 }
    else
      match env.inode with
      -- No error is taken from the null pointer, and every way on uses it.
      | none => .aborted
      | some held =>
        let taken := (getFreeBlocks sb s.blocks 1 env.indexBitmap).getD (0,s.blocks)
        -- The number is given back, but the inode is returned.
        if taken.1 = 0 ∨ env.index = false then .inode ⟨taken.2,putInode got.2 got.1,s.dir⟩ got.1 held false []
        else
          let eiBlock := if mode = .lnk then held else taken.1
          .inode ⟨taken.2,got.2,s.dir⟩ got.1 eiBlock (decide (eiBlock / bitmapBlkNr = taken.1 / bitmapBlkNr)) [(taken.1,1)]

def asInt (bno : Nat) : Nat := (int32 bno % 2^64).toNat

inductive Choice (perBlock : Nat)
  | found (s : State perBlock) (ei : Fin sefsDInfoEntMax) (alloc : Bool) (cleared : List (Nat × Nat))
  | failed (s : State perBlock)
  | aborted

def chooseEnt (sb : SbInfo) (env : Env) : List (Fin sefsDInfoEntMax) → State perBlock → Bool →
    List (Nat × Nat) → Choice perBlock
  | [],s,_,_ => .failed s
  | ei :: rest,s,alloc,cleared =>
    if (s.dir.ents ei).bno = 0 then
      let got := (getFreeBlocks sb s.blocks sefsDentBlocks (env.extentBitmap ei)).getD (0,s.blocks)
      if got.1 = 0 then .failed { s with blocks := got.2 }
      else if ∀ bi, env.read ei bi = true then
        if (s.dir.ents ei).nrFiles < perBlock * sefsDentBlocks then
          .found ⟨got.2,s.inodes,s.dir.allocExt ei (asInt got.1)⟩ ei true (cleared ++ [(asInt got.1,sefsDentBlocks)])
        else
          chooseEnt sb env rest ⟨got.2,s.inodes,s.dir.allocExt ei (asInt got.1)⟩ true
            (cleared ++ [(asInt got.1,sefsDentBlocks)])
      else .aborted
    else if (s.dir.ents ei).nrFiles < perBlock * sefsDentBlocks then .found s ei alloc cleared
    else chooseEnt sb env rest s alloc cleared

inductive Outcome (perBlock : Nat)
  | failed (s : State perBlock)
  | made (s : State perBlock) (cleared : List (Nat × Nat))
  | aborted

def State.iput (s : State perBlock) (env : Env) (ino eiBlock : Nat) (cached : Bool) : State perBlock :=
  ⟨putBlocks s.blocks eiBlock 1 (cached || env.putBitmap),putInode s.inodes ino,s.dir⟩

def State.putBlock (s : State perBlock) (ei : Fin sefsDInfoEntMax) (alloc : Bool) : State perBlock :=
  if alloc ∧ (s.dir.ents ei).bno ≠ 0 then
    ⟨putBlocks s.blocks (s.dir.ents ei).bno sefsDentBlocks true,s.inodes,s.dir.freeExt ei⟩
  else s

def createIn (env : Env) (s : State perBlock) (ei : Fin sefsDInfoEntMax) (alloc : Bool) (cleared : List (Nat × Nat))
    (ino eiBlock : Nat) (cached : Bool) (name : Name) : Outcome perBlock :=
  match roomIn env.blocks s.dir ei with
  | none => .failed (s.iput env ino eiBlock cached)
  | some none => .failed ((s.putBlock ei alloc).iput env ino eiBlock cached)
  | some (some bi) =>
    match (finRange perBlock).find? fun fi => decide ((((s.dir.ents ei).blocks bi).files fi).ino = 0) with
    | none => .failed (s.iput env ino eiBlock cached)
    | some fi => .made { s with dir := s.dir.change ei bi fi ⟨ino,name⟩ (· + 1) } cleared

def createEntry (sb : SbInfo) (env : Env) (s : State perBlock) (ino eiBlock : Nat) (cached : Bool) (cleared : List (Nat × Nat))
    (name : Name) : Outcome perBlock :=
  match chooseEnt sb env (finRange sefsDInfoEntMax) s false cleared with
  | .failed t => .failed (t.iput env ino eiBlock cached)
  | .aborted => .aborted
  | .found t ei alloc cleared => createIn env t ei alloc cleared ino eiBlock cached name

def sefsCreate (sb : SbInfo) (env : Env) (mode : Mode) (name : Name) (s : State perBlock) : Outcome perBlock :=
  if env.info = false then .failed s
  else if perBlock * sefsDentBlocks * sefsDInfoEntMax ≤ s.dir.nrFiles then .failed s
  else
    match sefsNewInode sb env mode s with
    | .error t => .failed t
    | .aborted => .aborted
    | .inode t ino eiBlock cached cleared => createEntry sb env t ino eiBlock cached cleared name

def binding (dir : Dir perBlock) (p : Slot perBlock) : Option Dirent :=
  if (dir.ents p.ei).bno ≠ 0 ∧ (dir.slot p).ino ≠ 0 then some (dir.slot p) else none

/-- The name is bound to an inode that was free, and nothing else is; no block was overwritten that was not free. -/
structure Binds (s t : State perBlock) (name : Name) (cleared : List (Nat × Nat)) (ino : Nat) (p : Slot perBlock) : Prop where
  bound : binding t.dir p = some ⟨ino,name⟩
  unbound : binding s.dir p = none
  others : ∀ q, q ≠ p → binding t.dir q = binding s.dir q
  free : s.inodes.free ino = true
  taken : t.inodes.free ino = false
  blocks : ∀ run ∈ cleared, ∀ x, run.1 ≤ x → x < run.1 + run.2 → s.blocks.free x = true ∧ t.blocks.free x = false

/-- Nothing has changed, or the name is bound to an inode that was free, and no other slot has changed. -/
def AllOrNothing (s : State perBlock) (name : Name) : Outcome perBlock → Prop
  | .failed t => t = s
  | .made t cleared => ∃ ino p, Binds s t name cleared ino p
  | .aborted => False

def FirstLeft (sb : SbInfo) (inodes : Inodes) (i : Nat) : Prop :=
  i < sb.nrIfreeBlocks ∧ inodes.ifreeBitLeft i ≠ 0 ∧ ∀ k < i, inodes.ifreeBitLeft k = 0

section

variable (sb : SbInfo) (env : Env)

def RefusesInode (mode : Mode) (s : State perBlock) : Prop :=
  mode = .other ∨ s.inodes.nrFreeInodes = 0 ∨ s.blocks.nrFreeBlocks = 0 ∨
    (∀ i < sb.nrIfreeBlocks, s.inodes.ifreeBitLeft i = 0) ∨
  ∃ i, FirstLeft sb s.inodes i ∧ (env.inodeBitmap = false ∨ ∀ b < bitmapBlkNr, s.inodes.ifree i b = false)

/-- The call ends before it has taken anything. -/
def Refused (mode : Mode) (s : State perBlock) : Prop :=
  env.info = false ∨ perBlock * sefsDentBlocks * sefsDInfoEntMax ≤ s.dir.nrFiles ∨ RefusesInode sb env mode s

/-- The first free inode of that block is not its first one. -/
def TakesInode (s : State perBlock) : Prop :=
  env.inodeBitmap = true ∧ ∃ i b, FirstLeft sb s.inodes i ∧ FirstRun (s.inodes.ifree i) bitmapBlkNr 1 b ∧ 0 < b

/-- There is an inode in memory, and the block at a place of the bitmap can be had for its index. -/
def TakesIndex (s : State perBlock) (i b : Nat) : Prop :=
  env.inode.isSome ∧ env.indexBitmap = true ∧ env.index = true ∧ FirstFit sb s.blocks 1 i ∧
  FirstRun (s.blocks.bfree i) bitmapBlkNr 1 b ∧ 0 < i * bitmapBlkNr + b

end

def Open (dir : Dir perBlock) (ei : Fin sefsDInfoEntMax) : Prop :=
  (dir.ents ei).bno = 0 ∨ (dir.ents ei).nrFiles < perBlock * sefsDentBlocks

instance Open.decidable (dir : Dir perBlock) (ei : Fin sefsDInfoEntMax) : Decidable (Open dir ei) :=
  inferInstanceAs (Decidable (_ ∨ _))

def Candidate (dir : Dir perBlock) (ei : Fin sefsDInfoEntMax) : Prop := Open dir ei ∧ ∀ k < ei, ¬ Open dir k

def HasRoom (env : Env) (dir : Dir perBlock) (ei : Fin sefsDInfoEntMax) : Prop :=
  ∃ bi, (∀ k < bi, env.read ei k = true ∧ perBlock ≤ ((dir.ents ei).blocks k).nrFiles) ∧ env.read ei bi = true ∧
    ((dir.ents ei).blocks bi).nrFiles < perBlock ∧ ∃ fi, (((dir.ents ei).blocks bi).files fi).ino = 0

section

variable (sb : SbInfo) (env : Env)

/-- Blocks can be had for a new entry, at a number that fits an `int`, and all be read. -/
def TakesExtent (blocks : Fs) (ei : Fin sefsDInfoEntMax) : Prop :=
  env.extentBitmap ei = true ∧ (∀ bi, env.read ei bi = true) ∧ ∃ i b, FirstFit sb blocks sefsDentBlocks i ∧
    FirstRun (blocks.bfree i) bitmapBlkNr sefsDentBlocks b ∧ 0 < i * bitmapBlkNr + b ∧ i * bitmapBlkNr + b < 2^31

def RefusesExtent (blocks : Fs) (ei : Fin sefsDInfoEntMax) : Prop :=
  env.extentBitmap ei = false ∨ ∀ i < sb.nrBfreeBlocks, blocks.bfreeBitLeft i < sefsDentBlocks

/-- An entry is written, given the blocks that are left. -/
def Enters (dir : Dir perBlock) (blocks : Fs) : Prop :=
  ∃ ei, Candidate dir ei ∧
    ((dir.ents ei).bno ≠ 0 ∧ HasRoom env dir ei ∨ (dir.ents ei).bno = 0 ∧ TakesExtent sb env blocks ei)

/-- The call fails after it has taken an inode and its index block, and has taken nothing more. -/
def Undoes (dir : Dir perBlock) (blocks : Fs) : Prop :=
  (∀ ei, ¬ Candidate dir ei) ∨ ∃ ei, Candidate dir ei ∧
    ((dir.ents ei).bno ≠ 0 ∧ ¬ HasRoom env dir ei ∨ (dir.ents ei).bno = 0 ∧ RefusesExtent sb env blocks ei)

/-- A symbolic link's inode is not told its index block, and what it has instead is given back. -/
def Clean (mode : Mode) (s : State perBlock) : Prop :=
  Refused sb env mode s ∨ TakesInode sb env s ∧ ∃ i b, TakesIndex sb env s i b ∧
    (Enters sb env s.dir (s.blocks.take i b 1) ∨
      Undoes sb env s.dir (s.blocks.take i b 1) ∧ (mode = .lnk → env.inode = some (i * bitmapBlkNr + b)))

end

/-! Taking one bit and giving it back. -/

theorem firstRun_one {map : Nat → Bool} (run : FirstRun map size 1 b) : b < size ∧ map b = true :=
  ⟨run.1,run.2.1 0 Nat.zero_lt_one⟩

theorem noRun_one {map : Nat → Bool} (none : ∀ b, ¬ FirstRun map size 1 b) (below : b < size) : map b = false := by
  by_contra set
  have run : RunAt map b 1 := fun j only => by
    rw [Nat.lt_one_iff.mp only]
    exact Bool.not_eq_false _ ▸ set
  obtain ⟨c,first⟩ := run.first below
  exact none c first

theorem putFreeBits_one {map : Nat → Bool} (within : b < bitmapBlkNr) :
    putFreeBits map bitmapBlkNr b 1 = update map b true := by
  have fits : ¬ bitmapBlkNr < sub32 (u32 (b + 1)) 1 := by
    simp only [bitmapBlkNr] at within ⊢
    rw [u32_of_lt (by omega),sub32_of_le (by omega) (by omega)]
    omega
  rw [putFreeBits,if_neg fits,fill_one]

theorem give_back_bits {maps : Nat → Nat → Bool} (run : FirstRun (maps i) bitmapBlkNr 1 b) :
    update (update maps i (fill (maps i) b 1 false)) i
      (putFreeBits (update maps i (fill (maps i) b 1 false) i) bitmapBlkNr b 1) = maps := by
  obtain ⟨within,free⟩ := firstRun_one run
  rw [putFreeBits_one within,update_self,fill_one,update_idem,update_idem,← free,
    update_eq_self,update_eq_self]

theorem u32_sub32_one (small : n < 2^32) : u32 (sub32 n 1 + 1) = n := by
  simp only [u32,sub32]
  omega

theorem give_back_left {i : Nat} (small : left i < 2^32) :
    update (update left i (sub32 (left i) 1)) i (u32 (update left i (sub32 (left i) 1) i + 1)) = left := by
  rw [update_self,u32_sub32_one small,update_idem,update_eq_self]

theorem place_div (i : Nat) (within : b < bitmapBlkNr) :
    (i * bitmapBlkNr + b) / bitmapBlkNr = i ∧ (i * bitmapBlkNr + b) % bitmapBlkNr = b := by
  simp only [bitmapBlkNr] at within ⊢
  omega

theorem putBlocks_take (small : fs.Small) (run : FirstRun (fs.bfree i) bitmapBlkNr 1 b) :
    putBlocks (fs.take i b 1) (i * bitmapBlkNr + b) 1 true = fs := by
  obtain ⟨block,place⟩ := place_div i (firstRun_one run).1
  rw [putBlocks,if_pos rfl,block,place]
  exact congr (congrArg₂ Fs.mk (give_back_bits run) (give_back_left (small.left i))) (u32_sub32_one small.total)

def Inodes.take (inodes : Inodes) (i b : Nat) : Inodes where
  ifree := update inodes.ifree i (fill (inodes.ifree i) b 1 false)
  ifreeBitLeft := update inodes.ifreeBitLeft i (sub32 (inodes.ifreeBitLeft i) 1)
  nrFreeInodes := sub32 inodes.nrFreeInodes 1

def Inodes.lose (inodes : Inodes) (i : Nat) : Inodes :=
  { inodes with ifree := update inodes.ifree i (fill (inodes.ifree i) 0 1 false) }

structure Inodes.Small (inodes : Inodes) : Prop where
  left : ∀ i, inodes.ifreeBitLeft i < 2^32
  total : inodes.nrFreeInodes < 2^32

variable {sb : SbInfo} {inodes : Inodes} {i b : Nat}

theorem putInode_take (small : inodes.Small) (run : FirstRun (inodes.ifree i) bitmapBlkNr 1 b) :
    putInode (inodes.take i b) (i * bitmapBlkNr + b) = inodes := by
  obtain ⟨block,place⟩ := place_div i (firstRun_one run).1
  rw [putInode,block,place]
  exact congr (congrArg₂ Inodes.mk (give_back_bits run) (give_back_left (small.left i))) (u32_sub32_one small.total)

theorem putInode_ne (inodes : Inodes) (ino : Nat) : putInode inodes ino ≠ inodes := by
  intro same
  have counter : u32 (inodes.nrFreeInodes + 1) = inodes.nrFreeInodes := congrArg Inodes.nrFreeInodes same
  simp only [u32] at counter
  omega

theorem FirstLeft.unique (one : FirstLeft sb inodes i) (other : FirstLeft sb inodes k) : i = k := by
  rcases Nat.lt_trichotomy i k with before | same | after
  · exact absurd (other.2.2 i before) one.2.1
  · exact same
  · exact absurd (one.2.2 k after) other.2.1

theorem lose_ne (set : inodes.ifree i 0 = true) : inodes.lose i ≠ inodes := by
  intro same
  have bit := congrFun (congrFun (congrArg Inodes.ifree same) i) 0
  have cleared : (inodes.lose i).ifree i 0 = false := by
    rw [Inodes.lose]
    dsimp only
    rw [update_self,fill_inside (Nat.le_refl 0) Nat.zero_lt_one]
  exact absurd (cleared.symm.trans (bit.trans set)) (by decide)

/-- The three ways `sefs_get_free_inode` can end: the second loses the first inode of a bitmap block. -/
theorem getFreeInode_cases (sb : SbInfo) (inodes : Inodes) (read : Bool) :
    (getFreeInode sb inodes read = (0,inodes) ∧ ((∀ i < sb.nrIfreeBlocks, inodes.ifreeBitLeft i = 0) ∨
      ∃ i, FirstLeft sb inodes i ∧ (read = false ∨ ∀ b < bitmapBlkNr, inodes.ifree i b = false))) ∨
    ∃ i b, FirstLeft sb inodes i ∧ read = true ∧ FirstRun (inodes.ifree i) bitmapBlkNr 1 b ∧
      (b = 0 ∧ getFreeInode sb inodes read = (0,inodes.lose i) ∨
        0 < b ∧ getFreeInode sb inodes read = (i * bitmapBlkNr + b,inodes.take i b)) := by
  rw [getFreeInode]
  split
  next nowhere =>
    refine .inl ⟨rfl,.inl fun i below => ?_⟩
    simpa using List.find?_eq_none.mp nowhere i (mem_range.mpr below)
  next i found =>
    obtain ⟨allows,member,before⟩ := List.find?_range_eq_some.mp found
    have first : FirstLeft sb inodes i :=
      ⟨mem_range.mp member,by simpa using allows,fun k lower => by simpa using before k lower⟩
    cases read with
    | false => exact .inl ⟨rfl,.inr ⟨i,first,.inl rfl⟩⟩
    | true =>
      rw [if_pos rfl]
      rcases SefsBlocks.getFirstFreeBits_cases (inodes.ifree i) (show bitmapBlkNr < 2^32 by decide) Nat.zero_lt_one with
        ⟨b,run,got⟩ | ⟨none,got⟩
      · refine .inr ⟨i,b,first,rfl,run,?_⟩
        rw [got]
        rcases Nat.eq_zero_or_pos b with rfl | positive
        · exact .inl ⟨rfl,rfl⟩
        · refine .inr ⟨positive,?_⟩
          rw [if_neg (Nat.pos_iff_ne_zero.mp positive),Nat.add_comm b]
          rfl
      · refine .inl ⟨?_,.inr ⟨i,first,.inr fun b below => ?_⟩⟩
        · rw [got]
          rw [if_pos rfl,update_eq_self]
        · exact noRun_one none below

/-- An index entry without a block has no files. -/
def Bare (dir : Dir perBlock) : Prop := ∀ ei, (dir.ents ei).bno = 0 → (dir.ents ei).nrFiles = 0

variable {env : Env} {s t : State perBlock} {ei : Fin sefsDInfoEntMax} {alloc cached : Bool} {cleared : List (Nat × Nat)}
  {ino eiBlock : Nat} {name : Name}

theorem bare_room (bare : Bare s.dir) (positive : 0 < perBlock) (new : (s.dir.ents ei).bno = 0) :
    (s.dir.ents ei).nrFiles < perBlock * sefsDentBlocks := by
  rw [bare ei new]
  exact Nat.mul_pos positive (by decide)

theorem chooseEnt_open (bare : Bare s.dir) (positive : 0 < perBlock) (list : List (Fin sefsDInfoEntMax)) :
    chooseEnt sb env list s alloc cleared =
      match list.find? fun ei => decide (Open s.dir ei) with
      | none => .failed s
      | some ei => chooseEnt sb env [ei] s alloc cleared := by
  induction list with
  | nil => rfl
  | cons ei rest ih =>
    by_cases opens : Open s.dir ei
    · rw [List.find?_cons_of_pos (by simpa using opens)]
      dsimp only
      rw [chooseEnt,chooseEnt]
      by_cases new : (s.dir.ents ei).bno = 0
      · simp only [if_pos new,if_pos (bare_room bare positive new)]
      · simp only [if_neg new,if_pos (opens.resolve_left new)]
    · rw [List.find?_cons_of_neg (by simpa using opens),← ih,chooseEnt,if_neg fun new => opens (.inl new),
        if_neg fun room => opens (.inr room)]

theorem candidate_cases (dir : Dir perBlock) :
    ((∀ ei, ¬ Candidate dir ei) ∧ (finRange sefsDInfoEntMax).find? (fun ei => decide (Open dir ei)) = none) ∨
    ∃ ei, Candidate dir ei ∧ (finRange sefsDInfoEntMax).find? (fun ei => decide (Open dir ei)) = some ei := by
  cases found : (finRange sefsDInfoEntMax).find? fun ei => decide (Open dir ei) with
  | none =>
    refine .inl ⟨fun ei candidate => ?_,rfl⟩
    simpa using List.find?_eq_none.mp found ei (mem_finRange ei) (decide_eq_true candidate.1)
  | some ei =>
    obtain ⟨opens,before⟩ := SefsDir.find_finRange.mp found
    exact .inr ⟨ei,⟨of_decide_eq_true opens,fun k below => of_decide_eq_false (before k below)⟩,rfl⟩

theorem Candidate.unique (one : Candidate dir ei) (other : Candidate dir k) : ei = k := by
  rcases lt_trichotomy ei k with before | same | after
  · exact absurd one.1 (other.2 ei before)
  · exact same
  · exact absurd other.1 (one.2 k after)

theorem roomIn_some {dir : Dir perBlock} :
    roomIn env.blocks dir ei = some (some bi) ↔
      (∀ k < bi, env.read ei k = true ∧ perBlock ≤ ((dir.ents ei).blocks k).nrFiles) ∧ env.read ei bi = true ∧
        ((dir.ents ei).blocks bi).nrFiles < perBlock := by
  have same : env.blocks.read = env.read := rfl
  rw [roomIn,SefsDir.findSome_finRange,same]
  constructor
  · rintro ⟨k,here,before⟩
    split at here
    · simp at here
    next read =>
      obtain ⟨room,here⟩ := ite_none_right_eq_some.mp here
      obtain rfl : k = bi := by simpa using here
      refine ⟨fun j below => ?_,Bool.eq_true_of_not_eq_false read,room⟩
      have passed := before j below
      split at passed
      · cases passed
      next read =>
        split at passed
        · cases passed
        next full => exact ⟨Bool.eq_true_of_not_eq_false read,Nat.not_lt.mp full⟩
  · rintro ⟨before,read,room⟩
    refine ⟨bi,?_,fun k below => ?_⟩
    · rw [if_neg (by rw [read]; decide),if_pos room]
    · obtain ⟨read,full⟩ := before k below
      rw [if_neg (by rw [read]; decide),if_neg (Nat.not_lt.mpr full)]

theorem createIn_room (room : HasRoom env s.dir ei) (alloc : Bool) (cleared : List (Nat × Nat)) (ino eiBlock : Nat)
    (cached : Bool)
    (name : Name) : ∃ p : Slot perBlock, p.ei = ei ∧ (s.dir.slot p).ino = 0 ∧
      createIn env s ei alloc cleared ino eiBlock cached name =
        .made { s with dir := s.dir.change p.ei p.bi p.fi ⟨ino,name⟩ (· + 1) } cleared := by
  obtain ⟨bi,before,read,room,fi,free⟩ := room
  rw [createIn,roomIn_some.mpr ⟨before,read,room⟩]
  dsimp only
  split
  next none => exact absurd free (by simpa using List.find?_eq_none.mp none fi (mem_finRange fi))
  next slot found =>
    have free := List.find?_some found
    exact ⟨⟨ei,bi,slot⟩,rfl,of_decide_eq_true free,rfl⟩

theorem createIn_full (full : ¬ HasRoom env s.dir ei) :
    createIn env s ei false cleared ino eiBlock cached name = .failed (s.iput env ino eiBlock cached) := by
  rw [createIn]
  split
  · rfl
  · rfl
  next bi found =>
    obtain ⟨before,read,room⟩ := roomIn_some.mp found
    split
    · rfl
    next slot free => exact absurd ⟨bi,before,read,room,slot,by simpa using List.find?_some free⟩ full

theorem allocExt_room (positive : 0 < perBlock) (reads : ∀ bi, env.read ei bi = true) (dir : Dir perBlock) (bno : Nat) :
    HasRoom env (dir.allocExt ei bno) ei := by
  have new : ∀ bi, ((dir.allocExt ei bno).ents ei).blocks bi = SefsDir.scrubbed perBlock := fun bi =>
    (SefsDir.block_allocExt dir ei bno ei bi).trans (if_pos rfl)
  refine ⟨⟨0,by decide⟩,fun k below => absurd below (Nat.not_lt_zero _),reads _,?_,⟨0,positive⟩,?_⟩
  · rw [new]
    exact positive
  · rw [new]
    rfl

inductive Ends (sb : SbInfo) (env : Env) (s : State perBlock) (ino eiBlock : Nat) (cached : Bool) (cleared : List (Nat × Nat))
    (name : Name) : Outcome perBlock → Prop
  | nowhere (none : ∀ ei, ¬ Candidate s.dir ei) :
    Ends sb env s ino eiBlock cached cleared name (.failed (s.iput env ino eiBlock cached))
  | full {ei : Fin sefsDInfoEntMax} (candidate : Candidate s.dir ei) (old : (s.dir.ents ei).bno ≠ 0)
    (full : ¬ HasRoom env s.dir ei) : Ends sb env s ino eiBlock cached cleared name (.failed (s.iput env ino eiBlock cached))
  | entered {ei : Fin sefsDInfoEntMax} (candidate : Candidate s.dir ei) (old : (s.dir.ents ei).bno ≠ 0)
    (room : HasRoom env s.dir ei) (p : Slot perBlock) (here : p.ei = ei) (free : (s.dir.slot p).ino = 0) :
    Ends sb env s ino eiBlock cached cleared name
      (.made { s with dir := s.dir.change p.ei p.bi p.fi ⟨ino,name⟩ (· + 1) } cleared)
  | noBlocks {ei : Fin sefsDInfoEntMax} {blocks : Fs} (candidate : Candidate s.dir ei) (new : (s.dir.ents ei).bno = 0)
    (got : (getFreeBlocks sb s.blocks sefsDentBlocks (env.extentBitmap ei)).getD (0,s.blocks) = (0,blocks)) :
    Ends sb env s ino eiBlock cached cleared name (.failed (State.iput { s with blocks } env ino eiBlock cached))
  | unread {ei : Fin sefsDInfoEntMax} (candidate : Candidate s.dir ei) (new : (s.dir.ents ei).bno = 0)
    (unread : ¬ ∀ bi, env.read ei bi = true)
    (given : ((getFreeBlocks sb s.blocks sefsDentBlocks (env.extentBitmap ei)).getD (0,s.blocks)).1 ≠ 0) :
    Ends sb env s ino eiBlock cached cleared name .aborted
  | extended {ei : Fin sefsDInfoEntMax} {bno : Nat} {blocks : Fs} (candidate : Candidate s.dir ei)
    (new : (s.dir.ents ei).bno = 0)
    (got : (getFreeBlocks sb s.blocks sefsDentBlocks (env.extentBitmap ei)).getD (0,s.blocks) = (bno,blocks)) (given : bno ≠ 0)
    (reads : ∀ bi, env.read ei bi = true) (p : Slot perBlock) (here : p.ei = ei) :
    Ends sb env s ino eiBlock cached cleared name
      (.made ⟨blocks,s.inodes,(s.dir.allocExt p.ei (asInt bno)).change p.ei p.bi p.fi ⟨ino,name⟩ (· + 1)⟩
        (cleared ++ [(asInt bno,sefsDentBlocks)]))

theorem createEntry_ends (bare : Bare s.dir) (positive : 0 < perBlock) (sb : SbInfo) (env : Env) (ino eiBlock : Nat)
    (cached : Bool)
    (cleared : List (Nat × Nat)) (name : Name) :
    Ends sb env s ino eiBlock cached cleared name (createEntry sb env s ino eiBlock cached cleared name) := by
  rw [createEntry,chooseEnt_open bare positive]
  rcases candidate_cases s.dir with ⟨none,found⟩ | ⟨ei,candidate,found⟩
  · rw [found]
    exact .nowhere none
  rw [found]
  dsimp only
  rw [chooseEnt]
  by_cases new : (s.dir.ents ei).bno = 0
  · rw [if_pos new]
    rcases got : (getFreeBlocks sb s.blocks sefsDentBlocks (env.extentBitmap ei)).getD (0,s.blocks) with ⟨bno,blocks⟩
    by_cases zero : bno = 0
    · rw [if_pos zero]
      exact .noBlocks candidate new (zero ▸ got)
    rw [if_neg zero]
    by_cases reads : ∀ bi, env.read ei bi = true
    · rw [if_pos reads,if_pos (bare_room bare positive new)]
      dsimp only
      obtain ⟨p,rfl,-,made⟩ := @createIn_room perBlock env ⟨blocks,s.inodes,s.dir.allocExt ei (asInt bno)⟩ ei
        (allocExt_room positive reads s.dir (asInt bno)) true (cleared ++ [(asInt bno,sefsDentBlocks)]) ino eiBlock cached name
      rw [made]
      exact .extended candidate new got zero reads p rfl
    · rw [if_neg reads]
      exact .unread candidate new reads (by rw [got]; exact zero)
  · rw [if_neg new,if_pos (candidate.1.resolve_left new)]
    dsimp only
    by_cases room : HasRoom env s.dir ei
    · obtain ⟨p,here,free,made⟩ := createIn_room room false cleared ino eiBlock cached name
      rw [made]
      exact .entered candidate new room p here free
    · rw [createIn_full room]
      exact .full candidate new room

theorem asInt_small (small : bno < 2^31) : asInt bno = bno := by
  rw [asInt,int32_natCast small]
  omega

theorem asInt_large (large : 2^31 ≤ bno) (typed : bno < 2^32) : 2^32 ≤ asInt bno := by
  simp only [asInt,int32]
  omega

variable {blocks after : Fs} {bno len : Nat} {read : Bool}

theorem getFreeBlocks_zero (layout : sb.Layout) (small : blocks.Small) (short : len ≤ bitmapBlkNr) (positive : 0 < len)
    (got : (getFreeBlocks sb blocks len read).getD (0,blocks) = (0,after)) :
    (after = blocks ∧ (read = false ∨ ∀ i < sb.nrBfreeBlocks, blocks.bfreeBitLeft i < len)) ∨
    (after.nrFreeBlocks = sub32 blocks.nrFreeBlocks len ∧ ∃ i, FirstFit sb blocks len i ∧ read = true ∧
      ∀ b, FirstRun (blocks.bfree i) bitmapBlkNr len b → i * bitmapBlkNr + b = 0) := by
  rcases SefsBlocks.getFreeBlocks_cases layout small short read with
    ⟨same,reason⟩ | ⟨i,fit,-,rfl,⟨b,run,same⟩ | ⟨none,same⟩⟩
  · rw [same,getD_some] at got
    exact .inl ⟨(Prod.mk.inj got).2.symm,reason.resolve_left (by omega)⟩
  · rw [same,getD_some] at got
    obtain ⟨zero,rfl⟩ := Prod.mk.inj got
    refine .inr ⟨rfl,i,fit,rfl,fun c other => ?_⟩
    rw [← run.unique other]
    exact zero
  · rw [same,getD_some] at got
    obtain ⟨zero,rfl⟩ := Prod.mk.inj got
    exact .inr ⟨rfl,i,fit,rfl,fun c run => absurd run (none c)⟩

theorem getFreeBlocks_given (layout : sb.Layout) (small : blocks.Small) (short : len ≤ bitmapBlkNr) (given : bno ≠ 0)
    (got : (getFreeBlocks sb blocks len read).getD (0,blocks) = (bno,after)) :
    ∃ i, FirstFit sb blocks len i ∧ read = true ∧
      ((∃ b, FirstRun (blocks.bfree i) bitmapBlkNr len b ∧ bno = i * bitmapBlkNr + b ∧ after = blocks.take i b len) ∨
        (∀ b, ¬ FirstRun (blocks.bfree i) bitmapBlkNr len b) ∧ bno = i * bitmapBlkNr ∧ after = blocks.charge i len) := by
  rcases SefsBlocks.getFreeBlocks_cases layout small short read with
    ⟨same,-⟩ | ⟨i,fit,-,rfl,⟨b,run,same⟩ | ⟨none,same⟩⟩
  · rw [same,getD_some] at got
    exact absurd (Prod.mk.inj got).1.symm given
  · rw [same,getD_some] at got
    obtain ⟨rfl,rfl⟩ := Prod.mk.inj got
    exact ⟨i,fit,rfl,.inl ⟨b,run,rfl,rfl⟩⟩
  · rw [same,getD_some] at got
    obtain ⟨rfl,rfl⟩ := Prod.mk.inj got
    exact ⟨i,fit,rfl,.inr ⟨none,rfl,rfl⟩⟩

theorem fit_refuses (fit : FirstFit sb blocks len i) (read : Bool) (yes : read = true) :
    ¬ (read = false ∨ ∀ i < sb.nrBfreeBlocks, blocks.bfreeBitLeft i < len) := by
  rintro (unread | scarce)
  · rw [yes] at unread
    cases unread
  · exact absurd fit.2.1 (Nat.not_le.mpr (scarce i fit.1))

theorem run_le (layout : sb.Layout) (fit : FirstFit sb blocks len i) (run : FirstRun (blocks.bfree i) bitmapBlkNr len b) :
    i * bitmapBlkNr + b + len ≤ 2^32 := by
  have bitmaps := layout.bitmaps
  have below := fit.1
  have within := run.1
  simp only [bitmapBlkNr] at within ⊢
  omega

theorem charge_small (small : blocks.Small) : (blocks.charge i len).Small := small.update rfl (u32_lt _)

theorem take_small (small : blocks.Small) : (blocks.take i b len).Small := small.update rfl (u32_lt _)

theorem getFreeBlocks_small (layout : sb.Layout) (small : blocks.Small) (short : len ≤ bitmapBlkNr)
    (got : (getFreeBlocks sb blocks len read).getD (0,blocks) = (bno,after)) : after.Small := by
  rcases SefsBlocks.getFreeBlocks_cases layout small short read with ⟨same,-⟩ | ⟨i,-,-,-,⟨b,-,same⟩ | ⟨-,same⟩⟩
  · rw [same,getD_some] at got
    exact (Prod.mk.inj got).2 ▸ small
  · rw [same,getD_some] at got
    exact (Prod.mk.inj got).2 ▸ take_small small
  · rw [same,getD_some] at got
    exact (Prod.mk.inj got).2 ▸ charge_small small

theorem putBlocks_short (short : blocks.nrFreeBlocks = sub32 (sub32 n 1) sefsDentBlocks) :
    (putBlocks blocks bno 1 read).nrFreeBlocks ≠ n := by
  rw [SefsBlocks.sub32_sub32] at short
  cases read with
  | false =>
    change blocks.nrFreeBlocks ≠ n
    rw [short]
    simp only [sub32,u32,sefsDentBlocks]
    omega
  | true =>
    change u32 (blocks.nrFreeBlocks + 1) ≠ n
    rw [short]
    simp only [sub32,u32,sefsDentBlocks]
    omega

theorem free_of_run (run : FirstRun (blocks.bfree i) bitmapBlkNr len b) (low : i * bitmapBlkNr + b ≤ x)
    (high : x < i * bitmapBlkNr + b + len) : blocks.free x = true ∧ (blocks.take i b len).free x = false := by
  constructor
  · have place : x = i * bitmapBlkNr + (b + (x - (i * bitmapBlkNr + b))) := by omega
    have ends := run.1
    rw [place,SefsBlocks.free_place blocks i (by omega)]
    exact run.2.1 _ (by omega)
  · rw [SefsBlocks.take_free run]
    exact fill_inside low high false

theorem putBlocks_unread : putBlocks blocks bno len false = blocks := rfl

theorem putBlocks_charge (used : ∀ b < bitmapBlkNr, blocks.bfree i b = false) :
    putBlocks (blocks.charge i 1) bno 1 read ≠ blocks := by
  intro same
  cases read with
  | false =>
    have total := congrArg Fs.nrFreeBlocks same
    rw [putBlocks_unread,Fs.charge] at total
    simp only [sub32,u32] at total
    omega
  | true =>
    have within : bno % bitmapBlkNr < bitmapBlkNr := Nat.mod_lt _ (by decide)
    by_cases here : bno / bitmapBlkNr = i
    · have bit := congrFun (congrFun (congrArg Fs.bfree same) i) (bno % bitmapBlkNr)
      have set : (putBlocks (blocks.charge i 1) bno 1 true).bfree i (bno % bitmapBlkNr) = true := by
        rw [putBlocks,if_pos rfl,here]
        dsimp only
        rw [update_self,putFreeBits_one within,update_self]
      rw [set,used _ within] at bit
      cases bit
    · have left := congrFun (congrArg Fs.bfreeBitLeft same) i
      have reduced : (putBlocks (blocks.charge i 1) bno 1 true).bfreeBitLeft i = sub32 (blocks.bfreeBitLeft i) 1 := by
        rw [putBlocks,if_pos rfl]
        dsimp only
        rw [update_of_ne (Ne.symm here)]
        exact update_self ..
      rw [reduced] at left
      simp only [sub32,u32] at left
      omega

theorem putBlocks_free_other (blocks : Fs) (read : Bool) (other : x ≠ bno) :
    (putBlocks blocks bno 1 read).free x = blocks.free x := by
  cases read with
  | false => rw [putBlocks_unread]
  | true =>
    have within : bno % bitmapBlkNr < bitmapBlkNr := Nat.mod_lt _ (by decide)
    have filled : (putBlocks blocks bno 1 true).bfree = update blocks.bfree (bno / bitmapBlkNr)
        (fill (blocks.bfree (bno / bitmapBlkNr)) (bno % bitmapBlkNr) 1 true) := by
      rw [putBlocks,if_pos rfl]
      rw [putFreeBits_one within,fill_one]
    have set := SefsBlocks.free_fill filled within x
    rwa [Nat.div_add_mod',fill_outside (by omega)] at set

theorem take_stays (run : FirstRun (blocks.bfree i) bitmapBlkNr len b) (used : blocks.free x = false) :
    (blocks.take i b len).free x = false := by
  rw [SefsBlocks.take_free run,fill]
  split
  · rfl
  · exact used

theorem charge_free (x : Nat) : (blocks.charge i len).free x = blocks.free x := by
  rw [Fs.free,Fs.charge,Fs.free]

theorem taken_of_run (run : FirstRun (blocks.bfree i) bitmapBlkNr len b) (free : blocks.free x = true)
    (taken : (blocks.take i b len).free x = false) : i * bitmapBlkNr + b ≤ x ∧ x < i * bitmapBlkNr + b + len := by
  by_contra outside
  rw [SefsBlocks.take_free run,fill_outside (by omega),free] at taken
  cases taken

variable {o : Outcome perBlock}

theorem iput_inodes (s : State perBlock) (env : Env) (ino eiBlock : Nat) (cached : Bool) :
    (s.iput env ino eiBlock cached).inodes = putInode s.inodes ino := rfl

theorem iput_blocks (s : State perBlock) (env : Env) (ino eiBlock : Nat) (cached : Bool) :
    (s.iput env ino eiBlock cached).blocks = putBlocks s.blocks eiBlock 1 (cached || env.putBitmap) := rfl

/-- An inode whose number has been given back is not allocated when it is bound, and is given back again otherwise. -/
theorem Ends.given_back (ends : Ends sb env t ino eiBlock cached cleared name o) (back : t.inodes = s.inodes) :
    ¬ AllOrNothing s name o := by
  have twice : ∀ {u : State perBlock}, u.inodes = t.inodes → u.iput env ino eiBlock cached ≠ s := by
    intro u same equal
    have inodes := (iput_inodes u env ino eiBlock cached).symm.trans (congrArg State.inodes equal)
    rw [same,back] at inodes
    exact putInode_ne s.inodes ino inodes
  have unchanged : ∀ {u : State perBlock} {runs : List (Nat × Nat)}, u.inodes = t.inodes →
      ¬ ∃ ino p, Binds s u name runs ino p := by
    rintro u runs same ⟨ino,p,binds⟩
    have free := binds.free
    have taken := binds.taken
    rw [same,back,free] at taken
    cases taken
  cases ends with
  | nowhere | full | noBlocks => exact twice rfl
  | entered => exact unchanged rfl
  | extended => exact unchanged rfl
  | unread => exact id

/-- A bitmap block without a free block gives its first one, which is then cleared or marked as free. -/
theorem Ends.charged (layout : sb.Layout) (small : s.blocks.Small)
    (ends : Ends sb env t ino eiBlock cached [(i * bitmapBlkNr,1)] name o)
    (none : ∀ b, ¬ FirstRun (s.blocks.bfree i) bitmapBlkNr 1 b)
    (charged : t.blocks = s.blocks.charge i 1) : ¬ AllOrNothing s name o := by
  have used : ∀ b < bitmapBlkNr, s.blocks.bfree i b = false := fun b below => noRun_one none below
  have failed : ∀ {u : State perBlock}, u.blocks = t.blocks → u.iput env ino eiBlock cached ≠ s := by
    intro u same equal
    have put := (iput_blocks u env ino eiBlock cached).symm.trans (congrArg State.blocks equal)
    rw [same,charged] at put
    exact putBlocks_charge used put
  have made : ∀ {u : State perBlock} {runs : List (Nat × Nat)}, (i * bitmapBlkNr,1) ∈ runs →
      ¬ ∃ ino p, Binds s u name runs ino p := by
    rintro u runs member ⟨ino,p,binds⟩
    have first := SefsBlocks.free_place s.blocks i (show 0 < bitmapBlkNr by decide)
    rw [Nat.add_zero] at first
    have free := (binds.blocks _ member (i * bitmapBlkNr) (Nat.le_refl _) (by dsimp only; omega)).1
    rw [first,used 0 (by decide)] at free
    cases free
  cases ends with
  | nowhere | full => exact failed rfl
  | noBlocks candidate new got =>
    rcases getFreeBlocks_zero layout (charged ▸ charge_small small) (by decide) (by decide) got with
        ⟨rfl,-⟩ | ⟨short,-⟩
    · exact failed rfl
    · intro equal
      rw [charged,Fs.charge] at short
      have blocks := (iput_blocks _ env ino eiBlock cached).symm.trans (congrArg State.blocks equal)
      exact putBlocks_short short (congrArg Fs.nrFreeBlocks blocks)
  | entered => exact made (by simp)
  | extended => exact made (by simp)
  | unread => exact id

theorem take_free_inode (run : FirstRun (inodes.ifree i) bitmapBlkNr 1 b) :
    inodes.free (i * bitmapBlkNr + b) = true ∧ (inodes.take i b).free (i * bitmapBlkNr + b) = false := by
  obtain ⟨within,free⟩ := firstRun_one run
  obtain ⟨block,place⟩ := place_div i within
  rw [Inodes.free,Inodes.free,block,place,Inodes.take]
  dsimp only
  rw [update_self,fill_inside (Nat.le_refl b) (Nat.lt_succ_self b)]
  exact ⟨free,rfl⟩

section Taken

variable {k c : Nat}

def State.taken (s : State perBlock) (i b k c : Nat) : State perBlock := ⟨s.blocks.take i b 1,s.inodes.take k c,s.dir⟩

theorem taken_iput_iff (smallBlocks : s.blocks.Small) (smallInodes : s.inodes.Small)
    (block : FirstRun (s.blocks.bfree i) bitmapBlkNr 1 b) (inode : FirstRun (s.inodes.ifree k) bitmapBlkNr 1 c) (env : Env)
    (eiBlock : Nat) :
    (s.taken i b k c).iput env (k * bitmapBlkNr + c) eiBlock
      (decide (eiBlock / bitmapBlkNr = (i * bitmapBlkNr + b) / bitmapBlkNr)) = s ↔ eiBlock = i * bitmapBlkNr + b := by
  constructor
  · intro same
    by_contra other
    have blocks := (iput_blocks _ env _ eiBlock _).symm.trans (congrArg State.blocks same)
    obtain ⟨free,taken⟩ := free_of_run block (Nat.le_refl _) (Nat.lt_succ_self _)
    have left := putBlocks_free_other (s.taken i b k c).blocks
      (decide (eiBlock / bitmapBlkNr = (i * bitmapBlkNr + b) / bitmapBlkNr) || env.putBitmap) (Ne.symm other)
    rw [blocks,free] at left
    exact absurd (left.trans taken) (by decide)
  · rintro rfl
    rw [decide_eq_true rfl,State.iput,Bool.true_or]
    exact congr (congrArg₂ State.mk (putBlocks_take smallBlocks block) (putInode_take smallInodes inode)) rfl

theorem change_binding (old : (dir.ents p.ei).bno ≠ 0) (used : ino ≠ 0) (name : Name)
    (q : Slot perBlock) : binding (dir.change p.ei p.bi p.fi ⟨ino,name⟩ (· + 1)) q =
      if q = p then some ⟨ino,name⟩ else binding dir q := by
  rw [binding,SefsDir.bno_change,SefsDir.slot_change]
  by_cases same : q = p
  · rw [if_pos same,if_pos same,if_pos ⟨same ▸ old,used⟩]
  · rw [if_neg same,if_neg same,binding]

theorem allocExt_binding (new : (dir.ents ei).bno = 0) (bno : Nat) (q : Slot perBlock) :
    binding (dir.allocExt ei bno) q = binding dir q := by
  rw [binding,binding,SefsDir.bno_allocExt,SefsDir.slot_allocExt]
  by_cases same : q.ei = ei
  · simp [same,new]
  · simp [same]

theorem entered_binds (inode : FirstRun (s.inodes.ifree k) bitmapBlkNr 1 c) (positive : 0 < c)
    (old : (dir.ents p.ei).bno ≠ 0) (same : ∀ q, binding dir q = binding s.dir q) (free : (dir.slot p).ino = 0)
    (taken : ∀ run ∈ cleared, ∀ x, run.1 ≤ x → x < run.1 + run.2 → s.blocks.free x = true ∧ after.free x = false) :
    AllOrNothing s name
    (.made ⟨after,s.inodes.take k c,dir.change p.ei p.bi p.fi ⟨k * bitmapBlkNr + c,name⟩ (· + 1)⟩ cleared) := by
  obtain ⟨was,isnt⟩ := take_free_inode inode
  have used : k * bitmapBlkNr + c ≠ 0 := by omega
  have changed := change_binding old used name
  refine ⟨k * bitmapBlkNr + c,p,?_,?_,fun q other => ?_,was,isnt,taken⟩
  · rw [changed,if_pos rfl]
  · rw [← same,binding,if_neg fun both => both.2 free]
  · rw [changed,if_neg other,same]

section

variable {dir : Dir perBlock} (candidate : Candidate dir ei)
include candidate

theorem Candidate.enters_iff : Enters sb env dir blocks ↔
    (dir.ents ei).bno ≠ 0 ∧ HasRoom env dir ei ∨ (dir.ents ei).bno = 0 ∧ TakesExtent sb env blocks ei := by
  refine ⟨?_,fun enters => ⟨ei,candidate,enters⟩⟩
  rintro ⟨other,first,enters⟩
  rwa [candidate.unique first]

theorem Candidate.undoes_iff : Undoes sb env dir blocks ↔
    (dir.ents ei).bno ≠ 0 ∧ ¬ HasRoom env dir ei ∨ (dir.ents ei).bno = 0 ∧ RefusesExtent sb env blocks ei := by
  refine ⟨?_,fun undoes => .inr ⟨ei,candidate,undoes⟩⟩
  rintro (none | ⟨other,first,undoes⟩)
  · exact absurd candidate (none ei)
  · rwa [candidate.unique first]

theorem Candidate.old (old : (dir.ents ei).bno ≠ 0) (sb : SbInfo) (env : Env) (blocks : Fs) :
    (Enters sb env dir blocks ↔ HasRoom env dir ei) ∧ (Undoes sb env dir blocks ↔ ¬ HasRoom env dir ei) := by
  rw [candidate.enters_iff,candidate.undoes_iff]
  simp [old]

theorem Candidate.new (new : (dir.ents ei).bno = 0) (sb : SbInfo) (env : Env) (blocks : Fs) :
    (Enters sb env dir blocks ↔ TakesExtent sb env blocks ei) ∧
      (Undoes sb env dir blocks ↔ RefusesExtent sb env blocks ei) := by
  rw [candidate.enters_iff,candidate.undoes_iff]
  simp [new]

end

/-- The blocks of a new entry are taken for it exactly if they are a run of the bitmap with a number that fits. -/
theorem extended_iff (layout : sb.Layout) (small : s.blocks.Small) (fit : FirstFit sb s.blocks 1 i)
    (block : FirstRun (s.blocks.bfree i) bitmapBlkNr 1 b) (inode : FirstRun (s.inodes.ifree k) bitmapBlkNr 1 c)
    (positive : 0 < c)
    (new : (s.dir.ents ei).bno = 0) (given : bno ≠ 0) (reads : ∀ bi, env.read ei bi = true)
    (got : (getFreeBlocks sb (s.blocks.take i b 1) sefsDentBlocks (env.extentBitmap ei)).getD (0,s.blocks.take i b 1) =
      (bno,after))
    {p : Slot perBlock} (here : p.ei = ei) :
    AllOrNothing s name (.made ⟨after,s.inodes.take k c,
      (s.dir.allocExt p.ei (asInt bno)).change p.ei p.bi p.fi ⟨k * bitmapBlkNr + c,name⟩ (· + 1)⟩
        ([(i * bitmapBlkNr + b,1)] ++ [(asInt bno,sefsDentBlocks)])) ↔ TakesExtent sb env (s.blocks.take i b 1) ei := by
  obtain ⟨g,extentFit,read,taken⟩ := getFreeBlocks_given layout (take_small small) (by decide) given got
  have eight : sefsDentBlocks = 8 := rfl
  constructor
  · rintro ⟨ino,q,binds⟩
    have cleared := binds.blocks (asInt bno,sefsDentBlocks) (by simp)
    dsimp only at cleared
    rcases taken with ⟨d,run,rfl,rfl⟩ | ⟨none,rfl,rfl⟩
    · refine ⟨read,reads,g,d,extentFit,run,Nat.pos_of_ne_zero given,?_⟩
      by_contra large
      have high := run_le layout extentFit run
      have low := asInt_large (Nat.not_lt.mp large) (by omega)
      obtain ⟨free,used⟩ := cleared _ (Nat.le_refl _) (by omega)
      cases index : (s.blocks.take i b 1).free (asInt (g * bitmapBlkNr + d)) with
      | true =>
        have inside := taken_of_run run index used
        omega
      | false =>
        have inside := taken_of_run block free index
        have index := run_le layout fit block
        omega
    · -- the search has failed, so that only the index block is no longer free
      obtain ⟨free,used⟩ := cleared (asInt (g * bitmapBlkNr)) (Nat.le_refl _) (by omega)
      obtain ⟨free',used'⟩ := cleared (asInt (g * bitmapBlkNr) + 1) (Nat.le_succ _) (by omega)
      rw [charge_free] at used used'
      have one := taken_of_run block free used
      have two := taken_of_run block free' used'
      omega
  · rintro ⟨-,-,h,d,otherFit,run,-,fits⟩
    obtain rfl := otherFit.unique extentFit
    rcases taken with ⟨e,other,rfl,rfl⟩ | ⟨none,-⟩
    · obtain rfl := run.unique other
      rw [asInt_small fits]
      refine entered_binds inode positive ?_ (allocExt_binding (here ▸ new) _) ?_ ?_
      · rw [SefsDir.bno_allocExt,if_pos rfl]
        exact given
      · rw [SefsDir.slot_allocExt,if_pos rfl]
      · intro cleared member x low high
        rcases mem_append.mp member with index | extent
        · obtain rfl := mem_singleton.mp index
          obtain ⟨free,used⟩ := free_of_run block low high
          exact ⟨free,take_stays run used⟩
        · obtain rfl := mem_singleton.mp extent
          obtain ⟨free,used⟩ := free_of_run run low high
          refine ⟨?_,used⟩
          by_contra before
          rw [take_stays block (Bool.eq_false_iff.mpr before)] at free
          cases free
    · exact absurd run (none d)

theorem Ends.taken_iff (layout : sb.Layout) (smallBlocks : s.blocks.Small) (smallInodes : s.inodes.Small)
    (fit : FirstFit sb s.blocks 1 i) (block : FirstRun (s.blocks.bfree i) bitmapBlkNr 1 b)
    (inode : FirstRun (s.inodes.ifree k) bitmapBlkNr 1 c) (positive : 0 < c)
    (ends : Ends sb env (s.taken i b k c) (k * bitmapBlkNr + c) eiBlock
      (decide (eiBlock / bitmapBlkNr = (i * bitmapBlkNr + b) / bitmapBlkNr)) [(i * bitmapBlkNr + b,1)] name o) :
    AllOrNothing s name o ↔ Enters sb env s.dir (s.blocks.take i b 1) ∨
      Undoes sb env s.dir (s.blocks.take i b 1) ∧ eiBlock = i * bitmapBlkNr + b := by
  have undone := taken_iput_iff smallBlocks smallInodes block inode env eiBlock
  cases ends with
  | nowhere none =>
    have away : ¬ Enters sb env s.dir (s.blocks.take i b 1) := fun ⟨ei,candidate,_⟩ => none ei candidate
    have undoes : Undoes sb env s.dir (s.blocks.take i b 1) := .inl none
    exact undone.trans (by simp [away,undoes])
  | full candidate old full =>
    replace candidate : Candidate s.dir _ := candidate
    obtain ⟨enters,undoes⟩ := candidate.old old sb env (s.blocks.take i b 1)
    rw [enters,undoes]
    replace full : ¬ HasRoom env s.dir _ := full
    exact undone.trans (by simp [full])
  | entered candidate old room p here free =>
    replace candidate : Candidate s.dir _ := candidate
    obtain ⟨enters,-⟩ := candidate.old old sb env (s.blocks.take i b 1)
    rw [enters]
    refine iff_of_true (entered_binds inode positive (here ▸ old) (fun _ => rfl) free ?_) (.inl room)
    intro cleared member x low high
    obtain rfl := mem_singleton.mp member
    exact free_of_run block low high
  | noBlocks candidate new got =>
    replace candidate : Candidate s.dir _ := candidate
    obtain ⟨enters,undoes⟩ := candidate.new new sb env (s.blocks.take i b 1)
    rw [enters,undoes]
    rcases getFreeBlocks_zero layout (take_small smallBlocks) (by decide) (by decide) got with
      ⟨rfl,refuses⟩ | ⟨short,g,extentFit,read,none⟩
    · have away : ¬ TakesExtent sb env (s.blocks.take i b 1) _ :=
        fun ⟨yes,_,_,_,extentFit,_⟩ => fit_refuses extentFit _ yes refuses
      exact undone.trans (by simp [away,RefusesExtent,refuses])
    · refine iff_of_false ?_ ?_
      · intro equal
        have blocks := (iput_blocks _ env _ eiBlock _).symm.trans (congrArg State.blocks equal)
        exact putBlocks_short short (congrArg Fs.nrFreeBlocks blocks)
      · rintro (⟨-,-,h,d,otherFit,run,given,-⟩ | ⟨refuses,-⟩)
        · obtain rfl := extentFit.unique otherFit
          have zero := none d run
          omega
        · exact fit_refuses extentFit _ read refuses
  | unread candidate new unread given =>
    replace candidate : Candidate s.dir _ := candidate
    obtain ⟨enters,undoes⟩ := candidate.new new sb env (s.blocks.take i b 1)
    obtain ⟨g,extentFit,read,-⟩ := getFreeBlocks_given layout (take_small smallBlocks) (by decide) given rfl
    rw [enters,undoes]
    refine iff_of_false id ?_
    rintro (⟨-,reads,-⟩ | ⟨refuses,-⟩)
    · exact unread reads
    · exact fit_refuses extentFit _ read refuses
  | extended candidate new got given reads p here =>
    replace candidate : Candidate s.dir _ := candidate
    obtain ⟨enters,undoes⟩ := candidate.new new sb env (s.blocks.take i b 1)
    obtain ⟨g,extentFit,read,-⟩ := getFreeBlocks_given layout (take_small smallBlocks) (by decide) given got
    have never : ¬ RefusesExtent sb env (s.blocks.take i b 1) _ := fit_refuses extentFit _ read
    rw [enters,undoes]
    exact (extended_iff layout smallBlocks fit block inode positive new given reads got here).trans (by simp [never])

end Taken

/-- What is always so: the counters fit their type, and an entry without blocks has no files. -/
structure State.Valid (s : State perBlock) : Prop where
  blocks : s.blocks.Small
  inodes : s.inodes.Small
  bare : Bare s.dir

variable {mode : Mode}

structure HasInode (sb : SbInfo) (env : Env) (mode : Mode) (s : State perBlock) (k c : Nat) : Prop where
  supported : mode ≠ .other
  counters : ¬ (s.inodes.nrFreeInodes = 0 ∨ s.blocks.nrFreeBlocks = 0)
  first : FirstLeft sb s.inodes k
  read : env.inodeBitmap = true
  run : FirstRun (s.inodes.ifree k) bitmapBlkNr 1 c

theorem HasInode.not_refused (has : HasInode sb env mode s k c) : ¬ RefusesInode sb env mode s := by
  obtain ⟨within,free⟩ := firstRun_one has.run
  rintro (other | noInode | noBlock | none | ⟨i,other,unread | used⟩)
  · exact has.supported other
  · exact has.counters (.inl noInode)
  · exact has.counters (.inr noBlock)
  · exact has.first.2.1 (none k has.first.1)
  · rw [has.read] at unread
    cases unread
  · rw [← has.first.unique other] at used
    exact absurd (free.symm.trans (used c within)) (by decide)

theorem HasInode.takes_iff (has : HasInode sb env mode s k c) : TakesInode sb env s ↔ 0 < c := by
  constructor
  · rintro ⟨-,i,b,first,run,positive⟩
    obtain rfl := has.first.unique first
    rwa [has.run.unique run]
  · exact fun positive => ⟨has.read,k,c,has.first,has.run,positive⟩

inductive Starts (sb : SbInfo) (env : Env) (mode : Mode) (s : State perBlock) : New perBlock → Prop
  | refused (refuses : RefusesInode sb env mode s) : Starts sb env mode s (.error s)
  | lost {k : Nat} (has : HasInode sb env mode s k 0) : Starts sb env mode s (.error { s with inodes := s.inodes.lose k })
  | null {k c : Nat} (has : HasInode sb env mode s k c) (null : env.inode = none) : Starts sb env mode s .aborted
  | back {k c held : Nat} {blocks : Fs} (has : HasInode sb env mode s k c) (none : ∀ i b, ¬ TakesIndex sb env s i b)
    (small : blocks.Small) :
    Starts sb env mode s (.inode ⟨blocks,s.inodes,s.dir⟩ (k * bitmapBlkNr + c) held false [])
  | charged {k c i eiBlock : Nat} {cached : Bool} (has : HasInode sb env mode s k c) (fit : FirstFit sb s.blocks 1 i)
    (none : ∀ b, ¬ FirstRun (s.blocks.bfree i) bitmapBlkNr 1 b) :
    Starts sb env mode s (.inode ⟨s.blocks.charge i 1,s.inodes.take k c,s.dir⟩ (k * bitmapBlkNr + c) eiBlock cached
      [(i * bitmapBlkNr,1)])
  | taken {k c i b held eiBlock : Nat} (has : HasInode sb env mode s k c) (positive : 0 < c) (takes : TakesIndex sb env s i b)
    (inode : env.inode = some held) (told : eiBlock = if mode = .lnk then held else i * bitmapBlkNr + b) :
    Starts sb env mode s (.inode (s.taken i b k c) (k * bitmapBlkNr + c) eiBlock
      (decide (eiBlock / bitmapBlkNr = (i * bitmapBlkNr + b) / bitmapBlkNr)) [(i * bitmapBlkNr + b,1)])

theorem sefsNewInode_starts (layout : sb.Layout) (valid : s.Valid) : Starts sb env mode s (sefsNewInode sb env mode s) := by
  rw [sefsNewInode]
  by_cases other : mode = .other
  · rw [if_pos other]
    exact .refused (.inl other)
  rw [if_neg other]
  by_cases counters : s.inodes.nrFreeInodes = 0 ∨ s.blocks.nrFreeBlocks = 0
  · rw [if_pos counters]
    exact .refused (.inr (counters.elim .inl fun noBlock => .inr (.inl noBlock)))
  rw [if_neg counters]
  rcases getFreeInode_cases sb s.inodes env.inodeBitmap with
    ⟨got,reason⟩ | ⟨k,c,first,read,run,⟨rfl,got⟩ | ⟨positive,got⟩⟩
  · rw [got]
    exact .refused (.inr (.inr (.inr reason)))
  · rw [got]
    exact .lost ⟨other,counters,first,read,run⟩
  have has : HasInode sb env mode s k c := ⟨other,counters,first,read,run⟩
  rw [got]
  rw [if_neg (by omega)]
  cases inode : env.inode with
  | none => exact .null has inode
  | some held =>
    rw [putInode_take valid.inodes run]
    rcases took : (getFreeBlocks sb s.blocks 1 env.indexBitmap).getD (0,s.blocks) with ⟨bno,blocks⟩
    dsimp only
    by_cases failed : bno = 0 ∨ env.index = false
    · rw [if_pos failed]
      have small := getFreeBlocks_small layout valid.blocks (by decide) took
      refine .back has (fun i b takes => ?_) small
      obtain ⟨-,bitmap,index,fit,run,given⟩ := takes
      obtain rfl : bno = 0 := failed.resolve_right (by rw [index]; decide)
      rcases getFreeBlocks_zero layout valid.blocks (by decide) Nat.zero_lt_one took with
          ⟨-,refuses⟩ | ⟨-,g,other,-,zero⟩
      · exact fit_refuses fit _ bitmap refuses
      · obtain rfl := fit.unique other
        have none := zero b run
        omega
    · rw [if_neg failed]
      obtain ⟨i,fit,bitmap,⟨b,run,rfl,rfl⟩ | ⟨none,rfl,rfl⟩⟩ := getFreeBlocks_given layout valid.blocks (by decide)
        (fun zero => failed (.inl zero)) took
      · have index : env.index = true := Bool.eq_true_of_not_eq_false fun unread => failed (.inr unread)
        exact .taken has positive ⟨by rw [inode]; rfl,bitmap,index,fit,run,by omega⟩ inode rfl
      · exact .charged has fit none

/-! The directory alone: `sefs_create` of the directory model, with the same answers. -/

def Outcome.dir : Outcome perBlock → SefsDir.Create perBlock
  | .failed s => .failed s.dir
  | .made s _ => .made s.dir
  | .aborted => .aborted

theorem createIn_dir (bno : Nat) (has : alloc = true → (s.dir.ents ei).bno ≠ 0) :
    (createIn env s ei alloc cleared ino eiBlock cached name).dir =
      SefsDir.createIn ⟨env.info,env.read,bno⟩ s.dir ei alloc ino name := by
  have same : roomIn ⟨env.info,env.read,bno⟩ s.dir ei = roomIn env.blocks s.dir ei := rfl
  rw [createIn,SefsDir.createIn,same]
  cases roomIn env.blocks s.dir ei with
  | none => rfl
  | some found =>
    cases found with
    | none =>
      rw [State.putBlock]
      cases alloc with
      | false => rfl
      | true =>
        rw [if_pos ⟨rfl,has rfl⟩]
        rfl
    | some bi =>
      dsimp only
      generalize (finRange perBlock).find? (fun fi => decide ((((s.dir.ents ei).blocks bi).files fi).ino = 0)) = slot
      cases slot <;> rfl

theorem asInt_eq_zero (typed : bno < 2^32) : asInt bno = 0 ↔ bno = 0 := by
  by_cases small : bno < 2^31
  · rw [asInt_small small]
  · have large := asInt_large (Nat.not_lt.mp small) typed
    omega

theorem getFreeBlocks_lt (blocks : Fs) (len : Nat) (read : Bool) :
    ((getFreeBlocks sb blocks len read).getD (0,blocks)).1 < 2^32 := by
  rw [getFreeBlocks]
  split
  · exact Nat.two_pow_pos 32
  · split
    · exact Nat.two_pow_pos 32
    · split
      · exact u32_lt _
      · exact Nat.two_pow_pos 32

theorem createEntry_dir (bare : Bare s.dir) (positive : 0 < perBlock) (info : env.info ≠ false)
    (room : ¬ s.dir.nrFiles ≥ perBlock * sefsDentBlocks * sefsDInfoEntMax) :
    ∃ bno, (createEntry sb env s ino eiBlock cached cleared name).dir =
      SefsDir.sefsCreate ⟨env.info,env.read,bno⟩ s.dir (some ino) name := by
  have chosen := @chooseEnt_open perBlock sb env s false cleared bare positive (finRange sefsDInfoEntMax)
  simp only [SefsDir.sefsCreate,if_neg info,if_neg room]
  rcases candidate_cases s.dir with ⟨-,found⟩ | ⟨ei,candidate,found⟩
  · have same : (finRange sefsDInfoEntMax).find? (fun ei =>
        decide ((s.dir.ents ei).bno = 0 ∨ (s.dir.ents ei).nrFiles < perBlock * sefsDentBlocks)) = none := found
    rw [found] at chosen
    rw [createEntry,chosen,same]
    exact ⟨0,rfl⟩
  have same : (finRange sefsDInfoEntMax).find? (fun ei =>
      decide ((s.dir.ents ei).bno = 0 ∨ (s.dir.ents ei).nrFiles < perBlock * sefsDentBlocks)) = some ei := found
  rw [found] at chosen
  dsimp only at chosen
  rw [createEntry,chosen,chooseEnt,same]
  by_cases new : (s.dir.ents ei).bno = 0
  · simp only [if_pos new]
    have typed := @getFreeBlocks_lt sb s.blocks sefsDentBlocks (env.extentBitmap ei)
    generalize (getFreeBlocks sb s.blocks sefsDentBlocks (env.extentBitmap ei)).getD (0,s.blocks) = got at typed ⊢
    obtain ⟨bno,blocks⟩ := got
    refine ⟨asInt bno,?_⟩
    dsimp only at typed ⊢
    by_cases zero : bno = 0
    · rw [if_pos zero,if_pos ((asInt_eq_zero typed).mpr zero)]
      rfl
    have given : asInt bno ≠ 0 := fun none => zero ((asInt_eq_zero typed).mp none)
    rw [if_neg zero,if_neg given]
    by_cases reads : ∀ bi, env.read ei bi = true
    · rw [if_pos reads,if_pos reads,if_pos (bare_room bare positive new)]
      refine createIn_dir (asInt bno) fun _ => ?_
      rw [SefsDir.bno_allocExt,if_pos rfl]
      exact given
    · rw [if_neg reads,if_neg reads]
      rfl
  · simp only [if_neg new,if_pos (candidate.1.resolve_left new)]
    exact ⟨0,createIn_dir 0 fun alloc => by cases alloc⟩

theorem sefsNewInode_dir (sb : SbInfo) (env : Env) (mode : Mode) (s : State perBlock) :
    (∃ t, sefsNewInode sb env mode s = .error t ∧ t.dir = s.dir) ∨
    (∃ t ino eiBlock cached cleared, sefsNewInode sb env mode s = .inode t ino eiBlock cached cleared ∧ t.dir = s.dir) ∨
    env.inode = none := by
  rw [sefsNewInode]
  split
  · exact .inl ⟨_,rfl,rfl⟩
  · split
    · exact .inl ⟨_,rfl,rfl⟩
    · dsimp only
      split
      · exact .inl ⟨_,rfl,rfl⟩
      · split
        next none => exact .inr (.inr none)
        · split
          · exact .inr (.inl ⟨_,_,_,_,_,rfl,rfl⟩)
          · exact .inr (.inl ⟨_,_,_,_,_,rfl,rfl⟩)

/-- With an inode in memory the directory ends as in its own model, for some answers. -/
theorem sefsCreate_dir (positive : 0 < perBlock) (sb : SbInfo) (env : Env) (mode : Mode) (name : Name) (s : State perBlock)
    (bare : Bare s.dir) (memory : env.inode ≠ none) : ∃ bno newInode, (sefsCreate sb env mode name s).dir =
      SefsDir.sefsCreate ⟨env.info,env.read,bno⟩ s.dir newInode name := by
  rw [sefsCreate]
  split
  next unread =>
    refine ⟨0,none,?_⟩
    rw [SefsDir.sefsCreate,if_pos unread]
    rfl
  next info =>
    split
    next full =>
      refine ⟨0,none,?_⟩
      rw [SefsDir.sefsCreate,if_neg info,if_pos full]
      rfl
    next room =>
      rcases sefsNewInode_dir sb env mode s with ⟨t,started,same⟩ | ⟨t,ino,eiBlock,cached,cleared,started,same⟩ | none
      · refine ⟨0,none,?_⟩
        rw [started,SefsDir.sefsCreate,if_neg info,if_neg room,← same]
        rfl
      · rw [started]
        rw [← same] at bare room ⊢
        obtain ⟨bno,ends⟩ := @createEntry_dir perBlock sb env t cached cleared ino eiBlock name bare positive info room
        exact ⟨bno,some ino,ends⟩
      · exact absurd none memory

/-! What is always so stays so. -/

def Outcome.state : Outcome perBlock → Option (State perBlock)
  | .failed s => some s
  | .made s _ => some s
  | .aborted => none

theorem putInode_small (small : inodes.Small) (ino : Nat) : (putInode inodes ino).Small := by
  refine ⟨fun i => ?_,u32_lt _⟩
  rw [putInode]
  dsimp only
  by_cases here : i = ino / bitmapBlkNr
  · rw [here,update_self]
    exact u32_lt _
  · rw [update_of_ne here]
    exact small.left i

theorem take_small_inodes (small : inodes.Small) : (inodes.take i b).Small := by
  refine ⟨fun k => ?_,u32_lt _⟩
  rw [Inodes.take]
  dsimp only
  by_cases here : k = i
  · rw [here,update_self]
    exact u32_lt _
  · rw [update_of_ne here]
    exact small.left k

theorem putBlocks_small (small : blocks.Small) (bno len : Nat) (read : Bool) : (putBlocks blocks bno len read).Small := by
  cases read with
  | false => exact small
  | true => exact small.update rfl (u32_lt _)

theorem State.Valid.iput (valid : s.Valid) (env : Env) (ino eiBlock : Nat) (cached : Bool) :
    (s.iput env ino eiBlock cached).Valid :=
  ⟨putBlocks_small valid.blocks _ _ _,putInode_small valid.inodes ino,valid.bare⟩

theorem change_bare {p : Slot perBlock} (bare : Bare dir) (old : (dir.ents p.ei).bno ≠ 0) (entry : Dirent) :
    Bare (dir.change p.ei p.bi p.fi entry (· + 1)) := by
  intro k none
  rw [SefsDir.bno_change] at none
  have other : k ≠ p.ei := by
    rintro rfl
    exact old none
  rw [Dir.change]
  dsimp only
  rw [update_of_ne other]
  exact bare k none

theorem allocExt_bare (bare : Bare dir) (given : bno ≠ 0) : Bare (dir.allocExt ei bno) := by
  intro k none
  rw [SefsDir.bno_allocExt] at none
  have other : k ≠ ei := by
    rintro rfl
    rw [if_pos rfl] at none
    exact given none
  rw [if_neg other] at none
  rw [Dir.allocExt]
  dsimp only
  rw [update_of_ne other]
  exact bare k none

theorem Ends.valid (layout : sb.Layout) (valid : s.Valid) (ends : Ends sb env s ino eiBlock cached cleared name o)
    (after : o.state = some t) : t.Valid := by
  cases ends with
  | nowhere | full =>
    obtain rfl := some.inj after
    exact valid.iput env ino eiBlock cached
  | noBlocks _ _ got =>
    obtain rfl := some.inj after
    have small := getFreeBlocks_small layout valid.blocks (by decide) got
    exact State.Valid.iput (s := ⟨_,s.inodes,s.dir⟩) ⟨small,valid.inodes,valid.bare⟩ env ino eiBlock cached
  | entered _ old _ p here _ =>
    obtain rfl := some.inj after
    exact ⟨valid.blocks,valid.inodes,change_bare valid.bare (here ▸ old) _⟩
  | @extended ei bno blocks _ _ got given _ p _ =>
    obtain rfl := some.inj after
    have typed := @getFreeBlocks_lt sb s.blocks sefsDentBlocks (env.extentBitmap ei)
    rw [got] at typed
    have stored : asInt bno ≠ 0 := fun none => given ((asInt_eq_zero typed).mp none)
    refine ⟨getFreeBlocks_small layout valid.blocks (by decide) got,valid.inodes,
      change_bare (allocExt_bare valid.bare stored) ?_ _⟩
    rw [SefsDir.bno_allocExt,if_pos rfl]
    exact stored
  | unread => cases after

theorem sefsCreate_valid (layout : sb.Layout) (positive : 0 < perBlock) (env : Env) (mode : Mode) (name : Name) (valid : s.Valid)
    (after : (sefsCreate sb env mode name s).state = some t) : t.Valid := by
  rw [sefsCreate] at after
  split at after
  · obtain rfl := some.inj after
    exact valid
  · split at after
    · obtain rfl := some.inj after
      exact valid
    · have starts := @sefsNewInode_starts perBlock sb env s mode layout valid
      generalize sefsNewInode sb env mode s = new at starts after
      cases starts with
      | refused =>
        obtain rfl := some.inj after
        exact valid
      | lost has =>
        obtain rfl := some.inj after
        exact ⟨valid.blocks,⟨valid.inodes.left,valid.inodes.total⟩,valid.bare⟩
      | null => cases after
      | @back k c held blocks has none small =>
        have started : State.Valid ⟨blocks,s.inodes,s.dir⟩ := ⟨small,valid.inodes,valid.bare⟩
        exact (createEntry_ends started.bare positive sb env _ held false [] name).valid layout started after
      | @charged k c i eiBlock cached has fit none =>
        have started : State.Valid ⟨s.blocks.charge i 1,s.inodes.take k c,s.dir⟩ :=
          ⟨charge_small valid.blocks,take_small_inodes valid.inodes,valid.bare⟩
        exact (createEntry_ends started.bare positive sb env _ eiBlock cached _ name).valid layout started after
      | @taken k c i b held eiBlock has first takes inode told =>
        have started : (s.taken i b k c).Valid := ⟨take_small valid.blocks,take_small_inodes valid.inodes,valid.bare⟩
        exact (createEntry_ends started.bare positive sb env _ eiBlock _ _ name).valid layout started after

/-- The call binds the name or leaves everything as it was exactly if it is refused at once; or gets an inode that is not the
first of its bitmap block and a free block for it, and then the entry can be written or the call fails before it takes more. -/
theorem create_allOrNothing_iff (blockDevice hasJournal : Bool) (size : Nat) (sb : SbInfo)
    (made : SefsBlocks.mkfs blockDevice hasJournal size = some sb) (positive : 0 < perBlock) (env : Env) (mode : Mode)
    (name : Name)
    (s : State perBlock) (valid : s.Valid) :
    AllOrNothing s name (sefsCreate sb env mode name s) ↔ Clean sb env mode s := by
  have layout := SefsBlocks.mkfs_layout made
  rw [sefsCreate]
  split
  next unread => exact iff_of_true rfl (.inl (.inl unread))
  next info =>
    split
    next full => exact iff_of_true rfl (.inl (.inr (.inl full)))
    next room =>
      have refused : Refused sb env mode s ↔ RefusesInode sb env mode s :=
        (or_iff_right info).trans (or_iff_right room)
      have starts := @sefsNewInode_starts perBlock sb env s mode layout valid
      rw [Clean,refused]
      generalize sefsNewInode sb env mode s = new at starts ⊢
      cases starts with
      | refused refuses => exact iff_of_true rfl (.inl refuses)
      | lost has =>
        refine iff_of_false (fun same => lose_ne (firstRun_one has.run).2 (congrArg State.inodes same)) ?_
        rw [has.takes_iff]
        rintro (refuses | ⟨none,-⟩)
        · exact has.not_refused refuses
        · omega
      | null has null =>
        refine iff_of_false id ?_
        rintro (refuses | ⟨-,i,b,⟨some,-⟩,-⟩)
        · exact has.not_refused refuses
        · rw [null] at some
          cases some
      | @back k c held blocks has none small =>
        have ends := createEntry_ends (s := ⟨blocks,s.inodes,s.dir⟩) valid.bare positive sb env
          (k * bitmapBlkNr + c) held false [] name
        refine iff_of_false (ends.given_back rfl) ?_
        rintro (refuses | ⟨-,i,b,takes,-⟩)
        · exact has.not_refused refuses
        · exact none i b takes
      | @charged k c i eiBlock cached has fit none =>
        have ends := createEntry_ends (s := ⟨s.blocks.charge i 1,s.inodes.take k c,s.dir⟩) valid.bare positive sb env
          (k * bitmapBlkNr + c) eiBlock cached [(i * bitmapBlkNr,1)] name
        refine iff_of_false (ends.charged layout valid.blocks none rfl) ?_
        rintro (refuses | ⟨-,g,b,⟨-,-,-,other,run,-⟩,-⟩)
        · exact has.not_refused refuses
        · rw [fit.unique other] at none
          exact none b run
      | @taken k c i b held eiBlock has first takes inode told =>
        have ends := createEntry_ends (s := s.taken i b k c) valid.bare positive sb env (k * bitmapBlkNr + c) eiBlock
          (decide (eiBlock / bitmapBlkNr = (i * bitmapBlkNr + b) / bitmapBlkNr)) [(i * bitmapBlkNr + b,1)] name
        have fit := takes.2.2.2.1
        have run := takes.2.2.2.2.1
        have knows : eiBlock = i * bitmapBlkNr + b ↔ (mode = .lnk → env.inode = some (i * bitmapBlkNr + b)) := by
          rw [told,inode]
          by_cases link : mode = .lnk
          · simp [link]
          · simp [link]
        rw [ends.taken_iff layout valid.blocks valid.inodes fit run has.run first,knows]
        constructor
        · exact fun good => .inr ⟨has.takes_iff.mpr first,i,b,takes,good⟩
        · rintro (refuses | ⟨-,g,d,⟨-,-,-,other,same,-⟩,good⟩)
          · exact absurd refuses has.not_refused
          · obtain rfl := fit.unique other
            obtain rfl := run.unique same
            exact good

def smallSb : SbInfo := SefsBlocks.writeSuperblock (101 * 4096) true

def fresh : State 15 :=
  ⟨(SefsBlocks.mount 64 smallSb).fs,⟨fun _ b => decide (2 ≤ b),fun _ => 32766,55⟩,SefsDir.newDir 15⟩

theorem fresh_valid : fresh.Valid where
  blocks := (SefsBlocks.mount_invariant (SefsBlocks.writeSuperblock_layout (101 * 4096) true) 64).small
  inodes := ⟨fun _ => show 32766 < 2^32 by decide,by decide⟩
  bare := fun _ _ => rfl

def answers (index : Bool) : Env := ⟨true,true,some 0,true,index,fun _ => true,fun _ _ => true,true⟩

theorem fresh_inode (index : Bool) : TakesInode smallSb (answers index) fresh :=
  ⟨rfl,0,2,⟨by decide,by decide,fun k below => absurd below (Nat.not_lt_zero k)⟩,by decide,by decide⟩

theorem fresh_index : TakesIndex smallSb (answers true) fresh 0 5 :=
  ⟨rfl,rfl,rfl,⟨by decide,by decide +kernel,fun k below => absurd below (Nat.not_lt_zero k)⟩,by decide +kernel,by simp⟩

theorem fresh_enters : Enters smallSb (answers true) fresh.dir (fresh.blocks.take 0 5 1) :=
  ⟨⟨0,by decide⟩,⟨.inl rfl,fun k below => absurd below (Nat.not_lt_zero k.val)⟩,.inr ⟨rfl,rfl,fun _ => rfl,0,6,
    ⟨by decide,by decide +kernel,fun k below => absurd below (Nat.not_lt_zero k)⟩,by decide +kernel,by simp,by simp⟩⟩

theorem sefsCreate_dir_first : ∃ bno newInode, (sefsCreate smallSb (answers true) .reg [97] fresh).dir =
    SefsDir.sefsCreate ⟨true,fun _ _ => true,bno⟩ fresh.dir newInode [97] :=
  sefsCreate_dir (by decide) smallSb (answers true) .reg [97] fresh fresh_valid.bare (by decide)

theorem create_allOrNothing_first : SefsBlocks.mkfs false true (101 * 4096) = some smallSb ∧ fresh.Valid ∧
    AllOrNothing fresh [97] (sefsCreate smallSb (answers true) .reg [97] fresh) := by
  have clean : Clean smallSb (answers true) .reg fresh := .inr ⟨fresh_inode true,0,5,fresh_index,.inl fresh_enters⟩
  have made : SefsBlocks.mkfs false true (101 * 4096) = some smallSb := by decide
  have agrees := create_allOrNothing_iff false true (101 * 4096) smallSb made (by decide)
    (answers true) .reg [97] fresh fresh_valid
  refine ⟨made,fresh_valid,?_⟩
  rw [agrees]
  exact clean

theorem ents_pos : 0 < sefsDInfoEntMax := by decide
theorem blocks_pos : 0 < sefsDentBlocks := by decide
theorem slots_pos : 0 < 15 := by decide

def firstSlot : Slot 15 := ⟨⟨0,ents_pos⟩,⟨0,blocks_pos⟩,⟨0,slots_pos⟩⟩

def Outcome.bound : Outcome perBlock → Option (State perBlock × List (Nat × Nat))
  | .made s cleared => some (s,cleared)
  | _ => none

theorem made_of_bound (bound : o.bound = some (t,cleared)) : o = .made t cleared := by
  cases o with
  | made =>
    obtain ⟨rfl,rfl⟩ := Prod.mk.inj (some.inj bound)
    rfl
  | failed | aborted => cases bound

/-- The block that is to be the inode's index cannot be read: it stays taken, the inode's number is given back, and the name is
bound to it all the same. -/
theorem unallocated_inode_bound : ∃ t cleared, sefsCreate smallSb (answers false) .reg [97] fresh = .made t cleared ∧
    binding t.dir firstSlot = some ⟨2,[97]⟩ ∧ t.inodes.free 2 = true ∧
      fresh.blocks.free 5 = true ∧ t.blocks.free 5 = false ∧
    ¬ AllOrNothing fresh [97] (sefsCreate smallSb (answers false) .reg [97] fresh) := by
  have ran : (sefsCreate smallSb (answers false) .reg [97] fresh).bound.map (fun made =>
      (binding made.1.dir firstSlot,made.1.inodes.free 2,made.1.blocks.free 5)) = some
        (some ⟨2,[97]⟩,true,false) := by decide +kernel
  obtain ⟨⟨t,cleared⟩,bound,fields⟩ := map_eq_some_iff.mp ran
  obtain ⟨slot,inode,block⟩ : binding t.dir firstSlot = some ⟨2,[97]⟩ ∧ t.inodes.free 2 = true ∧
      t.blocks.free 5 = false := by
    simpa using fields
  rw [made_of_bound bound]
  refine ⟨t,cleared,rfl,slot,inode,by decide +kernel,block,?_⟩
  rintro ⟨ino,p,binds⟩
  have here : p = firstSlot := by
    by_contra other
    have same := binds.others firstSlot (Ne.symm other)
    rw [slot] at same
    cases same
  subst here
  have same := binds.bound
  rw [slot] at same
  obtain ⟨rfl,-⟩ := Dirent.mk.inj (some.inj same)
  exact absurd (inode.symm.trans binds.taken) (by decide)

end Oxbow.Daemon.SefsCreate
