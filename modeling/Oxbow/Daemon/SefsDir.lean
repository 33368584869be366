import Mathlib.Data.List.FinRange
import Oxbow.Lib.Run
import Oxbow.Lib.Tally

/-! A sefs directory: an index block whose entries each have eight blocks of slots, searched by name. A slot whose inode
number is zero is free; `sefs_remove_dirent` leaves the name in it. -/
namespace Oxbow.Daemon.SefsDir

open Oxbow.Lib Function

/-- The bytes of a name before its end. Names are shorter than `SEFS_NAME_MAX`, so that `strncpy` copies them and both
`strncmp` and `strcmp` tell whether they are equal. -/
abbrev Name := List UInt8

abbrev sefsDInfoEntMax : Nat := 204
abbrev sefsDentBlocks : Nat := 8

structure Dirent where
  ino : Nat
  name : Name
  deriving DecidableEq, Repr

structure DirBlock (perBlock : Nat) where
  nrFiles : Nat
  files : Fin perBlock → Dirent

structure DInfoEnt (perBlock : Nat) where
  bno : Nat
  nrFiles : Nat
  blocks : Fin sefsDentBlocks → DirBlock perBlock

structure Dir (perBlock : Nat) where
  nrFiles : Nat
  ents : Fin sefsDInfoEntMax → DInfoEnt perBlock

structure Env where
  info : Bool
  read : Fin sefsDInfoEntMax → Fin sefsDentBlocks → Bool
  bno : Nat

inductive Iget
  | null
  | abort
  | inode (ino : Nat)
  deriving DecidableEq, Repr

/-- `sefs_iget`: the mode of inode zero is zero, that of an inode in use is not. -/
def sefsIget (nrInodes ino : Nat) : Iget :=
  if nrInodes ≤ ino then .null else if ino = 0 then .abort else .inode ino

def nameAt (block : DirBlock perBlock) (name : Name) : Option (Fin perBlock) :=
  (List.finRange perBlock).find? fun fi => decide ((block.files fi).name = name)

inductive Lookup
  | eio
  | absent
  | abort
  | inode (ino : Nat)
  deriving DecidableEq, Repr

section

variable (nrInodes : Nat) (env : Env) (dir : Dir perBlock) (name : Name)

def lookupBlock (ei : Fin sefsDInfoEntMax) (bi : Fin sefsDentBlocks) : Option Lookup :=
  let block := (dir.ents ei).blocks bi
  if env.read ei bi = false then some .absent
  else if block.nrFiles = 0 then none
  else
    (nameAt block name).map fun fi =>
      match sefsIget nrInodes (block.files fi).ino with
      | .null => .absent
      | .abort => .abort
      | .inode ino => .inode ino

def lookupEnts : Option Lookup :=
  (List.finRange sefsDInfoEntMax).findSome? fun ei =>
    if (dir.ents ei).nrFiles = 0 then none
    else (List.finRange sefsDentBlocks).findSome? fun bi => lookupBlock nrInodes env dir name ei bi

def sefsLookup : Lookup :=
  if env.info = false then .eio
  else if dir.nrFiles = 0 then .absent
  else (lookupEnts nrInodes env dir name).getD .absent

end

def Dir.change (dir : Dir perBlock) (ei : Fin sefsDInfoEntMax) (bi : Fin sefsDentBlocks) (fi : Fin perBlock) (entry : Dirent)
    (count : Nat → Nat) : Dir perBlock :=
  let ent := dir.ents ei
  let block := ent.blocks bi
  { nrFiles := count dir.nrFiles
    ents := update dir.ents ei
      { ent with
        nrFiles := count ent.nrFiles
        blocks := update ent.blocks bi ⟨count block.nrFiles,update block.files fi entry⟩ } }

def scrubbed (perBlock : Nat) : DirBlock perBlock := ⟨0,fun _ => ⟨0,[]⟩⟩

def Dir.allocExt (dir : Dir perBlock) (ei : Fin sefsDInfoEntMax) (bno : Nat) : Dir perBlock :=
  {dir with ents := update dir.ents ei {dir.ents ei with bno, blocks := fun _ => scrubbed perBlock}}

/-- The failure path of `sefs_create`: the size it clears is that of an entry, so the counter of the next one is cleared
with the extent. -/
def Dir.freeExt (dir : Dir perBlock) (ei : Fin sefsDInfoEntMax) : Dir perBlock :=
  {dir with ents := fun k =>
    if k = ei then {dir.ents k with bno := 0} else if k.val = ei.val + 1 then {dir.ents k with nrFiles := 0} else dir.ents k}

inductive Create (perBlock : Nat)
  | failed (dir : Dir perBlock)
  | made (dir : Dir perBlock)
  | aborted

section

variable (env : Env) (dir : Dir perBlock)

def roomIn (ei : Fin sefsDInfoEntMax) : Option (Option (Fin sefsDentBlocks)) :=
  (List.finRange sefsDentBlocks).findSome? fun bi =>
    if env.read ei bi = false then some none
    else if ((dir.ents ei).blocks bi).nrFiles < perBlock then some (some bi)
    else none

def createIn (ei : Fin sefsDInfoEntMax) (alloc : Bool) (ino : Nat) (name : Name) : Create perBlock :=
  match roomIn env dir ei with
  | none => .failed dir
  | some none => .failed (if alloc then dir.freeExt ei else dir)
  | some (some bi) =>
    match (List.finRange perBlock).find? fun fi => decide ((((dir.ents ei).blocks bi).files fi).ino = 0) with
    | none => .failed dir
    | some fi => .made (dir.change ei bi fi ⟨ino,name⟩ (· + 1))

def sefsCreate (newInode : Option Nat) (name : Name) : Create perBlock :=
  if env.info = false then .failed dir
  else if dir.nrFiles ≥ perBlock * sefsDentBlocks * sefsDInfoEntMax then .failed dir
  else
    match newInode with
    | none => .failed dir
    | some ino =>
      match (List.finRange sefsDInfoEntMax).find? fun ei =>
        decide ((dir.ents ei).bno = 0 ∨ (dir.ents ei).nrFiles < perBlock * sefsDentBlocks) with
      | none => .failed dir
      | some ei =>
        if (dir.ents ei).bno = 0 then
          if env.bno = 0 then .failed dir
          else if ∀ bi, env.read ei bi = true then createIn env (dir.allocExt ei env.bno) ei true ino name
          else .aborted
        else createIn env dir ei false ino name

end

inductive Status
  | going
  | ended
  | aborted
  deriving DecidableEq, Repr

structure Removal (perBlock : Nat) where
  dir : Dir perBlock
  inode : Option Nat
  status : Status

def removeBlock (nrInodes : Nat) (env : Env) (name : Name) (ei : Fin sefsDInfoEntMax) (r : Removal perBlock)
    (bi : Fin sefsDentBlocks) : Removal perBlock :=
  match r.status with
  | .ended | .aborted => r
  | .going =>
    let block := (r.dir.ents ei).blocks bi
    if env.read ei bi = false then {r with status := .ended}
    else if block.nrFiles = 0 then r
    else
      match nameAt block name with
      | none => r
      | some fi =>
        match sefsIget nrInodes (block.files fi).ino with
        | .null => {r with inode := none, status := .ended}
        | .abort => {r with status := .aborted}
        | .inode ino => ⟨r.dir.change ei bi fi ⟨0,(block.files fi).name⟩ (· - 1),some ino,.going⟩

def removeEnt (nrInodes : Nat) (env : Env) (name : Name) (r : Removal perBlock) (ei : Fin sefsDInfoEntMax) : Removal perBlock :=
  match r.status with
  | .ended | .aborted => r
  | .going =>
    if (r.dir.ents ei).bno = 0 then {r with status := .ended}
    else if (r.dir.ents ei).nrFiles = 0 then r
    else (List.finRange sefsDentBlocks).foldl (removeBlock nrInodes env name ei) r

def sefsRemoveDirent (nrInodes : Nat) (env : Env) (dir : Dir perBlock) (name : Name) : Removal perBlock :=
  if env.info = false then ⟨dir,none,.ended⟩
  else (List.finRange sefsDInfoEntMax).foldl (removeEnt nrInodes env name) ⟨dir,none,.going⟩

inductive Act
  | create (env : Env) (newInode : Option Nat) (name : Name)
  | unlink (env : Env) (name : Name)
  | lookup (env : Env) (name : Name)

structure State (perBlock : Nat) where
  dir : Dir perBlock
  map : Name → Option Nat

def step (nrInodes : Nat) (s : State perBlock) : Act → Option (State perBlock)
  | .create env newInode name =>
    match sefsCreate env s.dir newInode name with
    | .failed dir => some {s with dir}
    | .made dir => some ⟨dir,update s.map name newInode⟩
    | .aborted => none
  | .unlink env name =>
    let removal := sefsRemoveDirent nrInodes env s.dir name
    if removal.status = .aborted then none
    else some ⟨removal.dir,if removal.inode.isSome then update s.map name none else s.map⟩
  | .lookup env name => if sefsLookup nrInodes env s.dir name = .abort then none else some s

def newDir (perBlock : Nat) : Dir perBlock := ⟨0,fun _ => ⟨0,0,fun _ => scrubbed perBlock⟩⟩

@[ext] structure Slot (perBlock : Nat) where
  ei : Fin sefsDInfoEntMax
  bi : Fin sefsDentBlocks
  fi : Fin perBlock
  deriving DecidableEq

def Dir.block (dir : Dir perBlock) (ei : Fin sefsDInfoEntMax) (bi : Fin sefsDentBlocks) : DirBlock perBlock :=
  (dir.ents ei).blocks bi

def Dir.slot (dir : Dir perBlock) (p : Slot perBlock) : Dirent := (dir.block p.ei p.bi).files p.fi

def Before (p q : Slot perBlock) : Prop := p.ei < q.ei ∨ p.ei = q.ei ∧ (p.bi < q.bi ∨ p.bi = q.bi ∧ p.fi < q.fi)

def live (entry : Dirent) : Nat := if entry.ino = 0 then 0 else 1

theorem live_used (used : entry.ino ≠ 0) : live entry = 1 := if_neg used
theorem live_free (free : entry.ino = 0) : live entry = 0 := if_pos free

theorem live_le (entry : Dirent) : live entry ≤ 1 := by
  rw [live]
  split <;> omega

variable {dir : Dir perBlock}
 

section

variable (dir : Dir perBlock) (p : Slot perBlock) (entry : Dirent) (count : Nat → Nat)

theorem block_change (ei : Fin sefsDInfoEntMax) (bi : Fin sefsDentBlocks) :
    (dir.change p.ei p.bi p.fi entry count).block ei bi =
      if ei = p.ei ∧ bi = p.bi then ⟨count (dir.block ei bi).nrFiles,update (dir.block ei bi).files p.fi entry⟩
      else dir.block ei bi := by
  simp only [Dir.block,Dir.change]
  by_cases sameEnt : ei = p.ei
  · subst sameEnt
    rw [update_self]
    by_cases sameBlock : bi = p.bi
    · subst sameBlock
      rw [if_pos ⟨rfl,rfl⟩]
      exact update_self ..
    · rw [if_neg fun both => sameBlock both.2]
      exact update_of_ne sameBlock ..
  · rw [if_neg fun both => sameEnt both.1,update_of_ne sameEnt]

theorem slot_change (q : Slot perBlock) :
    (dir.change p.ei p.bi p.fi entry count).slot q = if q = p then entry else dir.slot q := by
  rw [Dir.slot,block_change]
  by_cases here : q.ei = p.ei ∧ q.bi = p.bi
  · rw [if_pos here]
    by_cases same : q.fi = p.fi
    · have all : q = p := by
        cases p
        cases q
        simp_all
      rw [if_pos all,same]
      exact update_self ..
    · rw [if_neg (by rintro rfl; exact same rfl)]
      exact update_of_ne same ..
  · rw [if_neg here,if_neg (by rintro rfl; exact here ⟨rfl,rfl⟩),Dir.slot]

theorem bno_change (ei : Fin sefsDInfoEntMax) : ((dir.change p.ei p.bi p.fi entry count).ents ei).bno = (dir.ents ei).bno := by
  by_cases same : ei = p.ei
  · subst same
    simp [Dir.change]
  · simp [Dir.change,same]

end

section

variable (dir : Dir perBlock) (ei : Fin sefsDInfoEntMax) (bno : Nat)

theorem block_allocExt (k : Fin sefsDInfoEntMax) (bi : Fin sefsDentBlocks) :
    (dir.allocExt ei bno).block k bi = if k = ei then scrubbed perBlock else dir.block k bi := by
  simp only [Dir.block,Dir.allocExt]
  by_cases same : k = ei
  · subst same
    rw [update_self,if_pos rfl]
  · rw [update_of_ne same,if_neg same]

theorem slot_allocExt (q : Slot perBlock) : (dir.allocExt ei bno).slot q = if q.ei = ei then ⟨0,[]⟩ else dir.slot q := by
  rw [Dir.slot,block_allocExt]
  split <;> rfl

theorem bno_allocExt (k : Fin sefsDInfoEntMax) :
    ((dir.allocExt ei bno).ents k).bno = if k = ei then bno else (dir.ents k).bno := by
  simp only [Dir.allocExt]
  by_cases same : k = ei
  · subst same
    rw [update_self,if_pos rfl]
  · rw [update_of_ne same,if_neg same]

end

structure Counted (dir : Dir perBlock) : Prop where
  files : ∀ ei bi, (dir.block ei bi).nrFiles = tally live (dir.block ei bi).files
  blocks : ∀ ei, (dir.ents ei).nrFiles = tally DirBlock.nrFiles (dir.ents ei).blocks
  ents : dir.nrFiles = tally DInfoEnt.nrFiles dir.ents

namespace Counted

section

variable (counted : Counted dir)
include counted

theorem block_le (ei : Fin sefsDInfoEntMax) (bi : Fin sefsDentBlocks) : (dir.block ei bi).nrFiles ≤ (dir.ents ei).nrFiles := by
  rw [counted.blocks ei]
  exact le_tally DirBlock.nrFiles (dir.ents ei).blocks bi

theorem ent_le (ei : Fin sefsDInfoEntMax) : (dir.ents ei).nrFiles ≤ dir.nrFiles := by
  rw [counted.ents]
  exact le_tally DInfoEnt.nrFiles dir.ents ei

theorem slot_le (p : Slot perBlock) : live (dir.slot p) ≤ (dir.block p.ei p.bi).nrFiles := by
  rw [counted.files]
  exact le_tally live (dir.block p.ei p.bi).files p.fi

theorem exists_used (files : (dir.block ei bi).nrFiles ≠ 0) : ∃ fi, (dir.slot ⟨ei,bi,fi⟩).ino ≠ 0 := by
  rw [counted.files] at files
  obtain ⟨fi,positive⟩ := exists_of_tally_pos live (dir.block ei bi).files (Nat.pos_of_ne_zero files)
  exact ⟨fi,fun free => absurd positive (Nat.not_lt.mpr (live_free free).le)⟩

theorem block_full (full : perBlock ≤ (dir.block ei bi).nrFiles) (fi : Fin perBlock) :
    (dir.slot ⟨ei,bi,fi⟩).ino ≠ 0 := by
  intro free
  rw [counted.files] at full
  have each : ∀ fi, live ((dir.block ei bi).files fi) ≤ 1 := fun fi => live_le _
  have used := eq_of_le_tally live (dir.block ei bi).files each (by rwa [Fintype.card_fin,Nat.mul_one]) fi
  exact absurd ((live_free free).symm.trans used) (by decide)

theorem block_most (ei : Fin sefsDInfoEntMax) (bi : Fin sefsDentBlocks) : (dir.block ei bi).nrFiles ≤ perBlock := by
  rw [counted.files]
  have each : ∀ fi, live ((dir.block ei bi).files fi) ≤ 1 := fun fi => live_le _
  have most := tally_le live (dir.block ei bi).files each
  rwa [Fintype.card_fin,Nat.mul_one] at most

theorem ent_full (full : perBlock * sefsDentBlocks ≤ (dir.ents ei).nrFiles)
    (bi : Fin sefsDentBlocks) : perBlock ≤ (dir.block ei bi).nrFiles := by
  rw [counted.blocks] at full
  exact Nat.le_of_eq (eq_of_le_tally DirBlock.nrFiles (dir.ents ei).blocks (fun bi => counted.block_most ei bi)
    (by rwa [Fintype.card_fin,Nat.mul_comm]) bi).symm

theorem change (p : Slot perBlock) (entry : Dirent) (count : Nat → Nat)
    (adds : ∀ n, live (dir.slot p) ≤ n → count n + live (dir.slot p) = n + live entry) :
    Counted (dir.change p.ei p.bi p.fi entry count) := by
  have slot := counted.slot_le p
  have block := counted.block_le p.ei p.bi
  have ent := counted.ent_le p.ei
  refine ⟨fun ei bi => ?_,fun ei => ?_,?_⟩
  · rw [block_change]
    split
    next here =>
      obtain ⟨rfl,rfl⟩ := here
      have sum := tally_update live (dir.block p.ei p.bi).files p.fi entry
      have old : live ((dir.block p.ei p.bi).files p.fi) = live (dir.slot p) := rfl
      have new := adds _ slot
      rw [← counted.files] at sum
      simp only
      omega
    next => exact counted.files ei bi
  · by_cases here : ei = p.ei
    · subst here
      have sum := tally_update DirBlock.nrFiles (dir.ents p.ei).blocks p.bi
        ⟨count (dir.block p.ei p.bi).nrFiles,update (dir.block p.ei p.bi).files p.fi entry⟩
      have new := adds _ slot
      have new' := adds _ (slot.trans block)
      rw [← counted.blocks] at sum
      simp only [Dir.change,update_self]
      simp only [Dir.block] at sum new block
      omega
    · simp only [Dir.change,update_of_ne here]
      exact counted.blocks ei
  · have sum := tally_update DInfoEnt.nrFiles dir.ents p.ei ((dir.change p.ei p.bi p.fi entry count).ents p.ei)
    have new := adds _ (slot.trans block)
    have new' := adds _ ((slot.trans block).trans ent)
    rw [← counted.ents] at sum
    simp only [Dir.change,update_self] at sum ⊢
    omega

theorem allocExt (free : ∀ bi fi, (dir.slot ⟨ei,bi,fi⟩).ino = 0) : Counted (dir.allocExt ei bno) := by
  have blocks : ∀ bi, (dir.block ei bi).nrFiles = 0 := by
    intro bi
    rw [counted.files]
    exact tally_eq_zero live (dir.block ei bi).files fun fi => live_free (free bi fi)
  have bare : (dir.ents ei).nrFiles = 0 := by
    rw [counted.blocks]
    exact tally_eq_zero DirBlock.nrFiles (dir.ents ei).blocks blocks
  refine ⟨fun k bi => ?_,fun k => ?_,?_⟩
  · rw [block_allocExt]
    split
    next => exact (tally_eq_zero live _ fun _ => rfl).symm
    next => exact counted.files k bi
  · by_cases here : k = ei
    · subst here
      simp only [Dir.allocExt,update_self]
      rw [bare]
      exact (tally_eq_zero DirBlock.nrFiles _ fun _ => rfl).symm
    · simp only [Dir.allocExt,update_of_ne here]
      exact counted.blocks k
  · have sum := tally_update DInfoEnt.nrFiles dir.ents ei ⟨bno,(dir.ents ei).nrFiles,fun _ => scrubbed perBlock⟩
    rw [← counted.ents] at sum
    exact (Nat.add_right_cancel sum).symm

end

end Counted

end Oxbow.Daemon.SefsDir
