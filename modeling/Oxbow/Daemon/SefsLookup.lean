import Oxbow.Daemon.SefsBlocks
import Oxbow.Daemon.SefsExtents

/-! What a lookup leaves behind: `sefs_get_block` with nothing to create, on the extent chain of an inode in the buffer cache
and the bitmap that `get_next_ei_block` takes the next block of the chain from. -/
namespace Oxbow.Daemon.SefsLookup

open Function Oxbow.Lib
open SefsBlocks (SbInfo Fs getFreeBlocks bitmapBlkNr)
open SefsExtents (EiBlock SefsExtent Extents Buffers Disk sefsMaxExtents pageSize extSearch scrubbed sbBread linkNext chainFrom)

structure State where
  fs : Fs
  eiBlock : Nat
  bufs : Buffers
  privateList : List Nat

structure Env extends Disk where
  /-- The bitmap block can be read. -/
  bitmap : Bool

def markBufferDirtyInode (privateList : List Nat) (bno : Nat) : List Nat :=
  if bno ∈ privateList then privateList else privateList ++ [bno]

def getNextEiBlock (sb : SbInfo) (env : Env) (s : State) (bno : Nat) : State × Option Nat :=
  let index := s.bufs.data bno
  if index.next ≠ 0 then
    match sbBread env.toDisk s.bufs index.next with
    | none => (s,none)
    | some bufs => ({ s with bufs },some index.next)
  else
    let ext := index.extents (sefsMaxExtents - 1)
    -- The check of the length is never met by one block.
    let got := (getFreeBlocks sb s.fs 1 env.bitmap).getD (0,s.fs)
    if got.1 = 0 then ({ s with fs := got.2 },none)
    else
      (⟨got.2,s.eiBlock,⟨linkNext s.bufs.data bno got.1 (u32 (ext.iblock + ext.len)),s.bufs.uptodate⟩,
        markBufferDirtyInode (markBufferDirtyInode s.privateList bno) got.1⟩,some got.1)

def search (sb : SbInfo) (env : Env) (iblock : Nat) : (rounds : Nat) → State → Nat → Option (State × Option (Nat × Nat))
  | 0,_,_ => none
  | rounds + 1,s,bno =>
    match extSearch (s.bufs.data bno).extents iblock with
    | some ei => some (s,some (bno,ei))
    | none =>
      match getNextEiBlock sb env s bno with
      | (t,none) => some (t,none)
      | (t,some bno) => search sb env iblock rounds t bno

/-- The blocks that the bitmap has bits for; a chain that ends has no more. -/
def nrBlocks (sb : SbInfo) : Nat := sb.nrBfreeBlocks * bitmapBlkNr

def getBlock (sb : SbInfo) (sefsMaxFilesize : Nat) (env : Env) (s : State) (iblock : Nat) :
    Option (State × Option SefsExtent) :=
  if iblock > (sefsMaxFilesize - 1) / pageSize then some (s,none)
  else
    match sbBread env.toDisk s.bufs s.eiBlock with
    | none => some (s,none)
    | some bufs =>
      (search sb env (u32 iblock) (nrBlocks sb + 1) { s with bufs } s.eiBlock).map fun r =>
        (r.1,r.2.bind fun place =>
          let ext := (r.1.bufs.data place.1).extents place.2
          if (iblock = 0 ∧ ext.len ≠ 0) ∨ ext.bno ≠ 0 then some ext else none)

/-- The blocks that the next pointers lead to after the first. -/
def State.rest (sb : SbInfo) (s : State) : List Nat := chainFrom s.bufs.data (nrBlocks sb) (s.bufs.data s.eiBlock).next

/-- All is as before, but for the flags of the buffers that have been read. -/
def Unchanged (s t : State) : Prop :=
  t.fs = s.fs ∧ t.eiBlock = s.eiBlock ∧ t.bufs.data = s.bufs.data ∧ t.privateList = s.privateList

def Answers (index : Extents) (iblock : Nat) : Prop :=
  ∃ ei < sefsMaxExtents, (index ei).bno = 0 ∨ (index ei).iblock ≤ iblock ∧
    iblock < u32 ((index ei).iblock + (index ei).len)

/-- No bitmap block can be read or has a free block left. -/
def NothingFree (sb : SbInfo) (env : Env) (fs : Fs) : Prop :=
  env.bitmap = false ∨ ∀ i < sb.nrBfreeBlocks, fs.bfreeBitLeft i = 0

/-- The walk along the chain leaves all as it is: no block is read whose buffer is neither up to date nor what the disk
holds, and the walk ends at a block that cannot be read or has a slot for the index, or finds no free block after the last. -/
def Quiet (sb : SbInfo) (env : Env) (s : State) (iblock : Nat) : List Nat → Prop
  | [] => NothingFree sb env s.fs
  | bno :: rest =>
    s.bufs.uptodate bno = false ∧ env.bread bno = false ∨
    (s.bufs.uptodate bno = true ∨ env.disk bno = s.bufs.data bno) ∧
      (Answers (s.bufs.data bno).extents iblock ∨ Quiet sb env s iblock rest)

theorem extSearch_none_iff (index : Extents) (iblock : Nat) : extSearch index iblock = none ↔ ¬ Answers index iblock := by
  simp [extSearch,Answers,List.find?_eq_none]

theorem scrubbed_answers (last iblock : Nat) : Answers (scrubbed last) iblock := ⟨0,by decide,.inl rfl⟩

theorem sub32_ne (positive : 0 < len) (small : len < 2^32) : sub32 n len ≠ n := by
  simp only [sub32,u32]
  omega

/-- A request that some counter allows changes the counters, whether a free block is found or not. -/
theorem getFreeBlocks_one (sb : SbInfo) (env : Env) (fs : Fs) :
    (getFreeBlocks sb fs 1 env.bitmap = some (0,fs) ∧ NothingFree sb env fs) ∨
    (∃ bno after, getFreeBlocks sb fs 1 env.bitmap = some (bno,after) ∧ after ≠ fs ∧ ¬ NothingFree sb env fs) := by
  rw [getFreeBlocks,if_neg (by decide),NothingFree]
  split
  next nowhere =>
    refine .inl ⟨rfl,.inr fun i below => ?_⟩
    simpa using List.find?_eq_none.mp nowhere i (List.mem_range.mpr below)
  next i found =>
    obtain ⟨allows,member,-⟩ := List.find?_range_eq_some.mp found
    cases env.bitmap with
    | false => exact .inl ⟨rfl,.inl rfl⟩
    | true =>
      refine .inr ⟨_,_,rfl,fun same => ?_,?_⟩
      · exact sub32_ne (by decide) (by decide) (congrArg Fs.nrFreeBlocks same)
      · rintro (unread | empty)
        · cases unread
        · have none := empty i (List.mem_range.mp member)
          simp [none] at allows

theorem sbBread_cases (env : Disk) (bufs : Buffers) (bno : Nat) :
    bufs.uptodate bno = true ∧ sbBread env bufs bno = some bufs ∨
    bufs.uptodate bno = false ∧ (env.bread bno = false ∧ sbBread env bufs bno = none ∨
      env.bread bno = true ∧
        sbBread env bufs bno = some ⟨update bufs.data bno (env.disk bno),update bufs.uptodate bno true⟩) := by
  rw [sbBread]
  cases bufs.uptodate bno <;> cases env.bread bno <;> simp

theorem getNextEiBlock_linked (linked : (s.bufs.data bno).next ≠ 0) :
    getNextEiBlock sb env s bno = match sbBread env.toDisk s.bufs (s.bufs.data bno).next with
      | none => (s,none)
      | some bufs => ({ s with bufs },some (s.bufs.data bno).next) := if_pos linked

/-- At the end of the chain: nothing is free, or the counters change, and a block that is reached has a slot for everything. -/
theorem getNextEiBlock_end (sb : SbInfo) (env : Env) (ends : (s.bufs.data bno).next = 0) :
    (NothingFree sb env s.fs ∧ getNextEiBlock sb env s bno = (s,none)) ∨
    (¬ NothingFree sb env s.fs ∧ ∃ t, t.fs ≠ s.fs ∧ (getNextEiBlock sb env s bno = (t,none) ∨
      ∃ q, getNextEiBlock sb env s bno = (t,some q) ∧ ∀ iblock, Answers (t.bufs.data q).extents iblock)) := by
  rw [getNextEiBlock,if_neg (not_not_intro ends)]
  rcases getFreeBlocks_one sb env s.fs with ⟨got,free⟩ | ⟨bno,after,got,changed,free⟩
  · rw [got]
    exact .inl ⟨free,rfl⟩
  · rw [got,Option.getD_some]
    refine .inr ⟨free,?_⟩
    dsimp only
    split
    · exact ⟨_,changed,.inl rfl⟩
    · refine ⟨_,changed,.inr ⟨_,rfl,fun iblock => ?_⟩⟩
      dsimp only
      rw [linkNext,update_self]
      exact scrubbed_answers _ iblock

theorem search_answers (sb : SbInfo) (env : Env) (rounds : Nat) (answers : Answers (s.bufs.data bno).extents iblock) :
    ∃ ei, search sb env iblock (rounds + 1) s bno = some (s,some (bno,ei)) := by
  rw [search]
  split
  next ei _ => exact ⟨ei,rfl⟩
  next none => exact absurd answers ((extSearch_none_iff _ _).mp none)

/-- A search that takes no block leaves the buffers alone that are up to date. -/
theorem search_keeps (searched : search sb env iblock rounds s bno = some (t,found)) (current : s.bufs.uptodate c = true) :
    t.fs ≠ s.fs ∨ t.bufs.data c = s.bufs.data c := by
  induction rounds generalizing s bno with
  | zero => exact nomatch searched
  | succ rounds ih =>
    by_cases answers : Answers (s.bufs.data bno).extents iblock
    · obtain ⟨ei,here⟩ := search_answers sb env rounds answers
      obtain ⟨rfl,-⟩ := Prod.mk.inj (Option.some.inj (here.symm.trans searched))
      exact .inr rfl
    rw [search,(extSearch_none_iff _ _).mpr answers] at searched
    by_cases ends : (s.bufs.data bno).next = 0
    · rcases getNextEiBlock_end sb env ends with ⟨-,next⟩ | ⟨-,u,changed,next | ⟨q,next,room⟩⟩
      · rw [next] at searched
        obtain ⟨rfl,-⟩ := Prod.mk.inj (Option.some.inj searched)
        exact .inr rfl
      · rw [next] at searched
        obtain ⟨rfl,-⟩ := Prod.mk.inj (Option.some.inj searched)
        exact .inl changed
      · rw [next] at searched
        cases rounds with
        | zero => exact nomatch searched
        | succ rounds =>
          obtain ⟨ei,here⟩ := search_answers sb env rounds (room iblock)
          obtain ⟨rfl,-⟩ := Prod.mk.inj (Option.some.inj (here.symm.trans searched))
          exact .inl changed
    · rw [getNextEiBlock_linked ends] at searched
      rcases sbBread_cases env.toDisk s.bufs (s.bufs.data bno).next with ⟨-,read⟩ | ⟨old,⟨-,read⟩ | ⟨-,read⟩⟩
      · rw [read] at searched
        exact ih searched current
      · rw [read] at searched
        obtain ⟨rfl,-⟩ := Prod.mk.inj (Option.some.inj searched)
        exact .inr rfl
      · have other : c ≠ (s.bufs.data bno).next := by
          rintro rfl
          exact nomatch old.symm.trans current
        rw [read] at searched
        refine (ih searched ((update_of_ne other ..).trans current)).imp_right fun kept => ?_
        exact kept.trans (update_of_ne other ..)

theorem Unchanged.refl (s : State) : Unchanged s s := ⟨rfl,rfl,rfl,rfl⟩

/-- What has been read as it was does not count for the rest of the walk. -/
theorem Quiet.read (bread : env.bread bno = true) (same : env.disk bno = s.bufs.data bno) (rest : List Nat) :
    Quiet sb env { s with bufs := ⟨s.bufs.data,update s.bufs.uptodate bno true⟩ } iblock rest ↔
      Quiet sb env s iblock rest := by
  induction rest with
  | nil => exact Iff.rfl
  | cons c rest ih =>
    simp only [Quiet,ih]
    by_cases here : c = bno
    · simp [here,bread,same]
    · rw [update_of_ne here]

/-- Reading a block of the chain, and what follows for the walk from what follows for the search. -/
theorem read_unchanged_iff
    (later : ∀ s : State, (chainFrom s.bufs.data rounds (s.bufs.data c).next).length < rounds →
      ((∃ t found, search sb env iblock (rounds + 1) s c = some (t,found) ∧ Unchanged s t) ↔
        Answers (s.bufs.data c).extents iblock ∨
          Quiet sb env s iblock (chainFrom s.bufs.data rounds (s.bufs.data c).next)))
    (ends : (chainFrom s.bufs.data rounds (s.bufs.data c).next).length < rounds) :
    (∃ t found, (match sbBread env.toDisk s.bufs c with
        | none => some (s,none)
        | some bufs => search sb env iblock (rounds + 1) { s with bufs } c) = some (t,found) ∧ Unchanged s t) ↔
      Quiet sb env s iblock (c :: chainFrom s.bufs.data rounds (s.bufs.data c).next) := by
  rw [Quiet]
  rcases sbBread_cases env.toDisk s.bufs c with ⟨current,read⟩ | ⟨old,⟨unread,read⟩ | ⟨bread,read⟩⟩
  · rw [read]
    simp only [current,Bool.true_eq_false,false_and,false_or,true_or,true_and]
    exact later s ends
  · rw [read]
    exact iff_of_true ⟨s,none,rfl,.refl s⟩ (.inl ⟨old,unread⟩)
  · rw [read]
    by_cases same : env.disk c = s.bufs.data c
    · simp only [same,update_eq_self,bread,Bool.true_eq_false,and_false,false_or,or_true,true_and]
      rw [← Quiet.read bread same]
      exact later { s with bufs := ⟨s.bufs.data,update s.bufs.uptodate c true⟩ } ends
    · refine iff_of_false ?_ (by simp [old,bread,same])
      rintro ⟨t,found,done,fs,-,data,-⟩
      rcases search_keeps done (update_self ..) with changed | kept
      · exact changed fs
      · exact same ((congrFun data c).symm.trans (kept.trans (update_self ..))).symm

/-- The search returns with all as it was exactly if its walk is quiet. -/
theorem search_unchanged_iff (rounds : Nat) (s : State) (bno : Nat)
    (ends : (chainFrom s.bufs.data rounds (s.bufs.data bno).next).length < rounds) :
    (∃ t found, search sb env iblock (rounds + 1) s bno = some (t,found) ∧ Unchanged s t) ↔
      Answers (s.bufs.data bno).extents iblock ∨
        Quiet sb env s iblock (chainFrom s.bufs.data rounds (s.bufs.data bno).next) := by
  induction rounds generalizing s bno with
  | zero => exact absurd ends (Nat.not_lt_zero _)
  | succ rounds ih =>
    by_cases answers : Answers (s.bufs.data bno).extents iblock
    · obtain ⟨ei,here⟩ := search_answers sb env (rounds + 1) answers
      exact iff_of_true ⟨s,_,here,.refl s⟩ (.inl answers)
    rw [search,(extSearch_none_iff _ _).mpr answers,or_iff_right answers]
    rw [chainFrom] at ends ⊢
    by_cases last : (s.bufs.data bno).next = 0
    · rw [if_pos last]
      rcases getNextEiBlock_end sb env last with ⟨free,next⟩ | ⟨free,t,changed,next | ⟨q,next,room⟩⟩
      · rw [next]
        exact iff_of_true ⟨s,none,rfl,.refl s⟩ free
      · rw [next]
        refine iff_of_false ?_ free
        rintro ⟨_,_,⟨⟩,same,-⟩
        exact changed same
      · rw [next]
        obtain ⟨ei,here⟩ := search_answers sb env rounds (room iblock)
        refine iff_of_false ?_ free
        rintro ⟨u,found,done,same,-⟩
        obtain ⟨rfl,-⟩ := Prod.mk.inj (Option.some.inj (here.symm.trans done))
        exact changed same
    · rw [if_neg last] at ends ⊢
      rw [← read_unchanged_iff (fun s => ih s _) (Nat.lt_of_succ_lt_succ ends),getNextEiBlock_linked last]
      cases sbBread env.toDisk s.bufs (s.bufs.data bno).next <;> rfl

/-- A lookup returns and leaves the bitmap, the counters, the chain and the inode alone exactly if it is refused or its walk
along the chain is quiet. -/
theorem lookup_unchanged_iff (sb : SbInfo) (sefsMaxFilesize : Nat) (env : Env) (s : State) (iblock : Nat)
    (ends : (s.rest sb).length < nrBlocks sb) :
    (∃ t be, getBlock sb sefsMaxFilesize env s iblock = some (t,be) ∧ Unchanged s t) ↔
      (sefsMaxFilesize - 1) / pageSize < iblock ∨ Quiet sb env s (u32 iblock) (s.eiBlock :: s.rest sb) := by
  rw [getBlock]
  split
  next big => exact iff_of_true ⟨s,none,rfl,.refl s⟩ (.inl big)
  next small =>
    rw [or_iff_right small,State.rest,← read_unchanged_iff (fun s => search_unchanged_iff _ s _) ends]
    cases sbBread env.toDisk s.bufs s.eiBlock with
    | none => simp
    | some bufs =>
      rcases search sb env (u32 iblock) (nrBlocks sb + 1) { s with bufs } s.eiBlock with - | ⟨t,found⟩ <;> simp

/-! The lookup of the extent map alone, with the same answers. -/

def chainEnv (sb : SbInfo) (env : Env) (fs : Fs) : SefsExtents.Env where
  toDisk := env.toDisk
  extentBno _ _ := 0
  nextBno _ := ((getFreeBlocks sb fs 1 env.bitmap).getD (0,fs)).1

theorem getNextEiBlock_chain (sb : SbInfo) (env : Env) (s : State) (bno : Nat) :
    SefsExtents.getNextEiBlock (chainEnv sb env s.fs) s.bufs bno =
      ((getNextEiBlock sb env s bno).1.bufs,(getNextEiBlock sb env s bno).2) := by
  rw [SefsExtents.getNextEiBlock,getNextEiBlock]
  by_cases linked : (s.bufs.data bno).next ≠ 0
  · rw [if_pos linked,if_pos linked]
    show (match sbBread env.toDisk _ _ with | none => _ | some _ => _) = _
    cases sbBread env.toDisk s.bufs (s.bufs.data bno).next <;> rfl
  · rw [if_neg linked,if_neg linked]
    by_cases full : ((getFreeBlocks sb s.fs 1 env.bitmap).getD (0,s.fs)).1 = 0
    · rw [if_pos full,if_pos (show (chainEnv sb env s.fs).nextBno bno = 0 from full)]
    · rw [if_neg full,if_neg (show ¬ (chainEnv sb env s.fs).nextBno bno = 0 from full)]
      rfl

theorem search_chain (sb : SbInfo) (env : Env) (iblock rounds : Nat) (s : State) (bno : Nat) :
    (search sb env iblock rounds s bno).map (fun r => (r.1.bufs,r.2)) =
      SefsExtents.search (chainEnv sb env s.fs) iblock rounds s.bufs bno := by
  induction rounds generalizing s bno with
  | zero => rfl
  | succ rounds ih =>
    rw [search,SefsExtents.search,getNextEiBlock_chain]
    cases here : extSearch (s.bufs.data bno).extents iblock with
    | some ei => rfl
    | none =>
      by_cases ends : (s.bufs.data bno).next = 0
      · rcases getNextEiBlock_end sb env ends with ⟨-,next⟩ | ⟨-,t,-,next | ⟨q,next,room⟩⟩
        · rw [next]
          rfl
        · rw [next]
          rfl
        · rw [next]
          cases rounds with
          | zero => rfl
          | succ rounds =>
            dsimp only
            rw [search,SefsExtents.search]
            cases there : extSearch (t.bufs.data q).extents iblock with
            | some ei => rfl
            | none => exact absurd (room iblock) ((extSearch_none_iff _ _).mp there)
      · rw [getNextEiBlock_linked ends]
        cases sbBread env.toDisk s.bufs (s.bufs.data bno).next with
        | none => rfl
        | some bufs => exact ih { s with bufs } _

/-- The lookup that calls the allocator is that of the extent map with the answers given. -/
theorem getBlock_chain (sb : SbInfo) (sefsMaxFilesize : Nat) (env : Env) (s : State) (iblock : Nat) :
    (getBlock sb sefsMaxFilesize env s iblock).map (fun r => (r.1.bufs,r.2)) =
      SefsExtents.getBlock ⟨nrBlocks sb,sefsMaxFilesize⟩ (chainEnv sb env s.fs) s.bufs s.eiBlock iblock 0 := by
  rw [getBlock,SefsExtents.getBlock]
  split
  · rfl
  · show _ = match sbBread env.toDisk s.bufs s.eiBlock with | none => _ | some _ => _
    cases sbBread env.toDisk s.bufs s.eiBlock with
    | none => rfl
    | some bufs =>
      have found := search_chain sb env (u32 iblock) (nrBlocks sb + 1) { s with bufs } s.eiBlock
      dsimp only
      rw [SefsExtents.Volume.rounds,← found]
      rcases search sb env (u32 iblock) (nrBlocks sb + 1) { s with bufs } s.eiBlock with - | ⟨t,- | ⟨bno,ei⟩⟩
      · rfl
      · rfl
      · dsimp only [Option.map_some,Option.bind_some,SefsExtents.getBlockAt]
        rw [if_pos rfl]
        split <;> rfl

def small : SbInfo := SefsBlocks.writeSuperblock (101 * 4096) true

def full : State :=
  ⟨(SefsBlocks.mount 64 small).fs,4,⟨fun _ => ⟨0,SefsExtents.largest sefsMaxExtents⟩,fun bno => decide (bno = 4)⟩,[]⟩

def willing : Env := ⟨⟨fun _ => true,fun _ => ⟨0,scrubbed 0⟩⟩,true⟩

/-- A lookup in the first extent. -/
theorem lookup_unchanged_mapped : (full.rest small).length < nrBlocks small ∧
    ∃ t be, getBlock small (2^43) willing full 5 = some (t,be) ∧ Unchanged full t :=
  ⟨by decide,(lookup_unchanged_iff small (2^43) willing full 5 (by decide)).mpr
    (.inr (.inr ⟨.inl rfl,.inl ⟨0,by decide,.inr (by decide)⟩⟩))⟩

/-- A lookup past the extents of a full chain finds nothing, takes a block from the bitmap and puts it on the chain. -/
theorem lookup_allocates : SefsBlocks.mkfs false true (101 * 4096) = some small ∧
    ∃ t, getBlock small (2^43) willing full 9568256 = some (t,none) ∧
      (full.bufs.data 4).next = 0 ∧ (t.bufs.data 4).next = 5 ∧ full.fs.free 5 = true ∧ t.fs.free 5 = false ∧
      full.fs.nrFreeBlocks = 56 ∧ t.fs.nrFreeBlocks = 55 ∧ t.privateList = [4,5] := by
  have got : (getFreeBlocks small full.fs 1 willing.bitmap).map (fun got => (got.1,got.2.free 5,got.2.nrFreeBlocks)) =
      some (5,false,55) := by decide +kernel
  obtain ⟨⟨bno,fs⟩,took,fields⟩ := Option.map_eq_some_iff.mp got
  obtain ⟨rfl,used,left⟩ : bno = 5 ∧ fs.free 5 = false ∧ fs.nrFreeBlocks = 55 := by simpa using fields
  have last : (full.bufs.data 4).extents (sefsMaxExtents - 1) = ⟨9535588,9535488,32768⟩ := by decide
  have next : getNextEiBlock small willing full 4 =
      (⟨fs,4,⟨linkNext full.bufs.data 4 5 9568256,full.bufs.uptodate⟩,[4,5]⟩,some 5) := by
    rw [getNextEiBlock,if_neg (by decide),took,last]
    rfl
  have silent : extSearch (full.bufs.data 4).extents 9568256 = none := SefsExtents.largest_full (by decide)
  have slot : extSearch (scrubbed 9568256) 9568256 = some 0 := by decide
  have found : search small willing 9568256 (nrBlocks small + 1) full 4 =
      some (⟨fs,4,⟨linkNext full.bufs.data 4 5 9568256,full.bufs.uptodate⟩,[4,5]⟩,some (5,0)) := by
    rw [search,silent]
    rw [next]
    show search small willing 9568256 (32767 + 1) _ 5 = _
    rw [search,show ((linkNext full.bufs.data 4 5 9568256) 5).extents = scrubbed 9568256 from rfl,slot]
  refine ⟨by decide,⟨fs,4,⟨linkNext full.bufs.data 4 5 9568256,full.bufs.uptodate⟩,[4,5]⟩,?_,rfl,rfl,
    by decide,used,rfl,left,rfl⟩
  rw [getBlock,if_neg (by decide),u32_of_lt (by decide)]
  show (search small willing 9568256 (nrBlocks small + 1) full 4).map _ = _
  rw [found]
  rfl

end Oxbow.Daemon.SefsLookup
