import Oxbow.Daemon.DirtyBitsExact
import Oxbow.Daemon.Readahead
import Oxbow.Daemon.StageTx

/-! `sync_file_data` of `fs/sync.c`, the data of a file without a journal: the dirty pages are gathered and put into BIOs as
their runs and extents come, and the pages are unlocked from the same list of runs. -/
namespace Oxbow.Daemon.SyncData

open Oxbow.Lib Oxbow.Lib.BitRun Oxbow.Lib.ByteMap Oxbow.Lib.Loop Oxbow.Daemon.DirtyBits List Option
open Stage (BufferExtent ExtentMap IrdNode rangeDirtyEntMax)
open Readahead (bioMaxVecs)

structure Bio where
  biStart : Nat
  vecs : List Nat
  deriving DecidableEq, Repr

def Bio.writes (bio : Bio) : List (Nat × Nat) := bio.vecs.mapIdx fun k page => (bio.biStart + k,page)

structure Bios where
  bio : Option Bio
  submitted : List Bio

def addBvec (start page : Nat) (b : Bios) : Bios :=
  let bio := b.bio.getD ⟨start,[]⟩
  let bio := { bio with vecs := bio.vecs ++ [page] }
  if bio.vecs.length = bioMaxVecs then ⟨none,b.submitted ++ [bio]⟩ else ⟨some bio,b.submitted⟩

def addPages (be : BufferExtent) : Nat → Nat → Bios → Bios
  | _, 0, b => b
  | start, cnt + 1, b => addPages be (start + 1) cnt (addBvec (be.lba + start - be.iblock) start b)

def syncRun (m : ExtentMap) : Nat → Nat → Nat → BufferExtent → Bios → Option Bios
  | 0, _, _, _, _ => none
  | rounds + 1, start, cnt, be, b =>
    if start + cnt ≤ be.iblock + be.nr then some (addPages be start cnt b)
    else if start < be.iblock + be.nr then
      let tmp := be.iblock + be.nr - start
      syncRun m rounds (start + tmp) (cnt - tmp) (m.getBlocks (start + tmp)) (addPages be start tmp b)
    else syncRun m rounds start cnt (m.getBlocks start) b

/-- A run is reset when its pages are in a BIO. -/
def syncEntries (m : ExtentMap) : List (Nat × Int) → Bios → Option (List (Nat × Int) × Bios)
  | [], b => some ([],b)
  | (start,nr) :: rest, b =>
    if nr = 0 then (syncEntries m rest b).map fun out => ((start,nr) :: out.1,out.2)
    else
      (syncRun m nr.toNat start nr.toNat (m.getBlocks start) b).bind fun b =>
        (syncEntries m rest b).map fun out => ((0,0) :: out.1,out.2)

def ends (next : List IrdNode) : Bool := next.head?.all fun node => node.dirtyPages.isEmpty

def syncNodes (m : ExtentMap) : List IrdNode → Bios → Option (List IrdNode × Bios)
  | [], b => some ([],b)
  | node :: next, b =>
    (syncEntries m node.dirtyPages b).bind fun out =>
      if ends next then some ({ node with dirtyPages := out.1 } :: next,out.2)
      else (syncNodes m next out.2).map fun later => ({ node with dirtyPages := out.1 } :: later.1,later.2)

def inodeUnlockPagebit (s : Inode) (pgIdx : Nat) : Inode :=
  { s with
    dlBmap := Function.update s.dlBmap (pgIdx / nrPagesInPeb)
      (clearBit (s.dlBmap (pgIdx / nrPagesInPeb)) (pgIdx % nrPagesInPeb / bitsInByte + lockbitStartIndex) (pgIdx % bitsInByte)) }

/-- Both loops count with the same variable: after the pages of a run the entries are gone on with behind their number. -/
def unlockEntry (node : IrdNode) (pos : Nat × Inode) : Option (Nat × Inode) :=
  node.dirtyPages[pos.1]?.map fun run =>
    if run.2 = 0 then (pos.1 + 1,pos.2)
    else (run.2.toNat + 1,(List.range run.2.toNat).foldl (fun s i => inodeUnlockPagebit s (run.1 + i)) pos.2)

def unlockPagesBatch (rounds : Nat) : List IrdNode → Inode → Option Inode
  | [], s => some s
  | node :: next, s =>
    (whileLoop (fun pos : Nat × Inode => pos.1 < node.dirtyPages.length) (unlockEntry node) rounds (0,s)).bind fun out =>
      if ends next then some out.2 else unlockPagesBatch rounds next out.2

theorem packed_first : Packed [⟨[],0⟩] := .last _ (Nat.zero_le _)

def freeIrdExceptFirst (l : DirtyList) : DirtyList := ⟨[⟨[],0⟩],packed_first,l.tail⟩

def Bios.finish (b : Bios) : List Bio := b.submitted ++ b.bio.toList.filter (·.vecs ≠ [])

def syncGathered (m : ExtentMap) (rounds : Nat) (s : Inode) : Option (Inode × List Bio) :=
  (syncNodes m s.lists.iStgDirty.nodes ⟨none,[]⟩).bind fun out =>
    (unlockPagesBatch rounds out.1 s).map fun t =>
      ({ t with lists := { t.lists with iStgDirty := freeIrdExceptFirst t.lists.iStgDirty } },out.2.finish)

/-- `rounds` bounds the loops of `unlock_pages_batch`. -/
def syncFileData (m : ExtentMap) (rounds : Nat) (s : Inode) : Option (Inode × List Bio) :=
  syncGathered m rounds (inodeGatherDirtyPagebits .staging s)

def pages (s : Inode) : List Nat := s.lists.iStgDirty.dirtyPages.flatMap fun run => spread (run.1,run.2.toNat)

/-- Every page of the list is written once, to its block, and nothing else; the lock bits of these pages, and no others, are
cleared. -/
structure Synced (m : ExtentMap) (s t : Inode) (bios : List Bio) : Prop where
  placed : bios.flatMap Bio.writes = (pages s).map fun p => (m.block p,p)
  unlocked : ∀ p, t.lockBit p = (s.lockBit p && decide (p ∉ pages s))

/-- The pages of a BIO have consecutive blocks. -/
def Consecutive (m : ExtentMap) (ps : List Nat) : Prop :=
  ∀ i p q, ps[i]? = some p → ps[i + 1]? = some q → (i + 1) % bioMaxVecs ≠ 0 → m.block q = m.block p + 1

section

def addPage (m : ExtentMap) (b : Bios) (p : Nat) : Bios := addBvec (m.block p) p b

theorem addPages_eq (b : Bios) (maps : ∀ j < cnt, be.lba + (start + j) - be.iblock = m.block (start + j)) :
    addPages be start cnt b = (spread (start,cnt)).foldl (addPage m) b := by
  induction cnt generalizing start b with
  | zero => rfl
  | succ cnt ih =>
    have here := maps 0 (Nat.succ_pos cnt)
    have later : ∀ j < cnt, be.lba + (start + 1 + j) - be.iblock = m.block (start + 1 + j) := by
      intro j below
      have moved := maps (j + 1) (by omega)
      rwa [show start + (j + 1) = start + 1 + j by omega] at moved
    have shift : (start + ·) ∘ Nat.succ = (start + 1 + ·) := by
      funext j
      simp only [Function.comp_apply]
      omega
    rw [Nat.add_zero] at here
    rw [addPages,ih _ later,spread,spread,List.range_succ_eq_map,List.map_cons,List.map_map,shift,List.foldl_cons,addPage,here]
    rfl

theorem extent_maps (m : ExtentMap) (lower : (m.getBlocks p).iblock ≤ q)
    (upper : q < (m.getBlocks p).iblock + (m.getBlocks p).nr) :
    (m.getBlocks p).lba + q - (m.getBlocks p).iblock = m.block q := by
  rw [m.maps p q lower upper]
  omega

theorem syncRun_eq (m : ExtentMap) (b : Bios) (some : 0 < cnt) (enough : cnt ≤ rounds) :
    syncRun m rounds start cnt (m.getBlocks start) b = .some ((spread (start,cnt)).foldl (addPage m) b) := by
  induction rounds generalizing start cnt b with
  | zero => omega
  | succ rounds ih =>
    obtain ⟨lower,upper⟩ := m.contains start
    rw [syncRun]
    by_cases inside : start + cnt ≤ (m.getBlocks start).iblock + (m.getBlocks start).nr
    · rw [if_pos inside,addPages_eq b fun j below => extent_maps m (by omega) (by omega)]
    · rw [if_neg inside,if_pos upper]
      generalize extent : (m.getBlocks start).iblock + (m.getBlocks start).nr - start = tmp
      have parts : List.range cnt = List.range tmp ++ (List.range (cnt - tmp)).map (tmp + ·) := by
        rw [← range_add,Nat.add_sub_cancel' (by omega)]
      have shift : (start + ·) ∘ (tmp + ·) = (start + tmp + ·) := by
        funext j
        simp only [Function.comp_apply]
        omega
      rw [ih _ (by omega) (by omega),addPages_eq b fun j below => extent_maps m (by omega) (by omega),spread,spread,spread,parts,
        map_append,
        List.foldl_append,List.map_map,shift]

def Bios.Open (b : Bios) : Prop := ∀ bio ∈ b.bio, 0 < bio.vecs.length ∧ bio.vecs.length < bioMaxVecs

def Bios.writes (b : Bios) : List (Nat × Nat) := (b.submitted ++ b.bio.toList).flatMap Bio.writes

def Bios.filled (b : Bios) : Nat := b.bio.elim 0 (·.vecs.length)

def Bios.start (b : Bios) : Nat := b.bio.elim 0 (·.biStart)

def writesFrom (m : ExtentMap) : Nat → Nat → List Nat → List (Nat × Nat)
  | _, _, [] => []
  | start, k, p :: ps =>
    ((if k = 0 then m.block p else start) + k,p) ::
      writesFrom m (if k = 0 then m.block p else start) ((k + 1) % bioMaxVecs) ps

theorem writesFrom_zero (m : ExtentMap) (a b : Nat) (ps : List Nat) : writesFrom m a 0 ps = writesFrom m b 0 ps := by
  cases ps <;> rfl

theorem Bio.writes_snoc (bio : Bio) (page : Nat) :
    Bio.writes { bio with vecs := bio.vecs ++ [page] } = bio.writes ++ [(bio.biStart + bio.vecs.length,page)] := by
  simp [Bio.writes,mapIdx_append]

theorem addPage_writes (opened : b.Open) (p : Nat) : (addPage m b p).Open ∧
      (addPage m b p).writes = b.writes ++ [((if b.filled = 0 then m.block p else b.start) + b.filled,p)] ∧
      (addPage m b p).filled = (b.filled + 1) % bioMaxVecs ∧
      ((addPage m b p).filled ≠ 0 → (addPage m b p).start = if b.filled = 0 then m.block p else b.start) := by
  obtain ⟨bio,submitted⟩ := b
  match bio with
  | none => simp [addPage,addBvec,Bios.Open,Bios.writes,Bios.filled,Bios.start,Bio.writes,bioMaxVecs]
  | some bio =>
    obtain ⟨some,room⟩ := opened bio rfl
    have positive : bio.vecs.length ≠ 0 := by omega
    have added := bio.writes_snoc p
    by_cases full : bio.vecs.length + 1 = bioMaxVecs
    · simp [addPage,addBvec,Bios.Open,Bios.writes,Bios.filled,Bios.start,full,positive,added]
    · have below : (bio.vecs.length + 1) % bioMaxVecs = bio.vecs.length + 1 := Nat.mod_eq_of_lt (by omega)
      simp [addPage,addBvec,Bios.Open,Bios.writes,Bios.filled,Bios.start,full,positive,added,below]
      omega

theorem addPages_writes (opened : b.Open) (ps : List Nat) :
    (ps.foldl (addPage m) b).Open ∧ (ps.foldl (addPage m) b).writes = b.writes ++ writesFrom m b.start b.filled ps := by
  induction ps generalizing b with
  | nil => simpa [writesFrom] using opened
  | cons p ps ih =>
    obtain ⟨opened,written,filled,start⟩ := addPage_writes (m := m) opened p
    obtain ⟨stays,later⟩ := ih opened
    refine ⟨stays,?_⟩
    rw [List.foldl_cons,later,written,writesFrom,← filled,append_assoc,singleton_append]
    by_cases fresh : (addPage m b p).filled = 0
    · rw [fresh,writesFrom_zero m (addPage m b p).start (if b.filled = 0 then m.block p else b.start)]
    · rw [start fresh]

theorem Bios.finish_writes {b : Bios} (opened : b.Open) : b.finish.flatMap Bio.writes = b.writes := by
  obtain ⟨bio,submitted⟩ := b
  match bio with
  | none => simp [Bios.finish,Bios.writes]
  | some bio =>
    have some := (opened bio rfl).1
    have pages : bio.vecs ≠ [] := ne_nil_of_length_pos some
    simp [Bios.finish,Bios.writes,pages]

/-- The pages are written where they belong exactly if no BIO has to go on at another block. -/
theorem writesFrom_placed_iff (m : ExtentMap) (start k : Nat) (below : k < bioMaxVecs) (ps : List Nat) :
    writesFrom m start k ps = ps.map (fun p => (m.block p,p)) ↔
      (∀ p, ps[0]? = some p → k ≠ 0 → m.block p = start + k) ∧
        ∀ i p q, ps[i]? = some p → ps[i + 1]? = some q → (k + i + 1) % bioMaxVecs ≠ 0 → m.block q = m.block p + 1 := by
  induction ps generalizing start k with
  | nil => simp [writesFrom]
  | cons p ps ih =>
    have next : (k + 1) % bioMaxVecs < bioMaxVecs := Nat.mod_lt _ (by decide)
    have turn : ∀ i, ((k + 1) % bioMaxVecs + i + 1) % bioMaxVecs = (k + (i + 1) + 1) % bioMaxVecs := by
      intro i
      rw [Nat.add_assoc,Nat.mod_add_mod]
      congr 1
      omega
    rw [writesFrom,List.map_cons,cons.injEq,Prod.mk.injEq,ih _ _ next]
    simp only [and_true,turn]
    constructor
    · rintro ⟨here,first,later⟩
      refine ⟨?_,?_⟩
      · intro p' same k0
        obtain rfl := some.inj same
        rw [← here,if_neg k0]
      · intro i p' q hp hq inside
        cases i with
        | zero =>
          obtain rfl := some.inj hp
          have k1 : (k + 1) % bioMaxVecs = k + 1 := by
            simp only [bioMaxVecs] at *
            omega
          have behind := first q hq (by omega)
          omega
        | succ i => exact later i p' q hp hq inside
    · rintro ⟨first,later⟩
      have here : (if k = 0 then m.block p else start) + k = m.block p := by
        split
        next k0 => rw [k0,Nat.add_zero]
        next k0 => rw [first p rfl k0]
      refine ⟨here,?_,fun i => later (i + 1)⟩
      intro q hq inside
      have k1 : (k + 1) % bioMaxVecs = k + 1 := by
        simp only [bioMaxVecs] at *
        omega
      have behind := later 0 p q rfl hq inside
      omega

theorem syncEntries_eq (m : ExtentMap) (entries : List (Nat × Int)) (natural : ∀ run ∈ entries, 0 ≤ run.2) (b : Bios) :
    ∃ reset, syncEntries m entries b = some
    (reset,(entries.flatMap fun run => spread (run.1,run.2.toNat)).foldl (addPage m) b) ∧
      reset.length = entries.length ∧ ∀ run ∈ reset, run.2 = 0 := by
  induction entries generalizing b with
  | nil => exact ⟨[],rfl,rfl,by simp⟩
  | cons run rest ih =>
    obtain ⟨start,nr⟩ := run
    have here : 0 ≤ nr := natural (start,nr) mem_cons_self
    have later : ∀ run ∈ rest, 0 ≤ run.2 := fun run member => natural run (mem_cons_of_mem _ member)
    rw [syncEntries,flatMap_cons,List.foldl_append]
    by_cases empty : nr = 0
    · obtain ⟨reset,done,length,zero⟩ := ih later b
      subst empty
      refine ⟨(start,0) :: reset,?_,by simp [length],?_⟩
      · rw [if_pos rfl,done]
        rfl
      · simpa using zero
    · obtain ⟨reset,done,length,zero⟩ := ih later ((spread (start,nr.toNat)).foldl (addPage m) b)
      refine ⟨(0,0) :: reset,?_,by simp [length],by simpa using zero⟩
      rw [if_neg empty,syncRun_eq m b (by omega) (Nat.le_refl _),bind_some,done]
      rfl

theorem packed_ends {next : List IrdNode} (packed : Packed next) (stops : ends next = true) :
    next.flatMap IrdNode.dirtyPages = [] := by
  cases packed with
  | last node room => simpa [ends] using stops
  | cons node next full rest =>
    have empty : node.dirtyPages = [] := by simpa [ends] using stops
    rw [empty] at full
    exact absurd full (by decide)

/-- All the pages of the list go into BIOs, and all its runs are reset. -/
theorem syncNodes_eq (m : ExtentMap) (packed : Packed nodes)
    (natural : ∀ run ∈ nodes.flatMap IrdNode.dirtyPages, 0 ≤ run.2) (b : Bios) :
    ∃ reset, syncNodes m nodes b =
        some (reset,((nodes.flatMap IrdNode.dirtyPages).flatMap fun run => spread (run.1,run.2.toNat)).foldl (addPage m) b) ∧
      ∀ node ∈ reset, node.dirtyPages.length ≤ rangeDirtyEntMax ∧ ∀ run ∈ node.dirtyPages, run.2 = 0 := by
  induction packed generalizing b with
  | last node room =>
    rw [flatMap_singleton] at natural ⊢
    obtain ⟨entries,done,length,zero⟩ := syncEntries_eq m node.dirtyPages natural b
    refine ⟨[{ node with dirtyPages := entries }],?_,?_⟩
    · rw [syncNodes,done,bind_some,if_pos (show ends [] = true from rfl)]
    · intro other member
      obtain rfl := mem_singleton.mp member
      exact ⟨length.trans_le room,zero⟩
  | cons node next full rest ih =>
    rw [flatMap_cons] at natural ⊢
    obtain ⟨entries,done,length,zero⟩ :=
      syncEntries_eq m node.dirtyPages (fun run member => natural run (mem_append_left _ member)) b
    have short : entries.length ≤ rangeDirtyEntMax := (length.trans full).le
    rw [syncNodes,done,bind_some,flatMap_append,List.foldl_append]
    by_cases stops : ends next = true
    · have nothing := packed_ends rest stops
      refine ⟨{ node with dirtyPages := entries } :: next,?_,?_⟩
      · rw [if_pos stops,nothing]
        rfl
      · intro other member
        rcases mem_cons.mp member with rfl | behind
        · exact ⟨short,zero⟩
        · have empty := flatMap_eq_nil_iff.mp nothing other behind
          simp [empty]
    · obtain ⟨reset,later,clear⟩ :=
        ih (fun run member => natural run (mem_append_right _ member))
          ((node.dirtyPages.flatMap fun run => spread (run.1,run.2.toNat)).foldl (addPage m) b)
      refine ⟨{ node with dirtyPages := entries } :: reset,?_,forall_mem_cons.mpr ⟨⟨short,zero⟩,clear⟩⟩
      rw [if_neg stops,later]
      rfl

theorem unlockEntry_idle (zero : ∀ run ∈ node.dirtyPages, run.2 = 0) (s : Inode)
    (inside : i ≤ node.dirtyPages.length) (enough : node.dirtyPages.length < i + rounds) :
    ∃ j, whileLoop (fun pos : Nat × Inode => pos.1 < node.dirtyPages.length) (unlockEntry node) rounds (i,s) = some
    (j,s) := by
  induction rounds generalizing i with
  | zero => omega
  | succ rounds ih =>
    rw [whileLoop]
    by_cases more : i < node.dirtyPages.length
    · have next : unlockEntry node (i,s) = some (i + 1,s) := by
        simp [unlockEntry,more,zero _ (getElem_mem more)]
      rw [if_pos more,next,bind_some]
      exact ih more (by omega)
    · exact ⟨i,if_neg more⟩

theorem unlockPagesBatch_idle (enough : rangeDirtyEntMax < rounds)
    (reset : ∀ node ∈ nodes, node.dirtyPages.length ≤ rangeDirtyEntMax ∧ ∀ run ∈ node.dirtyPages, run.2 = 0)
    (s : Inode) :
    unlockPagesBatch rounds nodes s = some s := by
  induction nodes with
  | nil => rfl
  | cons node next ih =>
    obtain ⟨⟨short,zero⟩,later⟩ := forall_mem_cons.mp reset
    obtain ⟨j,passed⟩ := unlockEntry_idle zero s (Nat.zero_le _) (show node.dirtyPages.length < 0 + rounds by omega)
    rw [unlockPagesBatch,passed,bind_some,ih later]
    exact ite_self _

theorem syncGathered_eq (m : ExtentMap) (enough : rangeDirtyEntMax < rounds) (s : Inode)
    (natural : ∀ run ∈ s.lists.iStgDirty.dirtyPages, 0 ≤ run.2) :
    ∃ t bios, syncGathered m rounds s = some (t,bios) ∧ t.dlBmap = s.dlBmap ∧
      bios.flatMap Bio.writes = writesFrom m 0 0 (pages s) := by
  obtain ⟨reset,done,clear⟩ := syncNodes_eq m s.lists.iStgDirty.packed natural ⟨none,[]⟩
  have opened : Bios.Open ⟨none,[]⟩ := by simp [Bios.Open]
  obtain ⟨stays,written⟩ := addPages_writes (m := m) opened (pages s)
  rw [syncGathered,done,bind_some,unlockPagesBatch_idle enough clear,map_some]
  refine ⟨_,_,rfl,rfl,?_⟩
  have finished := Bios.finish_writes stays
  rw [written] at finished
  exact finished

end

/-- The pages of the list are written to their blocks exactly if every BIO has consecutive blocks, and unlocked as they
should be only if none of them is locked. -/
theorem syncGathered_synced_iff (m : ExtentMap) (s : Inode) (enough : rangeDirtyEntMax < rounds)
    (natural : ∀ run ∈ s.lists.iStgDirty.dirtyPages, 0 ≤ run.2) :
    (∃ t bios, syncGathered m rounds s = some (t,bios) ∧ Synced m s t bios) ↔
      Consecutive m (pages s) ∧ ∀ p ∈ pages s, s.lockBit p = false := by
  obtain ⟨t,bios,done,kept,written⟩ := syncGathered_eq m enough s natural
  have placed := writesFrom_placed_iff m 0 0 (by decide) (pages s)
  simp only [ne_eq,not_true,false_implies,implies_true,true_and,Nat.zero_add] at placed
  have locks : ∀ p, t.lockBit p = s.lockBit p := by
    intro p
    rw [Inode.lockBit,kept,Inode.lockBit]
  constructor
  · rintro ⟨t',bios',same,synced⟩
    obtain ⟨rfl,rfl⟩ := Prod.mk.inj (some.inj (done.symm.trans same))
    refine ⟨placed.mp (written.symm.trans synced.placed),?_⟩
    intro p member
    have cleared := synced.unlocked p
    rw [locks p] at cleared
    simpa [member] using cleared
  · rintro ⟨consecutive,free⟩
    refine ⟨t,bios,done,written.trans (placed.mpr consecutive),?_⟩
    intro p
    rw [locks p]
    by_cases member : p ∈ pages s
    · simp [member,free p member]
    · simp [member]

/-- For every inode, list of runs and mapping. -/
theorem syncFileData_synced_iff (m : ExtentMap) (s : Inode) (rounds : Nat) (enough : rangeDirtyEntMax < rounds)
    (natural : ∀ run ∈ (inodeGatherDirtyPagebits .staging s).lists.iStgDirty.dirtyPages, 0 ≤ run.2) :
    (∃ t bios, syncFileData m rounds s = some (t,bios) ∧ Synced m (inodeGatherDirtyPagebits .staging s) t bios) ↔
      Consecutive m (pages (inodeGatherDirtyPagebits .staging s)) ∧
        ∀ p ∈ pages (inodeGatherDirtyPagebits .staging s), (inodeGatherDirtyPagebits .staging s).lockBit p = false :=
  syncGathered_synced_iff m (inodeGatherDirtyPagebits .staging s) enough natural

/-! A list that the gather has made. -/

theorem spread_inGroup (g : Nat) (r : Nat × Nat) : spread (inGroup g r) = (spread r).map (· + g * nrPagesInPeb) := by
  rw [spread,spread,List.map_map]
  apply map_congr_left
  intro i _
  simp only [inGroup,Function.comp_apply]
  omega

theorem groupRuns_spread (s : Inode) (g : Nat) : (groupRuns s g).flatMap spread =
    if bit s.dgBmap g then ((List.range nrPagesInPeb).filter (bit (s.dlBmap g))).map (· + g * nrPagesInPeb) else [] := by
  rw [groupRuns]
  split
  · rw [← spread_maxRuns,map_flatMap,flatMap_map]
    exact flatMap_congr fun r _ => spread_inGroup g r
  · rfl

section

variable {s : Inode} (clean : s.lists.iStgDirty.dirtyPages = []) (unlocked : ∀ p, s.dirtyBit p = true → s.lockBit p = false)

include clean unlocked

theorem pages_gathered : pages (inodeGatherDirtyPagebits .staging s) =
    (List.range (pageSize * bitsInByte)).flatMap fun g =>
      if bit s.dgBmap g then ((List.range nrPagesInPeb).filter (bit (s.dlBmap g))).map (· + g * nrPagesInPeb) else [] := by
  have runs : pages (inodeGatherDirtyPagebits .staging s) = (gatheredRuns s).flatMap spread := by
    rw [pages,(gatheredRuns_exact .staging s unlocked).stg,clean,nil_append,Target.forStg,flatMap_map]
    exact flatMap_congr fun r _ => rfl
  rw [runs,gatheredRuns,flatMap_assoc]
  exact flatMap_congr fun g _ => groupRuns_spread s g

theorem mem_pages_gathered (p : Nat) : p ∈ pages (inodeGatherDirtyPagebits .staging s) ↔ s.gathers p = true := by
  rw [pages_gathered clean unlocked,Inode.gathers,Inode.groupBit,Bool.and_eq_true,Bool.and_eq_true,decide_eq_true_eq]
  simp only [mem_flatMap,mem_range]
  constructor
  · rintro ⟨g,below,member⟩
    split at member
    next marked =>
      obtain ⟨a,dirty,rfl⟩ := List.mem_map.mp member
      obtain ⟨small,set⟩ := mem_filter.mp dirty
      rw [mem_range] at small
      rw [dirtyBit_eq s g small,div_nrPagesInPeb g small]
      exact ⟨set,below,marked⟩
    next => simp at member
  · rintro ⟨dirty,below,marked⟩
    refine ⟨p / nrPagesInPeb,below,?_⟩
    rw [if_pos marked]
    refine List.mem_map.mpr ⟨p % nrPagesInPeb,List.mem_filter.mpr ⟨?_,dirty⟩,?_⟩
    · exact mem_range.mpr (Nat.mod_lt _ (by decide))
    · rw [Nat.mul_comm]
      exact Nat.mod_add_div p nrPagesInPeb

theorem gathered_natural : ∀ run ∈ (inodeGatherDirtyPagebits .staging s).lists.iStgDirty.dirtyPages, 0 ≤ run.2 := by
  rw [(gatheredRuns_exact .staging s unlocked).stg,clean,nil_append]
  intro run member
  obtain ⟨r,_,rfl⟩ := List.mem_map.mp member
  exact Int.natCast_nonneg r.2

theorem gathered_locked (p : Nat) (member : p ∈ pages (inodeGatherDirtyPagebits .staging s)) :
    (inodeGatherDirtyPagebits .staging s).lockBit p = true := by
  rw [(gatheredRuns_exact .staging s unlocked).lock,(mem_pages_gathered clean unlocked p).mp member,Bool.or_true]

/-- The gather locks the pages it puts on an empty list, so they stay locked: all is well only if there are none. -/
theorem syncFileData_synced_clean (m : ExtentMap) (enough : rangeDirtyEntMax < rounds) :
    (∃ t bios, syncFileData m rounds s = some (t,bios) ∧ Synced m (inodeGatherDirtyPagebits .staging s) t bios) ↔
      ∀ p, s.gathers p = false := by
  rw [syncFileData,syncGathered_synced_iff m _ enough (gathered_natural clean unlocked)]
  constructor
  · rintro ⟨_,free⟩ p
    rw [← Bool.not_eq_true,← mem_pages_gathered clean unlocked]
    intro member
    have freed := free p member
    rw [gathered_locked clean unlocked p member] at freed
    exact Bool.false_ne_true freed.symm
  · intro none
    have empty : pages (inodeGatherDirtyPagebits .staging s) = [] := by
      rw [eq_nil_iff_forall_not_mem]
      intro p member
      rw [mem_pages_gathered clean unlocked,none p] at member
      exact Bool.false_ne_true member
    rw [empty]
    exact ⟨by simp [Consecutive],by simp⟩

end

def hundredOn : ExtentMap where
  block p := 100 + p % 2^32
  getBlocks p := ⟨p,1,100 + p % 2^32⟩
  contains p := ⟨Nat.le_refl p,Nat.lt_succ_self p⟩
  maps p q lower upper := by
    obtain rfl : p = q := by
      simp only at lower upper
      omega
    simp
  addressable p := by omega

theorem syncFileData_synced_clean_fivePages : ¬∃ t bios, syncFileData hundredOn 341 fivePages = some (t,bios) ∧
    Synced hundredOn (inodeGatherDirtyPagebits .staging fivePages) t bios := by
  rw [syncFileData_synced_clean rfl fivePages_unlocked hundredOn (by decide)]
  exact fun none => absurd (none 1) (by decide)

def listedPages : Inode where
  dgBmap _ := 0#8
  dlBmap _ _ := 0#8
  lists := ⟨.fresh,fun _ => .fresh,fun _ => 0#32,⟨[⟨[(3,2)],2⟩],.last _ (by decide),none⟩⟩

theorem listedPages_gathered :
    (inodeGatherDirtyPagebits .staging listedPages).lists.iStgDirty.dirtyPages = [(3,2)] ∧
      ∀ p, (inodeGatherDirtyPagebits .staging listedPages).lockBit p = false := by
  have clear : ∀ p, listedPages.dirtyBit p = false := fun p => BitVec.getLsbD_zero
  have free : ∀ p, listedPages.lockBit p = false := fun p => BitVec.getLsbD_zero
  have gathered := gatheredRuns_exact .staging listedPages fun p _ => free p
  have none : gatheredRuns listedPages = [] := by
    rw [gatheredRuns,flatMap_eq_nil_iff]
    intro g _
    have unmarked : bit listedPages.dgBmap g = false := BitVec.getLsbD_zero
    rw [groupRuns,unmarked]
    rfl
  refine ⟨?_,?_⟩
  · rw [gathered.stg,none]
    rfl
  · intro p
    rw [gathered.lock,Inode.gathers,clear,free]
    rfl

theorem syncFileData_synced_listedPages : ∃ t bios, syncFileData hundredOn 341 listedPages = some (t,bios) ∧
    Synced hundredOn (inodeGatherDirtyPagebits .staging listedPages) t bios := by
  obtain ⟨runs,free⟩ := listedPages_gathered
  have listed : pages (inodeGatherDirtyPagebits .staging listedPages) = [3,4] := by
    rw [pages,runs]
    rfl
  refine (syncFileData_synced_iff hundredOn listedPages 341 (by decide) ?_).mpr ⟨?_,fun p _ => free p⟩
  · rw [runs]
    decide
  · rw [listed]
    intro i p q hp hq _
    cases i with
    | zero =>
      obtain rfl := some.inj hp
      obtain rfl := some.inj hq
      rfl
    | succ i => simp at hq

/-! The dirty pages 1, 2 and 5 to 7 go to five blocks in a row. -/

theorem fivePages_group (g : Nat) : bit fivePages.dgBmap (g + 1) = false := by
  have first : ∀ k < 7, bit fivePages.dgBmap (k + 1) = false := by decide
  by_cases low : g < 7
  · exact first g low
  · have high : (g + 1) / 8 ≠ 0 := by omega
    simp [bit,fivePages,high]

theorem fivePages_pages : pages (inodeGatherDirtyPagebits .staging fivePages) = [1,2,5,6,7] := by
  have groups : pageSize * bitsInByte = 32767 + 1 := rfl
  have places : nrPagesInPeb = 8 + 8184 := rfl
  have others : (List.map Nat.succ (List.range 32767)).flatMap (fun g =>
      if bit fivePages.dgBmap g then ((List.range nrPagesInPeb).filter (bit (fivePages.dlBmap g))).map (· + g * nrPagesInPeb)
      else []) = [] := by
    rw [flatMap_eq_nil_iff]
    intro g member
    obtain ⟨k,_,rfl⟩ := List.mem_map.mp member
    rw [Nat.succ_eq_add_one,fivePages_group]
    rfl
  have high : (List.map (8 + ·) (List.range 8184)).filter (bit (fivePages.dlBmap 0)) = [] := by
    rw [filter_eq_nil_iff]
    intro p member
    obtain ⟨k,_,rfl⟩ := List.mem_map.mp member
    simp [bit,fivePages]
  have low : (List.range 8).filter (bit (fivePages.dlBmap 0)) = [1,2,5,6,7] := by decide
  rw [pages_gathered rfl fivePages_unlocked,groups,List.range_succ_eq_map,flatMap_cons,others,places,range_add,
    filter_append,high,low]
  rfl

/-- Pages 5 to 7 are written behind page 2, and the gathered pages stay locked. -/
theorem second_run_misplaced : ∃ t bios, syncFileData hundredOn 341 fivePages = some (t,bios) ∧
    bios.flatMap Bio.writes = [(101,1),(102,2),(103,5),(104,6),(105,7)] ∧ hundredOn.block 5 = 105 ∧
    fivePages.gathers 1 = true ∧ t.lockBit 1 = true ∧
      ¬ Synced hundredOn (inodeGatherDirtyPagebits .staging fivePages) t bios := by
  obtain ⟨t,bios,done,kept,written⟩ := syncGathered_eq hundredOn (show rangeDirtyEntMax < 341 by decide)
    (inodeGatherDirtyPagebits .staging fivePages) (gathered_natural rfl fivePages_unlocked)
  have locked : t.lockBit 1 = true := by
    rw [Inode.lockBit,kept]
    exact gathered_locked rfl fivePages_unlocked 1 (by rw [fivePages_pages]; decide)
  rw [fivePages_pages] at written
  refine ⟨t,bios,done,written,rfl,by decide,locked,?_⟩
  intro synced
  have cleared := synced.unlocked 1
  rw [locked,fivePages_pages] at cleared
  simp at cleared

end Oxbow.Daemon.SyncData
