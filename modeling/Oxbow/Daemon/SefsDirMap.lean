import Oxbow.Daemon.SefsDir

/-! A sefs directory as a map from names to inode numbers. A search takes the first slot with the name, in use or not, so
the directory stands for the map only while no free slot of a block with files has a name that is looked for. -/
namespace Oxbow.Daemon.SefsDir

open Oxbow.Lib Function List Option

variable {dir : Dir perBlock} {p q : Slot perBlock}
  {env : Env}

/-- Some slot in use has the name. -/
def Bound (dir : Dir perBlock) (name : Name) : Prop := ∃ p, (dir.slot p).ino ≠ 0 ∧ (dir.slot p).name = name

/-- A free slot still has the name, in a block that has files. -/
def Left (dir : Dir perBlock) (name : Name) (p : Slot perBlock) : Prop :=
  (dir.slot p).ino = 0 ∧ (dir.slot p).name = name ∧ (dir.block p.ei p.bi).nrFiles ≠ 0

structure Invariant (nrInodes : Nat) (s : State perBlock) : Prop where
  counted : Counted s.dir
  ents : ∀ ei k, (s.dir.ents ei).bno = 0 → ei ≤ k → (s.dir.ents k).bno = 0
  empty : ∀ p, (s.dir.ents p.ei).bno = 0 → (s.dir.slot p).ino = 0
  valid : ∀ p, (s.dir.slot p).ino ≠ 0 → (s.dir.slot p).ino < nrInodes
  bound : ∀ name ino, s.map name = some ino ↔ ino ≠ 0 ∧ ∃ p, s.dir.slot p = ⟨ino,name⟩
  unique : ∀ p q, (s.dir.slot p).ino ≠ 0 → (s.dir.slot q).ino ≠ 0 → (s.dir.slot p).name = (s.dir.slot q).name → p = q
  order : ∀ p q, (s.dir.slot p).ino ≠ 0 → (s.dir.slot q).ino = 0 → (s.dir.ents q.ei).bno ≠ 0 →
    (s.dir.slot p).name = (s.dir.slot q).name → Before p q

variable {s t : State perBlock}

theorem find_finRange : (finRange n).find? test = some i ↔ test i = true ∧ ∀ j < i, test j = false := by
  rw [← Fin.find?_eq_find?_finRange]
  exact Fin.find?_eq_some_iff

theorem findSome_finRange {f : Fin n → Option α} {a : α} :
    (finRange n).findSome? f = some a ↔ ∃ i, f i = some a ∧ ∀ j < i, f j = none := by
  rw [← Fin.findSome?_eq_findSome?_finRange]
  exact Fin.findSome?_eq_some_iff

theorem nameAt_eq_some : nameAt block name = some fi ↔ (block.files fi).name = name ∧
    ∀ j < fi, (block.files j).name ≠ name := by
  rw [nameAt,find_finRange]
  simp

theorem nameAt_eq_none : nameAt block name = none ↔ ∀ fi, (block.files fi).name ≠ name := by
  simp [nameAt]

namespace Invariant

section

variable (inv : Invariant nrInodes s)
include inv

theorem map_used (used : (s.dir.slot p).ino ≠ 0) : s.map (s.dir.slot p).name = some (s.dir.slot p).ino :=
  (inv.bound (s.dir.slot p).name (s.dir.slot p).ino).mpr ⟨used,p,rfl⟩

theorem sefsIget_used (used : (s.dir.slot p).ino ≠ 0) : sefsIget nrInodes (s.dir.slot p).ino = .inode (s.dir.slot p).ino := by
  rw [sefsIget,if_neg (Nat.not_le.mpr (inv.valid p used)),if_neg used]

theorem map_unbound (unbound : ¬Bound s.dir name) : s.map name = none := by
  refine eq_none_iff_forall_ne_some.mpr fun ino mapped => ?_
  obtain ⟨used,p,here⟩ := (inv.bound name ino).mp mapped
  exact unbound ⟨p,by rwa [here],by rw [here]⟩

theorem allocated (used : (s.dir.slot p).ino ≠ 0) : (s.dir.ents p.ei).bno ≠ 0 :=
  fun unallocated => used (inv.empty p unallocated)

theorem block_allocated (files : (s.dir.block ei bi).nrFiles ≠ 0) : (s.dir.ents ei).bno ≠ 0 := by
  obtain ⟨fi,used⟩ := inv.counted.exists_used files
  exact inv.allocated used

theorem inodes (files : (s.dir.block ei bi).nrFiles ≠ 0) : nrInodes ≠ 0 := by
  obtain ⟨fi,used⟩ := inv.counted.exists_used files
  exact Nat.ne_of_gt (Nat.zero_lt_of_lt (inv.valid _ used))

section

variable (used : (s.dir.slot p).ino ≠ 0)
include used

theorem first (files : (s.dir.block q.ei q.bi).nrFiles ≠ 0)
    (same : (s.dir.slot q).name = (s.dir.slot p).name) : p = q ∨ Before p q := by
  by_cases free : (s.dir.slot q).ino = 0
  · exact .inr (inv.order p q used free (inv.block_allocated files) same.symm)
  · exact .inl (inv.unique p q used free same.symm)

theorem nameAt_used : nameAt (s.dir.block p.ei p.bi) (s.dir.slot p).name = some p.fi := by
  have slot := inv.counted.slot_le p
  rw [live_used used] at slot
  refine nameAt_eq_some.mpr ⟨rfl,fun fi before same => ?_⟩
  rcases inv.first (q := ⟨p.ei,p.bi,fi⟩) used (by simp only; omega) same with here | after
  · rw [here] at before
    exact absurd before (lt_irrefl fi)
  · simp only [Before] at after
    omega

theorem nameAt_before (before : ei < p.ei ∨ ei = p.ei ∧ bi < p.bi) (files : (s.dir.block ei bi).nrFiles ≠ 0) :
    nameAt (s.dir.block ei bi) (s.dir.slot p).name = none := by
  refine nameAt_eq_none.mpr fun fi same => ?_
  rcases inv.first (q := ⟨ei,bi,fi⟩) used files same with here | after
  · rw [here] at before
    simp only at before
    omega
  · simp only [Before] at after
    omega

end

end

end Invariant

/-- Every block can be read. -/
def Env.Reads (env : Env) : Prop := env.info = true ∧ ∀ ei bi, env.read ei bi = true

theorem lookupBlock_read (reads : env.Reads) (dir : Dir perBlock) (name : Name) (ei : Fin sefsDInfoEntMax)
    (bi : Fin sefsDentBlocks) :
    lookupBlock nrInodes env dir name ei bi =
      if (dir.block ei bi).nrFiles = 0 then none
      else (nameAt (dir.block ei bi) name).map fun fi =>
        match sefsIget nrInodes (dir.slot ⟨ei,bi,fi⟩).ino with
        | .null => .absent
        | .abort => .abort
        | .inode ino => .inode ino := by
  rw [lookupBlock,reads.2 ei bi]
  rfl

theorem lookup_bound (inv : Invariant nrInodes s) (reads : env.Reads) (used : (s.dir.slot p).ino ≠ 0) :
    sefsLookup nrInodes env s.dir (s.dir.slot p).name = .inode (s.dir.slot p).ino := by
  have slot := inv.counted.slot_le p
  have block := inv.counted.block_le p.ei p.bi
  have ent := inv.counted.ent_le p.ei
  rw [live_used used] at slot
  have here : lookupBlock nrInodes env s.dir (s.dir.slot p).name p.ei p.bi = some (.inode (s.dir.slot p).ino) := by
    rw [lookupBlock_read reads,if_neg (by omega),inv.nameAt_used used,map_some]
    rw [inv.sefsIget_used used]
  have before : ∀ ei bi, (ei < p.ei ∨ ei = p.ei ∧ bi < p.bi) →
      lookupBlock nrInodes env s.dir (s.dir.slot p).name ei bi = none := by
    intro ei bi earlier
    rw [lookupBlock_read reads]
    split
    next => rfl
    next files => rw [inv.nameAt_before used earlier files,map_none]
  have found : lookupEnts nrInodes env s.dir (s.dir.slot p).name = some (.inode (s.dir.slot p).ino) := by
    refine findSome_finRange.mpr ⟨p.ei,?_,fun ei earlier => ?_⟩
    · rw [if_neg (by omega)]
      exact findSome_finRange.mpr ⟨p.bi,here,fun bi earlier => before p.ei bi (.inr ⟨rfl,earlier⟩)⟩
    · split
      next => rfl
      next => exact findSome?_eq_none_iff.mpr fun bi _ => before ei bi (.inl earlier)
  rw [sefsLookup,reads.1,if_neg (by decide),if_neg (by omega),found,getD_some]

theorem sefsIget_zero (inodes : nrInodes ≠ 0) : sefsIget nrInodes 0 = .abort := by
  rw [sefsIget,if_neg (by omega),if_pos rfl]

theorem lookupBlock_unbound (reads : env.Reads) (inodes : nrInodes ≠ 0) (unbound : ¬Bound dir name) (ei : Fin sefsDInfoEntMax)
    (bi : Fin sefsDentBlocks) :
    lookupBlock nrInodes env dir name ei bi = none ∨ lookupBlock nrInodes env dir name ei bi = some .abort := by
  rw [lookupBlock_read reads]
  split
  next => exact .inl rfl
  next =>
    cases found : nameAt (dir.block ei bi) name with
    | none => exact .inl rfl
    | some fi =>
      have free : (dir.slot ⟨ei,bi,fi⟩).ino = 0 := by
        by_contra used
        exact unbound ⟨⟨ei,bi,fi⟩,used,(nameAt_eq_some.mp found).1⟩
      right
      simp only [map_some,free,sefsIget_zero inodes]

theorem name_absent (unbound : ¬Bound dir name) (clean : ∀ p, ¬Left dir name p)
    (files : (dir.block ei bi).nrFiles ≠ 0) (fi : Fin perBlock) : ((dir.block ei bi).files fi).name ≠ name := by
  intro same
  by_cases free : (dir.slot ⟨ei,bi,fi⟩).ino = 0
  · exact clean ⟨ei,bi,fi⟩ ⟨free,same,files⟩
  · exact unbound ⟨⟨ei,bi,fi⟩,free,same⟩

theorem lookup_absent (reads : env.Reads) (unbound : ¬Bound dir name) (clean : ∀ p, ¬Left dir name p) :
    sefsLookup nrInodes env dir name = .absent := by
  have each : ∀ ei bi, lookupBlock nrInodes env dir name ei bi = none := by
    intro ei bi
    rw [lookupBlock_read reads]
    split
    next => rfl
    next files => rw [nameAt_eq_none.mpr (name_absent unbound clean files),map_none]
  have nowhere : lookupEnts nrInodes env dir name = none := by
    refine findSome?_eq_none_iff.mpr fun ei _ => ?_
    split
    next => rfl
    next => exact findSome?_eq_none_iff.mpr fun bi _ => each ei bi
  rw [sefsLookup,reads.1,if_neg (by decide),nowhere,getD_none,ite_self]

/-- A name that is only in free slots: the search stops at inode zero. -/
theorem lookup_left (inv : Invariant nrInodes s) (reads : env.Reads) (unbound : ¬Bound s.dir name) (left : Left s.dir name p) :
    sefsLookup nrInodes env s.dir name = .abort := by
  obtain ⟨free,same,files⟩ := left
  have block := inv.counted.block_le p.ei p.bi
  have ent := inv.counted.ent_le p.ei
  have here : lookupBlock nrInodes env s.dir name p.ei p.bi ≠ none := by
    rw [lookupBlock_read reads,if_neg files,Ne,map_eq_none_iff,nameAt_eq_none]
    exact fun missing => missing p.fi same
  have aborts : lookupEnts nrInodes env s.dir name = some .abort := by
    cases found : lookupEnts nrInodes env s.dir name with
    | none =>
      have nowhere := findSome?_eq_none_iff.mp found p.ei (mem_finRange _)
      rw [if_neg (by omega)] at nowhere
      exact absurd (findSome?_eq_none_iff.mp nowhere p.bi (mem_finRange _)) here
    | some result =>
      obtain ⟨ei,stops,-⟩ := findSome_finRange.mp found
      obtain ⟨-,stops⟩ := ite_none_left_eq_some.mp stops
      obtain ⟨bi,stops,-⟩ := findSome_finRange.mp stops
      rcases lookupBlock_unbound reads (inv.inodes files) unbound ei bi with goes | aborts
      · exact absurd (goes.symm.trans stops) (by simp)
      · exact stops.symm.trans aborts
  rw [sefsLookup,reads.1,if_neg (by decide),if_neg (by omega),aborts,getD_some]

def answer (map : Name → Option Nat) (name : Name) : Lookup := (map name).elim .absent .inode

theorem lookup_iff (inv : Invariant nrInodes s) (reads : env.Reads) :
    sefsLookup nrInodes env s.dir name = answer s.map name ↔ ∀ p, Left s.dir name p → Bound s.dir name := by
  by_cases bound : Bound s.dir name
  · refine ⟨fun _ _ _ => bound,fun _ => ?_⟩
    obtain ⟨p,used,rfl⟩ := bound
    rw [lookup_bound inv reads used,answer,inv.map_used used,elim_some]
  · rw [answer,inv.map_unbound bound,elim_none]
    constructor
    · intro absent p left
      rw [lookup_left inv reads bound left] at absent
      exact absurd absent (by decide)
    · intro clean
      exact lookup_absent reads bound fun p left => bound (clean p left)

theorem before_or_after (different : p ≠ q) : Before p q ∨ Before q p := by
  rw [Ne,Slot.ext_iff] at different
  simp only [Before]
  omega

namespace Invariant

theorem scrub (inv : Invariant nrInodes s) (unallocated : (s.dir.ents ei).bno = 0)
    (first : ∀ k < ei, (s.dir.ents k).bno ≠ 0) (given : bno ≠ 0) :
    Invariant nrInodes {s with dir := s.dir.allocExt ei bno} := by
  have kept : ∀ {p}, ((s.dir.allocExt ei bno).slot p).ino ≠ 0 → (s.dir.allocExt ei bno).slot p = s.dir.slot p := by
    intro p used
    rw [slot_allocExt] at used ⊢
    split at used
    next => exact absurd rfl used
    next other => rw [if_neg other]
  have stays : ∀ {p}, (s.dir.slot p).ino ≠ 0 → (s.dir.allocExt ei bno).slot p = s.dir.slot p := by
    intro p used
    rw [slot_allocExt,if_neg]
    rintro rfl
    exact inv.allocated used unallocated
  have old : ∀ {p}, ((s.dir.allocExt ei bno).slot p).ino ≠ 0 → (s.dir.slot p).ino ≠ 0 := fun used => kept used ▸ used
  refine ⟨?_,fun k l bare above => ?_,fun p bare => ?_,fun p used => ?_,fun name ino => ?_,fun p q one other same => ?_,
    fun p q used free allocated same => ?_⟩
  · exact inv.counted.allocExt (fun bi fi => inv.empty ⟨ei,bi,fi⟩ unallocated)
  · simp only [bno_allocExt] at bare ⊢
    split at bare
    next => exact absurd bare given
    next =>
      rw [if_neg]
      · exact inv.ents k l bare above
      · rintro rfl
        exact first k (by omega) bare
  · simp only [bno_allocExt] at bare
    by_contra used
    refine inv.allocated (old used) ?_
    split at bare
    next => exact absurd bare given
    next => exact bare
  · rw [kept used]
    exact inv.valid p (old used)
  · rw [inv.bound name ino]
    refine and_congr_right fun used => exists_congr fun p => ⟨fun here => ?_,fun here => ?_⟩
    · rw [stays (by rwa [here]),here]
    · rw [← kept (by rwa [here]),here]
  · rw [kept one,kept other] at same
    exact inv.unique p q (old one) (old other) same
  · rw [kept used] at same
    have other := inv.allocated (old used)
    simp only [slot_allocExt,bno_allocExt] at same free allocated
    split at same
    next here =>
      -- the entries with blocks stand before the new one
      have below : p.ei < ei := by
        by_contra above
        exact other (inv.ents ei p.ei unallocated (by omega))
      exact .inl (by omega)
    next elsewhere =>
      rw [if_neg elsewhere] at free allocated
      exact inv.order p q (old used) free allocated same

theorem insert (inv : Invariant nrInodes s) (unbound : ¬Bound s.dir name) (free : (s.dir.slot p).ino = 0)
    (allocated : (s.dir.ents p.ei).bno ≠ 0) (first : ∀ q, Before q p → (s.dir.slot q).ino ≠ 0) (used : ino ≠ 0)
    (valid : ino < nrInodes) :
    Invariant nrInodes ⟨s.dir.change p.ei p.bi p.fi ⟨ino,name⟩ (· + 1),update s.map name (some ino)⟩ := by
  refine ⟨?_,fun k l => ?_,fun q bare => ?_,fun q => ?_,fun other number => ?_,fun q r => ?_,fun q r => ?_⟩
  · refine inv.counted.change p ⟨ino,name⟩ _ fun n _ => ?_
    rw [live_free free,live_used used]
  · simp only [bno_change]
    exact inv.ents k l
  · simp only [bno_change] at bare
    rw [slot_change,if_neg]
    · exact inv.empty q bare
    · rintro rfl
      exact allocated bare
  · simp only [slot_change]
    split
    next => exact fun _ => valid
    next => exact inv.valid q
  · simp only [slot_change]
    by_cases same : other = name
    · subst same
      rw [update_self]
      constructor
      · intro mapped
        obtain rfl := some.inj mapped
        exact ⟨used,p,if_pos rfl⟩
      · rintro ⟨nonzero,q,here⟩
        split at here
        next => exact congrArg some (congrArg Dirent.ino here)
        next => exact absurd ⟨q,by rwa [here],by rw [here]⟩ unbound
    · rw [update_of_ne same,inv.bound other number]
      refine and_congr_right fun nonzero => exists_congr fun q => ?_
      split
      next here =>
        subst here
        refine ⟨fun stale => absurd ((congrArg Dirent.ino stale).symm.trans free) nonzero,fun fresh =>
          absurd (congrArg Dirent.name fresh).symm same⟩
      next => exact Iff.rfl
  · simp only [slot_change]
    intro one two same
    by_cases here : q = p <;> by_cases there : r = p
    · rw [here,there]
    · rw [if_neg there] at two same
      rw [if_pos here] at same
      exact absurd ⟨r,two,same.symm⟩ unbound
    · rw [if_neg here] at one same
      rw [if_pos there] at same
      exact absurd ⟨q,one,same⟩ unbound
    · rw [if_neg here] at one same
      rw [if_neg there] at two same
      exact inv.unique q r one two same
  · simp only [slot_change,bno_change]
    intro live empty block same
    have there : r ≠ p := by
      rintro rfl
      exact used (by simpa using empty)
    rw [if_neg there] at empty same
    by_cases here : q = p
    · subst here
      exact (before_or_after there.symm).resolve_right fun before => first r before empty
    · rw [if_neg here] at live same
      exact inv.order q r live empty block same

end Invariant

theorem roomIn_read (reads : env.Reads)
    (room : roomIn env dir ei = some found) : ∃ bi, found = some bi ∧ ∀ k < bi, perBlock ≤ (dir.block ei k).nrFiles := by
  obtain ⟨bi,here,before⟩ := findSome_finRange.mp room
  simp only [reads.2,Bool.true_eq_false,if_false] at here before
  split at here
  next => exact ⟨bi,(some.inj here).symm,fun k earlier => by simpa [Dir.block] using before k earlier⟩
  next => exact absurd here (by simp)

theorem createIn_cases (counted : Counted dir) (reads : env.Reads)
    (full : ∀ q : Slot perBlock, q.ei < ei → (dir.slot q).ino ≠ 0) (alloc : Bool) (ino : Nat) (name : Name) :
    createIn env dir ei alloc ino name = .failed dir ∨
      ∃ p : Slot perBlock, p.ei = ei ∧ (dir.slot p).ino = 0 ∧ (∀ q, Before q p → (dir.slot q).ino ≠ 0) ∧
        createIn env dir ei alloc ino name = .made (dir.change p.ei p.bi p.fi ⟨ino,name⟩ (· + 1)) := by
  rw [createIn]
  cases room : roomIn env dir ei with
  | none => exact .inl rfl
  | some found =>
    obtain ⟨bi,rfl,before⟩ := roomIn_read reads room
    simp only
    split
    next => exact .inl rfl
    next fi first =>
      obtain ⟨free,others⟩ := find_finRange.mp first
      refine .inr ⟨⟨ei,bi,fi⟩,rfl,of_decide_eq_true free,fun q earlier => ?_,rfl⟩
      obtain ⟨qe,qb,qf⟩ := q
      rcases earlier with ent | ⟨rfl,block | ⟨rfl,slot⟩⟩
      · exact full _ ent
      · exact counted.block_full (before qb block) qf
      · exact of_decide_eq_false (others qf slot)

/-- The call fails and the directory stands for the same map, or the name is bound. -/
def Keeps (nrInodes : Nat) (map : Name → Option Nat) (name : Name) (ino : Option Nat) (result : Create perBlock) : Prop :=
  (∃ dir, result = .failed dir ∧ Invariant nrInodes ⟨dir,map⟩) ∨
    ∃ dir, result = .made dir ∧ Invariant nrInodes ⟨dir,update map name ino⟩

section

variable (inv : Invariant nrInodes s) (reads : env.Reads) (unbound : ¬Bound s.dir name)
include inv reads unbound

theorem createIn_keeps
    (allocated : (s.dir.ents ei).bno ≠ 0) (full : ∀ q : Slot perBlock, q.ei < ei → (s.dir.slot q).ino ≠ 0) (alloc : Bool)
    (used : ino ≠ 0) (valid : ino < nrInodes) :
    Keeps nrInodes s.map name (some ino) (createIn env s.dir ei alloc ino name) := by
  rcases createIn_cases inv.counted reads full alloc ino name with failed | ⟨p,rfl,free,first,made⟩
  · exact .inl ⟨s.dir,failed,inv⟩
  · exact .inr ⟨_,made,inv.insert unbound free allocated first used valid⟩

theorem sefsCreate_keeps (inode : ∀ ino, newInode = some ino → ino ≠ 0 ∧ ino < nrInodes) :
    Keeps nrInodes s.map name newInode (sefsCreate env s.dir newInode name) := by
  have fails : Keeps nrInodes s.map name newInode (.failed s.dir) := .inl ⟨s.dir,rfl,inv⟩
  unfold sefsCreate
  rw [reads.1,if_neg (by decide)]
  split
  next => exact fails
  next =>
    cases newInode with
    | none => exact fails
    | some ino =>
      obtain ⟨used,valid⟩ := inode ino rfl
      simp only
      split
      next => exact fails
      next ei found =>
        obtain ⟨-,before⟩ := find_finRange.mp found
        have earlier : ∀ k < ei, (s.dir.ents k).bno ≠ 0 ∧ perBlock * sefsDentBlocks ≤ (s.dir.ents k).nrFiles := by
          intro k below
          simpa using before k below
        have full : ∀ q : Slot perBlock, q.ei < ei → (s.dir.slot q).ino ≠ 0 := fun q below =>
          inv.counted.block_full (inv.counted.ent_full (earlier q.ei below).2 q.bi) q.fi
        by_cases unallocated : (s.dir.ents ei).bno = 0
        · rw [if_pos unallocated]
          split
          next => exact fails
          next given =>
            rw [if_pos (reads.2 ei)]
            have scrubbed := inv.scrub unallocated (fun k below => (earlier k below).1) given
            have same : ∀ q : Slot perBlock, q.ei < ei → (s.dir.allocExt ei env.bno).slot q = s.dir.slot q := by
              intro q below
              rw [slot_allocExt,if_neg (by omega)]
            refine createIn_keeps scrubbed reads ?_ ?_ ?_ true used valid
            · rintro ⟨p,live,rfl⟩
              exact absurd ((scrubbed.map_used live).symm.trans (inv.map_unbound unbound)) (by simp)
            · simpa [bno_allocExt] using given
            · exact fun q below => same q below ▸ full q below
        · rw [if_neg unallocated]
          exact createIn_keeps inv reads unbound unallocated full false used valid

theorem create_step (inode : ∀ ino, newInode = some ino → ino ≠ 0 ∧ ino < nrInodes) :
    ∃ t, step nrInodes s (.create env newInode name) = some t ∧ Invariant nrInodes t := by
  rcases sefsCreate_keeps inv reads unbound inode with ⟨dir,failed,keeps⟩ | ⟨dir,made,keeps⟩
  · exact ⟨_,by simp only [step,failed],keeps⟩
  · exact ⟨_,by simp only [step,made],keeps⟩

end

abbrev Dir.without (dir : Dir perBlock) (p : Slot perBlock) : Dir perBlock :=
  dir.change p.ei p.bi p.fi ⟨0,(dir.slot p).name⟩ (· - 1)

theorem Invariant.remove (inv : Invariant nrInodes s) (used : (s.dir.slot p).ino ≠ 0) :
    Invariant nrInodes ⟨s.dir.without p,update s.map (s.dir.slot p).name none⟩ := by
  refine ⟨?_,fun k l => ?_,fun q bare => ?_,fun q => ?_,fun other number => ?_,fun q r => ?_,fun q r => ?_⟩
  · refine inv.counted.change p ⟨0,(s.dir.slot p).name⟩ (· - 1) fun n enough => ?_
    rw [live_used used] at enough ⊢
    rw [live_free rfl]
    omega
  · simp only [bno_change]
    exact inv.ents k l
  · simp only [bno_change] at bare
    rw [slot_change]
    split
    next => rfl
    next => exact inv.empty q bare
  · simp only [slot_change]
    split
    next => exact fun zero => absurd rfl zero
    next => exact inv.valid q
  · simp only [slot_change]
    by_cases same : other = (s.dir.slot p).name
    · subst same
      rw [update_self]
      constructor
      · exact fun mapped => absurd mapped (by simp)
      · rintro ⟨nonzero,q,here⟩
        split at here
        next => exact absurd (congrArg Dirent.ino here).symm nonzero
        next different => exact absurd (inv.unique q p (by rwa [here]) used (by rw [here])) different
    · rw [update_of_ne same,inv.bound other number]
      refine and_congr_right fun nonzero => exists_congr fun q => ?_
      split
      next here =>
        subst here
        refine ⟨fun stale => absurd (congrArg Dirent.name stale).symm same,fun stale =>
          absurd (congrArg Dirent.ino stale).symm nonzero⟩
      next => exact Iff.rfl
  · simp only [slot_change]
    intro one two same
    have here : q ≠ p := by
      rintro rfl
      exact one (by simp)
    have there : r ≠ p := by
      rintro rfl
      exact two (by simp)
    rw [if_neg here] at one same
    rw [if_neg there] at two same
    exact inv.unique q r one two same
  · simp only [slot_change,bno_change]
    intro live empty block same
    have here : q ≠ p := by
      rintro rfl
      exact live (by simp)
    rw [if_neg here] at live same
    split at empty
    next there =>
      rw [if_pos there] at same
      exact absurd (inv.unique q p live used same) here
    next there =>
      rw [if_neg there] at same
      exact inv.order q r live empty block same

def Clear (dir : Dir perBlock) (name : Name) (ei : Fin sefsDInfoEntMax) (bi : Fin sefsDentBlocks) : Prop :=
  (dir.block ei bi).nrFiles ≠ 0 → nameAt (dir.block ei bi) name = none

theorem finRange_split (i : Fin n) : ∃ l r, finRange n = l ++ i :: r ∧ (∀ j ∈ l, j < i) ∧ ∀ j ∈ r, i < j := by
  obtain ⟨l,r,split⟩ := append_of_mem (mem_finRange i)
  have sorted := pairwise_lt_finRange n
  rw [split,pairwise_append] at sorted
  exact ⟨l,r,split,fun j member => sorted.2.2 j member i mem_cons_self,(pairwise_cons.mp sorted.2.1).1⟩

theorem foldl_fixed {f : α → β → α} {a : α} {l : List β} (fixed : ∀ b ∈ l, f a b = a) :
    l.foldl f a = a := by
  induction l with
  | nil => rfl
  | cons b l ih =>
    rw [foldl_cons,fixed b mem_cons_self]
    exact ih fun c member => fixed c (mem_cons_of_mem b member)

section

variable {r : Removal perBlock}

theorem removeBlock_aborted (aborted : r.status = .aborted) (bi : Fin sefsDentBlocks) :
    removeBlock nrInodes env name ei r bi = r := by
  rw [removeBlock,aborted]

theorem removeEnt_aborted (aborted : r.status = .aborted) : removeEnt nrInodes env name r ei = r := by
  rw [removeEnt,aborted]

theorem removeBlock_cases {map : Name → Option Nat} (inv : Invariant nrInodes ⟨r.dir,map⟩) (reads : env.Reads)
    (going : r.status = .going)
    (name : Name) (ei : Fin sefsDInfoEntMax) (bi : Fin sefsDentBlocks) :
    (Clear r.dir name ei bi ∧ removeBlock nrInodes env name ei r bi = r) ∨
      ∃ fi, (r.dir.slot ⟨ei,bi,fi⟩).name = name ∧
        (((r.dir.slot ⟨ei,bi,fi⟩).ino = 0 ∧ removeBlock nrInodes env name ei r bi = {r with status := .aborted}) ∨
        ((r.dir.slot ⟨ei,bi,fi⟩).ino ≠ 0 ∧
          removeBlock nrInodes env name ei r bi =
            ⟨r.dir.without ⟨ei,bi,fi⟩,some (r.dir.slot ⟨ei,bi,fi⟩).ino,.going⟩)) := by
  rw [removeBlock,going]
  simp only [reads.2,Bool.true_eq_false,if_false]
  split
  next bare => exact .inl ⟨fun files => absurd bare files,rfl⟩
  next files =>
    split
    next missing => exact .inl ⟨fun _ => missing,rfl⟩
    next fi found =>
      refine .inr ⟨fi,(nameAt_eq_some.mp found).1,?_⟩
      by_cases free : (r.dir.slot ⟨ei,bi,fi⟩).ino = 0
      · have got : sefsIget nrInodes (((r.dir.ents ei).blocks bi).files fi).ino = .abort := by
          rw [show (((r.dir.ents ei).blocks bi).files fi).ino = 0 from free]
          exact sefsIget_zero (inv.inodes files)
        exact .inl ⟨free,by rw [got]⟩
      · have got : sefsIget nrInodes (((r.dir.ents ei).blocks bi).files fi).ino = .inode (r.dir.slot ⟨ei,bi,fi⟩).ino :=
          inv.sefsIget_used free
        exact .inr ⟨free,by rw [got]; rfl⟩

theorem removeBlock_clear (reads : env.Reads) (going : r.status = .going) (clear : Clear r.dir name ei bi) :
    removeBlock nrInodes env name ei r bi = r := by
  rw [removeBlock,going]
  simp only [reads.2,Bool.true_eq_false,if_false]
  split
  next => rfl
  next files =>
    have missing : nameAt ((r.dir.ents ei).blocks bi) name = none := clear files
    rw [missing]

theorem removeEnt_clear (reads : env.Reads) (going : r.status = .going) (clear : ∀ bi, Clear r.dir name ei bi) :
    removeEnt nrInodes env name r ei = if (r.dir.ents ei).bno = 0 then {r with status := .ended} else r := by
  have blocks : (finRange sefsDentBlocks).foldl (removeBlock nrInodes env name ei) r = r :=
    foldl_fixed fun bi _ => removeBlock_clear reads going (clear bi)
  rw [removeEnt,going]
  simp only [blocks,ite_self]

theorem removeEnt_ended (ended : r.status = .ended) : removeEnt nrInodes env name r ei = r := by
  rw [removeEnt,ended]

theorem removeEnts_clear (reads : env.Reads) (going : r.status = .going) {l : List (Fin sefsDInfoEntMax)}
    (clear : ∀ ei ∈ l, ∀ bi, Clear r.dir name ei bi) :
    l.foldl (removeEnt nrInodes env name) r = r ∨ l.foldl (removeEnt nrInodes env name) r = {r with status := .ended} := by
  induction l with
  | nil => exact .inl rfl
  | cons ei l ih =>
    rw [foldl_cons,removeEnt_clear reads going (clear ei mem_cons_self)]
    split
    next => exact .inr (foldl_fixed fun k _ => removeEnt_ended rfl)
    next => exact ih fun k member => clear k (mem_cons_of_mem ei member)

end

theorem Invariant.clear (inv : Invariant nrInodes s) (used : (s.dir.slot p).ino ≠ 0)
    (near : ∀ q, Left s.dir (s.dir.slot p).name q → q.ei = p.ei ∧ q.bi = p.bi)
    (other : ¬(ei = p.ei ∧ bi = p.bi)) : Clear s.dir (s.dir.slot p).name ei bi := by
  intro files
  refine nameAt_eq_none.mpr fun fi same => ?_
  by_cases free : (s.dir.slot ⟨ei,bi,fi⟩).ino = 0
  · exact other (near ⟨ei,bi,fi⟩ ⟨free,same,files⟩)
  · obtain rfl := inv.unique ⟨ei,bi,fi⟩ p free used same
    exact other ⟨rfl,rfl⟩

theorem remove_bound (inv : Invariant nrInodes s) (reads : env.Reads) (used : (s.dir.slot p).ino ≠ 0)
    (near : ∀ q, Left s.dir (s.dir.slot p).name q → q.ei = p.ei ∧ q.bi = p.bi) :
    ∃ status, status ≠ .aborted ∧ sefsRemoveDirent nrInodes env s.dir (s.dir.slot p).name =
      ⟨s.dir.without p,some (s.dir.slot p).ino,status⟩ := by
  have slot := inv.counted.slot_le p
  have block := inv.counted.block_le p.ei p.bi
  rw [live_used used] at slot
  have clear : ∀ {ei bi}, ¬(ei = p.ei ∧ bi = p.bi) → Clear s.dir (s.dir.slot p).name ei bi :=
    fun other => inv.clear used near other
  have after : ∀ {ei bi}, ¬(ei = p.ei ∧ bi = p.bi) →
      Clear (s.dir.without p) (s.dir.slot p).name ei bi := by
    intro ei bi other
    rw [Clear,block_change,if_neg other]
    exact clear other
  have here : removeBlock nrInodes env (s.dir.slot p).name p.ei ⟨s.dir,none,.going⟩ p.bi =
      ⟨s.dir.without p,some (s.dir.slot p).ino,.going⟩ := by
    have found : nameAt ((s.dir.ents p.ei).blocks p.bi) (s.dir.slot p).name = some p.fi := inv.nameAt_used used
    have got : sefsIget nrInodes (((s.dir.ents p.ei).blocks p.bi).files p.fi).ino = .inode (s.dir.slot p).ino :=
      inv.sefsIget_used used
    have files : ((s.dir.ents p.ei).blocks p.bi).nrFiles ≠ 0 := Nat.ne_of_gt slot
    simp only [removeBlock,reads.2,Bool.true_eq_false,if_false,files,found,got]
    rfl
  have ent : removeEnt nrInodes env (s.dir.slot p).name ⟨s.dir,none,.going⟩ p.ei =
      ⟨s.dir.without p,some (s.dir.slot p).ino,.going⟩ := by
    obtain ⟨l,r,split,before,later⟩ := finRange_split p.bi
    rw [removeEnt]
    simp only [split,foldl_append,foldl_cons]
    rw [if_neg (inv.allocated used),if_neg (by omega),
      foldl_fixed fun bi member => removeBlock_clear reads rfl (clear fun both => absurd both.2 (before bi member).ne),here,
      foldl_fixed fun bi member => removeBlock_clear reads rfl (after fun both => absurd both.2 (later bi member).ne')]
  obtain ⟨l,r,split,before,later⟩ := finRange_split p.ei
  have first : l.foldl (removeEnt nrInodes env (s.dir.slot p).name) ⟨s.dir,none,.going⟩ = ⟨s.dir,none,.going⟩ := by
    refine foldl_fixed fun ei member => ?_
    rw [removeEnt_clear reads rfl fun bi => clear fun both => absurd both.1 (before ei member).ne,if_neg]
    exact fun bare => inv.allocated used (inv.ents ei p.ei bare (before ei member).le)
  rw [sefsRemoveDirent,reads.1,if_neg (by decide),split,foldl_append,first,foldl_cons,ent]
  rcases removeEnts_clear (r := ⟨s.dir.without p,some (s.dir.slot p).ino,.going⟩) reads rfl
    fun ei member bi => after fun both => absurd both.1 (later ei member).ne' with same | ended
  · exact ⟨.going,by decide,same⟩
  · exact ⟨.ended,by decide,ended⟩

theorem remove_absent (nrInodes : Nat) (reads : env.Reads) (unbound : ¬Bound dir name) (clean : ∀ p, ¬Left dir name p) :
    ∃ status, status ≠ .aborted ∧ sefsRemoveDirent nrInodes env dir name = ⟨dir,none,status⟩ := by
  have clear : ∀ ei bi, Clear dir name ei bi := fun ei bi files => nameAt_eq_none.mpr (name_absent unbound clean files)
  rw [sefsRemoveDirent,reads.1,if_neg (by decide)]
  rcases removeEnts_clear (r := ⟨dir,none,.going⟩) (l := finRange _) reads rfl fun ei _ bi => clear ei bi with same | ended
  · exact ⟨.going,by decide,same⟩
  · exact ⟨.ended,by decide,ended⟩

structure Approaching (nrInodes : Nat) (name : Name) (q : Slot perBlock) (r : Removal perBlock) : Prop where
  inv : ∃ map, Invariant nrInodes ⟨r.dir,map⟩
  left : Left r.dir name q
  alone : ∀ fi, (r.dir.slot ⟨q.ei,q.bi,fi⟩).name = name → (r.dir.slot ⟨q.ei,q.bi,fi⟩).ino = 0
  status : r.status ≠ .ended

namespace Approaching

variable {r : Removal perBlock}

section

variable (near : Approaching nrInodes name q r)
include near

theorem going (alive : r.status ≠ .aborted) : r.status = .going := by
  have notEnded := near.status
  cases status : r.status <;> simp_all

theorem removeBlock (reads : env.Reads) (ei : Fin sefsDInfoEntMax) (bi : Fin sefsDentBlocks) :
    Approaching nrInodes name q (removeBlock nrInodes env name ei r bi) := by
  by_cases aborted : r.status = .aborted
  · rwa [removeBlock_aborted aborted]
  obtain ⟨map,inv⟩ := near.inv
  rcases removeBlock_cases inv reads (near.going aborted) name ei bi with
      ⟨-,same⟩ | ⟨fi,named,⟨free,aborts⟩ | ⟨used,taken⟩⟩
  · rwa [same]
  · rw [aborts]
    exact ⟨⟨map,inv⟩,near.left,near.alone,nofun⟩
  · have other : ¬(q.ei = ei ∧ q.bi = bi) := by
      rintro ⟨rfl,rfl⟩
      exact used (near.alone fi named)
    have block : (r.dir.without ⟨ei,bi,fi⟩).block q.ei q.bi = r.dir.block q.ei q.bi := by rw [block_change,if_neg other]
    rw [taken]
    refine ⟨⟨_,inv.remove used⟩,?_,?_,nofun⟩
    · simpa only [Left,Dir.slot,block] using near.left
    · simpa only [Dir.slot,block] using near.alone

theorem removeBlock_here (reads : env.Reads) : (SefsDir.removeBlock nrInodes env name q.ei r q.bi).status = .aborted := by
  by_cases aborted : r.status = .aborted
  · rwa [removeBlock_aborted aborted]
  obtain ⟨map,inv⟩ := near.inv
  obtain ⟨-,same,files⟩ := near.left
  rcases removeBlock_cases inv reads (near.going aborted) name q.ei q.bi with
      ⟨clear,-⟩ | ⟨fi,named,⟨-,aborts⟩ | ⟨used,-⟩⟩
  · exact absurd same (nameAt_eq_none.mp (clear files) q.fi)
  · rw [aborts]
  · exact absurd (near.alone fi named) used

theorem allocated (below : ei ≤ q.ei) : (r.dir.ents ei).bno ≠ 0 := by
  obtain ⟨map,inv⟩ := near.inv
  exact fun bare => inv.block_allocated near.left.2.2 (inv.ents ei q.ei bare below)

theorem removeEnt (reads : env.Reads) (below : ei ≤ q.ei) :
    Approaching nrInodes name q (removeEnt nrInodes env name r ei) := by
  by_cases aborted : r.status = .aborted
  · rwa [removeEnt_aborted aborted]
  rw [SefsDir.removeEnt,near.going aborted]
  simp only [near.allocated below,if_false]
  split
  next => exact near
  next => exact foldlRecOn _ _ near fun r near bi _ => near.removeBlock reads ei bi

theorem removeEnt_here (reads : env.Reads) : (SefsDir.removeEnt nrInodes env name r q.ei).status = .aborted := by
  by_cases aborted : r.status = .aborted
  · rwa [removeEnt_aborted aborted]
  obtain ⟨map,inv⟩ := near.inv
  have block := inv.counted.block_le q.ei q.bi
  have files := near.left.2.2
  obtain ⟨l,l',split,-,-⟩ := finRange_split q.bi
  rw [SefsDir.removeEnt,near.going aborted]
  simp only [near.allocated le_rfl,if_false,split,foldl_append,foldl_cons]
  rw [if_neg (by simp only at block; omega)]
  have before : Approaching nrInodes name q (l.foldl (SefsDir.removeBlock nrInodes env name q.ei) r) :=
    foldlRecOn _ _ near fun r near bi _ => near.removeBlock reads q.ei bi
  have here := before.removeBlock_here reads
  rwa [foldl_fixed fun bi _ => removeBlock_aborted here bi]

end

end Approaching

theorem remove_left (inv : Invariant nrInodes s) (reads : env.Reads) (left : Left s.dir name q)
    (alone : ∀ fi, (s.dir.slot ⟨q.ei,q.bi,fi⟩).name = name → (s.dir.slot ⟨q.ei,q.bi,fi⟩).ino = 0) :
    (sefsRemoveDirent nrInodes env s.dir name).status = .aborted := by
  have start : Approaching nrInodes name q ⟨s.dir,none,.going⟩ := ⟨⟨s.map,inv⟩,left,alone,nofun⟩
  obtain ⟨l,l',split,before,-⟩ := finRange_split q.ei
  have near : Approaching nrInodes name q (l.foldl (removeEnt nrInodes env name) ⟨s.dir,none,.going⟩) :=
    foldlRecOn _ _ start fun r near ei member => near.removeEnt reads (before ei member).le
  have here := near.removeEnt_here reads
  rw [sefsRemoveDirent,reads.1,if_neg (by decide),split,foldl_append,foldl_cons,foldl_fixed fun ei _ => removeEnt_aborted here]
  exact here

/-- A free slot with the name shares its block with the slot in use that has it. -/
def Together (dir : Dir perBlock) (name : Name) : Prop :=
  ∀ q, Left dir name q → ∃ fi, (dir.slot ⟨q.ei,q.bi,fi⟩).ino ≠ 0 ∧ (dir.slot ⟨q.ei,q.bi,fi⟩).name = name

def Binds (dir : Dir perBlock) (name : Name) (ino : Nat) : Prop := ino ≠ 0 ∧ ∃ p, dir.slot p = ⟨ino,name⟩

/-- Blocks can be read; a create is of a new name and a valid inode; an unlink finds freed slots with the name only next to the
one in use, and a lookup only if the name is bound. -/
def Allowed (nrInodes : Nat) (s : State perBlock) : Act → Prop
  | .create env newInode name => env.Reads ∧
    (∀ ino, newInode = some ino → ino ≠ 0 ∧ ino < nrInodes) ∧ ¬Bound s.dir name
  | .unlink env name => env.Reads ∧ Together s.dir name
  | .lookup env name => env.Reads ∧ ∀ q, Left s.dir name q → Bound s.dir name

/-- The operation answers as the map does, and an unlink leaves the other names as they are. -/
def Refines (nrInodes : Nat) (s : State perBlock) : Act → Prop
  | .create env newInode name => (step nrInodes s (.create env newInode name)).isSome
  | .unlink env name =>
    let removal := sefsRemoveDirent nrInodes env s.dir name
    removal.status ≠ .aborted ∧ removal.inode = s.map name ∧ ∀ other ≠ name, ∀ ino,
      Binds removal.dir other ino ↔ Binds s.dir other ino
  | .lookup env name => sefsLookup nrInodes env s.dir name = answer s.map name

theorem unlink_step (inv : Invariant nrInodes s) (reads : env.Reads) (together : Together s.dir name) :
    (∃ t, step nrInodes s (.unlink env name) = some t ∧ Invariant nrInodes t) ∧ Refines nrInodes s (.unlink env name) := by
  by_cases bound : Bound s.dir name
  · obtain ⟨p,used,rfl⟩ := bound
    have near : ∀ q, Left s.dir (s.dir.slot p).name q → q.ei = p.ei ∧ q.bi = p.bi := by
      intro q left
      obtain ⟨fi,live,same⟩ := together q left
      obtain rfl := inv.unique ⟨q.ei,q.bi,fi⟩ p live used same
      exact ⟨rfl,rfl⟩
    obtain ⟨status,alive,removed⟩ := remove_bound inv reads used near
    have after := inv.remove used
    refine ⟨⟨_,by simp only [step,removed,alive,if_false,isSome_some,if_true],after⟩,?_⟩
    simp only [Refines,removed]
    refine ⟨alive,(inv.map_used used).symm,fun other different ino => ?_⟩
    rw [Binds,Binds,← inv.bound other ino,← after.bound other ino]
    exact iff_of_eq (congrArg (· = some ino) (update_of_ne different ..))
  · have clean : ∀ q, ¬Left s.dir name q := by
      intro q left
      obtain ⟨fi,live,same⟩ := together q left
      exact bound ⟨_,live,same⟩
    obtain ⟨status,alive,removed⟩ := remove_absent nrInodes reads bound clean
    refine ⟨⟨s,by simp [step,removed,alive],inv⟩,?_⟩
    simp only [Refines,removed]
    exact ⟨alive,(inv.map_unbound bound).symm,fun _ _ _ => trivial⟩

theorem unlink_iff (inv : Invariant nrInodes s) (reads : env.Reads) :
    Refines nrInodes s (.unlink env name) ↔ Together s.dir name := by
  refine ⟨fun refines => ?_,fun together => (unlink_step inv reads together).2⟩
  intro q left
  by_contra alone
  refine refines.1 (remove_left inv reads left fun fi same => ?_)
  by_contra used
  exact alone ⟨fi,used,same⟩

theorem newDir_invariant (perBlock nrInodes : Nat) :
    Invariant nrInodes (⟨newDir perBlock,fun _ => none⟩ : State perBlock) := by
  have free : ∀ p, (newDir perBlock).slot p = ⟨0,[]⟩ := fun _ => rfl
  refine ⟨⟨fun _ _ => ?_,fun _ => ?_,?_⟩,fun _ _ _ _ => rfl,fun _ _ => rfl,fun p used => ?_,
    fun name ino => ?_,fun p _ used => ?_,
    fun p _ used => ?_⟩
  · exact (tally_eq_zero live _ fun _ => rfl).symm
  · exact (tally_eq_zero DirBlock.nrFiles _ fun _ => rfl).symm
  · exact (tally_eq_zero DInfoEnt.nrFiles _ fun _ => rfl).symm
  · exact absurd (congrArg Dirent.ino (free p)) used
  · refine ⟨nofun,fun binds => ?_⟩
    obtain ⟨used,p,here⟩ := binds
    exact absurd (congrArg Dirent.ino ((free p).symm.trans here)).symm used
  · exact absurd (congrArg Dirent.ino (free p)) used
  · exact absurd (congrArg Dirent.ino (free p)) used

theorem allowed_step (inv : Invariant nrInodes s) (allowed : Allowed nrInodes s act) :
    (∃ t, step nrInodes s act = some t ∧ Invariant nrInodes t) ∧ Refines nrInodes s act := by
  cases act with
  | create env newInode name =>
    obtain ⟨t,next,keeps⟩ := create_step inv allowed.1 allowed.2.2 allowed.2.1
    exact ⟨⟨t,next,keeps⟩,by simp [Refines,next]⟩
  | unlink env name => exact unlink_step inv allowed.1 allowed.2
  | lookup env name =>
    have correct := (lookup_iff inv allowed.1).mpr allowed.2
    refine ⟨⟨s,?_,inv⟩,correct⟩
    rw [step,if_neg]
    rw [correct,answer]
    cases s.map name <;> simp

/-- Runs of allowed calls are those of the map from names to inodes, and in the state reached the conditions on lookups
and unlinks are exact. -/
theorem directory_refines_map (perBlock nrInodes : Nat) (acts : List Act)
    (along : Along (step nrInodes) (Allowed nrInodes) (⟨newDir perBlock,fun _ => none⟩ : State perBlock) acts) :
    Along (step nrInodes) (Refines nrInodes) (⟨newDir perBlock,fun _ => none⟩ : State perBlock) acts ∧
      ∃ t, run (step nrInodes) (⟨newDir perBlock,fun _ => none⟩ : State perBlock) acts = some t ∧
        ∀ env name, env.Reads →
        (Refines nrInodes t (.lookup env name) ↔ ∀ q, Left t.dir name q → Bound t.dir name) ∧
          (Refines nrInodes t (.unlink env name) ↔ Together t.dir name) := by
  have start := newDir_invariant perBlock nrInodes
  constructor
  · refine Along.of_invariant (step nrInodes) (Invariant nrInodes) (Allowed nrInodes)
      (Refines nrInodes) ?_ ?_ _ acts start along
    · intro s act t inv allowed next
      obtain ⟨u,here,keeps⟩ := (allowed_step inv allowed).1
      obtain rfl := some.inj (here.symm.trans next)
      exact keeps
    · exact fun s act inv allowed => (allowed_step inv allowed).2
  · obtain ⟨t,ran,inv⟩ := run_reaches (step nrInodes) (Invariant nrInodes) (Allowed nrInodes)
      (fun s act inv allowed => (allowed_step inv allowed).1) _ acts start along
    exact ⟨t,ran,fun env name reads => ⟨lookup_iff inv reads,unlink_iff inv reads⟩⟩

def readable : Env := ⟨true,fun _ _ => true,40⟩

def fileMadeAndUnlinked : List Act := [.create readable (some 2) [97],.lookup readable [97],.unlink readable [97]]

theorem directory_refines_map_file :
    Along (step 56) (Allowed 56) (⟨newDir 15,fun _ => none⟩ : State 15) fileMadeAndUnlinked ∧
      Along (step 56) (Refines 56) (⟨newDir 15,fun _ => none⟩ : State 15) fileMadeAndUnlinked := by
  have reads : readable.Reads := ⟨rfl,fun _ _ => rfl⟩
  have made : step 56 (⟨newDir 15,fun _ => none⟩ : State 15) (.create readable (some 2) [97]) =
      some ⟨((newDir 15).allocExt 0 40).change 0 0 0 ⟨2,[97]⟩ (· + 1),update (fun _ => none) [97] (some 2)⟩ := rfl
  have clean : ∀ q, ¬Left (((newDir 15).allocExt 0 40).change 0 0 0 ⟨2,[97]⟩ (· + 1)) [97] q := by
    rintro q ⟨free,named,-⟩
    rw [slot_change _ ⟨0,0,0⟩] at free named
    split at free
    next => exact absurd free (by decide)
    next other =>
      rw [if_neg other,slot_allocExt] at named
      split at named <;> exact absurd named (by simp [newDir,Dir.slot,Dir.block,scrubbed])
  have along : Along (step 56) (Allowed 56) (⟨newDir 15,fun _ => none⟩ : State 15) fileMadeAndUnlinked := by
    refine Along.cons _ ⟨reads,by decide,?_⟩ made ⟨⟨reads,fun q left => absurd left (clean q)⟩,fun t next => ?_⟩
    · rintro ⟨p,used,-⟩
      exact used rfl
    · simp only [step] at next
      obtain ⟨-,⟨⟩⟩ := ite_none_left_eq_some.mp next
      exact ⟨⟨reads,fun q left => absurd left (clean q)⟩,fun _ _ => trivial⟩
  exact ⟨along,(directory_refines_map 15 56 fileMadeAndUnlinked along).1⟩

/-- Two files are made and one is unlinked: the lookup of its name, or another unlink, aborts the daemon. -/
theorem unlinked_name_aborts :
    (run (step 56) (⟨newDir 15,fun _ => none⟩ : State 15)
      [.create readable (some 2) [97],.create readable (some 3) [98],.unlink readable [97]]).map (fun s =>
        (s.map [97],s.map [98],sefsLookup 56 readable s.dir [97],(sefsRemoveDirent 56 readable s.dir [97]).status)) =
      some (none,some 3,.abort,.aborted) := by
  decide +kernel

end Oxbow.Daemon.SefsDir
