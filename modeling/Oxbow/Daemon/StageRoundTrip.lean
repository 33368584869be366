import Oxbow.DevFS.StageScan
import Oxbow.Daemon.StageFill

/-! What DevFS reads back from a stage transaction. The checkpoint expects the extent tag
blocks right behind the descriptor, but an index block is buffered before the tags that may
still open one. -/
namespace Oxbow.Daemon.Stage

open Oxbow.Lib Oxbow.Sjd Oxbow.DevFS List

theorem countP_replicate_etag (n : Nat) : (replicate n Item.etag).countP Item.isEtag = n := by
  rw [countP_replicate]
  rfl

def Image.Sorted (i : Image) (ps : List Page) : Prop :=
  i.body = replicate i.etags .etag ++ ps.map .blk

theorem OnDisk.tags (onDisk : OnDisk disk start i) (sorted : i.Sorted ps) :
    stageDescBlk.entries (disk start) ++
      ((List.range i.etags).flatMap fun k => etagBlk.entries (disk (start + 1 + k))) = i.tags := by
  have each : ∀ k ∈ List.range i.etags, etagBlk.entries (disk (start + 1 + k)) =
      spilled stageDescBlkTagMax journalEtagMax i.tags k := by
    intro k member
    have small := mem_range.mp member
    have found : i.body[k]? = some .etag := by
      rw [sorted,getElem?_append_left (by rw [length_replicate]; exact small),
        getElem?_replicate,if_pos small]
    rw [onDisk.holds.2 k found,Image.tagsIn,sorted,take_append_of_le_length
      (by rw [length_replicate]; omega),take_replicate,Nat.min_eq_left (by omega),countP_replicate_etag]
  rw [flatMap_congr each,onDisk.described.tags,onDisk.counted]
  exact spill_complete stageDescBlkTagMax (by decide) i.tags

theorem nodes_addresses (tags : List Extent) (src : Nat) :
    (tags.map fun t => (⟨t.start,src,t.len,true⟩ : TagListNode)).flatMap
      (fun n => (List.range n.cnt).map (n.start + ·)) = tags.flatMap Extent.addresses := by
  rw [flatMap_map]
  rfl

/-- A sorted transaction is read back as its blocks at the blocks its tags name. -/
theorem OnDisk.decode (onDisk : OnDisk disk start i) (sorted : i.Sorted ps)
    (stage : LogRing) (inside : start + i.body.length ≤ stage.last)
    (enough : (i.tags.flatMap Extent.addresses).length ≤ ps.length) :
    decodeStageTx stage disk start = some (ps.zip (i.tags.flatMap Extent.addresses)) := by
  have nr : DevFS.nrEtagBlks (disk start) = i.etags := onDisk.described.nr
  have few := i.etags_le
  have tags := onDisk.tags sorted
  have read := readStageDescBlk_inside stage disk (show start ≤ stage.last by omega)
  rw [decodeStageTx,read]
  by_cases empty : i.tags = []
  · have none : stageDescBlk.nr (disk start) = 0 := by
      rw [← stageDescBlk.entries_length,onDisk.described.tags,empty,take_nil,length_nil]
    have unopened : i.etags = 0 := by
      rw [onDisk.counted,empty]
      rfl
    rw [scanStageTx,read]
    simp only [none,if_true,nr,unopened,Option.map_some,empty]
    simp [groupWrites]
  · have some : stageDescBlk.nr (disk start) ≠ 0 := by
      rw [← stageDescBlk.entries_length,onDisk.described.tags,length_take]
      have := length_pos_iff.mpr empty
      have : 0 < stageDescBlkTagMax := by decide
      omega
    rw [scanStageTx_inside stage disk some (by rw [nr]; omega),nr,tags,Option.map_some,groupWrites,nodes_addresses]
    congr 1
    apply ext_getElem
    · simp only [length_map,length_mapIdx,length_zip]
      omega
    · intro k left right
      simp only [length_map,length_mapIdx] at left
      have bound : k < ps.length := by omega
      have length : i.body.length = i.etags + ps.length := by
        conv_lhs => rw [sorted]
        simp
      have found : i.body[i.etags + k]? = .some (.blk ps[k]) := by
        conv_lhs => rw [sorted]
        rw [getElem?_append_right (by simp)]
        simp [bound]
      have there : disk (start + 1 + (i.etags + k)) = ps[k] := onDisk.holds.1 _ _ found
      simp only [getElem_map,getElem_mapIdx,getElem_zip]
      rw [Ring.block_before_end _ (by omega),← there]
      congr 2
      omega

/-- The first thing DevFS takes for data, whatever it makes of the blocks before. -/
theorem OnDisk.decode_head (onDisk : OnDisk disk start i) (stage : LogRing)
    (inside : start + i.etags + 1 ≤ stage.last) (single : i.tags = ⟨dest,1⟩ :: rest)
    (decoded : decodeStageTx stage disk start = some pairs) :
    pairs.head? = some (disk (start + 1 + i.etags),dest) := by
  have nr : DevFS.nrEtagBlks (disk start) = i.etags := onDisk.described.nr
  have desc : stageDescBlk.entries (disk start) = ⟨dest,1⟩ :: rest.take (stageDescBlkTagMax - 1) := by
    rw [onDisk.described.tags,single]
    rfl
  have some : stageDescBlk.nr (disk start) ≠ 0 := by
    rw [← stageDescBlk.entries_length,desc]
    simp
  rw [decodeStageTx,readStageDescBlk_inside stage disk (show start ≤ stage.last by omega),
    scanStageTx_inside stage disk some (by rw [nr]; omega),nr,desc,Option.map_some,groupWrites,nodes_addresses] at decoded
  have one : (⟨dest,1⟩ : Extent).addresses = [dest] := by simp [Extent.addresses]
  rw [← Option.some.inj decoded,cons_append,flatMap_cons,one,singleton_append,mapIdx_cons,
    map_cons,List.head?_cons,Ring.block_before_end _ (by omega)]
  congr 3
  omega

/-- What the daemon staged: each dirty index block at its number, each dirty page at the
block it is mapped to. -/
def staged (f : File) (x : Contents) : List (Page × Nat) :=
  f.dirtyIndex.map (fun bh => (x.block bh.blocknr,bh.blocknr)) ++
    f.pages.map fun p => (x.page p,f.extents.block p)

/-- Whatever the bytes are, staging the file succeeds and DevFS decodes exactly what was
staged. -/
def RoundTrip (c : SeqBufs) (j : StageArea.Journal) (stage : LogRing) (f : File) : Prop :=
  ∀ (x : Contents) (d : Disk), ∃ s, stageFile c j f x = some s ∧
    decodeStageTx stage (written d s.trace) s.start = some (staged f x)

theorem File.image_tags (f : File) (x : Contents) : (f.image x).tags = f.indexTags ++ f.tags := by
  rw [File.image,Image.copies_eq,(f.front_shape x).1]

theorem File.image_etags (f : File) (x : Contents) : (f.image x).etags = f.nrEtagBlks := by
  rw [File.image,Image.copies_eq,Image.etags,countP_append,← Image.etags,(f.front_shape x).2.2.1]
  simp [countP_map,Function.comp_def,Item.isEtag]

theorem File.image_addresses (f : File) (x : Contents) :
    (f.image x).tags.flatMap Extent.addresses =
      f.dirtyIndex.map BufferHead.blocknr ++ f.pages.map f.extents.block := by
  rw [f.image_tags,flatMap_append,f.tags_addresses,File.indexTags,flatMap_map]
  congr 1
  induction f.dirtyIndex with
  | nil => rfl
  | cons bh bhs ih =>
    rw [flatMap_cons,ih]
    rfl

theorem Image.wrtags_etags (i : Image) (ts : List Extent) (all : ∀ x ∈ i.body, x = Item.etag) :
    ∀ x ∈ (i.wrtags ts).body, x = Item.etag := by
  induction ts generalizing i with
  | nil => exact all
  | cons t ts ih =>
    apply ih
    unfold Image.wrtag
    split
    · intro x member
      rcases mem_append.mp member with old | new
      · exact all x old
      · exact mem_singleton.mp new
    · exact all

theorem body_of_no_etag (body : List Item) (none : body.countP Item.isEtag = 0) :
    body = (body.filterMap Item.page).map .blk := by
  induction body with
  | nil => rfl
  | cons x body ih =>
    cases x with
    | blk p =>
      simp only [countP_cons,Item.isEtag,Bool.false_eq_true,if_false,Nat.add_zero] at none
      rw [filterMap_cons,Item.page,map_cons,← ih none]
    | etag => simp [countP_cons,Item.isEtag] at none

/-- Tags all in the descriptor, or no index block before the tags. -/
def File.TagsFirst (f : File) : Prop :=
  f.dirtyIndex = [] ∨ f.dirtyIndex.length + f.tags.length < stageDescBlkTagMax

instance (f : File) : Decidable f.TagsFirst := inferInstanceAs (Decidable (_ ∨ _))

theorem File.front_sorted (f : File) (x : Contents) (first : f.TagsFirst) :
    (f.front x).Sorted (f.dirtyIndex.map fun bh => x.block bh.blocknr) := by
  obtain ⟨_,blks,etags,size⟩ := f.front_shape x
  rcases first with none | few
  · have all := Image.wrtags_etags (Image.empty.index x.block f.dirtyIndex) f.tags (by simp [none,Image.index,Image.empty])
    rw [none,length_nil,Nat.zero_add] at size
    rw [Image.Sorted,none,map_nil,map_nil,append_nil,etags,← size]
    exact eq_replicate_of_mem all
  · have unopened : f.nrEtagBlks = 0 := by
      rw [File.nrEtagBlks,etagBlks,spillTables,if_pos few]
    rw [unopened] at etags
    rw [Image.Sorted,etags,← blks,replicate_zero,nil_append]
    exact body_of_no_etag _ etags

theorem roundTrip_of_tagsFirst (c : SeqBufs) (j : StageArea.Journal) (stage : LogRing) (f : File)
    (admitted : Admitted c j stage f) (first : f.TagsFirst) : RoundTrip c j stage f := by
  intro x d
  obtain ⟨s,made,onDisk,inside⟩ := stageFile_onDisk c j stage f x d admitted
  refine ⟨s,made,?_⟩
  have sorted : (f.image x).Sorted ((f.dirtyIndex.map fun bh => x.block bh.blocknr) ++
      (f.pages.map x.page ++ (List.range f.waiting).map x.waiting)) := by
    have front := f.front_sorted x first
    rw [Image.Sorted,f.image_etags,map_append,← append_assoc,← (f.front_shape x).2.2.1,← front,File.image,
      Image.copies_eq]
  rw [onDisk.decode sorted stage inside (by rw [f.image_addresses]; simp),f.image_addresses,
    zip_append (by simp),staged]
  congr 2
  · simp [zip_map']
  · have more : f.pages.map f.extents.block = f.pages.map f.extents.block ++ [] := (append_nil _).symm
    rw [more,zip_append (by simp),zip_nil_right,append_nil]
    simp [zip_map']

theorem Image.wrtag_extends (i : Image) (t : Extent) : i.body <+: (i.wrtag t).body := by
  unfold Image.wrtag
  split
  · exact prefix_append _ _
  · exact prefix_refl _

theorem Image.wrtags_extends (i : Image) (ts : List Extent) : i.body <+: (i.wrtags ts).body := by
  induction ts generalizing i with
  | nil => exact prefix_refl _
  | cons t ts ih => exact (i.wrtag_extends t).trans (ih _)

theorem Image.index_extends (data : Nat → Page) (i : Image) (bhs : List BufferHead) :
    i.body <+: (i.index data bhs).body := by
  induction bhs generalizing i with
  | nil => exact prefix_refl _
  | cons bh bhs ih =>
    refine List.IsPrefix.trans ?_ (ih _)
    exact (prefix_append i.body _).trans (Image.wrtag_extends (i.copy (data bh.blocknr)) _)

theorem File.front_begins (f : File) (x : Contents) (index : f.dirtyIndex = bh :: bhs) :
    ∃ body, (f.front x).body = .blk (x.block bh.blocknr) :: body ∧
      body.filterMap Item.page = bhs.map fun bh => x.block bh.blocknr := by
  have first : [Item.blk (x.block bh.blocknr)] <+: (f.front x).body := by
    rw [File.front,index]
    refine List.IsPrefix.trans ?_ (Image.wrtags_extends _ _)
    refine List.IsPrefix.trans ?_ (Image.index_extends _ _ bhs)
    exact Image.wrtag_extends (Image.empty.copy _) _
  obtain ⟨body,shape⟩ := first
  refine ⟨body,shape.symm,?_⟩
  have blks := (f.front_shape x).2.1
  rw [Image.blks,← shape,index] at blks
  exact (cons.inj blks).2

def overfull : Page := setWord (fun _ => 0) etagBlk.nrAt (2^32 - 1)

def marked (blocknr : Nat) : Contents where
  block n := if n = blocknr then overfull else fun _ => 0
  page _ := fun _ => 0
  waiting _ := fun _ => 0
  header := fun _ => 0
  commitBlk := fun _ => 0
  buf _ := fun _ => 0

theorem overfull_nr : etagBlk.nr overfull = 2^32 - 1 := by
  rw [Table.nr,overfull,word_setWord _ (by decide)]
  rfl

theorem nr_le_of_tags (onDisk : OnDisk disk start i) (found : i.body[k]? = some .etag) :
    etagBlk.nr (disk (start + 1 + k)) ≤ journalEtagMax := by
  rw [← etagBlk.entries_length,onDisk.holds.2 k found,Image.tagsIn,spilled,length_take]
  omega

theorem front_not_overfull (f : File) (index : f.dirtyIndex = bh :: bhs) (spills : f.nrEtagBlks ≠ 0)
    (onDisk : OnDisk disk start (f.image (marked bh.blocknr))) :
    disk (start + 1 + f.nrEtagBlks) ≠ overfull := by
  intro same
  obtain ⟨body,shape,others⟩ := f.front_begins (marked bh.blocknr) index
  obtain ⟨_,_,_,size⟩ := f.front_shape (marked bh.blocknr)
  rw [index,length_cons] at size
  have inFront : (f.image (marked bh.blocknr)).body[f.nrEtagBlks]? = body[f.nrEtagBlks - 1]? := by
    rw [File.image,Image.copies_eq]
    rw [getElem?_append_left (by omega),shape,getElem?_cons,if_neg spills]
  have within : f.nrEtagBlks - 1 < body.length := by
    rw [shape,length_cons] at size
    omega
  rw [getElem?_eq_getElem within] at inFront
  cases item : body[f.nrEtagBlks - 1] with
  | etag =>
    rw [item] at inFront
    have few := nr_le_of_tags onDisk inFront
    rw [same,overfull_nr] at few
    exact absurd few (by decide)
  | blk p =>
    rw [item] at inFront
    have page : p ∈ body.filterMap Item.page :=
      mem_filterMap.mpr ⟨.blk p,item ▸ getElem_mem within,rfl⟩
    rw [others] at page
    obtain ⟨other,member,rfl⟩ := mem_map.mp page
    have distinct : (f.dirtyIndex.map BufferHead.blocknr).Nodup :=
      f.distinct.sublist (filter_sublist.map _)
    rw [index,map_cons,nodup_cons] at distinct
    have apart : other.blocknr ≠ bh.blocknr := fun equal => distinct.1 (equal ▸ mem_map_of_mem member)
    have zero := onDisk.holds.1 _ _ inFront
    simp only [same,marked,if_neg apart] at zero
    have nr := overfull_nr
    rw [zero] at nr
    exact absurd nr (by decide)

theorem tagsFirst_of_roundTrip (c : SeqBufs) (j : StageArea.Journal) (stage : LogRing) (f : File)
    (admitted : Admitted c j stage f) (roundTrip : RoundTrip c j stage f) : f.TagsFirst := by
  by_contra spills
  obtain ⟨some,many⟩ := not_or.mp spills
  obtain ⟨bh,bhs,index⟩ := exists_cons_of_ne_nil some
  have opened : f.nrEtagBlks ≠ 0 := by
    rw [File.nrEtagBlks,etagBlks,spillTables,if_neg many]
    exact Nat.succ_ne_zero _
  obtain ⟨s,made,decoded⟩ := roundTrip (marked bh.blocknr) fun _ _ => 0
  obtain ⟨s',made',onDisk,inside⟩ := stageFile_onDisk c j stage f (marked bh.blocknr) (fun _ _ => 0) admitted
  obtain rfl : s' = s := Option.some.inj (made'.symm.trans made)
  have size := (f.front_shape (marked bh.blocknr)).2.2.2
  have whole : (f.front (marked bh.blocknr)).body.length ≤ (f.image (marked bh.blocknr)).body.length := by
    rw [File.image,Image.copies_eq]
    simp
  rw [index,length_cons] at size
  have head := onDisk.decode_head stage (by rw [f.image_etags]; omega)
    (by rw [f.image_tags,File.indexTags,index]; rfl) decoded
  rw [f.image_etags,staged,index] at head
  have first := (Prod.mk.inj (Option.some.inj head)).1
  simp only [marked,if_true] at first
  exact front_not_overfull f index opened onDisk first.symm

/-- A stage transaction is decoded as it was staged, whatever the bytes, exactly when it has
no dirty index block or its tags all fit in the descriptor. -/
theorem stageFile_roundTrip_iff (c : SeqBufs) (j : StageArea.Journal) (stage : LogRing) (f : File)
    (admitted : Admitted c j stage f) :
    RoundTrip c j stage f ↔
      f.dirtyIndex = [] ∨ f.dirtyIndex.length + f.tags.length < stageDescBlkTagMax :=
  ⟨tagsFirst_of_roundTrip c j stage f admitted,roundTrip_of_tagsFirst c j stage f admitted⟩

def sampleBufs : SeqBufs := ⟨8,8,by decide,by decide,by decide⟩

def sampleArea : StageArea.Journal := ⟨1001,1001,0,2000,999⟩

def sampleStageLog : LogRing := ⟨⟨1001,1998,by decide⟩,by decide,by decide⟩

def scattered : ExtentMap where
  block p := 2 * (p % 2^32)
  getBlocks p := ⟨p,1,2 * (p % 2^32)⟩
  contains p := by simp
  maps p q from' below := by
    simp only at from' below ⊢
    have same : q = p := by omega
    rw [same,Nat.sub_self,Nat.add_zero]
  addressable p := by omega

def sampleFile (nr : Nat) (fits : nr < 2^31) : File where
  privateList := [⟨500,true⟩]
  distinct := by decide
  addressable := by decide
  ird := Ird.empty.add ⟨0,nr,fits⟩
  extents := scattered
  waiting := 0
  skipped := 0

theorem sampleArea_bounds : StageArea.Bounds sampleArea := ⟨by decide,by decide,by decide,by decide⟩

theorem stageFile_roundTrip_twoPages :
    RoundTrip sampleBufs sampleArea sampleStageLog (sampleFile 2 (by decide)) :=
  (stageFile_roundTrip_iff sampleBufs sampleArea sampleStageLog (sampleFile 2 (by decide))
    ⟨by decide,sampleArea_bounds,by decide,by decide,by decide,⟨1006,1001,0,2000,999⟩,1001,1005,by decide⟩).mpr
      (by decide)

/-- With 315 pages the last tag fills the descriptor, and the extent tag block lands behind
the index block. -/
theorem stageFile_index_block_lost :
    ¬ RoundTrip sampleBufs sampleArea sampleStageLog (sampleFile 315 (by decide)) := by
  intro roundTrip
  have first := tagsFirst_of_roundTrip sampleBufs sampleArea sampleStageLog (sampleFile 315 (by decide))
    ⟨by decide +kernel,sampleArea_bounds,by decide,by decide,by decide +kernel,⟨1320,1001,0,2000,999⟩,1001,1319,
      by decide +kernel⟩ roundTrip
  revert first
  decide +kernel

end Oxbow.Daemon.Stage
