import Oxbow.DevFS.Bio
import Oxbow.Daemon.StageImage

/-! The phases of `stage_file` in terms of the tags and the pages of a file: staging succeeds
under what the daemon relies on, and leaves the image of the file on the disk. -/
namespace Oxbow.Daemon.Stage

open Oxbow.Lib Oxbow.Sjd Oxbow.DevFS Function List Option

def wrtags (c : SeqBufs) : List Extent → StageTx → Option StageTx
  | [], s => some s
  | t :: ts, s => (stxWrtag c s t).bind (wrtags c ts)

def copyAll (c : SeqBufs) : List Page → StageTx → Option StageTx
  | [], s => some s
  | p :: ps, s => (copyBlk c s p).bind (copyAll c ps)

theorem wrtags_append (c : SeqBufs) (ts us : List Extent) (s : StageTx) :
    wrtags c (ts ++ us) s = (wrtags c ts s).bind (wrtags c us) := by
  induction ts generalizing s with
  | nil => rfl
  | cons t ts ih =>
    simp only [cons_append,wrtags,bind_assoc]
    congr 1
    funext s
    exact ih s

theorem copyAll_append (c : SeqBufs) (ps qs : List Page) (s : StageTx) :
    copyAll c (ps ++ qs) s = (copyAll c ps s).bind (copyAll c qs) := by
  induction ps generalizing s with
  | nil => rfl
  | cons p ps ih =>
    simp only [cons_append,copyAll,bind_assoc]
    congr 1
    funext s
    exact ih s

def runTags (m : ExtentMap) : Nat → Nat → Nat → BufferExtent → List Extent
  | 0, _, _, _ => []
  | rounds + 1, start, cnt, be =>
    if start + cnt ≤ be.iblock + be.nr then [⟨be.lba + start - be.iblock,cnt⟩]
    else if start < be.iblock + be.nr then
      ⟨be.lba + start - be.iblock,be.iblock + be.nr - start⟩ ::
        runTags m rounds (start + (be.iblock + be.nr - start)) (cnt - (be.iblock + be.nr - start))
          (m.getBlocks (start + (be.iblock + be.nr - start)))
    else runTags m rounds start cnt (m.getBlocks start)

def rangeTags (m : ExtentMap) (rd : RangeDirty) : List Extent :=
  if rd.nr = 0 then [] else runTags m rd.nr rd.start rd.nr (m.getBlocks rd.start)

def RangeDirty.pages (rd : RangeDirty) : List Nat := (List.range rd.nr).map (rd.start + ·)

theorem fillRun_eq (c : SeqBufs) (m : ExtentMap) (rounds start cnt : Nat) (s : StageTx)
    (positive : 0 < cnt) (enough : cnt ≤ rounds) :
    fillRun c m rounds start cnt (m.getBlocks start) s =
      wrtags c (runTags m rounds start cnt (m.getBlocks start)) s := by
  induction rounds generalizing start cnt s with
  | zero => omega
  | succ rounds ih =>
    have inside := (m.contains start).2
    rw [fillRun,runTags]
    by_cases whole : start + cnt ≤ (m.getBlocks start).iblock + (m.getBlocks start).nr
    · rw [if_pos whole,if_pos whole]
      simp [wrtags]
    · rw [if_neg whole,if_neg whole,if_pos inside,if_pos inside]
      simp only [wrtags]
      congr 1
      funext s
      exact ih _ _ s (by omega) (by omega)

theorem range_split (start a b : Nat) (f : Nat → α) :
    (List.range (a + b)).map (fun k => f (start + k)) =
      (List.range a).map (fun k => f (start + k)) ++ (List.range b).map fun k => f (start + a + k) := by
  rw [List.range_add,List.map_append,List.map_map]
  simp only [comp_def,Nat.add_assoc]

theorem ExtentMap.piece (m : ExtentMap) (start cnt : Nat)
    (whole : start + cnt ≤ (m.getBlocks start).iblock + (m.getBlocks start).nr) :
    (⟨(m.getBlocks start).lba + start - (m.getBlocks start).iblock,cnt⟩ : Extent).addresses =
      (List.range cnt).map fun k => m.block (start + k) := by
  have inside := m.contains start
  apply map_congr_left
  intro k member
  have small : k < cnt := mem_range.mp member
  rw [m.maps start (start + k) (by omega) (by omega)]
  simp only
  omega

/-- The tags of a run name the blocks its pages are mapped to, in order. -/
theorem runTags_addresses (m : ExtentMap) (rounds start cnt : Nat) (positive : 0 < cnt) (enough : cnt ≤ rounds) :
    (runTags m rounds start cnt (m.getBlocks start)).flatMap Extent.addresses =
      (List.range cnt).map fun k => m.block (start + k) := by
  induction rounds generalizing start cnt with
  | zero => omega
  | succ rounds ih =>
    have inside := (m.contains start).2
    rw [runTags]
    by_cases whole : start + cnt ≤ (m.getBlocks start).iblock + (m.getBlocks start).nr
    · rw [if_pos whole,flatMap_singleton,m.piece start cnt whole]
    · rw [if_neg whole,if_pos inside]
      generalize tmp : (m.getBlocks start).iblock + (m.getBlocks start).nr - start = n
      rw [flatMap_cons,m.piece start n (by omega),ih (start + n) (cnt - n) (by omega) (by omega),
        ← range_split start n (cnt - n) m.block,Nat.add_sub_cancel' (by omega)]

theorem runTags_storable (m : ExtentMap) (rounds start cnt : Nat) (small : cnt < 2^31) :
    ∀ t ∈ runTags m rounds start cnt (m.getBlocks start), extent96.Storable t := by
  induction rounds generalizing start cnt with
  | zero => simp [runTags]
  | succ rounds ih =>
    have inside := m.contains start
    have begins : (m.getBlocks start).lba + start - (m.getBlocks start).iblock < 2^64 := by
      have := m.addressable start
      rw [m.maps start start inside.1 inside.2] at this
      omega
    rw [runTags]
    by_cases whole : start + cnt ≤ (m.getBlocks start).iblock + (m.getBlocks start).nr
    · rw [if_pos whole]
      intro t member
      rw [mem_singleton.mp member]
      exact ⟨begins,by simp only; omega⟩
    · rw [if_neg whole,if_pos inside.2]
      exact forall_mem_cons.mpr ⟨⟨begins,by simp only; omega⟩,ih _ _ (by omega)⟩

def Ird.ranges (ird : Ird) : List RangeDirty := ird.nodes.flatten

def File.tags (f : File) : List Extent := f.ird.ranges.flatMap (rangeTags f.extents)

def File.pages (f : File) : List Nat := f.ird.ranges.flatMap RangeDirty.pages

theorem rangeTags_addresses (m : ExtentMap) (rd : RangeDirty) :
    (rangeTags m rd).flatMap Extent.addresses = rd.pages.map m.block := by
  unfold rangeTags RangeDirty.pages
  split
  next none => simp [none]
  next some =>
    rw [runTags_addresses m _ _ _ (by omega) (Nat.le_refl _),List.map_map]
    rfl

theorem File.tags_addresses (f : File) : f.tags.flatMap Extent.addresses = f.pages.map f.extents.block := by
  rw [File.tags,File.pages,flatMap_assoc,map_flatMap]
  apply flatMap_congr
  intro rd _
  exact rangeTags_addresses f.extents rd

theorem File.tags_storable (f : File) : ∀ t ∈ f.tags, extent96.Storable t := by
  intro t member
  obtain ⟨rd,_,inside⟩ := mem_flatMap.mp member
  unfold rangeTags at inside
  split at inside
  · cases inside
  · exact runTags_storable f.extents _ _ _ rd.fits t inside

theorem fillNode_eq (c : SeqBufs) (m : ExtentMap) (node : List RangeDirty) (s : StageTx) :
    fillNode c m node s = wrtags c (node.flatMap (rangeTags m)) s := by
  induction node generalizing s with
  | nil => rfl
  | cons rd node ih =>
    rw [fillNode,flatMap_cons,rangeTags]
    split
    · exact ih s
    · rw [fillRun_eq c m _ _ _ s (by omega) (Nat.le_refl _),wrtags_append]
      congr 1
      funext s
      exact ih s

theorem stageFillTags_eq (c : SeqBufs) (m : ExtentMap) (node : List RangeDirty) (next : List (List RangeDirty))
    (filled : ∀ n ∈ next, n ≠ []) (s : StageTx) :
    stageFillTags c m (node :: next) s = wrtags c ((node :: next).flatten.flatMap (rangeTags m)) s := by
  induction next generalizing node s with
  | nil => simp [stageFillTags,fillNode_eq]
  | cons n next ih =>
    rw [forall_mem_cons] at filled
    have goesOn : ¬ ((n :: next).head?.getD [] = []) := filled.1
    rw [stageFillTags,fillNode_eq,flatten_cons,flatMap_append,wrtags_append]
    congr 1
    funext s
    rw [if_neg goesOn]
    exact ih n filled.2 s

section

variable (c : SeqBufs) (data : Nat → Page)

theorem copyDataBlks_eq (cnt start : Nat) (s : StageTx) :
    copyDataBlks c data cnt start s = copyAll c ((List.range cnt).map fun k => data (start + k)) s := by
  induction cnt generalizing start s with
  | zero => rfl
  | succ cnt ih =>
    rw [copyDataBlks,List.range_succ_eq_map,List.map_cons,List.map_map,copyAll,Nat.add_zero]
    congr 1
    funext s
    rw [ih (start + 1) s]
    congr 2
    funext k
    simp only [comp_apply]
    congr 1
    omega

theorem copyRun_eq (rounds start remains : Nat) (s : StageTx) (enough : remains ≤ rounds) :
    copyRun c data rounds start remains s = copyAll c ((List.range remains).map fun k => data (start + k)) s := by
  induction rounds generalizing start remains s with
  | zero =>
    have none : remains = 0 := by omega
    subst none
    rfl
  | succ rounds ih =>
    have positive := c.blocks
    rw [copyRun]
    by_cases none : remains = 0
    · subst none
      rfl
    · rw [if_neg none]
      generalize chosen : (if s.nrBlocks = 0 then min remains c.perSeq else min remains s.nrBlocks) = n
      have some : 0 < n ∧ n ≤ remains := by
        rw [← chosen]
        split <;> omega
      have all := range_split start n (remains - n) data
      rw [Nat.add_sub_cancel' some.2] at all
      simp only
      rw [copyDataBlks_eq,all,copyAll_append]
      congr 1
      funext s
      exact ih _ _ s (by omega)

theorem copyNode_eq (node : List RangeDirty) (s : StageTx) :
    copyNode c data node s = copyAll c ((node.flatMap RangeDirty.pages).map data) s := by
  induction node generalizing s with
  | nil => rfl
  | cons rd node ih =>
    rw [copyNode,flatMap_cons,List.map_append,copyAll_append]
    split
    next none =>
      rw [ih s]
      simp [RangeDirty.pages,none,copyAll]
    next some =>
      rw [copyRun_eq c data _ _ _ s (Nat.le_refl _),RangeDirty.pages,List.map_map]
      congr 1
      funext s
      exact ih s

theorem stageFillData_eq (nodes : List (List RangeDirty)) (s : StageTx) :
    stageFillData c data nodes s = copyAll c ((nodes.flatten.flatMap RangeDirty.pages).map data) s := by
  induction nodes generalizing s with
  | nil => rfl
  | cons node next ih =>
    rw [stageFillData,copyNode_eq,flatten_cons,flatMap_append,List.map_append,copyAll_append]
    congr 1
    funext s
    exact ih s

end

def File.dirtyIndex (f : File) : List BufferHead := f.privateList.filter BufferHead.dirty

def Image.index (data : Nat → Page) (i : Image) (bhs : List BufferHead) : Image :=
  bhs.foldl (fun i bh => (i.copy (data bh.blocknr)).wrtag ⟨bh.blocknr,1⟩) i

def Image.wrtags (i : Image) (ts : List Extent) : Image := ts.foldl Image.wrtag i

def Image.copies (i : Image) (ps : List Page) : Image := ps.foldl Image.copy i

theorem Image.wrtag_grows (i : Image) (t : Extent) : i.body.length ≤ (i.wrtag t).body.length := by
  unfold Image.wrtag
  split
  · simp
  · exact Nat.le_refl _

theorem Image.wrtags_grows (i : Image) (ts : List Extent) : i.body.length ≤ (i.wrtags ts).body.length := by
  induction ts generalizing i with
  | nil => exact Nat.le_refl _
  | cons t ts ih => exact Nat.le_trans (i.wrtag_grows t) (ih _)

theorem Image.index_grows (data : Nat → Page) (i : Image) (bhs : List BufferHead) :
    i.body.length ≤ (i.index data bhs).body.length := by
  induction bhs generalizing i with
  | nil => exact Nat.le_refl _
  | cons bh bhs ih =>
    refine Nat.le_trans ?_ (ih _)
    refine Nat.le_trans ?_ (Image.wrtag_grows _ _)
    simp [Image.copy]

theorem wrtags_rep (c : SeqBufs) (d : Disk) (ts : List Extent) (storable : ∀ t ∈ ts, extent96.Storable t)
    (s : StageTx) (i : Image) (rep : Rep c d s i) (opened : Open s i)
    (room : (i.wrtags ts).body.length < c.capacity) :
    ∃ s', wrtags c ts s = some s' ∧ Rep c d s' (i.wrtags ts) ∧ Open s' (i.wrtags ts) := by
  induction ts generalizing s i with
  | nil => exact ⟨s,rfl,rep,opened⟩
  | cons t ts ih =>
    rw [forall_mem_cons] at storable
    obtain ⟨s',made,rep',open',_⟩ := stxWrtag_rep c d s i t rep opened
      (Nat.lt_of_le_of_lt (Image.wrtags_grows _ ts) room) storable.1
    rw [wrtags,made]
    exact ih storable.2 s' (i.wrtag t) rep' open' room

theorem copyBlk_open (opened : Open s i) (p : Page) (ext : s'.extBlk = s.extBlk)
    (early : s'.nrIssued = 0) : Open s' (i.copy p) := by
  refine ⟨early,?_,?_⟩
  · intro none
    rw [Image.copy_etags]
    exact opened.noExt (ext ▸ none)
  · intro slot chosen
    obtain ⟨k,place,found,last⟩ := opened.ext slot (ext ▸ chosen)
    have inside : k < i.body.length := (List.getElem?_eq_some_iff.mp found).1
    refine ⟨k,place,?_,?_⟩
    · rw [← found]
      exact List.getElem?_append_left inside
    · rw [Image.copy_etags,← last]
      simp only [Image.copy,take_append_one _ _ (Nat.le_of_lt inside)]

theorem stageFillIndexBlk_rep (c : SeqBufs) (d : Disk) (data : Nat → Page) (bhs : List BufferHead)
    (addressable : ∀ bh ∈ bhs, bh.blocknr < 2^64) (s : StageTx) (i : Image) (rep : Rep c d s i)
    (opened : Open s i) (room : (i.index data (bhs.filter BufferHead.dirty)).body.length < c.capacity) :
    ∃ s', stageFillIndexBlk c data bhs s = some s' ∧ Rep c d s' (i.index data (bhs.filter BufferHead.dirty)) ∧
      Open s' (i.index data (bhs.filter BufferHead.dirty)) := by
  induction bhs generalizing s i with
  | nil => exact ⟨s,rfl,rep,opened⟩
  | cons bh bhs ih =>
    rw [forall_mem_cons] at addressable
    rw [stageFillIndexBlk]
    cases dirty : bh.dirty with
    | false =>
      rw [filter_cons_of_neg (by simp [dirty])] at room ⊢
      rw [if_neg (by simp)]
      exact ih addressable.2 s i rep opened room
    | true =>
      rw [filter_cons_of_pos dirty] at room ⊢
      rw [if_pos rfl]
      have whole := Image.index_grows data ((i.copy (data bh.blocknr)).wrtag ⟨bh.blocknr,1⟩)
        (bhs.filter BufferHead.dirty)
      have roomTag := Nat.lt_of_le_of_lt whole room
      have roomCopy := Nat.lt_of_le_of_lt (Image.wrtag_grows _ _) roomTag
      have pending := rep.count
      rw [StageTx.count,opened.early,Nat.zero_add] at pending
      have free : s.nrPending < c.capacity := by
        simp only [Image.copy,length_append,length_singleton] at roomCopy
        omega
      obtain ⟨t,copied,repCopy,_,ext,inBuffer⟩ := copyBlk_rep c d s i (data bh.blocknr) rep (.inl free)
      have openCopy := copyBlk_open opened (data bh.blocknr) ext ((inBuffer free).trans opened.early)
      obtain ⟨u,tagged,repTag,openTag,_⟩ := stxWrtag_rep c d t _ ⟨bh.blocknr,1⟩ repCopy openCopy roomTag
        ⟨addressable.1,show 1 < 2^32 by decide⟩
      rw [copied]
      simp only [bind_some,tagged]
      exact ih addressable.2 u _ repTag openTag room

theorem copyAll_rep (c : SeqBufs) (d : Disk) (ps : List Page) (s : StageTx) (i : Image) (rep : Rep c d s i)
    (start : s.start ≠ 0) (reserved : s.stageAreaReserved = true) :
    ∃ s', copyAll c ps s = some s' ∧ Rep c d s' (i.copies ps) ∧ Same s s' := by
  induction ps generalizing s i with
  | nil => exact ⟨s,rfl,rep,⟨rfl,rfl,rfl⟩⟩
  | cons p ps ih =>
    obtain ⟨t,copied,rep',same,_⟩ := copyBlk_rep c d s i p rep (.inr ⟨start,reserved⟩)
    obtain ⟨u,rest,rep'',same'⟩ := ih t (i.copy p) rep' (by rw [same.start]; exact start)
      (by rw [same.reserved]; exact reserved)
    rw [copyAll,copied]
    exact ⟨u,rest,rep'',same.trans same'⟩

structure OnDisk (disk : Disk) (start : Nat) (i : Image) : Prop where
  described : i.Described (disk start)
  counted : i.etags = etagBlks i.tags.length
  holds : i.Holds fun k => disk (start + 1 + k)

theorem Request.apply_single (d : Disk) (o : Origin) (start : Nat) (p : Page) (a : Nat) :
    Request.apply d ⟨o,start,[p]⟩ a = if a = start then p else d a := by
  have one := Request.apply_map d o start 1 (fun _ => p) a
  simp only [range_one,map_singleton] at one
  rw [one]
  by_cases there : a = start
  · rw [if_pos there,if_pos (by omega)]
  · rw [if_neg there,if_neg (by omega)]

theorem tail_written (c : SeqBufs) (buf : Nat → Page) (seqNr start nrPending : Nat) (d : Disk)
    (enough : nrPending ≤ seqNr * c.perSeq) (a : Nat) :
    written d (if nrPending = 0 then [] else nvmeDirectWriteAsync c buf seqNr start nrPending false) a =
      if start ≤ a ∧ a < start + nrPending then buf (a - start) else d a := by
  split
  next none =>
    rw [if_neg (by omega)]
    rfl
  next =>
    simpa using nvmeDirectWriteAsync_written c buf seqNr start nrPending false d enough a

/-- The blocks on the disk when `stage_file` is done: the descriptor, then every block of the
transaction where it was counted. -/
theorem stageIo_written (c : SeqBufs) (d : Disk) (commitBlk : Page) (s : StageTx) (buffered : Buffered c s)
    (start : s.start ≠ 0) (reserved : s.stageAreaReserved = true) (commit : s.start + s.count ≤ s.commitBaddr)
    (some : 0 < s.count) :
    ∃ s', stageIo c commitBlk s = .some s' ∧ s'.start = s.start ∧
      written d s'.trace s.start = s.descBlkCopy ∧
      ∀ i, 0 < i → i < s.count → written d s'.trace (s.start + i) = s.blk d i := by
  rw [stageIo,if_pos ⟨start,reserved⟩]
  refine ⟨_,rfl,rfl,?_⟩
  have tail := tail_written c (if s.descBlkSkipped then s.buf else update s.buf 0 s.descBlkCopy)
    (s.seqIdx + 1) (s.start + s.nrIssued) s.nrPending (written d s.trace) buffered.within
  have last : ∀ e a, a ≠ s.commitBaddr →
      written e [.issue ⟨.commit,s.commitBaddr,[commitBlk]⟩,.drainAllOutstanding] a = e a := by
    intro e a other
    simp only [written,foldl_cons,foldl_nil,Event.apply,Request.apply_single,if_neg other]
  have skipped := buffered.skipped
  rw [StageTx.count] at commit some
  simp only [written_append]
  by_cases first : s.nrIssued = 0
  · have whole : s.descBlkSkipped = false := by simp [skipped,first]
    simp only [whole,Bool.false_eq_true,if_false,first,Nat.add_zero] at tail ⊢
    constructor
    · rw [last _ _ (by omega)]
      change written (written d s.trace) _ _ = _
      rw [tail,if_pos (by omega),Nat.sub_self,update_self]
    · intro i positive before
      rw [StageTx.count] at before
      rw [last _ _ (by omega)]
      change written (written d s.trace) _ _ = _
      rw [tail,if_pos (by omega),Nat.add_sub_cancel_left,update_of_ne (by omega),StageTx.blk,
        if_neg (by omega),first]
      rfl
  · have apart : s.descBlkSkipped = true := by simp [skipped,first]
    simp only [apart,if_true] at tail ⊢
    have desc : ∀ e a, written e [.issue ⟨.desc,s.start,[s.descBlkCopy]⟩] a =
        if a = s.start then s.descBlkCopy else e a := by
      intro e a
      simp only [written,foldl_cons,foldl_nil,Event.apply,Request.apply_single]
    constructor
    · rw [last _ _ (by omega),desc,if_pos rfl]
    · intro i positive before
      rw [StageTx.count] at before
      rw [last _ _ (by omega),desc,if_neg (by omega),tail,StageTx.blk]
      by_cases old : i < s.nrIssued
      · rw [if_pos old,if_neg (by omega)]
      · rw [if_neg old,if_pos (by omega)]
        congr 1
        omega

theorem stageIo_onDisk (c : SeqBufs) (d : Disk) (commitBlk : Page) (s : StageTx) (i : Image) (rep : Rep c d s i)
    (start : s.start ≠ 0) (reserved : s.stageAreaReserved = true) (commit : s.start + s.count ≤ s.commitBaddr) :
    ∃ s', stageIo c commitBlk s = some s' ∧ s'.start = s.start ∧ OnDisk (written d s'.trace) s.start i := by
  have size := rep.count
  obtain ⟨s',made,same,desc,blks⟩ := stageIo_written c d commitBlk s rep.buffered start reserved commit (by omega)
  have there : ∀ k, k < i.body.length → written d s'.trace (s.start + 1 + k) = s.blk d (k + 1) := by
    intro k inside
    rw [Nat.add_assoc,Nat.add_comm 1 k]
    exact blks (k + 1) (by omega) (by omega)
  refine ⟨s',made,same,⟨by rw [desc]; exact rep.described,rep.counted,?_,?_⟩⟩
  · intro k p found
    exact (there k (List.getElem?_eq_some_iff.mp found).1).trans (rep.holds.1 k p found)
  · intro k found
    simp only [there k (List.getElem?_eq_some_iff.mp found).1]
    exact rep.holds.2 k found

def Item.page : Item → Option Page
  | .blk p => some p
  | .etag => none

def Image.blks (i : Image) : List Page := i.body.filterMap Item.page

theorem body_length (body : List Item) :
    body.length = body.countP Item.isEtag + (body.filterMap Item.page).length := by
  induction body with
  | nil => rfl
  | cons x body ih =>
    cases x with
    | blk p =>
      simp only [length_cons,countP_cons,Item.isEtag,filterMap_cons,Item.page]
      simp only [Bool.false_eq_true,if_false]
      omega
    | etag =>
      simp only [length_cons,countP_cons,Item.isEtag,filterMap_cons,Item.page]
      simp only [if_true]
      omega

theorem Image.wrtag_blks (i : Image) (t : Extent) : (i.wrtag t).blks = i.blks := by
  unfold Image.wrtag
  split
  · simp [Image.blks,Item.page]
  · rfl

theorem Image.copy_blks (i : Image) (p : Page) : (i.copy p).blks = i.blks ++ [p] := by
  simp [Image.blks,Image.copy,Item.page]

theorem Image.wrtags_shape (i : Image) (ts : List Extent) (counted : i.etags = etagBlks i.tags.length) :
    (i.wrtags ts).tags = i.tags ++ ts ∧ (i.wrtags ts).blks = i.blks ∧
      (i.wrtags ts).etags = etagBlks (i.wrtags ts).tags.length := by
  induction ts generalizing i with
  | nil => exact ⟨(append_nil _).symm,rfl,counted⟩
  | cons t ts ih =>
    obtain ⟨tags,blks,etags⟩ := ih (i.wrtag t) (i.wrtag_counted t counted)
    refine ⟨tags.trans ?_,blks.trans (i.wrtag_blks t),etags⟩
    simp [Image.wrtag]

theorem Image.index_shape (data : Nat → Page) (i : Image) (bhs : List BufferHead)
    (counted : i.etags = etagBlks i.tags.length) :
    (i.index data bhs).tags = i.tags ++ bhs.map (fun bh => ⟨bh.blocknr,1⟩) ∧
      (i.index data bhs).blks = i.blks ++ bhs.map (fun bh => data bh.blocknr) ∧
      (i.index data bhs).etags = etagBlks (i.index data bhs).tags.length := by
  induction bhs generalizing i with
  | nil => exact ⟨by simp [Image.index],by simp [Image.index],counted⟩
  | cons bh bhs ih =>
    have copied : (i.copy (data bh.blocknr)).etags = etagBlks (i.copy (data bh.blocknr)).tags.length := by
      rw [Image.copy_etags]
      exact counted
    obtain ⟨tags,blks,etags⟩ := ih _ (Image.wrtag_counted _ ⟨bh.blocknr,1⟩ copied)
    refine ⟨tags.trans ?_,blks.trans ?_,etags⟩
    · simp [Image.wrtag,Image.copy]
    · rw [Image.wrtag_blks,Image.copy_blks]
      simp

theorem Image.copies_eq (i : Image) (ps : List Page) : i.copies ps = ⟨i.tags,i.body ++ ps.map .blk⟩ := by
  induction ps generalizing i with
  | nil => simp [Image.copies]
  | cons p ps ih =>
    refine (ih (i.copy p)).trans ?_
    simp [Image.copy]

section

variable (f : File)

def File.front (x : Contents) : Image := (Image.empty.index x.block f.dirtyIndex).wrtags f.tags

def File.image (x : Contents) : Image :=
  (f.front x).copies (f.pages.map x.page ++ (List.range f.waiting).map x.waiting)

def File.indexTags : List Extent := f.dirtyIndex.map fun bh => ⟨bh.blocknr,1⟩

def File.nrEtagBlks : Nat := etagBlks (f.dirtyIndex.length + f.tags.length)

theorem File.front_shape (x : Contents) : (f.front x).tags = f.indexTags ++ f.tags ∧
      (f.front x).blks = f.dirtyIndex.map (fun bh => x.block bh.blocknr) ∧
      (f.front x).etags = f.nrEtagBlks ∧
      (f.front x).body.length = f.dirtyIndex.length + f.nrEtagBlks := by
  obtain ⟨tags,blks,etags⟩ := Image.index_shape x.block Image.empty f.dirtyIndex rfl
  obtain ⟨tags',blks',etags'⟩ := Image.wrtags_shape _ f.tags etags
  have all : (f.front x).tags = f.indexTags ++ f.tags := by
    rw [File.front,tags',tags]
    rfl
  have copied : (f.front x).blks = f.dirtyIndex.map fun bh => x.block bh.blocknr := by
    rw [File.front,blks',blks]
    rfl
  have counted : (f.front x).etags = f.nrEtagBlks := by
    refine etags'.trans ?_
    change etagBlks (f.front x).tags.length = _
    rw [all,length_append,File.indexTags,length_map,File.nrEtagBlks]
  refine ⟨all,copied,counted,?_⟩
  have size := body_length (f.front x).body
  rw [← Image.blks,copied,length_map,← Image.etags,counted] at size
  omega

/-- The blocks `stage_fix_blocks` reserves: descriptor, index and extent tag blocks, the dirty
pages, the waiting lists and the commit block. -/
def File.nrBlks : Nat :=
  1 + (f.dirtyIndex.length + f.nrEtagBlks) + (nrDirtyBlks f.ird + (f.waiting + f.skipped)) + 1

end

/-- What the daemon relies on when it stages a file: what is buffered before the area is
reserved fits in the sequence buffers, and the stage area has room for the transaction. Of its
area, DevFS sees all but at most the last block, which can only be a commit block. -/
structure Admitted (c : SeqBufs) (j : StageArea.Journal) (stage : LogRing) (f : File) : Prop where
  buffered : 1 + (f.dirtyIndex.length + f.nrEtagBlks) ≤ c.capacity
  bounds : StageArea.Bounds j
  behind : j.stageTotal < j.stageEnd
  ends : j.stageEnd ≤ stage.last + 2
  small : f.nrBlks < 2^32
  reserved : ∃ j' start commit, StageArea.stageReserveArea j f.nrBlks = .ok j' start commit

theorem newStageTx_rep (c : SeqBufs) (d : Disk) (x : Contents) :
    ∃ slot s, resvBlk c (newStageTx c x) = some (slot,s) ∧ Rep c d s Image.empty ∧ Open s Image.empty := by
  have positive : 0 < c.capacity := Nat.mul_pos c.sequences c.blocks
  have buffered : Buffered c (newStageTx c x) :=
    ⟨Nat.le_refl _,c.sequences,by simp [newStageTx],rfl⟩
  obtain ⟨slot,s,taken,buffered',count,_,_,_,desc,ext,inBuffer⟩ :=
    resvBlk_keeps c d (newStageTx c x) buffered (.inl positive)
  refine ⟨slot,s,taken,⟨⟨buffered',count,⟨?_,?_⟩,by simp [Image.Holds,Image.empty]⟩,rfl⟩,
    ⟨inBuffer positive,fun _ => rfl,?_⟩⟩
  · rw [desc]
    exact stageDescBlk.entries_of_nr _ (stageDescBlk.nr_clear _)
  · rw [desc,newStageTx,Table.clear,word_setWord_ne _ (by decide),word_setWord _ (by decide)]
    rfl
  · intro slot' chosen
    rw [ext] at chosen
    cases chosen

theorem pages_length (ranges : List RangeDirty) :
    (ranges.flatMap RangeDirty.pages).length = (ranges.map RangeDirty.nr).sum := by
  simp [length_flatMap,RangeDirty.pages]

theorem stageFileData_eq (c : SeqBufs) (j : StageArea.Journal) (f : File) (x : Contents) (s : StageTx) :
    stageFileData c j f x s =
      (stageFillIndexBlk c x.block f.privateList s).bind fun s =>
      (wrtags c f.tags s).bind fun s =>
      (stageFixBlocks j (nrDirtyBlks f.ird) (f.waiting + f.skipped) s).bind
        (copyAll c (f.pages.map x.page ++ (List.range f.waiting).map x.waiting)) := by
  unfold stageFileData
  simp only [Ird.nodes,stageFillTags_eq c f.extents _ _ f.ird.filled,stageFillData_eq]
  congr 1
  funext s
  congr 1
  funext s
  congr 1
  funext s
  rw [copyAll_append]
  congr 1
  funext s
  simp only [copyDataBlks_eq,Nat.zero_add]

/-- Staging succeeds, and its image is on the disk inside the log DevFS reads. -/
theorem stageFile_onDisk (c : SeqBufs) (j : StageArea.Journal) (stage : LogRing) (f : File) (x : Contents)
    (d : Disk) (admitted : Admitted c j stage f) :
    ∃ s, stageFile c j f x = some s ∧ OnDisk (written d s.trace) s.start (f.image x) ∧
      s.start + (f.image x).body.length ≤ stage.last := by
  obtain ⟨fits,bounds,behind,ends,small,j',start,commit,handed⟩ := admitted
  obtain ⟨_,_,_,size⟩ := f.front_shape x
  obtain ⟨slot,s,taken,rep,opened⟩ := newStageTx_rep c d x
  have front : (f.front x).body.length < c.capacity := by omega
  obtain ⟨s₁,indexed,rep₁,open₁⟩ := stageFillIndexBlk_rep c d x.block f.privateList f.addressable s _ rep opened
    (Nat.lt_of_le_of_lt (Image.wrtags_grows _ f.tags) front)
  obtain ⟨s₂,tagged,rep₂,open₂⟩ := wrtags_rep c d f.tags f.tags_storable s₁ _ rep₁ open₁ front
  have pending := rep₂.count
  rw [StageTx.count,open₂.early,Nat.zero_add] at pending
  change s₂.nrPending = (f.front x).body.length + 1 at pending
  have amount : u32 (s₂.nrPending + (nrDirtyBlks f.ird + (f.waiting + f.skipped)) + 1) = f.nrBlks := by
    rw [pending,size,u32_of_lt]
    · unfold File.nrBlks
      omega
    · unfold File.nrBlks at small
      omega
  obtain ⟨first,last,commits⟩ := StageArea.stageReserveArea_inside bounds (by unfold File.nrBlks; omega) small handed
  have nonzero : start ≠ 0 := by omega
  have rep₃ : Rep c d { s₂ with start := start, commitBaddr := commit, stageAreaReserved := true } (f.front x) := by
    refine ⟨⟨⟨rep₂.buffered.left,rep₂.buffered.inSeq,rep₂.buffered.pending,rep₂.buffered.skipped⟩,rep₂.count,
      rep₂.described,?_⟩,rep₂.counted⟩
    have same : ∀ k, ({ s₂ with start := start, commitBaddr := commit, stageAreaReserved := true } : StageTx).blk d k =
        s₂.blk d k := by
      intro k
      simp only [StageTx.blk,open₂.early,Nat.not_lt_zero,if_false]
    simp only [same]
    exact rep₂.holds
  obtain ⟨s₄,copied,rep₄,same⟩ := copyAll_rep c d (f.pages.map x.page ++ (List.range f.waiting).map x.waiting)
    _ _ rep₃ nonzero rfl
  change Rep c d s₄ (f.image x) at rep₄
  have length : (f.image x).body.length = f.dirtyIndex.length + f.nrEtagBlks + (nrDirtyBlks f.ird + f.waiting) := by
    rw [File.image,Image.copies_eq]
    simp only [length_append,length_map,length_range,size,File.pages,pages_length]
    rfl
  have count := rep₄.count
  unfold File.nrBlks at last commits
  obtain ⟨s₅,ended,start₅,onDisk⟩ := stageIo_onDisk c d x.commitBlk s₄ (f.image x) rep₄
    (by rw [same.start]; exact nonzero) same.reserved
    (by rw [same.start,same.commitBaddr]; simp only; omega)
  have fixed : stageFixBlocks j (nrDirtyBlks f.ird) (f.waiting + f.skipped) s₂ =
      some { s₂ with start := start, commitBaddr := commit, stageAreaReserved := true } := by
    rw [stageFixBlocks,if_pos open₂.early,amount,handed]
  refine ⟨s₅,?_,by rw [start₅]; exact onDisk,?_⟩
  · rw [stageFile,taken,bind_some,stageFileData_eq,indexed,bind_some,tagged,bind_some,fixed,
      bind_some,copied,bind_some,ended]
  · rw [start₅,same.start,length]
    simp only
    omega

end Oxbow.Daemon.Stage
