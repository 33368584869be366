import Oxbow.Daemon.StageTx

/-! A stage transaction as what it stands for: the tags written so far and the blocks in the
order they were reserved, some of them extent tag blocks. The buffers and the disk refine this
image at every step of the staging. -/
namespace Oxbow.Daemon.Stage

open Oxbow.Lib Oxbow.Sjd List

theorem written_append (d : Disk) (s t : List Event) : written d (s ++ t) = written (written d s) t :=
  foldl_append

theorem Request.apply_map (d : Disk) (o : Origin) (start n : Nat) (f : Nat → Page) (a : Nat) :
    Request.apply d ⟨o,start,(List.range n).map f⟩ a =
      if start ≤ a ∧ a < start + n then f (a - start) else d a := by
  unfold Request.apply
  by_cases before : start ≤ a
  · by_cases inside : a < start + n
    · have small : a - start < n := by omega
      simp [before,inside,small]
    · have large : ¬ a - start < n := by omega
      simp [before,inside,large]
  · simp [before]

/-- One request of the loop: `blks` pages from slot `base`, the first one left out or not. -/
theorem Request.apply_seq (d : Disk) (buf : Nat → Page) (o : Origin) (start base blks skip : Nat) (a : Nat) :
    Request.apply d ⟨o,start + base + skip,(List.range (blks - skip)).map fun i => buf (base + skip + i)⟩ a =
      if start + base + skip ≤ a ∧ a < start + base + blks then buf (a - start) else d a := by
  rw [Request.apply_map]
  by_cases inside : start + base + skip ≤ a ∧ a < start + base + blks
  · rw [if_pos inside,if_pos (by omega)]
    congr 1
    omega
  · rw [if_neg inside,if_neg (by omega)]

theorem directWriteLoop_written (c : SeqBufs) (buf : Nat → Page) (start nrBlks : Nat) (skip : Bool)
    (seqs n left : Nat) (d : Disk) (done : n * c.perSeq + left = nrBlks) (enough : left ≤ seqs * c.perSeq)
    (a : Nat) :
    written d ((directWriteLoop c buf start nrBlks skip seqs n left).map .issue) a =
      if start + n * c.perSeq + (if n = 0 ∧ skip then 1 else 0) ≤ a ∧ a < start + nrBlks then buf (a - start)
      else d a := by
  induction seqs generalizing n left d with
  | zero =>
    rw [if_neg (by omega)]
    rfl
  | succ seqs ih =>
    have positive := c.blocks
    rw [Nat.succ_mul] at enough
    have next := ih (n + 1) (left - min left c.perSeq)
    rw [Nat.succ_mul,if_neg (by omega)] at next
    simp only [directWriteLoop,map_cons,written,foldl_cons,Event.apply]
    rw [show start + nrBlks - left = start + n * c.perSeq by omega]
    generalize n * c.perSeq = base at done next ⊢
    by_cases last : left - min left c.perSeq = 0
    · rw [if_pos last,map_nil,foldl_nil,Request.apply_seq,
        show start + base + min left c.perSeq = start + nrBlks by omega]
    · rw [if_neg last]
      refine (next _ (by omega) (by omega)).trans ?_
      rw [Request.apply_seq]
      have few : (if n = 0 ∧ skip = true then 1 else 0) ≤ 1 := by split <;> omega
      generalize (if n = 0 ∧ skip = true then 1 else 0) = k at few
      by_cases later : start + (base + c.perSeq) + 0 ≤ a ∧ a < start + nrBlks
      · rw [if_pos later,if_pos (by omega)]
      · rw [if_neg later]
        by_cases now : start + base + k ≤ a ∧ a < start + base + min left c.perSeq
        · rw [if_pos now,if_pos (by omega)]
        · rw [if_neg now,if_neg (by omega)]

theorem nvmeDirectWriteAsync_written (c : SeqBufs) (buf : Nat → Page) (seqNr start nrBlks : Nat)
    (skip : Bool) (d : Disk) (enough : nrBlks ≤ seqNr * c.perSeq) (a : Nat) :
    written d (nvmeDirectWriteAsync c buf seqNr start nrBlks skip) a =
      if start + (if skip then 1 else 0) ≤ a ∧ a < start + nrBlks then buf (a - start) else d a := by
  have loop := directWriteLoop_written c buf start nrBlks skip seqNr 0 nrBlks d (by omega) enough a
  simpa only [nvmeDirectWriteAsync,true_and,Nat.zero_mul,Nat.add_zero] using loop

def StageTx.count (s : StageTx) : Nat := s.nrIssued + s.nrPending

def StageTx.blk (d : Disk) (s : StageTx) (i : Nat) : Page :=
  if i < s.nrIssued then written d s.trace (s.start + i) else s.buf (i - s.nrIssued)

structure Buffered (c : SeqBufs) (s : StageTx) : Prop where
  left : s.nrBlocks ≤ c.perSeq
  inSeq : s.seqIdx < c.seqMax
  pending : s.nrPending = s.seqIdx * c.perSeq + (c.perSeq - s.nrBlocks)
  skipped : s.descBlkSkipped = decide (s.nrIssued ≠ 0)

theorem Buffered.within (buffered : Buffered c s) : s.nrPending ≤ (s.seqIdx + 1) * c.perSeq := by
  have := buffered.pending
  rw [Nat.succ_mul]
  omega

theorem Buffered.small (buffered : Buffered c s) : s.nrPending ≤ c.capacity :=
  Nat.le_trans buffered.within (Nat.mul_le_mul_right _ buffered.inSeq)

structure Same (s s' : StageTx) : Prop where
  start : s'.start = s.start
  commitBaddr : s'.commitBaddr = s.commitBaddr
  reserved : s'.stageAreaReserved = s.stageAreaReserved

theorem Same.trans (first : Same s s') (second : Same s' s'') : Same s s'' :=
  ⟨second.start.trans first.start,second.commitBaddr.trans first.commitBaddr,
    second.reserved.trans first.reserved⟩

def Room (c : SeqBufs) (s : StageTx) : Prop :=
  s.nrPending < c.capacity ∨ (s.start ≠ 0 ∧ s.stageAreaReserved = true)

/-- The transaction is the same block by block, wherever its blocks are now. -/
structure Keeps (c : SeqBufs) (d : Disk) (s s' : StageTx) : Prop where
  same : Same s s'
  kept : ∀ i, 0 < i → i < s.count → s'.blk d i = s.blk d i
  desc : s'.descBlkCopy = s.descBlkCopy
  ext : s'.extBlk = s.extBlk
  inBuffer : s.nrPending < c.capacity → s'.nrIssued = s.nrIssued

section

variable (c : SeqBufs) (d : Disk) (s : StageTx) (buffered : Buffered c s)
include buffered

theorem reclaim_kept (i : Nat) (other : 0 < i) (before : i < s.count) : (enterSeq c (reclaim c s)).blk d i = s.blk d i := by
  have write := nvmeDirectWriteAsync_written c s.buf c.seqMax (s.start + s.nrIssued) s.nrPending
    (!s.descBlkSkipped) (written d s.trace) buffered.small (s.start + i)
  rw [StageTx.count] at before
  simp only [StageTx.blk,enterSeq,reclaim,written_append]
  rw [if_pos before]
  simp only [written,foldl_cons,foldl_nil,Event.apply] at write ⊢
  rw [write]
  have skip : (if (!s.descBlkSkipped) = true then 1 else 0) ≤ i - s.nrIssued ∨ i < s.nrIssued := by
    rw [buffered.skipped]
    by_cases first : s.nrIssued = 0
    · simp only [first]
      exact .inl other
    · simp [first]
  by_cases old : i < s.nrIssued
  · rw [if_pos old,if_neg (by omega)]
  · rw [if_neg old,if_pos (by omega)]
    congr 1
    omega

theorem freeSeq_keeps (room : Room c s) :
    ∃ s', freeSeq c s = some s' ∧ Buffered c s' ∧ s'.nrBlocks ≠ 0 ∧ s'.count = s.count ∧ Keeps c d s s' := by
  have ⟨left,inSeq,pending,skipped⟩ := buffered
  have positive := c.blocks
  rw [freeSeq]
  by_cases free : s.nrBlocks = 0
  · rw [if_pos free,nextSeq]
    rw [free,Nat.sub_zero] at pending
    by_cases last : s.seqIdx + 1 = c.seqMax
    · -- every sequence is full, so the area must have been reserved
      have full : s.nrPending = c.capacity := by
        rw [pending,SeqBufs.capacity,← last,Nat.succ_mul]
      have reserved : s.start ≠ 0 ∧ s.stageAreaReserved = true := room.resolve_left (by omega)
      rw [if_pos last,if_pos reserved]
      have some : s.nrIssued + s.nrPending ≠ 0 := by omega
      refine ⟨_,rfl,⟨Nat.le_refl _,c.sequences,?_,?_⟩,Nat.ne_of_gt positive,Nat.add_zero _,
        ⟨rfl,rfl,rfl⟩,reclaim_kept c d s buffered,rfl,rfl,fun few => by omega⟩
      · simp [enterSeq,reclaim]
      · exact (decide_eq_true some).symm
    · rw [if_neg last]
      refine ⟨_,rfl,⟨Nat.le_refl _,?_,?_,skipped⟩,Nat.ne_of_gt positive,rfl,⟨rfl,rfl,rfl⟩,?_,rfl,rfl,
        fun _ => rfl⟩
      · simp only [enterSeq]
        omega
      · simp only [enterSeq,Nat.succ_mul]
        omega
      · intro i _ _
        simp only [StageTx.blk,enterSeq,written_append]
        rfl
  · rw [if_neg free]
    exact ⟨s,rfl,buffered,free,rfl,⟨rfl,rfl,rfl⟩,fun _ _ _ => rfl,rfl,rfl,fun _ => rfl⟩

theorem resvBlk_keeps (room : Room c s) : ∃ slot s', resvBlk c s = some (slot,s') ∧
    Buffered c s' ∧ s'.count = s.count + 1 ∧
      slot + s'.nrIssued = s.count ∧ Keeps c d s s' := by
  obtain ⟨t,ready,⟨left,inSeq,pending,skipped⟩,free,count,same,kept,desc,ext,inBuffer⟩ :=
    freeSeq_keeps c d s buffered room
  refine ⟨t.cur c,takeBlk t,by rw [resvBlk,ready]; rfl,⟨?_,inSeq,?_,skipped⟩,?_,?_,
    ⟨same.start,same.commitBaddr,same.reserved⟩,kept,desc,ext,inBuffer⟩
  · simp only [takeBlk]
    omega
  · simp only [takeBlk]
    omega
  · rw [← count]
    rfl
  · rw [← count,StageTx.cur,StageTx.count,← pending]
    exact Nat.add_comm _ _

end

theorem blk_update (d : Disk) (s : StageTx) (slot : Nat) (p : Page) (i : Nat) :
    ({ s with buf := Function.update s.buf slot p } : StageTx).blk d i =
      if i = slot + s.nrIssued then p else s.blk d i := by
  unfold StageTx.blk
  by_cases there : i = slot + s.nrIssued
  · rw [if_pos there,if_neg (by simp only; omega)]
    simp [there]
  · rw [if_neg there]
    split
    · rfl
    · exact Function.update_of_ne (by simp only at *; omega) _ _

theorem startExtBlk_blk (d : Disk) (s : StageTx) (slot i : Nat) :
    (startExtBlk slot s).blk d i =
      if i = slot + s.nrIssued then etagBlk.clear (s.buf slot) else s.blk d i :=
  blk_update d s slot _ i

inductive Item
  | blk (page : Page)
  | etag

def Item.isEtag : Item → Bool
  | .blk _ => false
  | .etag => true

structure Image where
  tags : List Extent
  body : List Item

def Image.empty : Image := ⟨[],[]⟩

def Image.etags (i : Image) : Nat := i.body.countP Item.isEtag

def Image.copy (i : Image) (p : Page) : Image := ⟨i.tags,i.body ++ [.blk p]⟩

def etagBlks (n : Nat) : Nat := spillTables stageDescBlkTagMax journalEtagMax n

def Image.wrtag (i : Image) (t : Extent) : Image :=
  ⟨i.tags ++ [t],
    if i.tags.length + 1 = stageDescBlkTagMax + journalEtagMax * etagBlks i.tags.length then i.body ++ [.etag]
    else i.body⟩

def Image.tagsIn (i : Image) (k : Nat) : List Extent :=
  spilled stageDescBlkTagMax journalEtagMax i.tags ((i.body.take k).countP Item.isEtag)

def Image.Holds (i : Image) (at' : Nat → Page) : Prop :=
  (∀ k p, i.body[k]? = some (.blk p) → at' k = p) ∧
    ∀ k, i.body[k]? = some .etag → etagBlk.entries (at' k) = i.tagsIn k

structure Image.Described (i : Image) (desc : Page) : Prop where
  tags : stageDescBlk.entries desc = i.tags.take stageDescBlkTagMax
  nr : word desc stageNrEtagBlksAt = i.etags

structure Shows (c : SeqBufs) (d : Disk) (s : StageTx) (i : Image) : Prop where
  buffered : Buffered c s
  count : s.count = i.body.length + 1
  described : i.Described s.descBlkCopy
  holds : i.Holds fun k => s.blk d (k + 1)

structure Rep (c : SeqBufs) (d : Disk) (s : StageTx) (i : Image) : Prop extends Shows c d s i where
  counted : i.etags = etagBlks i.tags.length

structure Open (s : StageTx) (i : Image) : Prop where
  early : s.nrIssued = 0
  noExt : s.extBlk = none → i.etags = 0
  ext : ∀ slot, s.extBlk = some slot →
    ∃ k, slot = k + 1 ∧ i.body[k]? = some .etag ∧ (i.body.take k).countP Item.isEtag + 1 = i.etags

theorem take_append_one (xs : List α) (x : α) (inside : k ≤ xs.length) : (xs ++ [x]).take k = xs.take k :=
  take_append_of_le_length inside

theorem Image.Holds.snoc {i : Image} {before after : Nat → Page} (holds : i.Holds before)
    (kept : ∀ k, k < i.body.length → after k = before k) (item : Item)
    (last : match item with
      | .blk p => after i.body.length = p
      | .etag => etagBlk.entries (after i.body.length) = spilled stageDescBlkTagMax journalEtagMax i.tags i.etags) :
    (⟨i.tags,i.body ++ [item]⟩ : Image).Holds after := by
  have inside : ∀ k x, (i.body ++ [item])[k]? = some x →
      (k < i.body.length ∧ i.body[k]? = some x) ∨ (k = i.body.length ∧ x = item) := by
    intro k x found
    rw [getElem?_append] at found
    split at found
    next before => exact .inl ⟨before,found⟩
    next after =>
      have small : k - i.body.length = 0 := by
        by_contra large
        rw [getElem?_eq_none (by simp only [length_singleton]; omega)] at found
        cases found
      rw [small] at found
      exact .inr ⟨by omega,(Option.some.inj found).symm⟩
  constructor
  · intro k p found
    rcases inside k _ found with ⟨before,old⟩ | ⟨rfl,rfl⟩
    · rw [kept k before]
      exact holds.1 k p old
    · exact last
  · intro k found
    rcases inside k _ found with ⟨before,old⟩ | ⟨rfl,rfl⟩
    · rw [kept k before,holds.2 k old]
      simp only [tagsIn,take_append_one _ _ (Nat.le_of_lt before)]
    · rw [last]
      simp only [tagsIn,take_left]
      rfl

theorem Image.copy_etags (i : Image) (p : Page) : (i.copy p).etags = i.etags := by
  simp [Image.copy,Image.etags,Item.isEtag]

theorem copyBlk_rep (c : SeqBufs) (d : Disk) (s : StageTx) (i : Image) (p : Page) (rep : Rep c d s i)
    (room : Room c s) :
    ∃ s', copyBlk c s p = some s' ∧ Rep c d s' (i.copy p) ∧ Same s s' ∧ s'.extBlk = s.extBlk ∧
      (s.nrPending < c.capacity → s'.nrIssued = s.nrIssued) := by
  obtain ⟨slot,t,taken,buffered,count,place,same,kept,desc,ext,inBuffer⟩ :=
    resvBlk_keeps c d s rep.buffered room
  have size := rep.count
  refine ⟨{ t with buf := Function.update t.buf slot p },by rw [copyBlk,taken]; rfl,?_,
    ⟨same.start,same.commitBaddr,same.reserved⟩,ext,inBuffer⟩
  refine ⟨⟨⟨buffered.left,buffered.inSeq,buffered.pending,buffered.skipped⟩,?_,⟨?_,?_⟩,?_⟩,?_⟩
  rotate_left 4
  · rw [Image.copy_etags]
    exact rep.counted
  · refine count.trans ?_
    rw [size]
    simp [Image.copy]
  · exact (congrArg _ desc).trans rep.described.tags
  · refine (congrArg (word · stageNrEtagBlksAt) desc).trans ?_
    rw [rep.described.nr,Image.copy_etags]
  · apply rep.holds.snoc _ (.blk p)
    · simp only [blk_update]
      rw [if_pos (by omega)]
    · intro k inside
      simp only [blk_update]
      rw [if_neg (by omega),kept (k + 1) (by omega) (by omega)]

theorem countP_take_succ (xs : List Item) (found : xs[k]? = some .etag) :
    (xs.take (k + 1)).countP Item.isEtag = (xs.take k).countP Item.isEtag + 1 := by
  rw [take_add_one,found,countP_append]
  rfl

theorem countP_take_lt (xs : List Item) (found : xs[k]? = some .etag) (later : k < l) :
    (xs.take k).countP Item.isEtag + 1 ≤ (xs.take l).countP Item.isEtag := by
  rw [← countP_take_succ xs found]
  exact (take_prefix_take_left later).sublist.countP_le

theorem Image.etags_pos (i : Image) (found : i.body[k]? = some .etag) :
    (i.body.take k).countP Item.isEtag + 1 ≤ i.etags := by
  rw [← countP_take_succ i.body found]
  exact (take_sublist _ _).countP_le

theorem etagBlks_bounds (n : Nat) :
    n < stageDescBlkTagMax + journalEtagMax * etagBlks n ∧
      (etagBlks n ≠ 0 → stageDescBlkTagMax + journalEtagMax * etagBlks n ≤ n + journalEtagMax) :=
  spillTables_bounds _ _ (by decide)

theorem Image.etags_le (i : Image) : i.etags ≤ i.body.length := countP_le_length

section

variable (c : SeqBufs) (d : Disk) (s : StageTx) (i : Image)

theorem openExtBlk_shows (shows' : Shows c d s i) (early : s.nrIssued = 0) (free : s.nrPending < c.capacity)
    (full : i.tags.length = stageDescBlkTagMax + journalEtagMax * i.etags) :
    ∃ s', openExtBlk c s = some s' ∧ Shows c d s' ⟨i.tags,i.body ++ [.etag]⟩ ∧
      Open s' ⟨i.tags,i.body ++ [.etag]⟩ ∧ Same s s' := by
  obtain ⟨slot,t,taken,buffered,count,place,same,kept,desc,ext,inBuffer⟩ :=
    resvBlk_keeps c d s shows'.buffered (.inl free)
  have size := shows'.count
  have capacity := c.fits
  have few := i.etags_le
  rw [inBuffer free,early,Nat.add_zero] at place
  have within : s.count < 2^32 := by
    rw [StageTx.count,early]
    unfold SeqBufs.capacity at free
    omega
  have grows : (⟨i.tags,i.body ++ [.etag]⟩ : Image).etags = i.etags + 1 := by
    simp [Image.etags,Item.isEtag]
  refine ⟨startExtBlk slot t,by rw [openExtBlk,taken]; rfl,
    ⟨⟨buffered.left,buffered.inSeq,buffered.pending,buffered.skipped⟩,?_,⟨?_,?_⟩,?_⟩,
    ⟨(inBuffer free).trans early,(by simp [startExtBlk]),?_⟩,⟨same.start,same.commitBaddr,same.reserved⟩⟩
  · refine count.trans ?_
    rw [size]
    simp
  · rw [startExtBlk,stageDescBlk.entries_setWord _ (by decide) (by decide),desc]
    exact shows'.described.tags
  · rw [startExtBlk,word_setWord _ (by decide),desc,shows'.described.nr,grows]
    omega
  · apply shows'.holds.snoc _ .etag
    · simp only [startExtBlk_blk]
      rw [if_pos (by rw [inBuffer free,early]; omega),etagBlk.entries_of_nr _ (etagBlk.nr_clear _),spilled,
        drop_eq_nil_of_le (by omega),take_nil]
    · intro k inside
      simp only [startExtBlk_blk]
      rw [if_neg (by rw [inBuffer free,early]; omega)]
      exact kept (k + 1) (by omega) (by omega)
  · intro slot' chosen
    refine ⟨i.body.length,?_,?_,?_⟩
    · have : slot = slot' := Option.some.inj chosen
      omega
    · simp
    · rw [grows,take_left]
      rfl

theorem wrtag_desc (t : Extent) (rep : Rep c d s i) (unopened : i.etags = 0) (storable : extent96.Storable t) :
    stxWriteDescTag s.descBlkCopy t =
        some (stageDescBlk.push s.descBlkCopy t,decide (i.tags.length + 1 = stageDescBlkTagMax)) ∧
      Shows c d { s with descBlkCopy := stageDescBlk.push s.descBlkCopy t } ⟨i.tags ++ [t],i.body⟩ := by
  have bound := (etagBlks_bounds i.tags.length).1
  rw [← rep.counted,unopened,Nat.mul_zero,Nat.add_zero] at bound
  have entries := rep.described.tags
  rw [take_of_length_le (Nat.le_of_lt bound)] at entries
  have nr : stageDescBlk.nr s.descBlkCopy = i.tags.length := by
    rw [← stageDescBlk.entries_length,entries]
  have room : stageDescBlk.nr s.descBlkCopy < stageDescBlk.capacity := by
    rw [nr]
    exact bound
  constructor
  · rw [stxWriteDescTag,if_neg (by omega),fill,stageDescBlk.nr_push _ room,nr]
    rfl
  · refine ⟨⟨rep.buffered.left,rep.buffered.inSeq,rep.buffered.pending,rep.buffered.skipped⟩,rep.count,⟨?_,?_⟩,?_⟩
    · rw [stageDescBlk.entries_push _ room storable,entries,take_of_length_le]
      simp only [length_append,length_singleton]
      exact bound
    · rw [stageDescBlk.word_push_header _ (by decide) (by decide)]
      exact rep.described.nr
    · refine ⟨rep.holds.1,fun k found => ?_⟩
      have := i.etags_pos found
      omega

theorem wrtag_ext (t : Extent) (rep : Rep c d s i) (early : s.nrIssued = 0) (found : i.body[k]? = some .etag)
    (last : (i.body.take k).countP Item.isEtag + 1 = i.etags) (storable : extent96.Storable t) :
    writeEtags (s.buf (k + 1)) t =
        some (etagBlk.push (s.buf (k + 1)) t,
          decide (i.tags.length + 1 = stageDescBlkTagMax + journalEtagMax * i.etags)) ∧
      Shows c d { s with buf := Function.update s.buf (k + 1) (etagBlk.push (s.buf (k + 1)) t) }
        ⟨i.tags ++ [t],i.body⟩ := by
  obtain ⟨above,below⟩ := etagBlks_bounds i.tags.length
  rw [← rep.counted] at above below
  have below := below (by omega)
  have here : s.blk d (k + 1) = s.buf (k + 1) := by
    rw [StageTx.blk,early,if_neg (by omega)]
    rfl
  have entries := rep.holds.2 k found
  simp only [here,Image.tagsIn] at entries
  generalize seen : (i.body.take k).countP Item.isEtag = j at last entries
  rw [← last,Nat.mul_add] at above below
  have nr : etagBlk.nr (s.buf (k + 1)) = i.tags.length - (stageDescBlkTagMax + journalEtagMax * j) := by
    rw [← etagBlk.entries_length,entries,spilled_length (by omega) (by rw [Nat.mul_add]; omega)]
  have room : etagBlk.nr (s.buf (k + 1)) < etagBlk.capacity := by
    rw [nr]
    change _ < journalEtagMax
    omega
  constructor
  · rw [writeEtags,if_pos (show _ ≤ journalEtagMax from Nat.le_of_lt room),fill,
      etagBlk.nr_push _ room,nr,← last,Nat.mul_add]
    congr 2
    rw [decide_eq_decide]
    change _ = journalEtagMax ↔ _
    omega
  · refine ⟨⟨rep.buffered.left,rep.buffered.inSeq,rep.buffered.pending,rep.buffered.skipped⟩,rep.count,
      ⟨?_,rep.described.nr⟩,?_,?_⟩
    · rw [rep.described.tags,take_append_of_le_length (by omega)]
    · intro l p other
      have apart : l ≠ k := by
        rintro rfl
        rw [found] at other
        cases other
      simp only [blk_update]
      rw [if_neg (by omega)]
      exact rep.holds.1 l p other
    · intro l other
      simp only [blk_update,Image.tagsIn]
      by_cases same : l = k
      · subst same
        rw [if_pos (by omega),etagBlk.entries_push _ room storable,entries,seen,
          spilled_append_last (by omega) (by rw [Nat.mul_add]; omega)]
      · rw [if_neg (by omega),rep.holds.2 l other]
        -- the blocks before the open one are full, and there is none behind it
        have before : l < k := by
          by_contra notBefore
          have := countP_take_lt i.body found (show k < l by omega)
          have := i.etags_pos other
          omega
        have order := countP_take_lt i.body other before
        rw [seen] at order
        have less := Nat.mul_le_mul_left journalEtagMax order
        exact (spilled_append (by omega)).symm

end

theorem Image.wrtag_counted (i : Image) (t : Extent) (counted : i.etags = etagBlks i.tags.length) :
    (i.wrtag t).etags = etagBlks (i.wrtag t).tags.length := by
  have grows : etagBlks (i.tags.length + 1) = _ :=
    spillTables_succ stageDescBlkTagMax i.tags.length (show 0 < journalEtagMax by decide)
  rw [← etagBlks,← counted] at grows
  rw [Image.wrtag,length_append,length_singleton,grows,← counted]
  split
  · simp [Image.etags,Item.isEtag]
  · rfl

theorem wrtag_finish (c : SeqBufs) (d : Disk) (s : StageTx) (i : Image) (t : Extent)
    (written' : Shows c d s ⟨i.tags ++ [t],i.body⟩) (opened : Open s i) (counted : i.etags = etagBlks i.tags.length)
    (room : (i.wrtag t).body.length < c.capacity) :
    ∃ s', (if decide (i.tags.length + 1 = stageDescBlkTagMax + journalEtagMax * i.etags) = true then openExtBlk c s
        else some s) = some s' ∧ Rep c d s' (i.wrtag t) ∧ Open s' (i.wrtag t) ∧ Same s s' := by
  have grows := i.wrtag_counted t counted
  have size : s.nrIssued + s.nrPending = i.body.length + 1 := written'.count
  rw [opened.early,Nat.zero_add] at size
  rw [Image.wrtag,← counted] at room grows ⊢
  by_cases full : i.tags.length + 1 = stageDescBlkTagMax + journalEtagMax * i.etags
  · rw [if_pos full] at room grows ⊢
    rw [length_append,length_singleton] at room
    obtain ⟨s',made,shows',open',same⟩ := openExtBlk_shows c d s ⟨i.tags ++ [t],i.body⟩ written' opened.early
      (by omega) (by rw [length_append,length_singleton]; exact full)
    exact ⟨s',by rw [if_pos (decide_eq_true full),made],⟨shows',grows⟩,open',same⟩
  · rw [if_neg full] at grows ⊢
    exact ⟨s,by rw [if_neg (by simpa using full)],⟨written',grows⟩,⟨opened.early,opened.noExt,opened.ext⟩,
      ⟨rfl,rfl,rfl⟩⟩

theorem stxWrtag_rep (c : SeqBufs) (d : Disk) (s : StageTx) (i : Image) (t : Extent) (rep : Rep c d s i)
    (opened : Open s i) (room : (i.wrtag t).body.length < c.capacity) (storable : extent96.Storable t) :
    ∃ s', stxWrtag c s t = some s' ∧ Rep c d s' (i.wrtag t) ∧ Open s' (i.wrtag t) ∧ Same s s' := by
  rw [stxWrtag]
  split
  next slot ext =>
    obtain ⟨k,rfl,found,last⟩ := opened.ext slot ext
    obtain ⟨write,shows'⟩ := wrtag_ext c d s i t rep opened.early found last storable
    obtain ⟨s',made,rep',open',same⟩ := wrtag_finish c d _ i t shows'
      ⟨opened.early,opened.noExt,opened.ext⟩ rep.counted room
    refine ⟨s',?_,rep',open',⟨same.start,same.commitBaddr,same.reserved⟩⟩
    simp only [write,Option.bind_some]
    exact made
  next ext =>
    have unopened := opened.noExt ext
    obtain ⟨write,shows'⟩ := wrtag_desc c d s i t rep unopened storable
    obtain ⟨s',made,rep',open',same⟩ := wrtag_finish c d _ i t shows'
      ⟨opened.early,fun _ => unopened,fun slot chosen => by rw [ext] at chosen; cases chosen⟩ rep.counted room
    rw [unopened,Nat.mul_zero,Nat.add_zero] at made
    refine ⟨s',?_,rep',open',⟨same.start,same.commitBaddr,same.reserved⟩⟩
    simp only [write,Option.bind_some]
    exact made

end Oxbow.Daemon.Stage
