import Oxbow.Common.Sjd
import Oxbow.Daemon.StageArea

/-! A stage transaction as `stage_file` builds it for a regular file: blocks are reserved one
after another in the sequence buffers, the buffers are written out and used again when they
are full, and the descriptor goes to the first block of the reserved area. -/
namespace Oxbow.Daemon.Stage

open Oxbow.Lib Oxbow.Sjd Function

/-- `seq_max` buffers of `g_max_nvme_max_io_size / OXBOW_BLOCK_SIZE` blocks; the blocks
pending in them are counted in 32 bits. -/
structure SeqBufs where
  seqMax : Nat
  perSeq : Nat
  sequences : 0 < seqMax
  blocks : 0 < perSeq
  fits : seqMax * perSeq < 2^32

def SeqBufs.capacity (c : SeqBufs) : Nat := c.seqMax * c.perSeq

inductive Origin
  | seq (idx : Nat)
  | desc
  | commit
  deriving DecidableEq, Repr

structure Request where
  origin : Origin
  start : Nat
  pages : List Page

inductive Event
  | issue (r : Request)
  | drainUntilSlotFree (slot : Nat)
  | drainAllOutstanding

def Request.apply (disk : Disk) (r : Request) : Disk := fun a =>
  ((if r.start ≤ a then r.pages[a - r.start]? else none).getD (disk a))

def Event.apply (disk : Disk) : Event → Disk
  | .issue r => r.apply disk
  | .drainUntilSlotFree _ => disk
  | .drainAllOutstanding => disk

def written (disk : Disk) (trace : List Event) : Disk := trace.foldl Event.apply disk

def directWriteLoop (c : SeqBufs) (buf : Nat → Page) (start nrBlks : Nat) (skipFirstBlk : Bool) :
    Nat → Nat → Nat → List Request
  | 0, _, _ => []
  | seqs + 1, n, left =>
    let blks := min left c.perSeq
    let skip := if n = 0 ∧ skipFirstBlk then 1 else 0
    ⟨.seq n,start + nrBlks - left + skip,
      (List.range (blks - skip)).map fun i => buf (n * c.perSeq + skip + i)⟩ ::
      if left - blks = 0 then [] else directWriteLoop c buf start nrBlks skipFirstBlk seqs (n + 1) (left - blks)

def nvmeDirectWriteAsync (c : SeqBufs) (buf : Nat → Page) (seqNr start nrBlks : Nat)
    (skipFirstBlk : Bool) : List Event :=
  (directWriteLoop c buf start nrBlks skipFirstBlk seqNr 0 nrBlks).map .issue

/-- `stage_tx`. The slots of the sequence buffers are numbered through; `extBlk` is the slot
of the open extent tag block. -/
structure StageTx where
  descBlkCopy : Page
  extBlk : Option Nat
  buf : Nat → Page
  seqIdx : Nat
  nrBlocks : Nat
  nrPending : Nat
  nrIssued : Nat
  start : Nat
  commitBaddr : Nat
  stageAreaReserved : Bool
  descBlkSkipped : Bool
  trace : List Event

section

variable (c : SeqBufs) (s : StageTx)

def StageTx.cur : Nat := s.seqIdx * c.perSeq + (c.perSeq - s.nrBlocks)

/-- The last sequence is full: everything pending is written to the reserved area, without
the descriptor if it has not been written before. -/
def reclaim : StageTx :=
  { s with
    trace := s.trace ++ nvmeDirectWriteAsync c s.buf c.seqMax (s.start + s.nrIssued) s.nrPending
      (!s.descBlkSkipped)
    descBlkSkipped := true
    seqIdx := 0
    nrIssued := s.nrIssued + s.nrPending
    nrPending := 0 }

def nextSeq : Option StageTx :=
  if s.seqIdx + 1 = c.seqMax then
    if s.start ≠ 0 ∧ s.stageAreaReserved then some (reclaim c s) else none
  else some { s with seqIdx := s.seqIdx + 1 }

def enterSeq : StageTx :=
  { s with nrBlocks := c.perSeq, trace := s.trace ++ [.drainUntilSlotFree s.seqIdx] }

def freeSeq : Option StageTx :=
  if s.nrBlocks = 0 then (nextSeq c s).map (enterSeq c) else some s

end

def takeBlk (s : StageTx) : StageTx :=
  { s with nrPending := s.nrPending + 1, nrBlocks := s.nrBlocks - 1 }

def resvBlk (c : SeqBufs) (s : StageTx) : Option (Nat × StageTx) :=
  (freeSeq c s).map fun s => (s.cur c,takeBlk s)

def copyBlk (c : SeqBufs) (s : StageTx) (src : Page) : Option StageTx :=
  (resvBlk c s).map fun r => { r.2 with buf := update r.2.buf r.1 src }

def copyDataBlks (c : SeqBufs) (data : Nat → Page) : Nat → Nat → StageTx → Option StageTx
  | 0, _, s => some s
  | cnt + 1, iblock, s => (copyBlk c s (data iblock)).bind (copyDataBlks c data cnt (iblock + 1))

def fill (t : Table Extent 1024) (p : Page) (tag : Extent) : Page × Bool :=
  (t.push p tag,t.nr (t.push p tag) = t.capacity)

def writeEtags (je : Page) (tag : Extent) : Option (Page × Bool) :=
  if etagBlk.nr je ≤ journalEtagMax then some (fill etagBlk je tag) else none

def stxWriteDescTag (sdb : Page) (tag : Extent) : Option (Page × Bool) :=
  if stageDescBlkTagMax ≤ stageDescBlk.nr sdb then none else some (fill stageDescBlk sdb tag)

def startExtBlk (slot : Nat) (s : StageTx) : StageTx :=
  { s with
    extBlk := some slot
    buf := update s.buf slot (etagBlk.clear (s.buf slot))
    descBlkCopy := setWord s.descBlkCopy stageNrEtagBlksAt (word s.descBlkCopy stageNrEtagBlksAt + 1) }

def openExtBlk (c : SeqBufs) (s : StageTx) : Option StageTx :=
  (resvBlk c s).map fun r => startExtBlk r.1 r.2

def stxWrtag (c : SeqBufs) (s : StageTx) (tag : Extent) : Option StageTx :=
  match s.extBlk with
  | some slot =>
    (writeEtags (s.buf slot) tag).bind fun w =>
      if w.2 then openExtBlk c { s with buf := update s.buf slot w.1 }
      else some { s with buf := update s.buf slot w.1 }
  | none =>
    (stxWriteDescTag s.descBlkCopy tag).bind fun w =>
      if w.2 then openExtBlk c { s with descBlkCopy := w.1 } else some { s with descBlkCopy := w.1 }

structure BufferHead where
  blocknr : Nat
  dirty : Bool
  deriving DecidableEq, Repr

/-- Buffers that turn out not to be dirty are only dropped from the list. -/
def stageFillIndexBlk (c : SeqBufs) (data : Nat → Page) : List BufferHead → StageTx → Option StageTx
  | [], s => some s
  | bh :: rest, s =>
    if bh.dirty then
      (copyBlk c s (data bh.blocknr)).bind fun s =>
        (stxWrtag c s ⟨bh.blocknr,1⟩).bind (stageFillIndexBlk c data rest)
    else stageFillIndexBlk c data rest s

structure RangeDirty where
  start : Nat
  nr : Nat
  fits : nr < 2^31
  deriving DecidableEq, Repr

def rangeDirtyEntMax : Nat := 340

/-- `add_range_dirty_staging`: the first node with room takes the range, and a node is only
allocated to take one. -/
def addRange (rd : RangeDirty) : List (List RangeDirty) → List (List RangeDirty)
  | [] => [[rd]]
  | node :: next =>
    if node.length = rangeDirtyEntMax then node :: addRange rd next else (node ++ [rd]) :: next

structure Ird where
  first : List RangeDirty
  next : List (List RangeDirty)
  filled : ∀ node ∈ next, node ≠ []

def Ird.empty : Ird := ⟨[],[],by simp⟩

theorem addRange_filled (rd : RangeDirty) (nodes : List (List RangeDirty)) (filled : ∀ node ∈ nodes, node ≠ []) :
    ∀ node ∈ addRange rd nodes, node ≠ [] := by
  induction nodes with
  | nil => simp [addRange]
  | cons node next ih =>
    rw [List.forall_mem_cons] at filled
    rw [addRange]
    split
    · exact List.forall_mem_cons.mpr ⟨filled.1,ih filled.2⟩
    · exact List.forall_mem_cons.mpr ⟨by simp,filled.2⟩

def Ird.add (ird : Ird) (rd : RangeDirty) : Ird :=
  if rd.nr = 0 then ird
  else if ird.first.length = rangeDirtyEntMax then
    ⟨ird.first,addRange rd ird.next,addRange_filled rd ird.next ird.filled⟩
  else ⟨ird.first ++ [rd],ird.next,ird.filled⟩

def Ird.nodes (ird : Ird) : List (List RangeDirty) := ird.first :: ird.next

structure BufferExtent where
  iblock : Nat
  nr : Nat
  lba : Nat
  deriving DecidableEq, Repr

/-- The block mapping of a file and the extents `get_blocks` describes it by. -/
structure ExtentMap where
  block : Nat → Nat
  getBlocks : Nat → BufferExtent
  contains : ∀ p, (getBlocks p).iblock ≤ p ∧ p < (getBlocks p).iblock + (getBlocks p).nr
  maps : ∀ p q, (getBlocks p).iblock ≤ q → q < (getBlocks p).iblock + (getBlocks p).nr →
    block q = (getBlocks p).lba + (q - (getBlocks p).iblock)
  addressable : ∀ p, block p < 2^64

/-- The `retry` loop: a run is cut where its extent ends. Each round tags at least one
block of a run that the extent reaches. -/
def fillRun (c : SeqBufs) (m : ExtentMap) : Nat → Nat → Nat → BufferExtent → StageTx → Option StageTx
  | 0, _, _, _, _ => none
  | rounds + 1, start, cnt, be, s =>
    if start + cnt ≤ be.iblock + be.nr then stxWrtag c s ⟨be.lba + start - be.iblock,cnt⟩
    else if start < be.iblock + be.nr then
      let tmp := be.iblock + be.nr - start
      (stxWrtag c s ⟨be.lba + start - be.iblock,tmp⟩).bind
        (fillRun c m rounds (start + tmp) (cnt - tmp) (m.getBlocks (start + tmp)))
    else fillRun c m rounds start cnt (m.getBlocks start) s

def fillNode (c : SeqBufs) (m : ExtentMap) : List RangeDirty → StageTx → Option StageTx
  | [], s => some s
  | rd :: rest, s =>
    if rd.nr = 0 then fillNode c m rest s
    else (fillRun c m rd.nr rd.start rd.nr (m.getBlocks rd.start) s).bind (fillNode c m rest)

/-- The chain is followed up to a node without entries. -/
def stageFillTags (c : SeqBufs) (m : ExtentMap) : List (List RangeDirty) → StageTx → Option StageTx
  | [], s => some s
  | node :: next, s =>
    (fillNode c m node s).bind fun s =>
      if next.head?.getD [] = [] then some s else stageFillTags c m next s

/-- `nrWaiting` counts the blocks of the waiting lists, whether they will be staged or not. -/
def stageFixBlocks (j : StageArea.Journal) (nrDirtyBlks nrWaiting : Nat) (s : StageTx) : Option StageTx :=
  if s.nrIssued = 0 then
    match StageArea.stageReserveArea j (u32 (s.nrPending + (nrDirtyBlks + nrWaiting) + 1)) with
    | .ok _ start commitBaddr =>
      some { s with start := start, commitBaddr := commitBaddr, stageAreaReserved := true }
    | .full | .bugOn _ => none
  else none

/-- The splitting loop of `stage_fill_data`: up to the end of the current sequence, or a
whole sequence if that one is full. -/
def copyRun (c : SeqBufs) (data : Nat → Page) : Nat → Nat → Nat → StageTx → Option StageTx
  | 0, _, remains, s => if remains = 0 then some s else none
  | rounds + 1, start, remains, s =>
    if remains = 0 then some s
    else
      let toProcess := if s.nrBlocks = 0 then min remains c.perSeq else min remains s.nrBlocks
      (copyDataBlks c data toProcess start s).bind
        (copyRun c data rounds (start + toProcess) (remains - toProcess))

def copyNode (c : SeqBufs) (data : Nat → Page) : List RangeDirty → StageTx → Option StageTx
  | [], s => some s
  | rd :: rest, s =>
    if rd.nr = 0 then copyNode c data rest s
    else (copyRun c data rd.nr rd.start rd.nr s).bind (copyNode c data rest)

def stageFillData (c : SeqBufs) (data : Nat → Page) : List (List RangeDirty) → StageTx → Option StageTx
  | [], s => some s
  | node :: next, s => (copyNode c data node s).bind (stageFillData c data next)

/-- The tail of `stage_file`: what is pending is written with the descriptor in its first
page, or the descriptor by itself if it was skipped before, and the commit block follows. -/
def stageIo (c : SeqBufs) (commitBlk : Page) (s : StageTx) : Option StageTx :=
  if s.start ≠ 0 ∧ s.stageAreaReserved then
    let buf := if s.descBlkSkipped then s.buf else update s.buf 0 s.descBlkCopy
    let tail := if s.nrPending = 0 then []
      else nvmeDirectWriteAsync c buf (s.seqIdx + 1) (s.start + s.nrIssued) s.nrPending false
    let desc := if s.descBlkSkipped then [Event.issue ⟨.desc,s.start,[s.descBlkCopy]⟩] else []
    some { s with
      buf := buf
      seqIdx := 0
      nrBlocks := c.perSeq
      nrIssued := s.nrIssued + s.nrPending
      nrPending := 0
      trace := s.trace ++ tail ++ desc ++
        [.issue ⟨.commit,s.commitBaddr,[commitBlk]⟩,.drainAllOutstanding] }
  else none

/-- A regular file about to be staged. Buffers on the private list are those of distinct
blocks. The blocks of the waiting lists come after the file's own data; those of a list whose
journal transaction has finished meanwhile keep their place but are not written. -/
structure File where
  privateList : List BufferHead
  distinct : (privateList.map BufferHead.blocknr).Nodup
  addressable : ∀ bh ∈ privateList, bh.blocknr < 2^64
  ird : Ird
  extents : ExtentMap
  waiting : Nat
  skipped : Nat

/-- The bytes behind a file and its staging: the blocks cached by the buffers, the pages of
the file, the blocks of the waiting lists, the descriptor with the inode filled in, the
commit block, and what the sequence buffers held before. -/
structure Contents where
  block : Nat → Page
  page : Nat → Page
  waiting : Nat → Page
  header : Page
  commitBlk : Page
  buf : Nat → Page

def newStageTx (c : SeqBufs) (x : Contents) : StageTx where
  descBlkCopy := stageDescBlk.clear (setWord x.header stageNrEtagBlksAt 0)
  extBlk := none
  buf := x.buf
  seqIdx := 0
  nrBlocks := c.perSeq
  nrPending := 0
  nrIssued := 0
  start := 0
  commitBaddr := 0
  stageAreaReserved := false
  descBlkSkipped := false
  trace := []

def nrDirtyBlks (ird : Ird) : Nat := (ird.nodes.flatten.map RangeDirty.nr).sum

def stageFileData (c : SeqBufs) (j : StageArea.Journal) (f : File) (x : Contents) (s : StageTx) : Option StageTx :=
  (stageFillIndexBlk c x.block f.privateList s).bind fun s =>
  (stageFillTags c f.extents f.ird.nodes s).bind fun s =>
  (stageFixBlocks j (nrDirtyBlks f.ird) (f.waiting + f.skipped) s).bind fun s =>
  (stageFillData c x.page f.ird.nodes s).bind
  (copyDataBlks c x.waiting f.waiting 0)

/-- The first block is only reserved; the descriptor is copied there at the end. -/
def stageFile (c : SeqBufs) (j : StageArea.Journal) (f : File) (x : Contents) : Option StageTx :=
  (resvBlk c (newStageTx c x)).bind fun r =>
  (stageFileData c j f x r.2).bind (stageIo c x.commitBlk)

end Oxbow.Daemon.Stage
