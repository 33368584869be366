import Oxbow.DevFS.Checkpoint
import Oxbow.DevFS.Log
import Oxbow.Lib.Memory

/-! Both checkpoints of one committed transaction, from its list entry to the freed journal space: `do_checkpoint`, which
copies tag
after tag, and all the passes of `do_checkpoint_coalesce`. The metadata blocks are given as what they hold. I/O is dispatched
synchronously, and the writes of one dispatch land in the order of its list. -/
namespace Oxbow.DevFS.Ckpt

open Oxbow.Lib

abbrev Blk := Nat → UInt8
abbrev Blks := Nat → Blk

def inodeMaxSize : Nat := 256

/-- A stage transaction: where its descriptor is, which inode it has, and the tags of the descriptor and of the extent tag blocks
behind it. Its data blocks come after these. -/
structure StageTx (logs : Logs) where
  stageStart : Nat
  inodeBaddr : Nat
  inodeIndex : Nat
  inodeSize : Nat
  descTags : List ETag
  etagBlks : List (List ETag)
  emptyDesc : descTags = [] → etagBlks = []
  sized : 0 < inodeSize ∧ inodeSize ≤ inodeMaxSize
  slot : (inodeIndex + 1) * inodeSize ≤ blockSize
  placed : logs.stage.Holds stageStart
  begins : logs.stage.Position (stageStart + etagBlks.length + 1)
  fits : (((descTags :: etagBlks).flatten).map ETag.cnt).sum ≤ logs.stage.size

namespace StageTx

section

variable (t : StageTx logs)

def tagBlks : List (List ETag) := t.descTags :: t.etagBlks

def tags : List ETag := t.tagBlks.flatten

def srcStartBaddr : Nat := t.stageStart + t.etagBlks.length + 1

def writes : List (Nat × Nat) :=
  (t.tags.flatMap ETag.dests).mapIdx fun k d => (logs.stage.block t.srcStartBaddr k,d)

def dests : List Nat := t.tags.flatMap ETag.dests

def logBlks : List Nat := t.stageStart :: t.writes.map Prod.fst

end

end StageTx

inductive MetaBlk (logs : Logs)
  | stageTrace (txList : List (StageTx logs))
  | etag (tags : List ETag)

section

variable {logs : Logs}

def MetaBlk.isStageTraceBlk : MetaBlk logs → Bool
  | .stageTrace _ => true
  | .etag _ => false

def MetaBlk.stageTxs : MetaBlk logs → List (StageTx logs)
  | .stageTrace txList => txList
  | .etag _ => []

def MetaBlk.etags : MetaBlk logs → List (List ETag)
  | .stageTrace _ => []
  | .etag tags => [tags]

def stageTxs (blks : List (MetaBlk logs)) : List (StageTx logs) := blks.flatMap MetaBlk.stageTxs

def etagBlks (blks : List (MetaBlk logs)) : List (List ETag) := blks.flatMap MetaBlk.etags

end

/-- A committed transaction. A descriptor without tags has no tag blocks behind it, and there is something to checkpoint;
both are asserted. Live stage transactions do not share blocks of the stage log, and nothing is written to the logs. -/
structure Tx (logs : Logs) where
  txId : Nat
  jStartBaddr : Nat
  totalTxSize : Nat
  descTags : List ETag
  metaBlks : List (MetaBlk logs)
  emptyDesc : descTags = [] → etagBlks metaBlks = []
  nonempty : descTags ≠ [] ∨ metaBlks ≠ []
  placed : logs.journal.Holds jStartBaddr
  fits : (((descTags :: etagBlks metaBlks).flatten).map ETag.cnt).sum ≤ logs.journal.size
  logsApart : ∀ a, logs.journal.Holds a → ¬ logs.stage.Holds a
  apart : (stageTxs metaBlks).Pairwise fun t u => ∀ a ∈ t.logBlks, a ∉ u.logBlks
  destsOutside : ∀ t ∈ stageTxs metaBlks, ∀ d ∈ t.inodeBaddr :: t.dests,
    ¬ logs.journal.Holds d ∧ ¬ logs.stage.Holds d
  outside : ∀ d ∈ (descTags :: etagBlks metaBlks).flatten.flatMap ETag.dests,
    ¬ logs.journal.Holds d ∧ ¬ logs.stage.Holds d

structure DevFs where
  disk : Blks
  sbTxId : Nat
  jLog : JournalLog

section

def io (src dst nBlks : Nat) : Issue := ⟨nBlks,addBioToBl 0 src nBlks,addBioToBl 0 dst nBlks⟩

def tagIssues (ring : LogRing) (src : Nat) (t : ETag) : List Issue × Nat :=
  if checkWrapAround src t.cnt ring.last then
    let nBlks := blksToEnd src ring.last
    let rest := sub32 t.cnt nBlks
    ([io src t.start nBlks,io ring.first (t.start + nBlks) rest],ring.first + rest)
  else ([io src t.start t.cnt],src + t.cnt)

def tagBlkIssues (ring : LogRing) (src : Nat) : List ETag → List Issue × Nat
  | [] => ([],src)
  | t :: ts =>
    ((tagIssues ring src t).1 ++ (tagBlkIssues ring (tagIssues ring src t).2 ts).1,
      (tagBlkIssues ring (tagIssues ring src t).2 ts).2)

def bls (ring : LogRing) (src : Nat) : List (List ETag) → List (List Issue)
  | [] => []
  | blk :: blks => (tagBlkIssues ring src blk).1 :: bls ring (tagBlkIssues ring src blk).2 blks

def readBl (disk : Blks) (issues : List Issue) : List (Nat × Blk) := (issues.flatMap Issue.copies).map fun w => (w.2,disk w.1)

def writeBl (disk : Blks) (bufs : List (Nat × Blk)) : Blks := bufs.foldl (fun d w => Function.update d w.1 w.2) disk

def checkpointInode (t : StageTx logs) (sdb : Blk) (disk : Blks) : Blks :=
  Function.update disk t.inodeBaddr (memcpy (disk t.inodeBaddr) (t.inodeIndex * t.inodeSize) sdb 0 t.inodeSize)

def checkpointStageTx (t : StageTx logs) (sdb : Blk) (disk : Blks) : Blks :=
  let disk := checkpointInode t sdb disk
  if t.descTags = [] then disk
  else ((bls logs.stage t.srcStartBaddr t.tagBlks).map (readBl disk)).foldl writeBl disk

def readStageDescBlk (disk : Blks) (txList : List (StageTx logs)) : List (StageTx logs × Blk) :=
  txList.map fun t => (t,disk t.stageStart)

def checkpointStageTraceBlk (disk : Blks) (txList : List (StageTx logs)) : Blks :=
  (readStageDescBlk disk txList).foldl (fun disk p => checkpointStageTx p.1 p.2 disk) disk

structure Loop where
  disk : Blks
  srcStartBaddr : Nat
  pendingDescTags : Bool
  writeBls : List (List (Nat × Blk))
  nStgTraceBlks : Nat
  nTags : Nat

/-- The tags of the descriptor or of a tag block: they are read at once and written after the loop. -/
def tagBlk (logs : Logs) (tags : List ETag) (l : Loop) : Loop :=
  { l with
    srcStartBaddr := (tagBlkIssues logs.journal l.srcStartBaddr tags).2
    writeBls := l.writeBls ++ [readBl l.disk (tagBlkIssues logs.journal l.srcStartBaddr tags).1]
    nTags := l.nTags + tags.length }

/-- The loop from `i == 1` on. After the first stage trace block the tags of the descriptor are made up for; without tags
the loop is left there. -/
def metaLoop (tx : Tx logs) : List (MetaBlk logs) → Loop → Loop
  | [], l => l
  | .stageTrace txList :: rest, l =>
    let l := { l with disk := checkpointStageTraceBlk l.disk txList, nStgTraceBlks := l.nStgTraceBlks + 1 }
    if l.pendingDescTags then
      if tx.descTags = [] then l
      else metaLoop tx rest { tagBlk logs tx.descTags { l with srcStartBaddr := tx.jStartBaddr + 1 } with
          pendingDescTags := false }
    else metaLoop tx rest l
  | .etag tags :: rest, l => if tx.descTags = [] then l else metaLoop tx rest (tagBlk logs tags l)

/-- The round for the descriptor, then those for the metadata blocks. The first of these is looked at even if there is none:
`beyond` is whether the bytes behind the buffer would pass for a stage trace block. -/
def ckptLoop (beyond : Bool) (tx : Tx logs) (l : Loop) : Loop :=
  if (match tx.metaBlks with | [] => beyond | m :: _ => m.isStageTraceBlk) then metaLoop tx tx.metaBlks
    { l with pendingDescTags := true }
  else if tx.descTags = [] then l
  else metaLoop tx tx.metaBlks (tagBlk logs tx.descTags l)

def release (tx : Tx logs) (s : DevFs) : Option DevFs :=
  (freeJournalSpace s.jLog tx.jStartBaddr tx.totalTxSize).map fun jLog => { s with sbTxId := u32 (tx.txId + 1), jLog := jLog }

def nDataBufs (tx : Tx logs) : Nat := if tx.descTags = [] then 0 else (etagBlks tx.metaBlks).length + 1

def doCheckpoint (beyond : Bool) (tx : Tx logs) (s : DevFs) : Option DevFs :=
  let l := ckptLoop beyond tx ⟨s.disk,tx.jStartBaddr + 1,false,[],0,0⟩
  if l.writeBls.length ≠ nDataBufs tx then none
  else if l.nStgTraceBlks = 0 ∧ l.nTags = 0 then none
  else release tx { s with disk := l.writeBls.foldl writeBl l.disk }

/-! `do_checkpoint_coalesce`. -/

def stbScan (disk : Blks) : List (MetaBlk logs) → Blks
  | [] => disk
  | .stageTrace txList :: rest =>
    stbScan ((readStageDescBlk disk txList).foldl (fun disk p => checkpointInode p.1 p.2 disk) disk) rest
  | .etag _ :: rest => stbScan disk rest

def stageNodes (t : StageTx logs) : List TagListNode :=
  if t.descTags = [] then [] else t.tags.map fun tag => ⟨tag.start,t.srcStartBaddr,tag.cnt,true⟩

def journalTags (tx : Tx logs) : List ETag :=
  if tx.descTags = [] then [] else (tx.descTags :: etagBlks tx.metaBlks).flatten

def journalNodes (tx : Tx logs) : List TagListNode :=
  (journalTags tx).map fun tag => ⟨tag.start,tx.jStartBaddr + 1,tag.cnt,false⟩

def doCheckpointCoalesce (maxBufSize : Nat) (tx : Tx logs) (s : DevFs) : Option DevFs :=
  if tx.metaBlks.filter MetaBlk.isStageTraceBlk = [] ∧ journalTags tx = [] then none
  else
    (DevFS.doCheckpointCoalesce logs maxBufSize ((stageTxs tx.metaBlks).flatMap stageNodes ++ journalNodes tx)).bind
      fun dispatched =>
      release tx
        { s with disk := dispatched.foldl (fun disk issues => writeBl disk (readBl disk issues)) (stbScan s.disk tx.metaBlks) }

end

end Oxbow.DevFS.Ckpt
