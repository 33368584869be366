import Oxbow.Common.Sjd

/-! The scans of `do_checkpoint_coalesce` over the metadata of one journal transaction: its
descriptor and the blocks copied behind it. Pass 1 takes the stage transactions from the
stage trace blocks, pass 2 the tags from the descriptor and the extent tag blocks. -/
namespace Oxbow.DevFS

open Oxbow.Lib Oxbow.Sjd List

structure TxMeta where
  descBlk : Page
  metaBlks : List Page

def copyDescAndMetaToTxMeta (descBlk : Page) (mdBuf : List Page) : TxMeta :=
  ⟨descBlk,mdBuf.take (journalNrEtagBlks descBlk + journalNrStageTraceBlks descBlk)⟩

def scanStageTrace (tx : TxMeta) : List Nat :=
  tx.metaBlks.flatMap fun cur => if isStageTraceBlk cur then stageTraceBlk.entries cur else []

/-- The tags of one metadata block in pass 2; a block of neither type fails an assertion. -/
def scanMetaBlk (cur : Page) : Option (List Extent) :=
  if isStageTraceBlk cur then some []
  else if isEtagBlk cur then some (etagBlk.entries cur)
  else none

def scanMetaBlks : List Page → Option (List Extent)
  | [] => some []
  | cur :: rest => (scanMetaBlk cur).bind fun tags => (scanMetaBlks rest).map (tags ++ ·)

/-- Pass 2: a descriptor without tags must not announce extent tag blocks. -/
def scanJournal (tx : TxMeta) : Option (List Extent) :=
  if journalDescBlk.nr tx.descBlk = 0 then
    if journalNrEtagBlks tx.descBlk = 0 then some [] else none
  else (scanMetaBlks tx.metaBlks).map (journalDescBlk.entries tx.descBlk ++ ·)

def etagsOf (blks : List Page) : List Extent := (blks.filter isEtagBlk).flatMap etagBlk.entries
def tracesOf (blks : List Page) : List Nat := (blks.filter isStageTraceBlk).flatMap stageTraceBlk.entries

theorem scanStageTrace_eq (tx : TxMeta) : scanStageTrace tx = tracesOf tx.metaBlks := by
  simp only [scanStageTrace,tracesOf]
  induction tx.metaBlks with
  | nil => rfl
  | cons cur rest ih =>
    rw [flatMap_cons,ih,filter_cons]
    split <;> simp

theorem etag_not_trace (etag : isEtagBlk p = true) : isStageTraceBlk p = false := by
  simp only [isEtagBlk,isStageTraceBlk,decide_eq_true_eq,decide_eq_false_iff_not] at etag ⊢
  simp [etag,etagBlkType,stageTraceBlkType]

theorem trace_not_etag (trace : isStageTraceBlk p = true) : isEtagBlk p = false := by
  simp only [isEtagBlk,isStageTraceBlk,decide_eq_true_eq,decide_eq_false_iff_not] at trace ⊢
  simp [trace,etagBlkType,stageTraceBlkType]

theorem scanMetaBlks_eq (blks : List Page) (typed : ∀ p ∈ blks, isEtagBlk p ∨ isStageTraceBlk p) :
    scanMetaBlks blks = some (etagsOf blks) := by
  induction blks with
  | nil => rfl
  | cons cur rest ih =>
    have later := ih fun p member => typed p (mem_cons_of_mem _ member)
    rcases typed cur mem_cons_self with etag | trace
    · simp [scanMetaBlks,scanMetaBlk,etag_not_trace etag,etag,later,etagsOf]
    · simp [scanMetaBlks,scanMetaBlk,trace,trace_not_etag trace,later,etagsOf]

theorem length_typed (blks : List Page) (typed : ∀ p ∈ blks, isEtagBlk p ∨ isStageTraceBlk p) :
    (blks.filter isEtagBlk).length + (blks.filter isStageTraceBlk).length = blks.length := by
  induction blks with
  | nil => rfl
  | cons cur rest ih =>
    have later := ih fun p member => typed p (mem_cons_of_mem _ member)
    rcases typed cur mem_cons_self with etag | trace
    · simp only [filter_cons,etag,etag_not_trace etag,length_cons,if_true,Bool.false_eq_true,if_false]
      omega
    · simp only [filter_cons,trace,trace_not_etag trace,length_cons,if_true,Bool.false_eq_true,if_false]
      omega

end Oxbow.DevFS
