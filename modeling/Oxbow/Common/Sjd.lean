import Oxbow.Lib.Table

/-! The journal and stage blocks that the daemon writes and DevFS reads back, as
`common/sjd.h` lays them out. A block is 1024 words; the structures are packed, and all of
their fields but the bytes of an inode are whole words. -/
namespace Oxbow.Sjd

open Oxbow.Lib

def pageSize : Nat := 4096
def etagSize : Nat := 12
def baddrSize : Nat := 8

abbrev Page := Words 1024

abbrev Disk := Nat → Page

/-- `sizeof(struct journal_descriptor_header)`, of `journal_meta_header` and of
`journal_stage_header`. -/
def journalDescriptorHeaderSize : Nat := 24
def journalMetaHeaderSize : Nat := 8
def journalStageHeaderSize : Nat := 300

def journalDescTagMax : Nat := (pageSize - journalDescriptorHeaderSize) / etagSize
def journalEtagMax : Nat := (pageSize - journalMetaHeaderSize) / etagSize
def journalTraceMax : Nat := (pageSize - journalMetaHeaderSize) / baddrSize
def stageDescBlkTagMax : Nat := (pageSize - journalStageHeaderSize) / etagSize

/-- `h.nr_tags` and `tags` of `struct journal_descriptor_block`. -/
def journalDescBlk : Table Extent 1024 where
  codec := extent96
  nrAt := 4
  entriesAt := 6
  capacity := journalDescTagMax
  header := by decide
  inside := by decide
  counted := by decide

/-- `h.nr` and `tags` of `struct journal_extent_tag_block`. -/
def etagBlk : Table Extent 1024 where
  codec := extent96
  nrAt := 1
  entriesAt := 2
  capacity := journalEtagMax
  header := by decide
  inside := by decide
  counted := by decide

/-- `h.nr` and `tx_list` of `struct journal_stage_trace_block`. -/
def stageTraceBlk : Table Nat 1024 where
  codec := number64
  nrAt := 1
  entriesAt := 2
  capacity := journalTraceMax
  header := by decide
  inside := by decide
  counted := by decide

/-- `h.nr_tags` and `tags` of `struct stage_descriptor_block`. -/
def stageDescBlk : Table Extent 1024 where
  codec := extent96
  nrAt := 69
  entriesAt := 75
  capacity := stageDescBlkTagMax
  header := by decide
  inside := by decide
  counted := by decide

/-- The words of `blocktype`, `nr_etag_blks` and `nr_stage_trace_blks` in the headers of the
journal blocks, and of `nr_etag_blks` in a stage descriptor. -/
def blocktypeAt : Nat := 0
def journalNrEtagBlksAt : Nat := 2
def journalNrStageTraceBlksAt : Nat := 3
def stageNrEtagBlksAt : Nat := 68

/-- The block types of `enum j_block_type` that a metadata block can have. -/
def etagBlkType : Nat := 4
def stageTraceBlkType : Nat := 5

def blocktype (p : Page) : Nat := word p blocktypeAt
def isStageTraceBlk (p : Page) : Bool := blocktype p = stageTraceBlkType
def isEtagBlk (p : Page) : Bool := blocktype p = etagBlkType

def journalNrEtagBlks (jdb : Page) : Nat := word jdb journalNrEtagBlksAt
def journalNrStageTraceBlks (jdb : Page) : Nat := word jdb journalNrStageTraceBlksAt

end Oxbow.Sjd
