import Mathlib.Data.List.Chain
import Oxbow.Daemon.IrdDump
import Oxbow.Lib.Halfword

/-! Reading back a dumped list of dirty ranges, `deserialize_ird_compact` of `libfs/shm.c`. The frames are packed
structures in the blocks, and neither they nor the blocks line up with the nodes of the list. -/
namespace Oxbow.Daemon.Stage

open Oxbow.Lib Oxbow.Lib.Halfword Oxbow.Sjd List

/-! The frame in its block: 8 bytes `base_pg`, 2 bytes `n_entries`, and 4 bytes each of `delta` and `len`. -/

def hdrBasePg (p : Page) : Nat := number p 0 4
def hdrNEntries (p : Page) : Nat := halfword p 4
def frameEntry (p : Page) (i : Nat) : IrdFrameEntry := ⟨number p (5 + 4 * i) 2,number p (7 + 4 * i) 2⟩

def putEntries (p : Page) (i : Nat) : List IrdFrameEntry → Page
  | [] => p
  | e :: rest => putNumber (putNumber (putEntries p (i + 1) rest) (5 + 4 * i) 2 e.delta) (7 + 4 * i) 2 e.len

def framePage (old : Page) (frame : IrdFrame) : Page :=
  setHalfword (putNumber (putEntries old 0 frame.entries) 0 4 frame.basePg) 4 frame.entries.length

/-- The page holds the frame: its header and its entries. -/
structure Frames (p : Page) (frame : IrdFrame) : Prop where
  basePg : hdrBasePg p = frame.basePg
  nEntries : hdrNEntries p = frame.entries.length
  entries : ∀ i e, frame.entries[i]? = some e → frameEntry p i = e

/-- The fields of the frame fit theirs on the page. -/
structure IrdFrame.Fits (frame : IrdFrame) : Prop where
  basePg : frame.basePg < 2^64
  few : frame.entries.length ≤ entsPerBlock
  entries : ∀ e ∈ frame.entries, e.delta < 2^32 ∧ e.len < 2^32

/-! The list that is read into. -/

structure IrdNode where
  dirtyPages : List (Nat × Int)
  dirtyBlkNr : Nat
  deriving DecidableEq, Repr

structure IrdChain where
  before : List IrdNode
  tail : IrdNode
  deriving DecidableEq, Repr

namespace IrdChain

def nodes (l : IrdChain) : List IrdNode := l.before ++ [l.tail]

def append (l : IrdChain) (start len : Nat) : IrdChain :=
  if l.tail.dirtyPages.length = rangeDirtyEntMax then ⟨l.before ++ [l.tail],⟨[(start,int32 len)],u32 len⟩⟩
  else ⟨l.before,⟨l.tail.dirtyPages ++ [(start,int32 len)],u32 (l.tail.dirtyBlkNr + len)⟩⟩

end IrdChain

def readEntries (p : Page) : (left i cur : Nat) → IrdChain → IrdChain
  | 0, _, _, l => l
  | left + 1, i, cur, l =>
    let start := u64 (cur + (frameEntry p i).delta)
    let len := (frameEntry p i).len
    readEntries p left (i + 1) (u64 (start + len)) (l.append start len)

/-- A count that does not fit in a block is refused. -/
def readFrame (p : Page) (l : IrdChain) : Option IrdChain :=
  if pageSize < irdFrameHeaderSize + hdrNEntries p * irdFrameEntrySize then none
  else some (readEntries p (hdrNEntries p) 0 (hdrBasePg p) l)

def readFrames : List Page → IrdChain → Option IrdChain
  | [], l => some l
  | p :: rest, l => (readFrame p l).bind (readFrames rest)

def deserializeIrdCompact (blks : List Page) : Option IrdChain := readFrames blks ⟨[],⟨[],0⟩⟩

def inodeGetStgDirtyBlocksNr (nodes : List IrdNode) : Int := nodes.foldl (fun count node => int32 (count + node.dirtyBlkNr)) 0

def Ird.irdNodes (ird : Ird) : List IrdNode :=
  ird.nodes.map fun node => ⟨node.map fun rd => (rd.start,rd.nr),u32 (node.map RangeDirty.nr).sum⟩

theorem frameEntry_putEntries (i : Nat) (es : List IrdFrameEntry) (room : i + es.length ≤ entsPerBlock)
    (fits : ∀ e ∈ es, e.delta < 2^32 ∧ e.len < 2^32) (m : Nat) (e : IrdFrameEntry) (member : es[m]? = some e) :
    frameEntry (putEntries old i es) (i + m) = e := by
  rw [entsPerBlock_eq] at room
  induction es generalizing i m with
  | nil => simp at member
  | cons first es ih =>
    rw [forall_mem_cons] at fits
    rw [length_cons] at room
    rw [putEntries]
    cases m with
    | zero =>
      obtain rfl : first = e := by simpa using member
      have delta : number (putNumber (putNumber (putEntries old (i + 1) es) (5 + 4 * i) 2 first.delta) (7 + 4 * i) 2 first.len)
          (5 + 4 * i) 2 = first.delta := by
        rw [number_putNumber_apart _ _ (by omega),number_putNumber _ (by omega)]
        exact Nat.mod_eq_of_lt fits.1.1
      have len : number (putNumber (putNumber (putEntries old (i + 1) es) (5 + 4 * i) 2 first.delta) (7 + 4 * i) 2 first.len)
          (7 + 4 * i) 2 = first.len := by
        rw [number_putNumber _ (by omega)]
        exact Nat.mod_eq_of_lt fits.1.2
      exact congrArg₂ IrdFrameEntry.mk delta len
    | succ m =>
      have later := ih (i + 1) (by omega) fits.2 m (by simpa using member)
      have place : i + 1 + m = i + (m + 1) := by omega
      rw [place] at later
      rw [frameEntry,number_putNumber_apart _ _ (by omega),number_putNumber_apart _ _ (by omega),
        number_putNumber_apart _ _ (by omega),number_putNumber_apart _ _ (by omega)]
      exact later

theorem framePage_frames (old : Page) (fits : frame.Fits) : Frames (framePage old frame) frame := by
  obtain ⟨basePg,few,entries⟩ := fits
  refine ⟨?_,?_,?_⟩
  · rw [hdrBasePg,framePage,number_setHalfword _ _ (by omega),number_putNumber _ (by omega)]
    exact Nat.mod_eq_of_lt basePg
  · rw [entsPerBlock_eq] at few
    rw [hdrNEntries,framePage,halfword_setHalfword _ (by omega)]
    exact Nat.mod_eq_of_lt (by omega)
  · intro i e member
    have entry : frameEntry (putEntries old 0 frame.entries) (0 + i) = e :=
      frameEntry_putEntries 0 frame.entries (by omega) entries i e member
    rw [Nat.zero_add] at entry
    rw [frameEntry,framePage,number_setHalfword _ _ (by omega),number_setHalfword _ _ (by omega),
      number_putNumber_apart _ _ (by omega),number_putNumber_apart _ _ (by omega)]
    exact entry

def decodeEntries (cur : Nat) : List IrdFrameEntry → List (Nat × Nat)
  | [] => []
  | e :: rest => (u64 (cur + e.delta),e.len) :: decodeEntries (u64 (u64 (cur + e.delta) + e.len)) rest

def decodeEnd (cur : Nat) : List IrdFrameEntry → Nat
  | [] => cur
  | e :: rest => decodeEnd (u64 (u64 (cur + e.delta) + e.len)) rest

def IrdFrame.decoded (frame : IrdFrame) : List (Nat × Nat) := decodeEntries frame.basePg frame.entries

def IrdChain.appendAll (l : IrdChain) (ranges : List (Nat × Nat)) : IrdChain :=
  ranges.foldl (fun l range => l.append range.1 range.2) l

theorem readEntries_eq (frames : Frames p frame) (left i cur : Nat) (l : IrdChain) (rest : i + left = frame.entries.length) :
    readEntries p left i cur l = l.appendAll (decodeEntries cur (frame.entries.drop i)) := by
  induction left generalizing i cur l with
  | zero => 
    rw [drop_of_length_le (by omega)]
    rfl
  | succ left ih =>
    have inside : i < frame.entries.length := by omega
    have entry := frames.entries i _ (getElem?_eq_getElem inside)
    rw [drop_eq_getElem_cons inside,readEntries,entry]
    exact ih (i + 1) _ _ (by omega)

theorem readFrame_eq (frames : Frames p frame) (few : frame.entries.length ≤ entsPerBlock) (l : IrdChain) :
    readFrame p l = some (l.appendAll frame.decoded) := by
  have size : irdFrameHeaderSize + hdrNEntries p * irdFrameEntrySize ≤ pageSize := by
    rw [frames.nEntries]
    simp only [entsPerBlock_eq,irdFrameHeaderSize,irdFrameEntrySize,pageSize] at few ⊢
    omega
  rw [readFrame,if_neg (Nat.not_lt.mpr size),frames.nEntries,frames.basePg,readEntries_eq frames _ _ _ _ (Nat.zero_add _)]
  rfl

theorem readFrames_eq (frames : List.Forall₂ Frames blks fs) (few : ∀ f ∈ fs, f.entries.length ≤ entsPerBlock)
    (l : IrdChain) :
    readFrames blks l = some (l.appendAll (fs.flatMap IrdFrame.decoded)) := by
  induction frames generalizing l with
  | nil => rfl
  | cons first _ ih =>
    rw [forall_mem_cons] at few
    rw [readFrames,readFrame_eq first few.1,Option.bind_some,ih few.2]
    simp [IrdChain.appendAll]

/-! The ranges in the frames. -/

theorem decodeEntries_snoc (cur : Nat) (es : List IrdFrameEntry) (e : IrdFrameEntry) :
    decodeEntries cur (es ++ [e]) = decodeEntries cur es ++ [(u64 (decodeEnd cur es + e.delta),e.len)] := by
  induction es generalizing cur with
  | nil => rfl
  | cons first es ih => simp [decodeEntries,decodeEnd,ih]

theorem decodeEnd_snoc (cur : Nat) (es : List IrdFrameEntry) (e : IrdFrameEntry) :
    decodeEnd cur (es ++ [e]) = u64 (u64 (decodeEnd cur es + e.delta) + e.len) := by
  induction es generalizing cur with
  | nil => rfl
  | cons first es ih => simp [decodeEnd,ih]

def Follows (rd next : RangeDirty) : Prop := rd.start + rd.nr ≤ next.start ∧ next.start - (rd.start + rd.nr) < 2^32

/-- A list of ranges as a gather makes it. The blocks it takes can be counted in 32 bits, as `nr_blocks` is. -/
structure Gathered (ranges : List RangeDirty) : Prop where
  positive : ∀ rd ∈ ranges, 0 < rd.nr
  ascending : ranges.IsChain Follows
  pages : ∀ rd ∈ ranges, rd.start < 2^64
  counted : ranges.length ≤ entsPerBlock * (2^32 - 1)

def RangeDirty.pair (rd : RangeDirty) : Nat × Nat := (rd.start,rd.nr)

theorem u32_nr (rd : RangeDirty) : u32 rd.nr = rd.nr := by
  have fits := rd.fits
  exact u32_of_lt (by omega)

theorem firstEntry_decoded (page : rd.start < 2^64) : (firstEntry rd).decoded = [rd.pair] := by
  simp [firstEntry,IrdFrame.decoded,decodeEntries,RangeDirty.pair,u32_nr,u64_of_lt page]

theorem firstEntry_end (page : rd.start < 2^64) :
    decodeEnd (firstEntry rd).basePg (firstEntry rd).entries = u64 (rd.start + rd.nr) := by
  simp [firstEntry,decodeEnd,u32_nr,u64_of_lt page]

theorem nextEntry_decoded {prev : RangeDirty} (follows : Follows prev rd) (page : rd.start < 2^64)
    (ends : decodeEnd frame.basePg frame.entries = u64 (prev.start + prev.nr)) :
    (nextEntry (prev.start + prev.nr) rd frame).decoded = frame.decoded ++ [rd.pair] ∧
      decodeEnd frame.basePg (nextEntry (prev.start + prev.nr) rd frame).entries = u64 (rd.start + rd.nr) := by
  obtain ⟨behind,gap⟩ := follows
  have start : u64 (decodeEnd frame.basePg frame.entries + u32 (rd.start - (prev.start + prev.nr))) = rd.start := by
    have last : u64 (prev.start + prev.nr) = prev.start + prev.nr := u64_of_lt (by omega)
    rw [ends,last,u32_of_lt gap,Nat.add_sub_cancel' behind,u64_of_lt page]
  constructor
  · simp only [nextEntry,IrdFrame.decoded,if_pos behind,decodeEntries_snoc,start,u32_nr,RangeDirty.pair]
  · simp only [nextEntry,if_pos behind,decodeEnd_snoc,start,u32_nr]

theorem framesFrom_decoded (prev : RangeDirty) (rest : List RangeDirty) (positive : ∀ rd ∈ rest, 0 < rd.nr)
    (ascending : (prev :: rest).IsChain Follows) (pages : ∀ rd ∈ rest, rd.start < 2^64)
    (ends : decodeEnd frame.basePg frame.entries = u64 (prev.start + prev.nr)) :
    (framesFrom (prev.start + prev.nr) frame rest).flatMap IrdFrame.decoded = frame.decoded ++ rest.map RangeDirty.pair := by
  induction rest generalizing prev frame with
  | nil => simp [framesFrom]
  | cons rd rest ih =>
    rw [forall_mem_cons] at positive pages
    obtain ⟨follows,later⟩ := isChain_cons_cons.mp ascending
    rw [framesFrom,if_neg (by omega)]
    split
    next =>
      rw [flatMap_cons,ih rd positive.2 later pages.2 (firstEntry_end pages.1),firstEntry_decoded pages.1]
      simp
    next =>
      obtain ⟨decoded,ends'⟩ := nextEntry_decoded follows pages.1 ends
      rw [ih rd positive.2 later pages.2 ends',decoded]
      simp

theorem frames_decoded {ranges : List RangeDirty} (gathered : Gathered ranges) :
    (frames ranges).flatMap IrdFrame.decoded = ranges.map RangeDirty.pair := by
  obtain ⟨positive,ascending,pages,-⟩ := gathered
  cases ranges with
  | nil => rfl
  | cons rd rest =>
    rw [forall_mem_cons] at positive pages
    rw [frames,if_neg (by omega),framesFrom_decoded rd rest positive.2 ascending pages.2 (firstEntry_end pages.1),
      firstEntry_decoded pages.1]
    rfl

theorem firstEntry_fits (page : rd.start < 2^64) : (firstEntry rd).Fits := by
  refine ⟨page,show 1 ≤ entsPerBlock by decide,?_⟩
  simp only [firstEntry,mem_singleton,forall_eq]
  exact ⟨by decide,u32_lt _⟩

theorem nextEntry_fits (prevEnd : Nat) (rd : RangeDirty) (fits : frame.Fits) (more : frame.entries.length ≠ entsPerBlock) :
    (nextEntry prevEnd rd frame).Fits := by
  refine ⟨fits.basePg,?_,?_⟩
  · have few := fits.few
    simp only [nextEntry,length_append,length_singleton]
    omega
  · intro e member
    rcases mem_append.mp member with earlier | last
    · exact fits.entries e earlier
    · obtain rfl := mem_singleton.mp last
      exact ⟨u32_lt _,u32_lt _⟩

theorem framesFrom_fits (prevEnd : Nat) (rest : List RangeDirty) (pages : ∀ rd ∈ rest, rd.start < 2^64) (fits : frame.Fits) :
    ∀ f ∈ framesFrom prevEnd frame rest, f.Fits := by
  induction rest generalizing prevEnd frame with
  | nil => simpa [framesFrom] using fits
  | cons rd rest ih =>
    rw [forall_mem_cons] at pages
    rw [framesFrom]
    split
    next => exact ih prevEnd pages.2 fits
    next =>
      split
      next =>
        rw [forall_mem_cons]
        exact ⟨fits,ih _ pages.2 (firstEntry_fits pages.1)⟩
      next more => exact ih _ pages.2 (nextEntry_fits prevEnd rd fits more)

theorem frames_fits {ranges : List RangeDirty} (pages : ∀ rd ∈ ranges, rd.start < 2^64) : ∀ f ∈ frames ranges, f.Fits := by
  induction ranges with
  | nil => simp [frames]
  | cons rd rest ih =>
    rw [forall_mem_cons] at pages
    rw [frames]
    split
    · exact ih pages.2
    · exact framesFrom_fits _ rest pages.2 (firstEntry_fits pages.1)

namespace IrdChain

section

variable (l : IrdChain)

def dirtyPages : List (Nat × Int) := l.nodes.flatMap IrdNode.dirtyPages

theorem append_dirtyPages (start len : Nat) : (l.append start len).dirtyPages = l.dirtyPages ++ [(start,int32 len)] := by
  rw [append]
  split
  · simp [dirtyPages,nodes]
  · simp [dirtyPages,nodes]

theorem appendAll_dirtyPages (ranges : List (Nat × Nat)) :
    (l.appendAll ranges).dirtyPages = l.dirtyPages ++ ranges.map fun range => (range.1,int32 range.2) := by
  induction ranges generalizing l with
  | nil => simp [appendAll]
  | cons range ranges ih =>
    have rest := ih (l.append range.1 range.2)
    rw [append_dirtyPages] at rest
    simpa [appendAll] using rest

def dirtyBlkNr : Nat := (l.nodes.map IrdNode.dirtyBlkNr).sum

theorem append_dirtyBlkNr (start len : Nat) : u32 (l.append start len).dirtyBlkNr = u32 (l.dirtyBlkNr + len) := by
  rw [append]
  split
  · simp [dirtyBlkNr,nodes,u32]
    omega
  · simp [dirtyBlkNr,nodes,u32]
    omega

theorem appendAll_dirtyBlkNr (ranges : List (Nat × Nat)) :
    u32 (l.appendAll ranges).dirtyBlkNr = u32 (l.dirtyBlkNr + (ranges.map Prod.snd).sum) := by
  induction ranges generalizing l with
  | nil => simp [appendAll]
  | cons range ranges ih =>
    have rest := ih (l.append range.1 range.2)
    have first := l.append_dirtyBlkNr range.1 range.2
    simp only [appendAll,foldl_cons,map_cons,sum_cons] at rest ⊢
    rw [rest]
    simp only [u32] at first ⊢
    omega

end

end IrdChain

theorem int32_congr (same : y % 2^32 = z % 2^32) : int32 y = int32 z := by
  simp only [int32,same]

theorem inodeGetStgDirtyBlocksNr_eq (nodes : List IrdNode) :
    inodeGetStgDirtyBlocksNr nodes = int32 (nodes.map IrdNode.dirtyBlkNr).sum := by
  have from' : ∀ count : Int, nodes.foldl (fun count node => int32 (count + node.dirtyBlkNr)) (int32 count) =
      int32 (count + (nodes.map IrdNode.dirtyBlkNr).sum) := by
    induction nodes with
    | nil => simp
    | cons node nodes ih =>
      intro count
      have first : int32 (int32 count + node.dirtyBlkNr) = int32 (count + node.dirtyBlkNr) := by
        apply int32_congr
        simp only [int32]
        split <;> omega
      rw [foldl_cons,first,ih,map_cons,sum_cons]
      apply congrArg
      push_cast
      omega
  have all := from' 0
  rw [Int.zero_add] at all
  exact all

theorem irdNodes_dirtyBlkNr (ird : Ird) : u32 (ird.irdNodes.map IrdNode.dirtyBlkNr).sum = u32
    (ird.ranges.map RangeDirty.nr).sum := by
  rw [Ird.irdNodes,Ird.ranges]
  induction ird.nodes with
  | nil => rfl
  | cons node nodes ih =>
    simp only [map_cons,sum_cons,flatten_cons,map_append,sum_append,u32] at ih ⊢
    omega

/-- Any list of a gather is written into as many blocks as were counted, and what is read back from them has its ranges and
its number of pages. -/
theorem ird_roundTrip (c : SeqBufs) (page : IrdFrame → Page) (encodes : ∀ f, f.Fits → Frames (page f) f) (ird : Ird)
    (gathered : Gathered ird.ranges) :
    ∃ blks l, (∀ s, serializeAndFillIrdList c page ird s = (copyAll c blks s).map fun t => (countIrdDumpBlocks ird,t)) ∧
      blks.length = countIrdDumpBlocks ird ∧ deserializeIrdCompact blks = some l ∧
      l.dirtyPages = ird.ranges.map (fun rd => (rd.start,(rd.nr : Int))) ∧
      inodeGetStgDirtyBlocksNr l.nodes = inodeGetStgDirtyBlocksNr ird.irdNodes := by
  have fits := frames_fits gathered.pages
  have number : (frames ird.ranges).length = countIrdDumpBlocks ird := by
    have counted := gathered.counted
    have length := frames_length ird.ranges gathered.positive
    rw [entsPerBlock_eq] at counted length
    rw [countIrdDumpBlocks,entsPerBlock_eq]
    change _ = u32 ((ird.ranges.length + 510 - 1) / 510)
    rw [← length,u32_of_lt (by omega)]
  have held : List.Forall₂ Frames ((frames ird.ranges).map page) (frames ird.ranges) := by
    rw [forall₂_map_left_iff]
    exact forall₂_same.mpr fun f member => encodes f (fits f member)
  have read := readFrames_eq held (fun f member => (fits f member).few) ⟨[],⟨[],0⟩⟩
  rw [frames_decoded gathered] at read
  refine ⟨(frames ird.ranges).map page,_,fun s => ?_,by rw [length_map,number],read,?_,?_⟩
  · rw [serializeAndFillIrdList_eq,number]
  · rw [IrdChain.appendAll_dirtyPages,map_map]
    apply map_congr_left
    intro rd _
    simp [RangeDirty.pair,int32_natCast rd.fits]
  · have total := IrdChain.appendAll_dirtyBlkNr ⟨[],⟨[],0⟩⟩ (ird.ranges.map RangeDirty.pair)
    have source := irdNodes_dirtyBlkNr ird
    have lengths : (ird.ranges.map RangeDirty.pair).map Prod.snd = ird.ranges.map RangeDirty.nr := by
      rw [map_map]
      rfl
    have none : IrdChain.dirtyBlkNr ⟨[],⟨[],0⟩⟩ = 0 := rfl
    rw [lengths,none,Nat.zero_add,← source] at total
    rw [inodeGetStgDirtyBlocksNr_eq,inodeGetStgDirtyBlocksNr_eq]
    apply int32_congr
    simp only [u32,IrdChain.dirtyBlkNr] at total
    omega

/-- Two ranges, 4 GB apart. -/
theorem ird_roundTrip_two :
    ∃ blks l, blks.length = 1 ∧ deserializeIrdCompact blks = some l ∧ l.dirtyPages = [(3,2),(2^20,1)] := by
  have gathered : Gathered ((Ird.empty.add ⟨3,2,by decide⟩).add ⟨2^20,1,by decide⟩).ranges :=
    ⟨by decide,by simp [Ird.empty,Ird.add,Ird.ranges,Ird.nodes,Follows,rangeDirtyEntMax],by decide,by decide⟩
  obtain ⟨blks,l,-,length,read,pages,-⟩ := ird_roundTrip ⟨8,8,by decide,by decide,by decide⟩ (framePage fun _ => 0)
    (fun _ fits => framePage_frames _ fits) _ gathered
  exact ⟨blks,l,length,read,pages⟩

end Oxbow.Daemon.Stage
