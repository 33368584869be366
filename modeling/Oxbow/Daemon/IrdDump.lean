import Oxbow.Daemon.StageFill

/-! A list of dirty ranges as `serialize_and_fill_ird_list` puts it into blocks of a stage transaction: frames, in which
each range is coded by its distance from the end of the range before it. -/
namespace Oxbow.Daemon.Stage

open Oxbow.Lib Oxbow.Sjd Function List Option

structure IrdFrameEntry where
  delta : Nat
  len : Nat
  deriving DecidableEq, Repr

structure IrdFrame where
  basePg : Nat
  entries : List IrdFrameEntry
  deriving DecidableEq, Repr

def irdFrameHeaderSize : Nat := 10
def irdFrameEntrySize : Nat := 8

def entsPerBlock : Nat := (pageSize - irdFrameHeaderSize) / irdFrameEntrySize

def countIrdDumpBlocks (ird : Ird) : Nat := u32 ((ird.nodes.flatten.length + entsPerBlock - 1) / entsPerBlock)

structure Serializer where
  stx : StageTx
  slot : Nat
  frame : IrdFrame
  firstInFrame : Bool
  prevEnd : Nat
  writtenBlocks : Nat

section

variable (c : SeqBufs) (page : IrdFrame → Page)

def startFrame (start : Nat) (z : Serializer) : Option Serializer :=
  if z.firstInFrame then (resvBlk c z.stx).map fun r => ⟨r.2,r.1,⟨start,[]⟩,false,start,z.writtenBlocks + 1⟩ else some z

def addEntry (rd : RangeDirty) (z : Serializer) : Serializer :=
  let delta := if z.prevEnd ≤ rd.start then rd.start - z.prevEnd else 0
  let frame := ⟨z.frame.basePg,z.frame.entries ++ [⟨u32 delta,u32 rd.nr⟩]⟩
  { z with
    stx := { z.stx with buf := update z.stx.buf z.slot (page frame) }
    frame := frame
    prevEnd := rd.start + rd.nr }

def serializeRange (rd : RangeDirty) (z : Serializer) : Option Serializer :=
  if rd.nr = 0 then some z
  else
    (startFrame c rd.start z).bind fun z =>
      if z.frame.entries.length = entsPerBlock then
        (startFrame c rd.start { z with firstInFrame := true }).map (addEntry page rd)
      else some (addEntry page rd z)

def serializeRanges : List RangeDirty → Serializer → Option Serializer
  | [], z => some z
  | rd :: rest, z => (serializeRange c page rd z).bind (serializeRanges rest)

def serializeAndFillIrdList (ird : Ird) (s : StageTx) : Option (Nat × StageTx) :=
  (serializeRanges c page ird.nodes.flatten ⟨s,0,⟨0,[]⟩,true,0,0⟩).map fun z => (z.writtenBlocks,z.stx)

end

/-! The frames, apart from where they are put. -/

def firstEntry (rd : RangeDirty) : IrdFrame := ⟨rd.start,[⟨0,u32 rd.nr⟩]⟩

def nextEntry (prevEnd : Nat) (rd : RangeDirty) (frame : IrdFrame) : IrdFrame :=
  ⟨frame.basePg,frame.entries ++ [⟨u32 (if prevEnd ≤ rd.start then rd.start - prevEnd else 0),u32 rd.nr⟩]⟩

def framesFrom (prevEnd : Nat) (frame : IrdFrame) : List RangeDirty → List IrdFrame
  | [] => [frame]
  | rd :: rest =>
    if rd.nr = 0 then framesFrom prevEnd frame rest
    else if frame.entries.length = entsPerBlock then frame :: framesFrom (rd.start + rd.nr) (firstEntry rd) rest
    else framesFrom (rd.start + rd.nr) (nextEntry prevEnd rd frame) rest

def frames : List RangeDirty → List IrdFrame
  | [] => []
  | rd :: rest => if rd.nr = 0 then frames rest else framesFrom (rd.start + rd.nr) (firstEntry rd) rest

theorem framesFrom_ne_nil (prevEnd : Nat) (frame : IrdFrame) (rest : List RangeDirty) :
    framesFrom prevEnd frame rest ≠ [] := by
  induction rest generalizing prevEnd frame with
  | nil => exact cons_ne_nil _ _
  | cons rd rest ih =>
    rw [framesFrom]
    split
    · exact ih prevEnd frame
    · split
      · exact cons_ne_nil _ _
      · exact ih _ _

theorem entsPerBlock_eq : entsPerBlock = 510 := rfl

theorem framesFrom_length (prevEnd : Nat) (frame : IrdFrame) (rest : List RangeDirty) (positive : ∀ rd ∈ rest, 0 < rd.nr)
    (some : 0 < frame.entries.length) (few : frame.entries.length ≤ entsPerBlock) :
    (framesFrom prevEnd frame rest).length = (frame.entries.length + rest.length + entsPerBlock - 1) / entsPerBlock := by
  rw [entsPerBlock_eq] at few ⊢
  induction rest generalizing prevEnd frame with
  | nil =>
    simp only [framesFrom,length_singleton,length_nil]
    omega
  | cons rd rest ih =>
    rw [forall_mem_cons] at positive
    rw [framesFrom,if_neg (by omega),entsPerBlock_eq]
    split
    next full =>
      have one : (firstEntry rd).entries.length = 1 := rfl
      rw [length_cons,ih (rd.start + rd.nr) (firstEntry rd) positive.2 (by omega) (by omega),one,full,length_cons]
      omega
    next =>
      have size : (nextEntry prevEnd rd frame).entries.length = frame.entries.length + 1 := by simp [nextEntry]
      rw [ih (rd.start + rd.nr) (nextEntry prevEnd rd frame) positive.2 (by omega) (by omega),size,length_cons]
      omega

theorem frames_length (ranges : List RangeDirty) (positive : ∀ rd ∈ ranges, 0 < rd.nr) :
    (frames ranges).length = (ranges.length + entsPerBlock - 1) / entsPerBlock := by
  cases ranges with
  | nil => rfl
  | cons rd rest =>
    rw [forall_mem_cons] at positive
    have one : (firstEntry rd).entries.length = 1 := rfl
    rw [frames,if_neg (by omega),framesFrom_length _ _ rest positive.2 (by omega) (by rw [one,entsPerBlock_eq]; omega),one,
      length_cons,Nat.add_comm 1]

def Serializer.result (z : Serializer) : Nat × StageTx := (z.writtenBlocks,z.stx)

/-- With a frame open in the block reserved last, the rest of the list comes out as if every frame were copied when it is
complete. -/
theorem serializeRanges_open (page : IrdFrame → Page) (taken : resvBlk c s = some (slot,t))
    (frame : IrdFrame) (prevEnd n : Nat) (rest : List RangeDirty) :
    (serializeRanges c page rest
      ⟨{ t with buf := update t.buf slot (page frame) },slot,frame,false,prevEnd,n + 1⟩).map Serializer.result =
      (copyAll c ((framesFrom prevEnd frame rest).map page) s).map fun u => (n + (framesFrom prevEnd frame rest).length,u) := by
  induction rest generalizing s t slot frame prevEnd n with
  | nil =>
    simp only [serializeRanges,framesFrom,map_cons,map_nil,copyAll,copyBlk,taken,map_some,bind_some,
      length_singleton]
    rfl
  | cons rd rest ih =>
    rw [serializeRanges,serializeRange,framesFrom]
    split
    next => exact ih taken frame prevEnd n
    next =>
      simp only [startFrame,Bool.false_eq_true,if_false,if_true,bind_some]
      split
      next full =>
        -- the open frame is copied; the next one needs a block
        have copied : copyBlk c s (page frame) = some { t with buf := update t.buf slot (page frame) } := by
          rw [copyBlk,taken]
          rfl
        rw [map_cons,copyAll,copied,bind_some]
        cases next : resvBlk c { t with buf := update t.buf slot (page frame) } with
        | none =>
          obtain ⟨g,gs,more⟩ := exists_cons_of_ne_nil (framesFrom_ne_nil (rd.start + rd.nr) (firstEntry rd) rest)
          simp [more,copyAll,copyBlk,next]
        | some r =>
          have later := ih next (firstEntry rd) (rd.start + rd.nr) (n + 1)
          have sum : n + ((framesFrom (rd.start + rd.nr) (firstEntry rd) rest).length + 1) =
              n + 1 + (framesFrom (rd.start + rd.nr) (firstEntry rd) rest).length := by omega
          simp only [map_some,bind_some,length_cons,addEntry,le_refl,if_true,Nat.sub_self,nil_append,sum]
          exact later
      next =>
        have later := ih taken (nextEntry prevEnd rd frame) (rd.start + rd.nr) n
        simp only [bind_some,addEntry,update_idem]
        exact later

theorem serializeAndFillIrdList_eq (c : SeqBufs) (page : IrdFrame → Page) (ird : Ird) (s : StageTx) :
    serializeAndFillIrdList c page ird s =
      (copyAll c ((frames ird.ranges).map page) s).map fun t => ((frames ird.ranges).length,t) := by
  have first : ∀ ranges, (serializeRanges c page ranges ⟨s,0,⟨0,[]⟩,true,0,0⟩).map Serializer.result =
      (copyAll c ((frames ranges).map page) s).map fun t => ((frames ranges).length,t) := by
    intro ranges
    induction ranges with
    | nil => rfl
    | cons rd rest ih =>
      rw [serializeRanges,serializeRange,frames]
      split
      next => exact ih
      next =>
        simp only [startFrame,if_true]
        cases taken : resvBlk c s with
        | none =>
          obtain ⟨g,gs,more⟩ := exists_cons_of_ne_nil (framesFrom_ne_nil (rd.start + rd.nr) (firstEntry rd) rest)
          simp [more,copyAll,copyBlk,taken]
        | some r =>
          have open' := serializeRanges_open page taken (firstEntry rd) (rd.start + rd.nr) 0 rest
          have notFull : ¬([] : List IrdFrameEntry).length = entsPerBlock := by decide
          simp only [map_some,bind_some,notFull,if_false,addEntry,le_refl,if_true,Nat.sub_self,nil_append]
          simp only [Nat.zero_add] at open'
          exact open'
  exact first ird.ranges

end Oxbow.Daemon.Stage
