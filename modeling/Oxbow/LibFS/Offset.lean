import Oxbow.LibFS.ReadWrite
import Oxbow.Lib.Run

/-! The file offset of one descriptor: `libfs_posix_open`, `lseek`, `read` and `write`
against the offset machine of POSIX. The library keeps the offset in 64 bits, returns it
from `lseek` in 32, and looks at the flags of the open call nowhere. -/
namespace Oxbow.LibFS.Offset

open Oxbow.Lib Option

inductive Whence
  | set
  | cur
  | fromEnd
  | other
  deriving DecidableEq, Repr

structure LfsFile where
  pos : Int
  flags : BitVec 32
  deriving DecidableEq, Repr

structure State where
  file : File
  desc : Option LfsFile

inductive Call
  | opens (flags : BitVec 32) (size : Nat)
  | resize (size : Nat)
  | lseek (offset : Int) (origin : Whence)
  | read (buf : Memory) (count : Nat)
  | write (buf : Memory) (count : Nat)

structure Shown where
  transferred : Nat
  used : Option Int
  seek : Option Int
  deriving DecidableEq, Repr

def Shown.nothing : Shown := ⟨0,none,none⟩

def Shown.ofSeek (ret : Int) : Shown := ⟨0,none,some ret⟩

def Shown.ofTransfer (pos ret : Int) : Shown := ⟨ret.toNat,if 0 < ret then some pos else none,none⟩

def openFlags (flags : BitVec 32) : BitVec 32 := if flags &&& 3 = 1 then flags &&& ~~~1 ||| 2 else flags

def oAppend (flags : BitVec 32) : Bool := flags.getLsbD 10

def attachLfsFile (flags : BitVec 32) : LfsFile := ⟨0,flags⟩

/-- The returned `int` is the offset cut to 32 bits. -/
def libfsPosixLseek (size : Nat) (f : LfsFile) (offset : Int) : Whence → LfsFile × Int
  | .set => ({f with pos := offset},int32 offset)
  | .cur => ({f with pos := int64 (f.pos + offset)},int32 (int64 (f.pos + offset)))
  | .fromEnd => ({f with pos := int64 size},int32 (int64 size))
  | .other => (f,-1)

def LfsFile.upos (f : LfsFile) : Nat := (f.pos % 2^64).toNat

def LfsFile.moved (f : LfsFile) (r : Result) : LfsFile := if 0 < r.ret then {f with pos := int64 r.pos} else f

def libfsPosixRead (file : File) (f : LfsFile) (buf : Memory) (count : Nat) : LfsFile × Int :=
  let r := libfsRead file buf count f.upos
  (f.moved r,if r.ret < 0 then -1 else r.ret)

/-- Behind the maximum size the call fails; before the mapping the copy faults. -/
def libfsPosixWrite (nrPages : Nat) (file : File) (f : LfsFile) (buf : Memory) (count : Nat) :
    Option (File × LfsFile × Int) :=
  if nrPages * pageSize < u64 (f.upos + count) then some (file,f,-1)
  else if f.pos < 0 then none
  else (libfsWrite nrPages file buf count f.upos).map fun (file,r) =>
    (file,f.moved r,if r.ret < 0 then -1 else r.ret)

def step (nrPages : Nat) (s : State) : Call → Option (State × Shown)
  | .opens flags size => some (⟨⟨s.file.data,size⟩,some (attachLfsFile (openFlags flags))⟩,Shown.nothing)
  | .resize size => some (⟨⟨s.file.data,size⟩,s.desc⟩,Shown.nothing)
  | .lseek offset origin =>
    match s.desc with
    | none => some (s,Shown.ofSeek (-1))
    | some f =>
      let (g,ret) := libfsPosixLseek s.file.size f offset origin
      some (⟨s.file,some g⟩,Shown.ofSeek ret)
  | .read buf count =>
    match s.desc with
    | none => some (s,Shown.nothing)
    | some f =>
      let (g,ret) := libfsPosixRead s.file f buf count
      some (⟨s.file,some g⟩,Shown.ofTransfer f.pos ret)
  | .write buf count =>
    match s.desc with
    | none => some (s,Shown.nothing)
    | some f => (libfsPosixWrite nrPages s.file f buf count).map fun (file,g,ret) =>
        (⟨file,some g⟩,Shown.ofTransfer f.pos ret)

/-! ### The offset machine of POSIX -/

structure Posix where
  offset : Int
  append : Bool
  deriving DecidableEq, Repr

def target (size : Nat) (p : Posix) (offset : Int) : Whence → Option Int
  | .set => some offset
  | .cur => some (p.offset + offset)
  | .fromEnd => some (size + offset)
  | .other => none

def InRange (offset : Int) : Prop := 0 ≤ offset ∧ offset < 2^63

instance : Decidable (InRange offset) := inferInstanceAs (Decidable (_ ∧ _))

def posixSeek (size : Nat) (p : Posix) (offset : Int) (origin : Whence) : Posix × Int :=
  match target size p offset origin with
  | none => (p,-1)
  | some offset => if InRange offset then ({p with offset},offset) else (p,-1)

def posixStart (size : Nat) (p : Posix) : Int := if p.append then size else p.offset

/-- The machine after a call that found `size` and transferred `n` bytes, with the offset used and
the value of `lseek`. -/
def posix (size n : Nat) (p : Option Posix) : Call → Option Posix × Option Int × Option Int
  | .opens flags _ => (some ⟨0,oAppend flags⟩,none,none)
  | .resize _ => (p,none,none)
  | .lseek offset origin =>
    match p with
    | none => (none,none,some (-1))
    | some p => let (q,ret) := posixSeek size p offset origin; (some q,none,some ret)
  | .read _ _ =>
    match p with
    | none => (none,none,none)
    | some p => if 0 < n then (some {p with offset := p.offset + n},some p.offset,none) else (some p,none,none)
  | .write _ _ =>
    match p with
    | none => (none,none,none)
    | some p =>
      if 0 < n then (some {p with offset := posixStart size p + n},some (posixStart size p),none)
      else (some p,none,none)

def LfsFile.view (f : LfsFile) : Posix := ⟨f.pos,oAppend f.flags⟩

def State.view (s : State) : Option Posix := s.desc.map LfsFile.view

/-- The call returns, shows what the machine shows and leaves its offset. -/
def Agrees (nrPages : Nat) (s : State) (call : Call) (t : State) : Prop :=
  ∃ shown, step nrPages s call = some (t,shown) ∧
    posix s.file.size shown.transferred s.view call = (t.view,shown.used,shown.seek)

/-- Every call of a sequence agrees with the machine. -/
def Follows (nrPages : Nat) : State → List Call → Prop := Meets (Agrees nrPages)

/-- The arguments have the types of the source, and a size is at most the maximum. -/
def Call.Typed (nrPages : Nat) : Call → Prop
  | .opens _ size | .resize size => size ≤ nrPages * pageSize
  | .lseek offset _ => -2^63 ≤ offset ∧ offset < 2^63
  | .read _ count | .write _ count => count < 2^64

/-- The size is within the maximum and the offset is one of the machine. -/
structure State.Fits (nrPages : Nat) (s : State) : Prop where
  size : s.file.size ≤ nrPages * pageSize
  pos : ∀ f, s.desc = some f → InRange f.pos

/-- When the new offset is shown and kept as it is. A failed seek from the end is hidden only where
the offset is there already and the size is minus one in 32 bits. -/
def SeekExact (size : Nat) (f : LfsFile) (offset : Int) : Whence → Prop
  | .set => 0 ≤ offset ∧ offset < 2^31
  | .cur => 0 ≤ f.pos + offset ∧ f.pos + offset < 2^31
  | .fromEnd => offset = 0 ∧ size < 2^31 ∨ f.pos = size ∧ size % 2^32 = 2^32 - 1 ∧ ¬ InRange (size + offset)
  | .other => True

/-- A write does not end at zero, and in append mode it finds the offset at the end of the file
if it writes. -/
def WriteExact (nrPages size : Nat) (f : LfsFile) (count : Nat) : Prop :=
  u64 (f.upos + count) ≠ 0 ∧
    (oAppend f.flags → 0 < count → f.upos + count ≤ nrPages * pageSize → f.pos = size)

def Call.Exact (nrPages : Nat) (s : State) : Call → Prop
  | .lseek offset origin => ∀ f, s.desc = some f → SeekExact s.file.size f offset origin
  | .write _ count => ∀ f, s.desc = some f → WriteExact nrPages s.file.size f count
  | _ => True

def after (nrPages : Nat) (s : State) (call : Call) : Option State := (step nrPages s call).map Prod.fst

/-- Every call of the sequence is exact where it comes. -/
def AllExact (nrPages : Nat) : State → List Call → Prop :=
  Along (after nrPages) fun s call => call.Exact nrPages s

theorem oAppend_openFlags (flags : BitVec 32) : oAppend (openFlags flags) = oAppend flags := by
  simp only [openFlags,oAppend]
  split
  next => simp
  next => rfl

theorem int32_range (z : Int) : -2^31 ≤ int32 z ∧ int32 z < 2^31 := by
  simp only [int32]
  omega

theorem int32_eq_self_iff (z : Int) : int32 z = z ↔ -2^31 ≤ z ∧ z < 2^31 := by
  simp only [int32]
  omega

theorem seek_iff (f : LfsFile) (new goal : Int) :
    (if InRange goal then ({f.view with offset := goal},goal) else (f.view,-1)) =
        ({f with pos := new : LfsFile}.view,int32 new) ↔
      new = goal ∧ 0 ≤ goal ∧ goal < 2^31 ∨ ¬ InRange goal ∧ f.pos = new ∧ int32 new = -1 := by
  split
  next range =>
    simp only [LfsFile.view,Prod.mk.injEq,Posix.mk.injEq,and_true]
    constructor
    · rintro ⟨same,shown⟩
      have bound := int32_range new
      exact .inl ⟨same.symm,range.1,by omega⟩
    · rintro (⟨same,lower,upper⟩ | ⟨outside,-⟩)
      · rw [same]
        exact ⟨rfl,((int32_eq_self_iff goal).mpr (by omega)).symm⟩
      · exact absurd range outside
  next outside =>
    simp only [LfsFile.view,Prod.mk.injEq,Posix.mk.injEq,and_true]
    constructor
    · rintro ⟨same,shown⟩
      exact .inr ⟨outside,same,shown.symm⟩
    · rintro (⟨-,lower,upper⟩ | ⟨-,same,shown⟩)
      · exact absurd ⟨lower,by omega⟩ outside
      · exact ⟨same,shown.symm⟩

theorem lseek_iff (range : InRange f.pos) (small : size < 2^63) (typed : -2^63 ≤ offset ∧ offset < 2^63) (origin : Whence) :
    posixSeek size f.view offset origin =
        ((libfsPosixLseek size f offset origin).1.view,(libfsPosixLseek size f offset origin).2) ↔
      SeekExact size f offset origin := by
  cases origin with
  | set =>
    have other : ¬ (¬ InRange offset ∧ f.pos = offset ∧ int32 offset = -1) := by
      rintro ⟨outside,same,-⟩
      exact outside (same ▸ range)
    rw [posixSeek,target,libfsPosixLseek,seek_iff f offset offset]
    simp only [other,or_false,SeekExact,true_and]
  | cur =>
    have other :
        ¬ (¬ InRange (f.pos + offset) ∧ f.pos = int64 (f.pos + offset) ∧ int32 (int64 (f.pos + offset)) = -1) := by
      rintro ⟨outside,same,-⟩
      simp only [InRange,int64] at range outside same
      omega
    have kept : 0 ≤ f.pos + offset ∧ f.pos + offset < 2^31 → int64 (f.pos + offset) = f.pos + offset := by
      intro bound
      simp only [int64]
      omega
    rw [posixSeek,target,libfsPosixLseek]
    refine (seek_iff f _ _).trans ?_
    simp only [LfsFile.view,other,or_false,SeekExact,and_iff_right_iff_imp]
    exact kept
  | fromEnd =>
    simp only [posixSeek,target,libfsPosixLseek]
    rw [int64_natCast small,seek_iff f size (size + offset)]
    have minus : int32 (size : Int) = -1 ↔ size % 2^32 = 2^32 - 1 := by
      simp only [int32]
      omega
    have zero : (size : Int) = size + offset ∧ 0 ≤ (size : Int) + offset ∧ (size : Int) + offset < 2^31 ↔
        offset = 0 ∧ size < 2^31 := by omega
    rw [zero,minus,SeekExact]
    exact or_congr_right and_rotate
  | other => simp [posixSeek,target,libfsPosixLseek,SeekExact]

theorem upos_eq {f : LfsFile} (range : InRange f.pos) : (f.upos : Int) = f.pos := by
  simp only [InRange,LfsFile.upos] at *
  omega

def Moves (f : LfsFile) (r : Result) : Prop :=
  0 < r.ret → (f.moved r).pos = f.pos + r.ret ∧ InRange (f.moved r).pos

theorem moves_of_count {n : Nat} (range : InRange f.pos) (after : 0 < int64 n → f.upos + n < 2^63)
    (ret : r.ret = int64 n) (pos : r.pos = u64 (f.upos + n)) : Moves f r := by
  intro positive
  have bound := after (ret ▸ positive)
  have small : r.ret = (n : Int) := by
    rw [ret]
    exact int64_natCast (by omega)
  have next : int64 r.pos = f.upos + n := by
    rw [pos,u64_of_lt (by omega)]
    exact int64_natCast bound
  have same := upos_eq range
  rw [LfsFile.moved,if_pos positive,next,small]
  simp only [InRange] at range ⊢
  omega

theorem libfsRead_moves (range : InRange f.pos) (size : file.size < 2^63) (count : n < 2^64) (buf : Memory) :
    Moves f (libfsRead file buf n f.upos) := by
  by_cases behind : file.size < f.upos
  · intro positive
    simp [libfsRead,behind] at positive
  · obtain ⟨readBytes,bytes⟩ : ∃ readBytes, readBytes = if file.size < u64 (f.upos + n) then file.size - f.upos else n :=
      ⟨_,rfl⟩
    refine moves_of_count (n := readBytes) range ?_ ?_ ?_
    · intro positive
      by_cases short : file.size < u64 (f.upos + n)
      · rw [bytes,if_pos short]
        omega
      · rw [if_neg short] at bytes
        subst bytes
        simp only [InRange,int64,u64] at range positive short
        omega
    · simp only [libfsRead,if_neg behind,bytes]
    · simp only [libfsRead,if_neg behind,bytes]

theorem ofTransfer_some (r : Result) (pos : Int) (positive : 0 < r.ret) :
    Shown.ofTransfer pos (if r.ret < 0 then -1 else r.ret) = ⟨r.ret.toNat,some pos,none⟩ := by
  rw [if_neg (by omega),Shown.ofTransfer,if_pos positive]

theorem ofTransfer_none (r : Result) (pos : Int) (nothing : ¬ 0 < r.ret) :
    Shown.ofTransfer pos (if r.ret < 0 then -1 else r.ret) = Shown.nothing := by
  have noCount : (if r.ret < 0 then -1 else r.ret).toNat = 0 := by split <;> omega
  have noOffset : ¬ 0 < (if r.ret < 0 then -1 else r.ret) := by split <;> omega
  rw [Shown.ofTransfer,noCount,if_neg noOffset]
  rfl

theorem moved_none (f : LfsFile) (nothing : ¬ 0 < r.ret) : f.moved r = f := if_neg nothing

theorem view_moved (f : LfsFile) (moves : Moves f r) (positive : 0 < r.ret) :
    (f.moved r).view = {f.view with offset := f.pos + r.ret.toNat} := by
  have pos := (moves positive).1
  have flags : (f.moved r).flags = f.flags := by rw [LfsFile.moved,if_pos positive]
  have count : (r.ret.toNat : Int) = r.ret := by omega
  rw [LfsFile.view,pos,flags,count]
  rfl

theorem libfsWrite_toZero (fits : nrPages < 2^51) (small : pos < 2^63) (zero : u64 (pos + count) = 0) (file : File)
    (buf : Memory) : libfsWrite nrPages file buf count pos = none := by
  have last : endPgIdx count pos = 2^52 - 1 := by
    simp only [endPgIdx,u64,pageSize] at *
    omega
  refine if_neg ?_
  simp only [nrPgs,last,startPgIdx,pageSize]
  omega

theorem libfsWrite_toSome (some : u64 (pos + count) ≠ 0) (inside : u64 (pos + count) ≤ nrPages * pageSize) (file : File)
    (buf : Memory) : ∃ out r, libfsWrite nrPages file buf count pos = Option.some (out,r) ∧ r.ret = int64 count ∧
      r.pos = u64 (pos + count) ∧ out.size = if file.size < u64 (pos + count) then u64 (pos + count) else file.size := by
  have last : endPgIdx count pos < nrPages := by
    simp only [endPgIdx,u64,pageSize] at *
    omega
  rw [libfsWrite,if_pos (Or.inr last)]
  refine ⟨_,_,rfl,?_⟩
  simp only [and_self]

theorem libfsWrite_moves (range : InRange f.pos) (fits : nrPages < 2^51)
    (inside : u64 (f.upos + count) ≤ nrPages * pageSize) (typed : count < 2^64) (ret : r.ret = int64 count)
    (pos : r.pos = u64 (f.upos + count)) : Moves f r := by
  refine moves_of_count range ?_ ret pos
  intro positive
  have start := upos_eq range
  simp only [InRange,int64,u64,pageSize] at range positive inside
  omega

/-- What a write can do: it is refused behind the maximum, it faults if its end wraps around to zero, or it
transfers and moves the offset. -/
theorem libfsPosixWrite_cases (range : InRange f.pos) (fits : nrPages < 2^51) (typed : count < 2^64)
    (file : File) (buf : Memory) :
    nrPages * pageSize < u64 (f.upos + count) ∧ libfsPosixWrite nrPages file f buf count = some (file,f,-1) ∨
    u64 (f.upos + count) = 0 ∧ libfsPosixWrite nrPages file f buf count = none ∨
    u64 (f.upos + count) ≤ nrPages * pageSize ∧ u64 (f.upos + count) ≠ 0 ∧ ∃ out r,
      libfsPosixWrite nrPages file f buf count = some (out,f.moved r,if r.ret < 0 then -1 else r.ret) ∧
      r.ret = int64 count ∧ Moves f r ∧
      out.size = if file.size < u64 (f.upos + count) then u64 (f.upos + count) else file.size := by
  have start := upos_eq range
  have notBefore : ¬ f.pos < 0 := Int.not_lt.mpr range.1
  by_cases inside : u64 (f.upos + count) ≤ nrPages * pageSize
  · by_cases zero : u64 (f.upos + count) = 0
    · have fault := libfsWrite_toZero fits (by simp only [InRange] at range; omega) zero file buf
      refine .inr (.inl ⟨zero,?_⟩)
      rw [libfsPosixWrite,if_neg (Nat.not_lt.mpr inside),if_neg notBefore,fault,map_none]
    · obtain ⟨out,r,write,ret,pos,size⟩ := libfsWrite_toSome zero inside file buf
      refine .inr (.inr ⟨inside,zero,out,r,?_,ret,libfsWrite_moves range fits inside typed ret pos,size⟩)
      rw [libfsPosixWrite,if_neg (Nat.not_lt.mpr inside),if_neg notBefore,write,map_some]
  · refine .inl ⟨Nat.not_le.mp inside,?_⟩
    rw [libfsPosixWrite,if_pos (Nat.not_le.mp inside)]

theorem read_agrees (range : InRange f.pos) (size : s.file.size < 2^63) (typed : count < 2^64)
    (desc : s.desc = some f) (buf : Memory) :
    Agrees nrPages s (.read buf count) ⟨s.file,some (libfsPosixRead s.file f buf count).1⟩ := by
  have moves := libfsRead_moves range size typed buf
  refine ⟨Shown.ofTransfer f.pos (libfsPosixRead s.file f buf count).2,by simp only [step,desc],?_⟩
  simp only [libfsPosixRead,State.view,desc,map_some]
  by_cases positive : 0 < (libfsRead s.file buf count f.upos).ret
  · simp only [ofTransfer_some _ _ positive,posix,view_moved f moves positive]
    rw [if_pos (by omega)]
    rfl
  · rw [ofTransfer_none _ _ positive,moved_none f positive]
    rfl

/-- A write that transferred `r.ret` bytes agrees when it started where the machine starts. -/
theorem posix_write_iff (f : LfsFile) (moves : Moves f r) (size : Nat) (buf : Memory) (count : Nat) :
    let shown := Shown.ofTransfer f.pos (if r.ret < 0 then -1 else r.ret)
    posix size shown.transferred (some f.view) (.write buf count) = (some (f.moved r).view,shown.used,shown.seek) ↔
      (0 < r.ret → oAppend f.flags → f.pos = size) := by
  intro shown
  by_cases positive : 0 < r.ret
  · have begins : posixStart size f.view = f.pos ↔ (oAppend f.flags → f.pos = size) := by
      by_cases append : oAppend f.flags
      · simp [posixStart,LfsFile.view,append,eq_comm]
      · simp [posixStart,LfsFile.view,append]
    simp only [shown,ofTransfer_some r f.pos positive,posix,view_moved f moves positive]
    rw [if_pos (by omega)]
    simp only [Prod.mk.injEq,some.injEq,Posix.mk.injEq,and_true,positive,true_implies,← begins]
    omega
  · simp only [shown,ofTransfer_none r f.pos positive,moved_none f positive]
    simp [posix,Shown.nothing,positive]

theorem write_agrees_iff (range : InRange f.pos) (fits : nrPages < 2^51) (typed : count < 2^64)
    (desc : s.desc = some f) (buf : Memory) :
    (∃ t, Agrees nrPages s (.write buf count) t) ↔ WriteExact nrPages s.file.size f count := by
  rcases libfsPosixWrite_cases range fits typed s.file buf with
    ⟨behind,write⟩ | ⟨zero,write⟩ | ⟨inside,zero,out,r,write,ret,moves,-⟩
  · have ran : step nrPages s (.write buf count) = some (s,Shown.ofTransfer f.pos (-1)) := by
      simp only [step,desc,write,map_some]
      rw [← desc]
    refine iff_of_true ⟨s,_,ran,?_⟩ ⟨by omega,fun _ _ fit => absurd fit ?_⟩
    · simp [State.view,desc,posix,Shown.ofTransfer]
    · simp only [u64,pageSize] at behind ⊢
      omega
  · have fault : step nrPages s (.write buf count) = none := by simp only [step,desc,write,map_none]
    constructor
    · rintro ⟨t,shown,ran,-⟩
      rw [fault] at ran
      exact absurd ran (by simp)
    · intro exact
      exact absurd zero exact.1
  · have ran : step nrPages s (.write buf count) =
        some (⟨out,some (f.moved r)⟩,Shown.ofTransfer f.pos (if r.ret < 0 then -1 else r.ret)) := by
      simp only [step,desc,write,map_some]
    -- The call transfers exactly when the bytes fit without the sum wrapping.
    have transfers : 0 < r.ret ↔ 0 < count ∧ f.upos + count ≤ nrPages * pageSize := by
      have start := upos_eq range
      rw [ret]
      simp only [InRange,int64,u64,pageSize] at range inside zero ⊢
      omega
    have agrees := posix_write_iff f moves s.file.size buf count
    constructor
    · rintro ⟨t,shown,ran',same⟩
      rw [ran,some.injEq,Prod.mk.injEq] at ran'
      obtain ⟨rfl,rfl⟩ := ran'
      simp only [State.view,desc,map_some] at same
      have starts := agrees.mp same
      exact ⟨zero,fun append some fit => starts (transfers.mpr ⟨some,fit⟩) append⟩
    · rintro ⟨-,starts⟩
      refine ⟨_,_,ran,?_⟩
      simp only [State.view,desc,map_some]
      exact agrees.mpr fun positive append =>
        starts append (transfers.mp positive).1 (transfers.mp positive).2

theorem lseek_agrees_iff (range : InRange f.pos) (small : s.file.size < 2^63)
    (typed : -2^63 ≤ offset ∧ offset < 2^63) (desc : s.desc = some f) (origin : Whence) :
    (∃ t, Agrees nrPages s (.lseek offset origin) t) ↔ SeekExact s.file.size f offset origin := by
  have ran : step nrPages s (.lseek offset origin) =
      some (⟨s.file,some (libfsPosixLseek s.file.size f offset origin).1⟩,
        Shown.ofSeek (libfsPosixLseek s.file.size f offset origin).2) := by
    simp only [step,desc]
  rw [← lseek_iff range small typed origin]
  constructor
  · rintro ⟨t,shown,ran',same⟩
    rw [ran,some.injEq,Prod.mk.injEq] at ran'
    obtain ⟨rfl,rfl⟩ := ran'
    simp only [State.view,desc,map_some,posix,Shown.ofSeek,Prod.mk.injEq,some.injEq,true_and] at same
    exact Prod.ext same.1 same.2
  · intro same
    refine ⟨_,_,ran,?_⟩
    simp only [State.view,desc,map_some,posix,Shown.ofSeek,same]

theorem State.Fits.small {s : State} (ok : s.Fits nrPages) (fits : nrPages < 2^51) : s.file.size < 2^63 := by
  have bound := ok.size
  simp only [pageSize] at bound
  omega

theorem agrees_iff (fits : nrPages < 2^51) (ok : s.Fits nrPages) (typed : call.Typed nrPages) :
    (∃ t, Agrees nrPages s call t) ↔ call.Exact nrPages s := by
  have small := ok.small fits
  cases call with
  | opens flags size =>
    refine iff_of_true ⟨_,_,rfl,?_⟩ trivial
    simp [posix,State.view,attachLfsFile,LfsFile.view,oAppend_openFlags,Shown.nothing]
  | resize size => exact iff_of_true ⟨_,_,rfl,rfl⟩ trivial
  | lseek offset origin =>
    cases desc : s.desc with
    | none =>
      refine iff_of_true ⟨s,_,by rw [step,desc],?_⟩ (by simp [Call.Exact,desc])
      simp [posix,State.view,desc,Shown.ofSeek]
    | some f => simpa [Call.Exact,desc] using lseek_agrees_iff (ok.pos f desc) small typed desc origin
  | read buf count =>
    cases desc : s.desc with
    | none =>
      refine iff_of_true ⟨s,_,by rw [step,desc],?_⟩ trivial
      simp [posix,State.view,desc,Shown.nothing]
    | some f => exact iff_of_true ⟨_,read_agrees (ok.pos f desc) small typed desc buf⟩ trivial
  | write buf count =>
    cases desc : s.desc with
    | none =>
      refine iff_of_true ⟨s,_,by rw [step,desc],?_⟩ (by simp [Call.Exact,desc])
      simp [posix,State.view,desc,Shown.nothing]
    | some f => simpa [Call.Exact,desc] using write_agrees_iff (ok.pos f desc) fits typed desc buf

theorem moved_range (range : InRange f.pos) (moves : Moves f r) : InRange (f.moved r).pos := by
  by_cases positive : 0 < r.ret
  · exact (moves positive).2
  · rwa [moved_none f positive]

theorem libfsPosixWrite_fits (range : InRange f.pos) (fits : nrPages < 2^51) (typed : count < 2^64)
    (size : file.size ≤ nrPages * pageSize) (ran : libfsPosixWrite nrPages file f buf count = some (out,g,ret)) :
    out.size ≤ nrPages * pageSize ∧ InRange g.pos := by
  rcases libfsPosixWrite_cases range fits typed file buf with
    ⟨-,write⟩ | ⟨-,write⟩ | ⟨inside,-,file',r,write,-,moves,sizeEq⟩
  · rw [write,some.injEq,Prod.mk.injEq,Prod.mk.injEq] at ran
    obtain ⟨rfl,rfl,-⟩ := ran
    exact ⟨size,range⟩
  · rw [write] at ran
    cases ran
  · rw [write,some.injEq,Prod.mk.injEq,Prod.mk.injEq] at ran
    obtain ⟨rfl,rfl,-⟩ := ran
    refine ⟨?_,moved_range range moves⟩
    rw [sizeEq]
    split <;> omega

theorem posixSeek_range (range : InRange p.offset) (size : Nat) (offset : Int) (origin : Whence) :
    InRange (posixSeek size p offset origin).1.offset := by
  unfold posixSeek
  split
  next => exact range
  next =>
    split
    next inside => exact inside
    next => exact range

theorem Agrees.fits (fits : nrPages < 2^51) (ok : s.Fits nrPages) (typed : call.Typed nrPages)
    (agrees : Agrees nrPages s call t) : t.Fits nrPages := by
  have small := ok.small fits
  obtain ⟨shown,ran,same⟩ := agrees
  cases call with
  | opens flags size =>
    simp only [step,some.injEq,Prod.mk.injEq] at ran
    obtain ⟨rfl,-⟩ := ran
    refine ⟨typed,fun f desc => ?_⟩
    obtain rfl := some.inj desc
    have zero : InRange 0 := by decide
    exact zero
  | resize size =>
    simp only [step,some.injEq,Prod.mk.injEq] at ran
    obtain ⟨rfl,-⟩ := ran
    exact ⟨typed,ok.pos⟩
  | lseek offset origin =>
    cases desc : s.desc with
    | none =>
      simp only [step,desc,some.injEq,Prod.mk.injEq] at ran
      exact ran.1 ▸ ok
    | some f =>
      simp only [step,desc,some.injEq,Prod.mk.injEq] at ran
      obtain ⟨rfl,rfl⟩ := ran
      refine ⟨ok.size,fun g last => ?_⟩
      obtain rfl := some.inj last
      -- The offset is the one of the machine, which only holds offsets in range.
      simp only [State.view,desc,map_some,posix,Shown.ofSeek,Prod.mk.injEq,some.injEq,true_and] at same
      have inside := posixSeek_range (p := f.view) (ok.pos f desc) s.file.size offset origin
      rw [same.1] at inside
      exact inside
  | read buf count =>
    cases desc : s.desc with
    | none =>
      simp only [step,desc,some.injEq,Prod.mk.injEq] at ran
      exact ran.1 ▸ ok
    | some f =>
      simp only [step,desc,some.injEq,Prod.mk.injEq] at ran
      obtain ⟨rfl,-⟩ := ran
      refine ⟨ok.size,fun g last => ?_⟩
      obtain rfl := some.inj last
      exact moved_range (ok.pos f desc) (libfsRead_moves (ok.pos f desc) small typed buf)
  | write buf count =>
    cases desc : s.desc with
    | none =>
      simp only [step,desc,some.injEq,Prod.mk.injEq] at ran
      exact ran.1 ▸ ok
    | some f =>
      simp only [step,desc,map_eq_some_iff,Prod.mk.injEq] at ran
      obtain ⟨⟨out,g,ret⟩,write,rfl,-⟩ := ran
      have after := libfsPosixWrite_fits (ok.pos f desc) fits typed ok.size write
      refine ⟨after.1,fun h last => ?_⟩
      obtain rfl := some.inj last
      exact after.2

/-- A sequence of calls on one descriptor follows the offset machine exactly when every call is exact. -/
theorem follows_iff_allExact (fits : nrPages < 2^51) (ok : s.Fits nrPages) (calls : List Call)
    (typed : ∀ call ∈ calls, call.Typed nrPages) : Follows nrPages s calls ↔ AllExact nrPages s calls := by
  refine meets_iff_along (after nrPages) (Agrees nrPages) (fun s call => call.Exact nrPages s) (State.Fits nrPages)
    (Call.Typed nrPages) ?_ ?_ ?_ s calls ok typed
  · rintro s call t ⟨shown,ran,-⟩
    rw [after,ran,map_some]
  · intro s call ok typed
    exact agrees_iff fits ok typed
  · intro s call t ok typed agrees
    exact agrees.fits fits ok typed

/-- A file of ten bytes opened to append: a read, a seek to the end and a write. -/
theorem follows_iff_allExact_append :
    Follows 4 ⟨⟨fun _ => 0,0⟩,none⟩
      [.opens 0x402 10,.read (fun _ => 0) 3,.lseek 0 .fromEnd,.write (fun _ => 1) 2] := by
  have typed : ∀ call ∈ [Call.opens 0x402 10,.read (fun _ => 0) 3,.lseek 0 .fromEnd,.write (fun _ => 1) 2],
      call.Typed 4 := by
    simp [Call.Typed,pageSize]
  refine (follows_iff_allExact (by decide) ⟨by decide,by simp⟩ _ typed).mpr ?_
  refine .cons _ trivial rfl (.cons _ trivial rfl (.cons _ ?_ rfl ⟨?_,fun _ _ => trivial⟩))
  · rintro f -
    exact .inl ⟨rfl,by decide⟩
  · rintro f desc
    obtain rfl := some.inj desc
    exact ⟨by decide,fun _ _ _ => by decide⟩

/-- A write in append mode starts at the old offset; a seek from the end ignores its offset; the
value of a seek to 2 GiB is cut; a negative offset is taken. -/
theorem write_ignores_append :
    ¬ Follows 4 ⟨⟨fun _ => 0,10⟩,some ⟨0,0x402⟩⟩ [.write (fun _ => 1) 2] ∧
    (libfsPosixWrite 4 ⟨fun _ => 0,10⟩ ⟨0,0x402⟩ (fun _ => 1) 2).map (fun out => out.2) = some (⟨2,0x402⟩,2) ∧
    posixStart 10 (LfsFile.view ⟨0,0x402⟩) = 10 ∧
    libfsPosixLseek 10 ⟨0,2⟩ (-1) .fromEnd = (⟨10,2⟩,10) ∧
      posixSeek 10 ⟨0,false⟩ (-1) .fromEnd = (⟨9,false⟩,9) ∧
    libfsPosixLseek 10 ⟨0,2⟩ (2^31) .set = (⟨2^31,2⟩,-2^31) ∧
    posixSeek 10 ⟨0,false⟩ (2^31) .set = (⟨2^31,false⟩,2^31) ∧
    libfsPosixLseek 10 ⟨0,2⟩ (-5) .cur = (⟨-5,2⟩,-5) ∧ posixSeek 10 ⟨0,false⟩ (-5) .cur = (⟨0,false⟩,-1) := by
  refine ⟨?_,by decide,by decide,by decide,by decide,by decide,by decide,by decide,by decide⟩
  rintro ⟨t,agrees,-⟩
  have exact := (write_agrees_iff (by decide) (by decide) (by decide) rfl (fun _ => 1)).mp ⟨t,agrees⟩
  exact absurd (exact.2 (by decide) (by decide) (by decide)) (by decide)

end Oxbow.LibFS.Offset
