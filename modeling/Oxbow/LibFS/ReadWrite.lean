import Oxbow.Lib.Memory
import Oxbow.Lib.Ring

/-! `libfs_read` and `libfs_write` on one file. Both walk over the pages between the first and
the last byte and copy between the mapping and the caller's buffer; the number of bytes still
to copy is kept in 64 bits by the one and in 32 bits by the other. -/
namespace Oxbow.LibFS

open Oxbow.Lib

def pageSize : Nat := 4096

abbrev Memory := Nat → UInt8

structure File where
  data : Memory
  size : Nat

structure Result where
  ret : Int
  bytes : List UInt8
  pos : Nat
  size : Nat
  deriving DecidableEq, Repr

inductive Call
  | read (buf : Memory) (count pos : Nat)
  | write (buf : Memory) (count pos : Nat)

def startPgIdx (pos : Nat) : Nat := pos / pageSize

def endPgIdx (count pos : Nat) : Nat := u64 (pos + count + (2^64 - 1)) / pageSize

def nrPgs (count pos : Nat) : Nat := endPgIdx count pos + 1 - startPgIdx pos

/-- The loop over `n` pages from `pgIdx` on; the counters have `width` bits. -/
def pageLoop (width : Nat) (copy : Memory → Nat → Nat → Nat → Memory) :
    Nat → Nat → Nat → Nat → Nat → Memory → Memory
  | 0,_,_,_,_,mem => mem
  | n + 1,pgIdx,curOfs,bufOfs,bytesRemain,mem =>
    let ofsInPage := sub64 curOfs (u64 (pgIdx * pageSize))
    let left := sub64 pageSize ofsInPage % 2^width
    let bytesToCopy := if bytesRemain < left then bytesRemain else left
    pageLoop width copy n (pgIdx + 1) (u64 (curOfs + bytesToCopy)) (u64 (bufOfs + bytesToCopy))
      (bytesRemain - bytesToCopy) (copy mem curOfs bufOfs bytesToCopy)

/-- A position behind the end is an error. -/
def libfsRead (f : File) (buf : Memory) (count pos : Nat) : Result :=
  if f.size < pos then ⟨-1,[],pos,f.size⟩
  else
    let readBytes := if f.size < u64 (pos + count) then f.size - pos else count
    let out := pageLoop 64 (fun buf curOfs bufOfs n => memcpy buf bufOfs f.data curOfs n) (nrPgs count pos)
      (startPgIdx pos) pos 0 readBytes buf
    ⟨int64 readBytes,(List.range readBytes).map out,u64 (pos + readBytes),f.size⟩

/-- The shared memory has bits for `nrPages` pages; beyond it the access faults. -/
def libfsWrite (nrPages : Nat) (f : File) (buf : Memory) (count pos : Nat) : Option (File × Result) :=
  if nrPgs count pos = 0 ∨ endPgIdx count pos < nrPages then
    let data := pageLoop 32 (fun data curOfs bufOfs n => memcpy data curOfs buf bufOfs n) (nrPgs count pos)
      (startPgIdx pos) pos 0 (u32 count) f.data
    let size := if f.size < u64 (pos + count) then u64 (pos + count) else f.size
    some (⟨data,size⟩,⟨int64 count,[],u64 (pos + count),size⟩)
  else none

def libfs (nrPages : Nat) (f : File) : Call → Option (File × Result)
  | .read buf count pos => some (f,libfsRead f buf count pos)
  | .write buf count pos => libfsWrite nrPages f buf count pos

/-- The bytes up to the end of the file, none at the end or behind it. -/
def flatRead (a : List UInt8) (count pos : Nat) : List UInt8 := (a.drop pos).take count

/-- A gap before the bytes is filled with zeros; no bytes change nothing. -/
def flatWrite (a bytes : List UInt8) (pos : Nat) : List UInt8 :=
  if bytes = [] then a
  else (a ++ List.replicate (pos - a.length) 0).take pos ++ bytes ++ a.drop (pos + bytes.length)

def flat (a : List UInt8) : Call → List UInt8 × Result
  | .read _ count pos =>
    (a,⟨(flatRead a count pos).length,flatRead a count pos,pos + (flatRead a count pos).length,a.length⟩)
  | .write buf count pos =>
    let b := flatWrite a ((List.range count).map buf) pos
    (b,⟨count,[],pos + count,b.length⟩)

/-- The mapping holds the array, and zeros behind it. -/
structure Holds (f : File) (a : List UInt8) : Prop where
  size : f.size = a.length
  data : ∀ i, f.data i = a.getD i 0

/-- The call stays within the mapping. -/
def Call.Inside (nrPages : Nat) : Call → Prop
  | .read _ count pos | .write _ count pos => pos + count ≤ nrPages * pageSize

/-- A call answers as the flat file does and leaves what the flat file holds. -/
def Agrees (nrPages : Nat) (f : File) (a : List UInt8) (call : Call) (f' : File) : Prop :=
  libfs nrPages f call = some (f',(flat a call).2) ∧ Holds f' (flat a call).1

/-- Every call of a sequence does what the flat file does. -/
def Refines (nrPages : Nat) : File → List UInt8 → List Call → Prop
  | _,_,[] => True
  | f,a,call :: calls => ∃ f', Agrees nrPages f a call f' ∧ Refines nrPages f' (flat a call).1 calls

/-- A read starts inside the file; a write of no bytes too, and not at its first byte; the
bytes that a write of 4 GiB or more leaves out are in the file already. -/
def Call.Exact (a : List UInt8) : Call → Prop
  | .read _ _ pos => pos ≤ a.length
  | .write buf count pos => (count = 0 → 0 < pos ∧ pos ≤ a.length) ∧
      ∀ i, count % 2^32 ≤ i → i < count → buf i = a.getD (pos + i) 0

/-- Every call of the sequence is exact where it comes. -/
def AllExact : List UInt8 → List Call → Prop
  | _,[] => True
  | a,call :: calls => call.Exact a ∧ AllExact (flat a call).1 calls

/-! ### The page loop is one copy -/

/-- Copying nothing changes nothing, and copies that continue each other are one. -/
structure Copies (copy : Memory → Nat → Nat → Nat → Memory) : Prop where
  zero : ∀ mem cur ofs, copy mem cur ofs 0 = mem
  append : ∀ mem cur ofs m n, copy (copy mem cur ofs m) (cur + m) (ofs + m) n = copy mem cur ofs (m + n)

theorem copies_read (data : Memory) : Copies fun buf curOfs bufOfs n => memcpy buf bufOfs data curOfs n where
  zero _ _ _ := memcpy_zero _ _ _ _
  append _ _ _ _ _ := memcpy_memcpy _ _ _ _ _ _

theorem copies_write (buf : Memory) : Copies fun data curOfs bufOfs n => memcpy data curOfs buf bufOfs n where
  zero _ _ _ := memcpy_zero _ _ _ _
  append _ _ _ _ _ := memcpy_memcpy _ _ _ _ _ _

variable {copy : Memory → Nat → Nat → Nat → Memory}

theorem pageLoop_done (copies : Copies copy) (width n pgIdx curOfs bufOfs : Nat) (mem : Memory) :
    pageLoop width copy n pgIdx curOfs bufOfs 0 mem = mem := by
  induction n generalizing pgIdx curOfs bufOfs with
  | zero => rfl
  | succ n ih =>
    have nothing : ∀ left : Nat, (if 0 < left then 0 else left) = 0 := by
      intro left
      split <;> omega
    simp only [pageLoop,nothing,copies.zero]
    exact ih _ _ _

/-- The loop copies all the bytes when the pages have room for them and the counter holds them. -/
theorem pageLoop_copy (copies : Copies copy) (wide : pageSize < 2^width) (lower : pgIdx * pageSize ≤ curOfs)
    (upper : curOfs < (pgIdx + 1) * pageSize) (room : curOfs + remain ≤ (pgIdx + n) * pageSize)
    (small : curOfs + remain < 2^64) (bufSmall : bufOfs + remain < 2^64) (mem : Memory) :
    pageLoop width copy n pgIdx curOfs bufOfs remain mem = copy mem curOfs bufOfs remain := by
  induction n generalizing pgIdx curOfs bufOfs remain mem with
  | zero =>
    have nothing : remain = 0 := by
      simp only [Nat.add_zero] at room
      omega
    rw [nothing,copies.zero]
    rfl
  | succ n ih =>
    simp only [pageSize] at wide lower upper room
    have start : sub64 curOfs (u64 (pgIdx * 4096)) = curOfs - pgIdx * 4096 := by
      rw [u64_of_lt (by omega),sub64_of_le lower (by omega)]
    have left : sub64 4096 (curOfs - pgIdx * 4096) % 2^width = (pgIdx + 1) * 4096 - curOfs := by
      rw [sub64_of_le (by omega) (by omega),Nat.mod_eq_of_lt (by omega)]
      omega
    simp only [pageLoop,pageSize,start,left]
    split
    next last =>
      rw [Nat.sub_self,pageLoop_done copies]
    next more =>
      -- The copy ends with the page: the next one starts at its first byte.
      obtain ⟨step,stepEq⟩ : ∃ step, step = (pgIdx + 1) * 4096 - curOfs := ⟨_,rfl⟩
      rw [← stepEq] at more ⊢
      have ends : curOfs + step = (pgIdx + 1) * pageSize := by
        rw [stepEq]
        exact Nat.add_sub_of_le (Nat.le_of_lt upper)
      have first : (pgIdx + 1) * pageSize ≤ curOfs + step := Nat.le_of_eq ends.symm
      have next : curOfs + step < (pgIdx + 1 + 1) * pageSize := by
        rw [pageSize]
        omega
      have rest : curOfs + step + (remain - step) ≤ (pgIdx + 1 + n) * pageSize := by
        rw [pageSize]
        omega
      have all : step + (remain - step) = remain := by omega
      have curEq : u64 (curOfs + step) = curOfs + step := u64_of_lt (by omega)
      have bufEq : u64 (bufOfs + step) = bufOfs + step := u64_of_lt (by omega)
      rw [curEq,bufEq,ih first next rest (by omega) (by omega),copies.append,all]

theorem endPgIdx_eq (some : 0 < pos + count) (small : pos + count < 2^64) :
    endPgIdx count pos = (pos + count - 1) / pageSize := by
  have wraps : u64 (pos + count + (2^64 - 1)) = pos + count - 1 := by
    simp only [u64]
    omega
  rw [endPgIdx,wraps]

theorem nrPgs_room (some : 0 < pos + count) (small : pos + count < 2^64) :
    pos + count ≤ (startPgIdx pos + nrPgs count pos) * pageSize := by
  rw [nrPgs,endPgIdx_eq some small]
  simp only [startPgIdx,pageSize]
  omega

theorem pageLoop_call (copies : Copies copy) (wide : pageSize < 2^width) (some : 0 < pos + count)
    (small : pos + count < 2^64) (part : remain ≤ count) (mem : Memory) :
    pageLoop width copy (nrPgs count pos) (startPgIdx pos) pos 0 remain mem = copy mem pos 0 remain := by
  have room := nrPgs_room some small
  refine pageLoop_copy copies wide ?_ ?_ (by omega) (by omega) (by omega) mem
  · simp only [startPgIdx,pageSize]
    omega
  · simp only [startPgIdx,pageSize]
    omega

theorem flatRead_length (a : List UInt8) (count pos : Nat) :
    (flatRead a count pos).length = min count (a.length - pos) := by
  simp [flatRead]

theorem flatRead_eq (holds : Holds f a) (count pos : Nat) :
    (List.range (min count (a.length - pos))).map (fun i => f.data (pos + i)) = flatRead a count pos := by
  apply List.ext_getElem
  · simp [flatRead]
  · intro i left right
    have inside : pos + i < a.length := by
      rw [flatRead_length] at right
      omega
    simp [flatRead,holds.data,inside]

theorem libfsRead_eq (holds : Holds f a) (inside : pos ≤ a.length) (fits : pos + count < 2^63) (buf : Memory) :
    libfsRead f buf count pos = (flat a (.read buf count pos)).2 := by
  have small : pos + count < 2^64 := by omega
  have ret : int64 (min count (a.length - pos) : Nat) = (min count (a.length - pos) : Nat) := int64_natCast (by omega)
  have after : u64 (pos + min count (a.length - pos)) = pos + min count (a.length - pos) := u64_of_lt (by omega)
  have bytes : (if a.length < u64 (pos + count) then a.length - pos else count) = min count (a.length - pos) := by
    rw [u64_of_lt small]
    split <;> omega
  simp only [libfsRead,holds.size,if_neg (Nat.not_lt.mpr inside),bytes,ret,after,flat,flatRead_length]
  rcases Nat.eq_zero_or_pos (pos + count) with none | some
  · have noCount : count = 0 := by omega
    simp only [noCount,Nat.zero_min,List.range_zero,List.map_nil,flatRead,List.take_zero]
  · rw [pageLoop_call (copies_read f.data) (by decide) some small (Nat.min_le_left _ _),← flatRead_eq holds]
    simp only [Result.mk.injEq,true_and,and_true]
    apply List.map_congr_left
    intro i inRange
    rw [memcpy_inside _ _ _ (Nat.zero_le i) (by simpa using inRange)]
    rfl

theorem flatWrite_length (a bytes : List UInt8) (pos : Nat) (some : bytes ≠ []) :
    (flatWrite a bytes pos).length = max a.length (pos + bytes.length) := by
  simp only [flatWrite,if_neg some,List.length_append,List.length_take,List.length_replicate,List.length_drop]
  omega

theorem flatWrite_getD (a bytes : List UInt8) (pos i : Nat) (some : bytes ≠ []) :
    (flatWrite a bytes pos).getD i 0 =
      if pos ≤ i ∧ i < pos + bytes.length then bytes.getD (i - pos) 0 else a.getD i 0 := by
  have gap : ((a ++ List.replicate (pos - a.length) 0).take pos).length = pos := by
    simp only [List.length_take,List.length_append,List.length_replicate]
    omega
  simp only [flatWrite,if_neg some,List.append_assoc,List.getD_eq_getElem?_getD]
  by_cases before : i < pos
  · rw [List.getElem?_append_left (by omega),List.getElem?_take_of_lt before,if_neg (by omega)]
    by_cases inside : i < a.length
    · rw [List.getElem?_append_left inside]
    · rw [List.getElem?_append_right (by omega),List.getElem?_eq_none (by omega : a.length ≤ i)]
      simp only [List.getElem?_replicate]
      split <;> rfl
  · rw [List.getElem?_append_right (by omega),gap]
    by_cases during : i < pos + bytes.length
    · rw [List.getElem?_append_left (by omega),if_pos ⟨by omega,during⟩]
    · rw [List.getElem?_append_right (by omega),if_neg (by omega),List.getElem?_drop]
      congr 2
      omega

theorem libfsWrite_eq (holds : Holds f a) (some : 0 < pos + count) (fits : nrPages < 2^51)
    (inside : pos + count ≤ nrPages * pageSize) (buf : Memory) :
    libfsWrite nrPages f buf count pos = .some (⟨memcpy f.data pos buf 0 (count % 2^32),max a.length (pos + count)⟩,
      ⟨count,[],pos + count,max a.length (pos + count)⟩) := by
  have fits63 : pos + count < 2^63 := by
    simp only [pageSize] at inside
    omega
  have small : pos + count < 2^64 := by omega
  have ret : int64 (count : Nat) = count := int64_natCast (by omega)
  have pages : endPgIdx count pos < nrPages := by
    rw [endPgIdx_eq some small]
    simp only [pageSize] at inside ⊢
    omega
  have size : (if a.length < pos + count then pos + count else a.length) = max a.length (pos + count) := by
    split <;> omega
  simp only [libfsWrite,if_pos (Or.inr pages),ret,u64_of_lt small,holds.size,size]
  rw [u32,pageLoop_call (copies_write buf) (by decide) some small (Nat.mod_le count (2^32))]

theorem libfsWrite_none (fits : nrPages < 2^51) (f : File) (buf : Memory) : libfsWrite nrPages f buf 0 0 = none := by
  have last : endPgIdx 0 0 = 2^52 - 1 := by decide
  refine if_neg ?_
  simp only [nrPgs,last,startPgIdx,pageSize]
  omega

theorem read_agrees_iff (holds : Holds f a) (small : pos + count < 2^63) (buf : Memory) :
    (∃ f', Agrees nrPages f a (.read buf count pos) f') ↔ pos ≤ a.length := by
  constructor
  · rintro ⟨f',answers,-⟩
    by_contra behind
    have negative : (libfsRead f buf count pos).ret = -1 := by
      rw [libfsRead,if_pos (by rw [holds.size]; omega)]
    have same : libfsRead f buf count pos = (flat a (.read buf count pos)).2 := by
      simp only [libfs,Option.some.injEq,Prod.mk.injEq] at answers
      exact answers.2
    have nonneg : 0 ≤ (flat a (.read buf count pos)).2.ret := Int.natCast_nonneg _
    rw [← same,negative] at nonneg
    exact absurd nonneg (by decide)
  · intro inside
    exact ⟨f,by rw [libfs,libfsRead_eq holds inside small],holds⟩

theorem write_agrees_iff_some (holds : Holds f a) (fits : nrPages < 2^51) (inside : pos + count ≤ nrPages * pageSize)
    (some : 0 < count) (buf : Memory) :
    (∃ f', Agrees nrPages f a (.write buf count pos) f') ↔
      ∀ i, count % 2^32 ≤ i → i < count → buf i = a.getD (pos + i) 0 := by
  have bytes : (List.range count).map buf ≠ [] := by
    simp only [ne_eq,List.map_eq_nil_iff,List.range_eq_nil]
    omega
  have length : (flatWrite a ((List.range count).map buf) pos).length = max a.length (pos + count) := by
    simpa using flatWrite_length a _ pos bytes
  have byte : ∀ i, (flatWrite a ((List.range count).map buf) pos).getD i 0 =
      if pos ≤ i ∧ i < pos + count then buf (i - pos) else a.getD i 0 := by
    intro i
    rw [flatWrite_getD a _ pos i bytes]
    simp only [List.length_map,List.length_range]
    split
    next within => simp [show i - pos < count by omega]
    next => rfl
  have code := libfsWrite_eq holds (by omega : 0 < pos + count) fits inside buf
  constructor
  · rintro ⟨f',answers,after⟩ i copied below
    rw [libfs,code,Option.some.injEq,Prod.mk.injEq] at answers
    have old : f'.data (pos + i) = a.getD (pos + i) 0 := by
      rw [← answers.1,← holds.data]
      exact memcpy_outside _ _ _ (Or.inr (by omega))
    have new := after.data (pos + i)
    rw [flat,byte,if_pos ⟨by omega,by omega⟩,old,Nat.add_sub_cancel_left] at new
    exact new.symm
  · intro already
    refine ⟨⟨memcpy f.data pos buf 0 (count % 2^32),max a.length (pos + count)⟩,?_,?_,?_⟩
    · rw [libfs,code]
      simp only [flat,length]
    · exact length.symm
    · intro i
      rw [flat,byte]
      simp only [memcpy,holds.data,Nat.zero_add]
      by_cases copied : pos ≤ i ∧ i < pos + count % 2^32
      · rw [if_pos copied,if_pos ⟨copied.1,by omega⟩]
      · rw [if_neg copied]
        split
        next within =>
          have same := already (i - pos) (by omega) (by omega)
          rw [same,Nat.add_sub_of_le within.1]
        next => rfl

theorem write_agrees_iff_none (holds : Holds f a) (fits : nrPages < 2^51) (inside : pos ≤ nrPages * pageSize)
    (buf : Memory) :
    (∃ f', Agrees nrPages f a (.write buf 0 pos) f') ↔ 0 < pos ∧ pos ≤ a.length := by
  have same : (flat a (.write buf 0 pos)).1 = a := by simp [flat,flatWrite]
  rcases Nat.eq_zero_or_pos pos with zero | some
  · subst zero
    simp [Agrees,libfs,libfsWrite_none fits]
  · have code := libfsWrite_eq holds (by omega : 0 < pos + 0) fits inside buf
    have result : (flat a (.write buf 0 pos)).2 = ⟨(0 : Nat),[],pos,a.length⟩ := by simp [flat,flatWrite]
    rw [Nat.zero_mod,memcpy_zero] at code
    constructor
    · rintro ⟨f',answers,-⟩
      rw [libfs,code,result,Option.some.injEq,Prod.mk.injEq,Result.mk.injEq] at answers
      omega
    · rintro ⟨-,within⟩
      have unchanged : max a.length (pos + 0) = a.length := by omega
      refine ⟨⟨f.data,a.length⟩,?_,?_⟩
      · rw [libfs,code,result,unchanged]
        rfl
      · rw [same]
        exact ⟨rfl,holds.data⟩

theorem agrees_iff (fits : nrPages < 2^51) (holds : Holds f a) (inside : call.Inside nrPages) :
    (∃ f', Agrees nrPages f a call f') ↔ call.Exact a := by
  cases call with
  | read buf count pos =>
    simp only [Call.Inside,pageSize] at inside
    exact read_agrees_iff holds (by omega) buf
  | write buf count pos =>
    rcases Nat.eq_zero_or_pos count with none | some
    · subst none
      have none := write_agrees_iff_none holds fits (Nat.le_trans (Nat.le_add_right pos 0) inside) buf
      rw [none]
      simp [Call.Exact]
    · rw [write_agrees_iff_some holds fits inside some buf]
      simp [Call.Exact,Nat.ne_of_gt some]

/-- A sequence of calls on one file answers as the flat file does exactly when every call is exact. -/
theorem refines_iff_allExact (fits : nrPages < 2^51) (holds : Holds f a) (calls : List Call)
    (inside : ∀ call ∈ calls, call.Inside nrPages) : Refines nrPages f a calls ↔ AllExact a calls := by
  induction calls generalizing f a with
  | nil => exact Iff.rfl
  | cons call calls ih =>
    have one := agrees_iff fits holds (inside call (by simp))
    have others : ∀ c ∈ calls, c.Inside nrPages := fun c mem => inside c (List.mem_cons_of_mem _ mem)
    constructor
    · rintro ⟨f',agrees,rest⟩
      exact ⟨one.mp ⟨f',agrees⟩,(ih agrees.2 others).mp rest⟩
    · rintro ⟨exact,rest⟩
      obtain ⟨f',agrees⟩ := one.mpr exact
      exact ⟨f',agrees,(ih agrees.2 others).mpr rest⟩

/-- A write over the border of two pages, and a read of it up to the end of the file. -/
theorem refines_iff_allExact_twoPages :
    Refines 4 ⟨fun _ => 0,0⟩ [] [.write (fun i => UInt8.ofNat i) 3 4094,.read (fun _ => 9) 10 4095] := by
  refine (refines_iff_allExact (by decide) ⟨rfl,fun i => by simp⟩ _ ?_).mpr ?_
  · simp [Call.Inside,pageSize]
  · refine ⟨⟨by omega,fun i lower upper => by omega⟩,?_,trivial⟩
    have size := flatWrite_length [] ((List.range 3).map fun i => UInt8.ofNat i) 4094 (by decide)
    simp only [Call.Exact,flat,size]
    decide

/-- A write of 4 GiB copies nothing, reports all its bytes and sets the size; a read behind the end fails. -/
theorem libfsWrite_drops_fourGiB :
    libfs (2^20) ⟨fun _ => 0,0⟩ (.write (fun _ => 1) (2^32) 0) =
      some (⟨fun _ => 0,2^32⟩,⟨(2^32 : Nat),[],2^32,2^32⟩) ∧
    ¬ Refines (2^20) ⟨fun _ => 0,0⟩ [] [.write (fun _ => 1) (2^32) 0] ∧
    (libfsRead ⟨fun _ => 0,0⟩ (fun _ => 9) 1 1).ret = -1 ∧ (flat [] (.read (fun _ => 9) 1 1)).2.ret = 0 := by
  have holds : Holds ⟨fun _ => 0,0⟩ [] := ⟨rfl,fun i => by simp⟩
  have inside : 0 + 2^32 ≤ 2^20 * pageSize := by decide
  refine ⟨?_,?_,by decide,by decide⟩
  · have code := libfsWrite_eq holds (by decide : 0 < 0 + 2^32) (by decide) inside (fun _ => 1)
    rw [Nat.mod_self,memcpy_zero] at code
    simpa [libfs] using code
  · rintro ⟨f',agrees,-⟩
    have lost := (write_agrees_iff_some holds (by decide) inside (by decide) (fun _ => 1)).mp ⟨f',agrees⟩ 0
      (by decide) (by decide)
    exact absurd lost (by decide)

end Oxbow.LibFS
