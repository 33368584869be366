import Oxbow.Lib.Extent
import Oxbow.Lib.Ring

/-! `mpage_readahead`: the kernel asks for a window of pages and waits for `RA_END` reports on them.
The window is cut at the end of the file, into groups, and at the ends of extents; a group is reported at
once if its pages are up to date, and otherwise by the BIO that reads it. -/
namespace Oxbow.Daemon.Readahead

open Oxbow.Lib

def pageSize : Nat := 4096
def mpageRaGrpPages : Nat := 32
def bioMaxVecs : Nat := 64

def sizeToBlkNr (size : Nat) : Nat := if size = 0 then 0 else (size - 1) / pageSize + 1

structure ReadaheadControl where
  kernelRactl : UInt64
  index : UInt64
  nrPages : UInt32
  need : Bool

structure BufferExtent where
  iblock : UInt64
  nr : UInt32
  lba : UInt64

/-- The page lies in the extent. -/
def BufferExtent.Contains (be : BufferExtent) (pg : Nat) : Prop :=
  be.iblock.toNat ≤ pg ∧ pg < be.iblock.toNat + be.nr.toNat

/-- What the call meets at the group that starts at a page: the up-to-date bits, the extent or the failure
of `get_blocks`, and whether the memory for a BIO is there. No two groups start at the same page, so the
answers may change from group to group in any way. -/
structure Outcomes where
  uptodate : Nat → Nat → Bool
  getBlocks : Nat → Option BufferExtent
  malloc : Nat → Bool

structure RaEnd where
  ractl : UInt64
  index : Nat
  nrPages : Nat
  success : Bool

def RaEnd.extent (r : RaEnd) : Extent := ⟨r.index,r.nrPages⟩

structure Bio where
  pageIndex : Nat
  ractl : UInt64
  biStart : Nat
  biVtotal : Nat
  bvOfs : Nat

inductive Event
  | raEnd (report : RaEnd)
  | submit (bio : Bio)

-- `width` is that of the field `nr_pages` in the kernel's header.
variable (width : Nat) (o : Outcomes) (rac : ReadaheadControl) (iSize : UInt64)

def nrField (nr : Int) : Nat := (nr % 2^width).toNat

def mpageEndIoNoread (start nr : Nat) : RaEnd := ⟨rac.kernelRactl,start,nrField width (int32 nr),true⟩
def mpageEndIoFailed (start nr : Nat) : RaEnd := ⟨rac.kernelRactl,start,nrField width (int32 nr),false⟩

def mpageEndIo (bio : Bio) : RaEnd := ⟨bio.ractl,bio.pageIndex,nrField width bio.biVtotal,true⟩

def Event.report : Event → RaEnd
  | .raEnd report => report
  | .submit bio => mpageEndIo width bio

def initMpageBio (pgIdx start : Nat) (nr : Nat) : Bio := ⟨pgIdx,rac.kernelRactl,start,u16 nr,u64 (pgIdx * pageSize)⟩

def first : Nat := rac.index.toNat
def total : Nat := rac.nrPages.toNat
def lastPg : Nat := sizeToBlkNr iSize.toNat

def usable : Nat :=
  if lastPg iSize < u64 (first rac + total rac) then u32 (sub64 (lastPg iSize) (first rac)) else total rac

def leftover : Nat :=
  if lastPg iSize < u64 (first rac + total rac) then sub32 (total rac) (usable rac iSize) else 0

def grp (pg : Nat) : Nat :=
  let remaining := u32 (sub64 (u64 (first rac + usable rac iSize)) pg)
  if mpageRaGrpPages < remaining then mpageRaGrpPages else remaining

def allUptodate (pg : Nat) : Bool := (List.range (grp rac iSize pg)).all fun i => o.uptodate pg (u64 (pg + i))

def ioNr (be : BufferExtent) (pg : Nat) : Nat :=
  let maxPgInBe := u64 (be.iblock.toNat + be.nr.toNat)
  if maxPgInBe < u64 (pg + grp rac iSize pg) then u32 (sub64 maxPgInBe pg) else grp rac iSize pg

def allocBio (pg nrVecs : Nat) : Bool := u16 nrVecs ≤ bioMaxVecs && o.malloc pg

inductive Control
  | goOn (pg : Nat)
  | leave
  | ret
  deriving DecidableEq

def readaheadGroup (pg : Nat) : List Event × Control :=
  let grp := grp rac iSize pg
  if allUptodate o rac iSize pg then ([.raEnd (mpageEndIoNoread width rac pg grp)],.goOn (u64 (pg + grp)))
  else if lastPg iSize ≤ pg then ([],.leave)
  else match o.getBlocks pg with
    | none => ([.raEnd (mpageEndIoFailed width rac pg grp)],.ret)
    | some be =>
      let ioNr := ioNr rac iSize be pg
      if allocBio o pg ioNr then
        ([.submit (initMpageBio rac pg (u64 (be.lba.toNat + sub64 pg be.iblock.toNat)) ioNr)],.goOn (u64 (pg + ioNr)))
      else ([.raEnd (mpageEndIoFailed width rac pg ioNr)],.ret)

def readaheadLoop : Nat → Nat → Option (List Event × Bool)
  | 0, _ => none
  | fuel + 1, pg =>
    if u32 (sub64 pg (first rac)) < usable rac iSize then
      match readaheadGroup width o rac iSize pg with
      | (events,.goOn next) => (readaheadLoop fuel next).map fun (later,returned) => (events ++ later,returned)
      | (events,.leave) => some (events,false)
      | (events,.ret) => some (events,true)
    else some ([],false)

def mpageReadahead (fuel : Nat) : Option (List Event) :=
  if lastPg iSize < u64 (first rac + 1) ∨ rac.need = false then
    some [.raEnd (mpageEndIoNoread width rac (first rac) (total rac))]
  else if lastPg iSize ≤ first rac then some [.raEnd (mpageEndIoNoread width rac (first rac) (total rac))]
  else if usable rac iSize = 0 then
    some (if 0 < leftover rac iSize then [.raEnd (mpageEndIoNoread width rac (first rac) (leftover rac iSize))] else [])
  else (readaheadLoop width o rac iSize fuel (first rac)).map fun (events,returned) =>
    if returned then events
    else if 0 < leftover rac iSize then
      events ++ [.raEnd (mpageEndIoNoread width rac (u64 (first rac + usable rac iSize)) (leftover rac iSize))]
    else events

/-- Each page of the window is in one report, and no other page is in any. -/
def AnsweredOnce (events : List Event) : Prop :=
  ∀ p, coverings (events.map fun e => (e.report width).extent) p =
    if first rac ≤ p ∧ p < first rac + total rac then 1 else 0

inductive Reaches : Nat → Nat → Prop
  | here (pg : Nat) : Reaches pg pg
  | next (pg mid pg' : Nat) (inside : pg < first rac + usable rac iSize)
      (goesOn : (readaheadGroup width o rac iSize pg).2 = .goOn mid) (later : Reaches mid pg') : Reaches pg pg'

/-- If the group fails, its report ends the window. -/
def FailsLast (pg : Nat) : Prop :=
  allUptodate o rac iSize pg = false → match o.getBlocks pg with
    | none => pg + grp rac iSize pg = first rac + total rac
    | some be => allocBio o pg (ioNr rac iSize be pg) = false → pg + ioNr rac iSize be pg = first rac + total rac

/-- The count survives the way through `int`. -/
def Fits (nr : Nat) : Prop := width = 32 ∨ nr < 2^31

/-- The counts of the final reports fit, and only the group that ends the window may fail. -/
def Answerable : Prop :=
  if lastPg iSize ≤ first rac ∨ rac.need = false then Fits width (total rac)
  else Fits width (leftover rac iSize) ∧
    ∀ pg, Reaches width o rac iSize (first rac) pg → pg < first rac + usable rac iSize → FailsLast o rac iSize pg

section Window

variable {rac iSize}

theorem lastPg_lt (iSize : UInt64) : lastPg iSize < 2^53 := by
  have size := iSize.toNat_lt
  rw [lastPg,sizeToBlkNr,pageSize]
  split <;> omega

theorem total_lt (rac : ReadaheadControl) : total rac < 2^32 := rac.nrPages.toNat_lt

variable (inside : first rac < lastPg iSize)
include inside

theorem sum_fits : u64 (first rac + total rac) = first rac + total rac := by
  have last := lastPg_lt iSize
  have total := total_lt rac
  exact u64_of_lt (by omega)

theorem usable_eq : usable rac iSize = min (total rac) (lastPg iSize - first rac) := by
  have last := lastPg_lt iSize
  have total := total_lt rac
  rw [usable,sum_fits inside]
  split
  · rw [sub64_of_le inside.le (by omega),u32_of_lt (by omega)]
    omega
  · omega

theorem leftover_eq : usable rac iSize + leftover rac iSize = total rac := by
  have total := total_lt rac
  have usable := usable_eq inside
  rw [leftover,sum_fits inside]
  split
  · rw [sub32_of_le (by omega) total]
    omega
  · omega

theorem usable_le : first rac + usable rac iSize ≤ lastPg iSize := by
  have usable := usable_eq inside
  omega

theorem grp_eq (lower : first rac ≤ pg) (upper : pg < first rac + usable rac iSize) :
    grp rac iSize pg = min mpageRaGrpPages (first rac + usable rac iSize - pg) := by
  have last := lastPg_lt iSize
  have usable := usable_eq inside
  have total := total_lt rac
  rw [grp,u64_of_lt (by omega),sub64_of_le upper.le (by omega),u32_of_lt (by omega)]
  split <;> omega

theorem ioNr_bounds (lower : first rac ≤ pg) (upper : pg < first rac + usable rac iSize)
    (contains : be.Contains pg) : 0 < ioNr rac iSize be pg ∧ ioNr rac iSize be pg ≤ grp rac iSize pg := by
  have last := lastPg_lt iSize
  have within := usable_le inside
  have size : grp rac iSize pg = min 32 _ := grp_eq inside lower upper
  have nr := be.nr.toNat_lt
  obtain ⟨start,stop⟩ := contains
  rw [ioNr,u64_of_lt (n := be.iblock.toNat + be.nr.toNat) (by omega),u64_of_lt (n := pg + grp rac iSize pg) (by omega)]
  split
  · rw [sub64_of_le (by omega) (by omega),u32_of_lt (by omega)]
    omega
  · omega

end Window

section Field

variable {width} (wide : 32 ≤ width) {nr : Nat}
include wide

theorem nrField_natCast (small : nr < 2^32) : nrField width nr = nr := by
  have power : 2^32 ≤ 2^width := Nat.pow_le_pow_right (by decide) wide
  have reduced : (nr : Int) % 2^width = ((nr % 2^width : Nat) : Int) := by push_cast; rfl
  rw [nrField,reduced,Int.toNat_natCast,Nat.mod_eq_of_lt (by omega)]

theorem nrField_int32 (small : nr < 2^31) : nrField width (int32 nr) = nr := by
  rw [int32_natCast small,nrField_natCast wide (by omega)]

/-- A count of `2^31` pages or more comes out right only if the field is no wider than an `int`. -/
theorem nrField_int32_iff (small : nr < 2^32) : nrField width (int32 nr) = nr ↔ Fits width nr := by
  by_cases low : nr < 2^31
  · exact iff_of_true (nrField_int32 wide low) (.inr low)
  have negative : int32 nr = (nr : Int) - 2^32 := by
    rw [int32]
    split <;> omega
  have power : 2^32 ≤ 2^width := Nat.pow_le_pow_right (by decide) wide
  have value : nrField width (int32 nr) = 2^width - 2^32 + nr := by
    have cast : (2 : Int)^width = ((2^width : Nat) : Int) := by push_cast; rfl
    rw [nrField,negative,cast,← Int.add_emod_right]
    generalize 2^width = modulus at power
    rw [Int.emod_eq_of_lt (by omega) (by omega)]
    omega
  rw [value,Fits]
  constructor
  · intro same
    have equal : 2^width = 2^32 := by omega
    exact .inl (Nat.pow_right_injective (le_refl 2) equal)
  · rintro (rfl | small)
    · omega
    · exact absurd small low

end Field

section Loop

variable {width o rac iSize} (wide : 32 ≤ width) (inside : first rac < lastPg iSize)
  (contains : ∀ pg be, o.getBlocks pg = some be → be.Contains pg)
include wide inside contains

/-- A group reports on the pages from its first one on, by one event: the loop goes on behind them, or the
group has failed. -/
theorem readaheadGroup_cases (lower : first rac ≤ pg) (upper : pg < first rac + usable rac iSize) :
    ∃ n e, 0 < n ∧ pg + n ≤ first rac + usable rac iSize ∧ (Event.report width e).extent = ⟨pg,n⟩ ∧
      (readaheadGroup width o rac iSize pg = ([e],.goOn (pg + n)) ∧ FailsLast o rac iSize pg ∨
        readaheadGroup width o rac iSize pg = ([e],.ret) ∧ (FailsLast o rac iSize pg ↔ pg + n = first rac + total rac)) := by
  have last := lastPg_lt iSize
  have within := usable_le inside
  have size : grp rac iSize pg = min 32 _ := grp_eq inside lower upper
  unfold readaheadGroup FailsLast
  by_cases current : allUptodate o rac iSize pg = true
  · refine ⟨grp rac iSize pg,.raEnd (mpageEndIoNoread width rac pg (grp rac iSize pg)),
      by omega,by omega,?_,.inl ⟨?_,?_⟩⟩
    · simp only [Event.report,mpageEndIoNoread,RaEnd.extent]
      rw [nrField_int32 wide (by omega)]
    · rw [if_pos current,u64_of_lt (by omega)]
    · simp [current]
  simp only [current,Bool.false_eq_true,if_false,if_neg (show ¬ lastPg iSize ≤ pg by omega),forall_const]
  cases blocks : o.getBlocks pg with
  | none =>
    refine ⟨grp rac iSize pg,.raEnd (mpageEndIoFailed width rac pg (grp rac iSize pg)),by omega,
      by omega,?_,.inr ⟨rfl,Iff.rfl⟩⟩
    simp only [Event.report,mpageEndIoFailed,RaEnd.extent]
    rw [nrField_int32 wide (by omega)]
  | some be =>
    obtain ⟨positive,le⟩ := ioNr_bounds inside lower upper (contains pg be blocks)
    cases alloc : allocBio o pg (ioNr rac iSize be pg) with
    | true =>
      refine ⟨ioNr rac iSize be pg,
        .submit (initMpageBio rac pg (u64 (be.lba.toNat + sub64 pg be.iblock.toNat)) (ioNr rac iSize be pg)),
        positive,by omega,?_,.inl ⟨?_,by simp [alloc]⟩⟩
      · have short : u16 (ioNr rac iSize be pg) = ioNr rac iSize be pg := Nat.mod_eq_of_lt (by omega)
        simp only [Event.report,mpageEndIo,initMpageBio,RaEnd.extent,short]
        rw [nrField_natCast wide (by omega)]
      · simp only [alloc,if_true,u64_of_lt (show pg + ioNr rac iSize be pg < 2^64 by omega)]
    | false =>
      refine ⟨ioNr rac iSize be pg,.raEnd (mpageEndIoFailed width rac pg (ioNr rac iSize be pg)),positive,by omega,?_,
        .inr ⟨by simp [alloc],by simp [alloc]⟩⟩
      simp only [Event.report,mpageEndIoFailed,RaEnd.extent]
      rw [nrField_int32 wide (by omega)]

theorem readaheadLoop_laid (fuel : Nat) (lower : first rac ≤ pg) (upper : pg ≤ first rac + usable rac iSize)
    (enough : first rac + usable rac iSize - pg < fuel) :
    ∃ events returned stop, readaheadLoop width o rac iSize fuel pg = some (events,returned) ∧
      Laid pg (events.map fun e => (e.report width).extent) stop ∧ stop ≤ first rac + usable rac iSize ∧
      (returned = false → stop = first rac + usable rac iSize) ∧
      ((∀ x, Reaches width o rac iSize pg x → x < first rac + usable rac iSize → FailsLast o rac iSize x) ↔
        (returned = true → stop = first rac + total rac)) := by
  have last := lastPg_lt iSize
  have few : usable rac iSize < 2^32 := by
    have all := leftover_eq inside
    have total := total_lt rac
    omega
  have offset : u32 (sub64 pg (first rac)) = pg - first rac := by
    rw [sub64_of_le lower (by omega),u32_of_lt (by omega)]
  induction fuel generalizing pg with
  | zero => omega
  | succ fuel ih =>
    rw [readaheadLoop,offset]
    by_cases ended : pg = first rac + usable rac iSize
    · refine ⟨[],false,pg,if_neg (by omega),rfl,upper,fun _ => ended,iff_of_true ?_ (by simp)⟩
      intro x reaches
      cases reaches with
      | here => omega
      | next mid inside => omega
    have upper : pg < first rac + usable rac iSize := by omega
    rw [if_pos (by omega)]
    obtain ⟨n,e,positive,le,extent,⟨group,last⟩ | ⟨group,cut⟩⟩ :=
      readaheadGroup_cases wide inside contains lower upper
    · obtain ⟨events,returned,stop,loop,laid,bounded,ends,condition⟩ :=
        @ih (pg + n) (by omega) le (by omega) (by rw [sub64_of_le (by omega) (by omega),u32_of_lt (by omega)])
      refine ⟨e :: events,returned,stop,by simp [group,loop],laid.cons extent,bounded,ends,?_⟩
      rw [← condition]
      constructor
      · intro all x reaches
        exact all x (.next pg (pg + n) x upper (by rw [group]) reaches)
      · intro all x reaches below
        cases reaches with
        | here => exact last
        | next _ mid _ _ goesOn later =>
          obtain rfl : pg + n = mid := by simpa [group] using goesOn
          exact all x later below
    · refine ⟨[e],true,pg + n,by simp [group],.cons extent rfl,le,by simp,?_⟩
      constructor
      · intro all _
        exact cut.mp (all pg (.here pg) upper)
      · intro ends x reaches _
        cases reaches with
        | here => exact cut.mpr (ends rfl)
        | next _ mid _ _ goesOn => simp [group] at goesOn

end Loop

variable {width o rac iSize}

theorem mpageReadahead_outside (outside : lastPg iSize ≤ first rac ∨ rac.need = false) (fuel : Nat) :
    mpageReadahead width o rac iSize fuel = some [.raEnd (mpageEndIoNoread width rac (first rac) (total rac))] := by
  unfold mpageReadahead
  split
  · rfl
  next within =>
    rw [not_or] at within
    rw [if_pos (outside.resolve_right within.2)]

theorem reads_on (inside : first rac < lastPg iSize) (need : rac.need = true) :
    ¬ (lastPg iSize < u64 (first rac + 1) ∨ rac.need = false) := by
  have last := lastPg_lt iSize
  rw [u64_of_lt (by omega),need]
  simpa [Nat.succ_le_iff] using inside

theorem mpageReadahead_inside (inside : first rac < lastPg iSize) (need : rac.need = true) (fuel : Nat)
    (some : usable rac iSize ≠ 0) :
    mpageReadahead width o rac iSize fuel = (readaheadLoop width o rac iSize fuel (first rac)).map fun (events,returned) =>
      if returned then events
      else if 0 < leftover rac iSize then
        events ++ [.raEnd (mpageEndIoNoread width rac (u64 (first rac + usable rac iSize)) (leftover rac iSize))]
      else events := by
  rw [mpageReadahead,if_neg (reads_on inside need),if_neg (by omega),if_neg some]

theorem noread_laid (start nr : Nat) : Laid start
    ([Event.raEnd (mpageEndIoNoread width rac start nr)].map fun e => (e.report width).extent)
    (start + nrField width (int32 nr)) := by
  simp only [List.map_cons,List.map_nil,Event.report,mpageEndIoNoread,RaEnd.extent]
  exact laid_one start _

/-- The reports lie end to end from the first page of the window on. -/
theorem mpageReadahead_laid (iSize : UInt64) (wide : 32 ≤ width)
    (contains : ∀ pg be, o.getBlocks pg = some be → be.Contains pg)
    (fuel : Nat) (enough : total rac < fuel) :
    ∃ events stop, mpageReadahead width o rac iSize fuel = some events ∧
      Laid (first rac) (events.map fun e => (e.report width).extent) stop ∧
      (stop = first rac + total rac ↔ Answerable width o rac iSize) := by
  have few := total_lt rac
  by_cases outside : lastPg iSize ≤ first rac ∨ rac.need = false
  · refine ⟨_,_,mpageReadahead_outside outside fuel,noread_laid (first rac) (total rac),?_⟩
    rw [Answerable,if_pos outside,← nrField_int32_iff wide few]
    omega
  obtain ⟨inside,need⟩ := not_or.mp outside
  have inside : first rac < lastPg iSize := by omega
  have need : rac.need = true := by simpa using need
  have all := leftover_eq inside
  obtain ⟨events,returned,stop,loop,laid,bounded,ends,condition⟩ :=
    readaheadLoop_laid wide inside contains fuel le_rfl (by omega) (by omega)
  rw [Answerable,if_neg outside,condition]
  by_cases none : usable rac iSize = 0
  · have empty : total rac = 0 := by
      have usable := usable_eq inside
      omega
    have lower := laid.le
    refine ⟨[],first rac,?_,rfl,iff_of_true (by omega) ⟨.inr (by omega),fun _ => by omega⟩⟩
    rw [mpageReadahead,if_neg (reads_on inside need),if_neg (by omega),if_pos none,if_neg (by omega)]
  rw [mpageReadahead_inside inside need fuel none,loop]
  cases returned with
  | true =>
    refine ⟨events,stop,rfl,laid,?_⟩
    constructor
    · intro reached
      exact ⟨.inr (by omega),fun _ => reached⟩
    · intro answerable
      exact answerable.2 rfl
  | false =>
    obtain rfl := ends rfl
    by_cases more : 0 < leftover rac iSize
    · refine ⟨_,first rac + usable rac iSize + nrField width (int32 (leftover rac iSize)),rfl,?_,?_⟩
      · have last := lastPg_lt iSize
        simp only [Bool.false_eq_true,if_false,if_pos more,List.map_append,
          u64_of_lt (show first rac + usable rac iSize < 2^64 by omega)]
        exact laid.append (noread_laid _ _)
      · rw [← nrField_int32_iff wide (by omega),and_iff_left (by simp)]
        omega
    · refine ⟨events,_,by simp [more],laid,?_⟩
      exact iff_of_true (by omega) ⟨.inr (by omega),by simp⟩

/-- The call returns, and its reports cover each page of the window once and no other page if and only if
a failing group ends the window and the count of the pages behind the file fits. -/
theorem answered_once_iff (width : Nat) (wide : 32 ≤ width) (o : Outcomes)
    (contains : ∀ pg be, o.getBlocks pg = some be → be.Contains pg) (rac : ReadaheadControl) (iSize : UInt64)
    (fuel : Nat) (enough : total rac < fuel) :
    ∃ events, mpageReadahead width o rac iSize fuel = some events ∧
      (AnsweredOnce width rac events ↔ Answerable width o rac iSize) := by
  obtain ⟨events,stop,ran,laid,answerable⟩ := mpageReadahead_laid iSize wide contains fuel enough
  refine ⟨events,ran,?_⟩
  rw [← answerable]
  exact laid.coverings_iff (Nat.le_add_right _ _)

def failsBehind : Outcomes where
  uptodate _ _ := false
  getBlocks pg := if pg < 32 then some ⟨0,32,1000⟩ else none
  malloc _ := true

theorem failsBehind_contains (pg : Nat) (be : BufferExtent) (found : failsBehind.getBlocks pg = some be) :
    be.Contains pg := by
  simp only [failsBehind] at found
  obtain ⟨_,⟨⟩⟩ := Option.ite_none_right_eq_some.mp found
  exact ⟨Nat.zero_le pg,by simpa⟩

def endsThere : ReadaheadControl := ⟨7,8,40,true⟩

def goesBehind : ReadaheadControl := ⟨7,0,96,true⟩

theorem answered_once_iff_lastGroup : ∃ events,
    mpageReadahead 64 failsBehind endsThere 196608 41 = some events ∧ AnsweredOnce 64 endsThere events := by
  obtain ⟨events,ran,exactly⟩ :=
    answered_once_iff 64 (by decide) failsBehind failsBehind_contains endsThere 196608 41 (by decide)
  have bio : (readaheadGroup 64 failsBehind endsThere 196608 8).2 = .goOn 32 := by decide +kernel
  have fails : (readaheadGroup 64 failsBehind endsThere 196608 32).2 = .ret := by decide +kernel
  refine ⟨events,ran,exactly.mpr ?_⟩
  rw [Answerable,if_neg (by decide +kernel)]
  refine ⟨.inr (by decide +kernel),?_⟩
  intro pg reaches _ _
  cases reaches with
  | here =>
    intro failed
    exact absurd failed (by decide +kernel)
  | next _ mid _ _ goesOn later =>
    obtain rfl : 32 = mid := Control.goOn.inj (bio.symm.trans goesOn)
    cases later with
    | here => exact (by decide +kernel : 32 + grp endsThere 196608 32 = 48)
    | next _ mid _ _ goesOn => exact absurd (fails.symm.trans goesOn) (by simp)

/-- The pages from 64 on are behind the group that fails, and nothing is reported on them. -/
theorem failure_leaves_rest_unanswered : ∃ events,
    mpageReadahead 64 failsBehind goesBehind 393216 97 = some events ∧ ¬ AnsweredOnce 64 goesBehind events := by
  have missed : (mpageReadahead 64 failsBehind goesBehind 393216 97).map
      (fun events => coverings (events.map fun e => (e.report 64).extent) 64) = some 0 := by decide +kernel
  obtain ⟨events,ran,none⟩ := Option.map_eq_some_iff.mp missed
  refine ⟨events,ran,?_⟩
  intro answered
  have once := answered 64
  rw [none] at once
  exact absurd once (by decide)

end Oxbow.Daemon.Readahead
