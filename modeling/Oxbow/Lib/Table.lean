import Oxbow.Lib.Extent

/-! Blocks as arrays of 32-bit words, counted tables inside them, and lists that spill from
a first table into further ones. A table keeps its number of entries in one word and the
entries, of a fixed number of words each, from another word on. -/
namespace Oxbow.Lib

open List

abbrev Words (w : Nat) := Fin w → UInt32

def word (p : Words w) (i : Nat) : Nat := if inside : i < w then (p ⟨i,inside⟩).toNat else 0

def setWord (p : Words w) (i v : Nat) : Words w := fun j => if j.val = i then UInt32.ofNat v else p j

theorem word_setWord (p : Words w) (inside : i < w) : word (setWord p i v) i = v % 2^32 := by
  simp [word,setWord,inside]

theorem word_setWord_ne (p : Words w) (other : j ≠ i) : word (setWord p i v) j = word p j := by
  simp [word,setWord,other]

/-- How a value lies in `width` consecutive words. -/
structure Codec (α : Type) where
  width : Nat
  put : α → Nat → Nat
  get : (Nat → Nat) → α
  Storable : α → Prop
  get_congr : ∀ f g, (∀ k, k < width → f k = g k) → get f = get g
  get_put : ∀ a, Storable a → get (fun k => put a k % 2^32) = a

def number64 : Codec Nat where
  width := 2
  put n k := if k = 0 then n else n / 2^32
  get f := f 0 + 2^32 * f 1
  Storable n := n < 2^64
  get_congr f g same := by rw [same 0 (by omega),same 1 (by omega)]
  get_put n small := by
    simp only [if_true,Nat.one_ne_zero,if_false]
    omega

def extent96 : Codec Extent where
  width := 3
  put e k := if k = 0 then e.start else if k = 1 then e.start / 2^32 else e.len
  get f := ⟨f 0 + 2^32 * f 1,f 2⟩
  Storable e := e.start < 2^64 ∧ e.len < 2^32
  get_congr f g same := by rw [same 0 (by omega),same 1 (by omega),same 2 (by omega)]
  get_put e small := by
    obtain ⟨start,len⟩ := e
    simp only [if_true,Nat.one_ne_zero,if_false,Nat.reduceEqDiff,Extent.mk.injEq] at small ⊢
    omega

structure Table (α : Type) (w : Nat) where
  codec : Codec α
  nrAt : Nat
  entriesAt : Nat
  capacity : Nat
  header : nrAt < entriesAt
  inside : entriesAt + codec.width * capacity ≤ w
  counted : capacity < 2^32

namespace Table

def nr (t : Table α w) (p : Words w) : Nat := word p t.nrAt

def entryAt (t : Table α w) (i : Nat) : Nat := t.entriesAt + t.codec.width * i

section

variable (t : Table α w) (p : Words w)

def entry (i : Nat) : α := t.codec.get fun k => word p (t.entryAt i + k)

def entries : List α := (List.range (t.nr p)).map (t.entry p)

def clear : Words w := setWord p t.nrAt 0

def setEntry (i : Nat) (a : α) : Words w := fun j =>
  if t.entryAt i ≤ j.val ∧ j.val < t.entryAt i + t.codec.width then
    UInt32.ofNat (t.codec.put a (j.val - t.entryAt i))
  else p j

/-- The entry after the last one is filled, then the count goes up. -/
def push (a : α) : Words w :=
  setWord (t.setEntry p (t.nr p) a) t.nrAt (t.nr p + 1)

@[simp] theorem entries_length : (t.entries p).length = t.nr p := by
  simp [entries]

theorem entries_of_nr (none : t.nr p = 0) : t.entries p = [] := by
  simp [entries,none]

theorem nr_clear : t.nr (t.clear p) = 0 := by
  have := t.header
  have := t.inside
  exact (word_setWord p (by omega)).trans (Nat.zero_mod _)

theorem word_setEntry_outside (outside : j < t.entryAt i ∨ t.entryAt i + t.codec.width ≤ j) :
    word (t.setEntry p i a) j = word p j := by
  unfold word
  split
  · rw [setEntry,if_neg (by simp only; omega)]
  · rfl

theorem word_setEntry_inside (fits : t.entryAt i + k < w) (inside : k < t.codec.width) :
    word (t.setEntry p i a) (t.entryAt i + k) = t.codec.put a k % 2^32 := by
  rw [word,dif_pos fits,setEntry,if_pos (by simp only; omega),Nat.add_sub_cancel_left]
  exact UInt32.toNat_ofNat

theorem word_push_header (before : j < t.entriesAt) (other : j ≠ t.nrAt) : word (t.push p a) j = word p j := by
  rw [push,word_setWord_ne _ other,word_setEntry_outside t p (.inl (by unfold entryAt; omega))]

theorem entry_setEntry (room : i < t.capacity) (storable : t.codec.Storable a) : t.entry (t.setEntry p i a) i = a := by
  have inside := t.inside
  have within : t.codec.width * (i + 1) ≤ t.codec.width * t.capacity := Nat.mul_le_mul_left _ room
  rw [Nat.mul_add] at within
  rw [entry,← t.codec.get_put a storable]
  apply t.codec.get_congr
  intro k small
  rw [t.codec.get_put a storable]
  exact word_setEntry_inside t p (by unfold entryAt; omega) small

theorem entry_setEntry_ne (other : j ≠ i) : t.entry (t.setEntry p i a) j = t.entry p j := by
  apply t.codec.get_congr
  intro k small
  apply word_setEntry_outside
  unfold entryAt
  rcases Nat.lt_or_gt_of_ne other with before | after
  · have : t.codec.width * (j + 1) ≤ t.codec.width * i := Nat.mul_le_mul_left _ before
    rw [Nat.mul_add] at this
    omega
  · have : t.codec.width * (i + 1) ≤ t.codec.width * j := Nat.mul_le_mul_left _ after
    rw [Nat.mul_add] at this
    omega

theorem entry_setWord (before : n < t.entriesAt) : t.entry (setWord p n v) i = t.entry p i := by
  apply t.codec.get_congr
  intro k _
  exact word_setWord_ne p (by unfold entryAt; omega)

theorem entries_setWord (before : n < t.entriesAt) (other : n ≠ t.nrAt) : t.entries (setWord p n v) = t.entries p := by
  have same : t.nr (setWord p n v) = t.nr p := word_setWord_ne p other.symm
  rw [entries,entries,same]
  exact map_congr_left fun i _ => entry_setWord t p before

theorem nr_push (room : t.nr p < t.capacity) : t.nr (t.push p a) = t.nr p + 1 := by
  have := t.header
  have := t.inside
  have := t.counted
  unfold push
  rw [nr,word_setWord _ (by omega)]
  omega

theorem entries_push (room : t.nr p < t.capacity)
    (storable : t.codec.Storable a) : t.entries (t.push p a) = t.entries p ++ [a] := by
  rw [entries,nr_push t p room,range_succ,map_append,map_singleton,entries]
  congr 1
  · apply map_congr_left
    intro i earlier
    have := mem_range.mp earlier
    rw [push,entry_setWord t _ t.header,entry_setEntry_ne t p (by omega)]
  · rw [push,entry_setWord t _ t.header,entry_setEntry t p room storable]

end

end Table

/-- The part of a list that table `j` of the overflow holds, when the first table takes
`first` entries and each later one `next`. -/
def spilled (first next : Nat) (xs : List α) (j : Nat) : List α := (xs.drop (first + next * j)).take next

/-- The tables in use besides the first. A table that becomes full opens the next at once. -/
def spillTables (first next len : Nat) : Nat := if len < first then 0 else (len - first) / next + 1

variable {next : Nat}

theorem spillTables_bounds (first len : Nat) (positive : 0 < next) :
    len < first + next * spillTables first next len ∧
      (spillTables first next len ≠ 0 → first + next * spillTables first next len ≤ len + next) := by
  unfold spillTables
  split
  next below => exact ⟨by omega,fun absurd => (absurd rfl).elim⟩
  next reached =>
    have whole := Nat.div_add_mod (len - first) next
    have part := Nat.mod_lt (len - first) positive
    rw [Nat.mul_add,Nat.mul_one]
    exact ⟨by omega,fun _ => by omega⟩

theorem spillTables_eq (positive : 0 < next) (above : len < first + next * n)
    (below : n ≠ 0 → first + next * n ≤ len + next) : spillTables first next len = n := by
  obtain ⟨above',below'⟩ := spillTables_bounds first len positive
  generalize spillTables first next len = m at above' below'
  rcases Nat.lt_trichotomy m n with less | same | more
  · have step : next * (m + 1) ≤ next * n := Nat.mul_le_mul_left next less
    have := below (by omega)
    rw [Nat.mul_add] at step
    omega
  · exact same
  · have step : next * (n + 1) ≤ next * m := Nat.mul_le_mul_left next more
    have := below' (by omega)
    rw [Nat.mul_add] at step
    omega

/-- A new table is opened exactly when the last one becomes full. -/
theorem spillTables_succ (first len : Nat) (positive : 0 < next) :
    spillTables first next (len + 1) =
      if len + 1 = first + next * spillTables first next len then spillTables first next len + 1
      else spillTables first next len := by
  obtain ⟨above,below⟩ := spillTables_bounds first len positive
  split
  next full =>
    apply spillTables_eq positive <;> rw [Nat.mul_add]
    · omega
    · omega
  next open' =>
    apply spillTables_eq positive
    · omega
    · intro some
      have := below some
      omega

theorem take_append_spilled (first next n : Nat) (xs : List α) :
    xs.take first ++ (List.range n).flatMap (spilled first next xs) = xs.take (first + next * n) := by
  induction n with
  | zero => simp
  | succ n ih =>
    rw [range_succ,flatMap_append,← append_assoc,ih,flatMap_singleton,spilled,
      ← take_add,Nat.mul_succ,Nat.add_assoc]

/-- Together the tables hold the whole list. -/
theorem spill_complete (first : Nat) (positive : 0 < next) (xs : List α) :
    xs.take first ++ (List.range (spillTables first next xs.length)).flatMap (spilled first next xs) = xs := by
  have bound := (spillTables_bounds first xs.length positive).1
  rw [take_append_spilled,take_of_length_le (by omega)]

theorem spilled_append (full : first + next * (j + 1) ≤ xs.length) :
    spilled first next (xs ++ [x]) j = spilled first next xs j := by
  rw [Nat.mul_add] at full
  rw [spilled,spilled,drop_append_of_le_length (by omega),
    take_append_of_le_length (by rw [length_drop]; omega)]

theorem spilled_append_last (reached : first + next * j ≤ xs.length)
    (room : xs.length < first + next * (j + 1)) :
    spilled first next (xs ++ [x]) j = spilled first next xs j ++ [x] := by
  rw [Nat.mul_add] at room
  rw [spilled,spilled,drop_append_of_le_length reached,take_of_length_le
    (by simp only [length_append,length_drop,length_singleton]; omega),
    take_of_length_le (by rw [length_drop]; omega)]

theorem spilled_length (reached : first + next * j ≤ xs.length)
    (room : xs.length ≤ first + next * (j + 1)) :
    (spilled first next xs j).length = xs.length - (first + next * j) := by
  rw [Nat.mul_add] at room
  rw [spilled,length_take,length_drop]
  omega

end Oxbow.Lib
