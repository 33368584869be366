import Mathlib.Data.List.Pairwise
import Oxbow.Lib.Chain
import Oxbow.Lib.Run
import Oxbow.Lib.Tally

/-! The slab allocator: a free list whose head carries a version, popped and pushed by compare-and-swap, and slabs
added under a mutex when the list is empty. Each access to the head or to the link of an object is one step. -/
namespace Oxbow.OxbSlab

open Oxbow.Lib Function List Option

structure Sizes where
  objSize : Nat
  objsPerSlab : Nat
  slabSize : Nat
  deriving DecidableEq, Repr

def alignUp (size alignment : Nat) : Nat := (size + alignment - 1) / alignment * alignment

def sizeofSlabObj : Nat := 8
def defaultAlignment : Nat := 8
def maxSlabSize : Nat := 4096
def minObjectsPerSlab : Nat := 1

def slabSizes (objSize : Nat) : Option Sizes :=
  if objSize = 0 then none
  else
    let objSize := alignUp (max objSize sizeofSlabObj) defaultAlignment
    let slabSize := min (objSize * minObjectsPerSlab) maxSlabSize
    if slabSize / objSize = 0 then some ⟨objSize,1,objSize⟩ else some ⟨objSize,slabSize / objSize,slabSize⟩

def Sizes.objects (sizes : Sizes) (slab : Nat) : List Nat := (List.range sizes.objsPerSlab).map fun i => slab + i * sizes.objSize

structure Head where
  obj : Option Nat
  version : Nat
  deriving DecidableEq, Repr

inductive Phase
  | idle
  /-- At the head of the loop of `oxb_slab_alloc`, before the load of the link, before the compare-and-swap. -/
  | alloc
  | allocNext (obj version : Nat)
  | allocCas (obj version : Nat) (next : Option Nat)
  /-- In `oxb_slab_grow`: before the mutex, with it, and after the free list was seen empty. -/
  | growLock
  | growCheck
  | growing
  | push (obj : Nat) (rest : List Nat) (grows : Bool)
  | pushNext (obj : Nat) (rest : List Nat) (grows : Bool) (oldHead : Head)
  | pushCas (obj : Nat) (rest : List Nat) (grows : Bool) (oldHead : Head)
  deriving DecidableEq, Repr

structure State (n : Nat) where
  freeList : Head
  next : Nat → Option Nat
  slabs : List Nat
  slabsCapacity : Nat
  lock : Option (Fin n)
  owned : List Nat
  phase : Fin n → Phase
  panicked : Bool

def State.objects (sizes : Sizes) (s : State n) : List Nat := s.slabs.flatMap sizes.objects

def State.move (s : State n) (t : Fin n) (p : Phase) : State n := {s with phase := update s.phase t p}

def Fresh (sizes : Sizes) (slabs : List Nat) (slab : Nat) : Prop :=
  ∀ other ∈ slabs, slab + sizes.slabSize ≤ other ∨ other + sizes.slabSize ≤ slab

instance Fresh.decidable (sizes : Sizes) (slabs : List Nat) (slab : Nat) : Decidable (Fresh sizes slabs slab) :=
  inferInstanceAs (Decidable (∀ other ∈ slabs,_))

def pushNextObj : List Nat → Bool → Phase
  | obj :: rest,grows => .push obj rest grows
  | [],true => .alloc
  | [],false => .idle

/-- `oxb_slab_grow` with the mutex and an empty free list: `realloc` tells whether the array can be doubled, `slab` is
what `malloc` returns. -/
def grow (sizes : Sizes) (s : State n) (t : Fin n) (realloc : Bool) (slab : Option Nat) : Option (State n) :=
  match s.phase t with
  | .growing =>
    if s.slabsCapacity ≤ s.slabs.length ∧ realloc = false then some {s with lock := none, panicked := true}
    else
      let capacity := if s.slabsCapacity ≤ s.slabs.length then s.slabsCapacity * 2 else s.slabsCapacity
      match slab with
      | none => some {s with slabsCapacity := capacity, lock := none, panicked := true}
      | some slab =>
        if Fresh sizes s.slabs slab then
          some {s.move t (pushNextObj (sizes.objects slab) true) with
            slabs := s.slabs ++ [slab], slabsCapacity := capacity, lock := none}
        else none
  | _ => none

/-- The next step of a thread; `spurious` is a weak compare-and-swap that fails without reason. -/
def advance (s : State n) (t : Fin n) (spurious : Bool) : Option (State n) :=
  match s.phase t with
  | .idle | .growing => none
  | .alloc =>
    match s.freeList.obj with
    | none => some (s.move t .growLock)
    | some obj => some (s.move t (.allocNext obj s.freeList.version))
  | .allocNext obj version => some (s.move t (.allocCas obj version (s.next obj)))
  | .allocCas obj version next =>
    if spurious = false ∧ s.freeList = ⟨some obj,version⟩ then
      some {s.move t .idle with freeList := ⟨next,version + 1⟩, owned := obj :: s.owned}
    else some (s.move t .alloc)
  | .growLock => if s.lock = none then some {s.move t .growCheck with lock := some t} else none
  | .growCheck =>
    if s.freeList.obj.isSome then some {s.move t .alloc with lock := none} else some (s.move t .growing)
  | .push obj rest grows => some (s.move t (.pushNext obj rest grows s.freeList))
  | .pushNext obj rest grows oldHead =>
    some {s.move t (.pushCas obj rest grows oldHead) with next := update s.next obj oldHead.obj}
  | .pushCas obj rest grows oldHead =>
    if spurious = false ∧ s.freeList = oldHead then
      some {s.move t (pushNextObj rest grows) with freeList := ⟨some obj,oldHead.version + 1⟩}
    else some (s.move t (.push obj rest grows))

inductive Act (n : Nat)
  | alloc (t : Fin n)
  | free (t : Fin n) (obj : Nat)
  | write (obj : Nat) (word : Option Nat)
  | go (t : Fin n) (spurious : Bool)
  | grow (t : Fin n) (realloc : Bool) (slab : Option Nat)
  deriving DecidableEq, Repr

def step (sizes : Sizes) (s : State n) (act : Act n) : Option (State n) :=
  if s.panicked then none
  else
    match act with
    | .alloc t => if s.phase t = .idle then some (s.move t .alloc) else none
    | .free t obj =>
      if s.phase t = .idle ∧
        obj ∈ s.owned then some {s.move t (.push obj [] false) with owned := s.owned.erase obj} else none
    | .write obj word => if obj ∈ s.owned then some {s with next := update s.next obj word} else none
    | .go t spurious => advance s t spurious
    | .grow t realloc slab => grow sizes s t realloc slab

def prefillPush (s : State n) (obj : Nat) : State n :=
  {s with next := update s.next obj s.freeList.obj, freeList := ⟨some obj,s.freeList.version + 1⟩}

def init (n : Nat) (sizes : Sizes) (next : Nat → Option Nat) (slabs : List Nat) : State n :=
  (slabs.flatMap sizes.objects).foldl prefillPush ⟨⟨none,0⟩,next,slabs,slabs.length,none,[],fun _ => .idle,false⟩

/-- The objects in the hands of a free or grow in flight. -/
def Phase.held : Phase → List Nat
  | .push obj rest _ | .pushNext obj rest _ _ | .pushCas obj rest _ _ => obj :: rest
  | _ => []

/-- What a thread knows of the free list: while the version is the one it has read, the head and its link are too. -/
def Knows (freeList : Head) (next : Nat → Option Nat) : Phase → Prop
  | .allocNext obj version => version ≤ freeList.version ∧ (version = freeList.version → freeList.obj = some obj)
  | .allocCas obj version link => version ≤ freeList.version ∧
    (version = freeList.version → freeList.obj = some obj ∧ next obj = link)
  | .pushCas obj _ _ oldHead => next obj = oldHead.obj
  | _ => True

structure Invariant (sizes : Sizes) (s : State n) (cells : List Nat) : Prop where
  chain : Chain s.next s.freeList.obj cells
  distinct : (s.objects sizes).Nodup
  places : ∀ o, cells.count o + s.owned.count o + tally (fun p => p.held.count o) s.phase = (s.objects sizes).count o
  threads : ∀ t, Knows s.freeList s.next (s.phase t)

variable {s u : State n}

theorem Knows.bump {next : Nat → Option Nat} (knows : Knows freeList next p) (head : Option Nat) :
    Knows ⟨head,freeList.version + 1⟩ next p := by
  cases p with
  | allocNext obj version => exact ⟨knows.1.trans (Nat.le_succ _),fun same => absurd knows.1 (by simp only at same; omega)⟩
  | allocCas obj version link =>
    exact ⟨knows.1.trans (Nat.le_succ _),fun same => absurd knows.1 (by simp only at same; omega)⟩
  | pushCas obj rest grows oldHead => exact knows
  | idle | alloc | growLock | growCheck | growing | push | pushNext => trivial

theorem Knows.store {next : Nat → Option Nat} (knows : Knows freeList next p)
    (other : freeList.obj ≠ some obj) (apart : obj ∉ p.held) (word : Option Nat) :
    Knows freeList (update next obj word) p := by
  cases p with
  | allocCas o version link =>
    refine ⟨knows.1,fun same => ?_⟩
    obtain ⟨head,read⟩ := knows.2 same
    have ne : o ≠ obj := by
      rintro rfl
      exact other head
    exact ⟨head,by rw [update_of_ne ne,read]⟩
  | pushCas o rest grows oldHead =>
    have ne : o ≠ obj := fun same => apart (same ▸ mem_cons_self)
    exact (update_of_ne ne _ _).trans knows
  | allocNext | idle | alloc | growLock | growCheck | growing | push | pushNext => exact knows

section

variable (inv : Invariant sizes s cells)
include inv

theorem Invariant.once (o : Nat) : cells.count o + s.owned.count o + tally (fun p => p.held.count o) s.phase ≤ 1 := by
  rw [inv.places]
  exact nodup_iff_count_le_one.mp inv.distinct o

theorem Invariant.held_alone (held : obj ∈ (s.phase t).held) : obj ∉ cells ∧ ∀ v, v ≠ t →
    obj ∉ (s.phase v).held := by
  have once := inv.once obj
  have here := count_pos_iff.mpr held
  refine ⟨fun member => ?_,fun v other member => ?_⟩
  · have there := count_pos_iff.mpr member
    have below := le_tally (fun p : Phase => p.held.count obj) s.phase t
    omega
  · have there := count_pos_iff.mpr member
    have both := add_le_tally (fun p : Phase => p.held.count obj) s.phase other
    omega

theorem Invariant.owned_alone (owned : obj ∈ s.owned) : obj ∉ cells ∧ ∀ v, obj ∉ (s.phase v).held := by
  have once := inv.once obj
  have here := count_pos_iff.mpr owned
  refine ⟨fun member => ?_,fun v member => ?_⟩
  · have there := count_pos_iff.mpr member
    omega
  · have there := count_pos_iff.mpr member
    have below := le_tally (fun p : Phase => p.held.count obj) s.phase v
    omega

theorem Invariant.head_cell (apart : obj ∉ cells) : s.freeList.obj ≠ some obj := by
  intro head
  obtain ⟨rest,rfl,-⟩ := Chain.of_some (head ▸ inv.chain)
  exact apart mem_cons_self

end

theorem held_move (s : State n) (t : Fin n) (p : Phase) (before after : List Nat) (here : (s.phase t).held = before)
    (there : p.held = after) (o : Nat) :
    tally (fun p => p.held.count o) (update s.phase t p) + before.count o =
      tally (fun p => p.held.count o) s.phase + after.count o := by
  rw [← here,← there]
  exact tally_update (fun p : Phase => p.held.count o) s.phase t p

theorem threads_move (s : State n) (t : Fin n) (p : Phase) (freeList : Head) (next : Nat → Option Nat)
    (mine : Knows freeList next p)
    (others : ∀ v, v ≠ t → Knows freeList next (s.phase v)) (v : Fin n) : Knows freeList next (update s.phase t p v) := by
  by_cases same : v = t
  · subst same
    rwa [update_self]
  · rw [update_of_ne same]
    exact others v same

/-- A thread goes on with the objects it has, and the free list and the objects stay as they are. -/
theorem Invariant.goes (inv : Invariant sizes s cells) (p : Phase) (here : s.phase t = p') (held : p.held = p'.held)
    (knows : Knows s.freeList s.next p) (lock : Option (Fin n)) : Invariant sizes {s.move t p with lock := lock} cells where
  chain := inv.chain
  distinct := inv.distinct
  places o := by
    have moved := held_move s t p _ _ rfl (held.trans (congrArg Phase.held here.symm)) o
    have before := inv.places o
    change _ = count o (s.objects sizes)
    simp only [State.move]
    omega
  threads := threads_move s t p s.freeList s.next knows fun v _ => inv.threads v

theorem Invariant.pop (inv : Invariant sizes s cells) (here : s.phase t = .allocCas obj version link)
    (won : s.freeList = ⟨some obj,version⟩) :
    ∃ rest, cells = obj :: rest ∧
      Invariant sizes {s.move t .idle with freeList := ⟨link,version + 1⟩, owned := obj :: s.owned} rest := by
  have knows := inv.threads t
  rw [here,won] at knows
  obtain ⟨-,read⟩ := knows.2 rfl
  have chain := inv.chain
  rw [won] at chain
  obtain ⟨rest,rfl,after⟩ := chain.of_some
  refine ⟨rest,rfl,read ▸ after,inv.distinct,fun o => ?_,fun v => ?_⟩
  · have moved := held_move s t .idle [] [] (by rw [here]; rfl) rfl o
    have before := inv.places o
    simp only [State.move,State.objects,count_cons,count_nil] at moved before ⊢
    omega
  · refine threads_move s t .idle ⟨link,version + 1⟩ s.next trivial (fun v _ => ?_) v
    have known := (inv.threads v).bump link
    rwa [won] at known

theorem Invariant.store (inv : Invariant sizes s cells) (here : s.phase t = .pushNext obj rest grows oldHead) :
    Invariant sizes {s.move t (.pushCas obj rest grows oldHead) with next := update s.next obj oldHead.obj} cells := by
  have held : obj ∈ (s.phase t).held := by simp [here,Phase.held]
  obtain ⟨apart,others⟩ := inv.held_alone held
  refine ⟨inv.chain.update apart _,inv.distinct,fun o => ?_,fun v => ?_⟩
  · have moved := held_move s t (.pushCas obj rest grows oldHead) (obj :: rest) (obj :: rest) (by rw [here]; rfl) rfl o
    have before := inv.places o
    simp only [State.move,State.objects] at before ⊢
    omega
  · refine threads_move s t (.pushCas obj rest grows oldHead) s.freeList (update s.next obj oldHead.obj)
      (by simp [Knows]) (fun v other => ?_) v
    exact (inv.threads v).store (inv.head_cell apart) (others v other) oldHead.obj

theorem held_pushNextObj (rest : List Nat) (grows : Bool) : (pushNextObj rest grows).held = rest := by
  cases rest with
  | nil => cases grows <;> rfl
  | cons obj rest => rfl

theorem knows_pushNextObj {next : Nat → Option Nat} (rest : List Nat) (grows : Bool) :
    Knows freeList next (pushNextObj rest grows) := by
  cases rest with
  | nil => cases grows <;> trivial
  | cons obj rest => trivial

theorem Invariant.push (inv : Invariant sizes s cells)
    (here : s.phase t = .pushCas obj rest grows oldHead) (won : s.freeList = oldHead) :
    Invariant sizes {s.move t (pushNextObj rest grows) with freeList := ⟨some obj,oldHead.version + 1⟩} (obj :: cells) := by
  have knows := inv.threads t
  rw [here] at knows
  refine ⟨inv.chain.push (knows.trans (by rw [won])),inv.distinct,fun o => ?_,fun v => ?_⟩
  · have moved := held_move s t _ (obj :: rest) rest (by rw [here]; rfl) (held_pushNextObj rest grows) o
    have before := inv.places o
    simp only [State.move,State.objects,count_cons] at moved before ⊢
    omega
  · refine threads_move s t _ ⟨some obj,oldHead.version + 1⟩ s.next (knows_pushNextObj rest grows) (fun v _ => ?_) v
    have known := (inv.threads v).bump (some obj)
    rwa [won] at known

theorem Invariant.write (inv : Invariant sizes s cells) (owned : obj ∈ s.owned) (word : Option Nat) :
    Invariant sizes {s with next := update s.next obj word} cells := by
  obtain ⟨apart,others⟩ := inv.owned_alone owned
  exact ⟨inv.chain.update apart _,inv.distinct,inv.places,fun v => (inv.threads v).store (inv.head_cell apart)
    (others v) word⟩

theorem Invariant.free (inv : Invariant sizes s cells) (idle : s.phase t = .idle) (owned : obj ∈ s.owned) :
    Invariant sizes {s.move t (.push obj [] false) with owned := s.owned.erase obj} cells := by
  refine ⟨inv.chain,inv.distinct,fun o => ?_,fun v => ?_⟩
  · have moved := held_move s t (.push obj [] false) [] [obj] (by rw [idle]; rfl) rfl o
    have before := inv.places o
    have kept := (perm_cons_erase owned).count_eq o
    simp only [State.move,State.objects,count_cons,count_nil] at moved before kept ⊢
    omega
  · exact threads_move s t (.push obj [] false) s.freeList s.next trivial (fun v _ => inv.threads v) v

structure Sized (sizes : Sizes) : Prop where
  positive : 0 < sizes.objSize
  fits : sizes.objsPerSlab * sizes.objSize ≤ sizes.slabSize

theorem slabSizes_sized (sized : slabSizes objSize = some sizes) : Sized sizes := by
  have positive : 0 < alignUp (max objSize sizeofSlabObj) defaultAlignment := by
    simp only [alignUp,sizeofSlabObj,defaultAlignment]
    omega
  obtain ⟨-,sized⟩ := ite_none_left_eq_some.mp sized
  simp only at sized
  split at sized
  · obtain rfl := some.inj sized
    exact ⟨positive,by simp⟩
  · obtain rfl := some.inj sized
    exact ⟨positive,Nat.div_mul_le_self _ _⟩

theorem objects_nodup (sized : Sized sizes) (slab : Nat) : (sizes.objects slab).Nodup := by
  refine List.Nodup.map (fun i j same => ?_) nodup_range
  exact Nat.eq_of_mul_eq_mul_right sized.positive (Nat.add_left_cancel same)

theorem mem_objects (sized : Sized sizes) (member : o ∈ sizes.objects slab) : slab ≤ o ∧ o < slab + sizes.slabSize := by
  obtain ⟨i,inside,rfl⟩ := mem_map.mp member
  have below := Nat.mul_le_mul_right sizes.objSize (Nat.succ_le_of_lt (mem_range.mp inside))
  have fits := sized.fits
  have positive := sized.positive
  rw [Nat.succ_mul] at below
  omega

theorem fresh_disjoint (sized : Sized sizes) (fresh : Fresh sizes slabs slab) :
    (slabs.flatMap sizes.objects).Disjoint (sizes.objects slab) := by
  intro o before new
  obtain ⟨other,member,inside⟩ := mem_flatMap.mp before
  have here := mem_objects sized new
  have there := mem_objects sized inside
  have apart := fresh other member
  omega

section

variable (inv : Invariant sizes s cells)
include inv

theorem Invariant.grow (sized : Sized sizes) (here : s.phase t = .growing) (fresh : Fresh sizes s.slabs slab) (capacity : Nat) :
    Invariant sizes {s.move t (pushNextObj (sizes.objects slab) true) with
      slabs := s.slabs ++ [slab], slabsCapacity := capacity, lock := none} cells := by
  have objects : (s.slabs ++ [slab]).flatMap sizes.objects = s.slabs.flatMap sizes.objects ++ sizes.objects slab := by
    simp
  refine ⟨inv.chain,?_,fun o => ?_,fun v => ?_⟩
  · simp only [State.objects,objects]
    exact inv.distinct.append (objects_nodup sized slab) (fresh_disjoint sized fresh)
  · have moved := held_move s t _ [] (sizes.objects slab) (by rw [here]; rfl) (held_pushNextObj (sizes.objects slab) true) o
    have before := inv.places o
    simp only [State.move,State.objects,objects,count_append,count_nil] at moved before ⊢
    omega
  · exact threads_move s t _ s.freeList s.next (knows_pushNextObj (sizes.objects slab) true) (fun v _ => inv.threads v) v

theorem Invariant.stays (freeList : u.freeList = s.freeList) (next : u.next = s.next)
    (slabs : u.slabs = s.slabs) (owned : u.owned = s.owned) (phase : u.phase = s.phase) : Invariant sizes u cells := by
  refine ⟨?_,?_,?_,?_⟩
  · rw [freeList,next]
    exact inv.chain
  · rw [State.objects,slabs]
    exact inv.distinct
  · rw [State.objects,slabs,owned,phase]
    exact inv.places
  · rw [freeList,next,phase]
    exact inv.threads

theorem Invariant.grow_step (sized : Sized sizes)
    (next : OxbSlab.grow sizes s t realloc slab = some u) : Invariant sizes u cells := by
  unfold OxbSlab.grow at next
  split at next
  next here =>
    split at next
    · obtain rfl := some.inj next
      exact inv.stays rfl rfl rfl rfl rfl
    · simp only at next
      split at next
      · obtain rfl := some.inj next
        exact inv.stays rfl rfl rfl rfl rfl
      · obtain ⟨fresh,next⟩ := ite_none_right_eq_some.mp next
        exact some.inj next ▸ inv.grow sized here fresh _
  · cases next

theorem Invariant.advance_step (next : advance s t spurious = some u) : ∃ cells', Invariant sizes u cells' := by
  unfold advance at next
  split at next
  · cases next
  · cases next
  next here =>
    split at next
    · obtain rfl := some.inj next
      exact ⟨cells,inv.goes .growLock here rfl trivial _⟩
    next obj head =>
      obtain rfl := some.inj next
      exact ⟨cells,inv.goes (.allocNext obj s.freeList.version) here rfl ⟨Nat.le_refl _,fun _ => head⟩ _⟩
  next obj version here =>
    obtain rfl := some.inj next
    have knows := inv.threads t
    rw [here] at knows
    exact ⟨cells,inv.goes (.allocCas obj version (s.next obj)) here rfl ⟨knows.1,fun same => ⟨knows.2 same,rfl⟩⟩ _⟩
  next obj version link here =>
    split at next
    next won =>
      obtain rfl := some.inj next
      obtain ⟨rest,-,after⟩ := inv.pop here won.2
      exact ⟨rest,after⟩
    · obtain rfl := some.inj next
      exact ⟨cells,inv.goes .alloc here rfl trivial _⟩
  next here =>
    obtain ⟨-,⟨⟩⟩ := ite_none_right_eq_some.mp next
    exact ⟨cells,inv.goes .growCheck here rfl trivial _⟩
  next here =>
    split at next
    · obtain rfl := some.inj next
      exact ⟨cells,inv.goes .alloc here rfl trivial _⟩
    · obtain rfl := some.inj next
      exact ⟨cells,inv.goes .growing here rfl trivial _⟩
  next obj rest grows here =>
    obtain rfl := some.inj next
    exact ⟨cells,inv.goes (.pushNext obj rest grows s.freeList) here rfl trivial _⟩
  next obj rest grows oldHead here => exact ⟨cells,some.inj next ▸ inv.store here⟩
  next obj rest grows oldHead here =>
    split at next
    next won => exact ⟨obj :: cells,some.inj next ▸ inv.push here won.2⟩
    · obtain rfl := some.inj next
      exact ⟨cells,inv.goes (.push obj rest grows) here rfl trivial _⟩

theorem Invariant.step (sized : Sized sizes) (next : OxbSlab.step sizes s act = some u) :
    ∃ cells', Invariant sizes u cells' := by
  obtain ⟨-,next⟩ := ite_none_left_eq_some.mp next
  cases act with
  | alloc t =>
    obtain ⟨idle,⟨⟩⟩ := ite_none_right_eq_some.mp next
    exact ⟨cells,inv.goes .alloc idle rfl trivial _⟩
  | free t obj =>
    obtain ⟨given,next⟩ := ite_none_right_eq_some.mp next
    exact ⟨cells,some.inj next ▸ inv.free given.1 given.2⟩
  | write obj word =>
    obtain ⟨owned,next⟩ := ite_none_right_eq_some.mp next
    exact ⟨cells,some.inj next ▸ inv.write owned word⟩
  | go t spurious => exact inv.advance_step next
  | grow t realloc slab => exact ⟨cells,inv.grow_step sized next⟩

end

theorem prefill_chain (objs : List Nat) (s : State n) (cells : List Nat) (chain : Chain s.next s.freeList.obj cells)
    (distinct : objs.Nodup) (apart : objs.Disjoint cells) :
    Chain (objs.foldl prefillPush s).next (objs.foldl prefillPush s).freeList.obj (objs.reverse ++ cells) := by
  induction objs generalizing s cells with
  | nil => exact chain
  | cons obj objs ih =>
    obtain ⟨new,distinct⟩ := nodup_cons.mp distinct
    obtain ⟨outside,apart⟩ := disjoint_cons_left.mp apart
    have pushed : Chain (prefillPush s obj).next (prefillPush s obj).freeList.obj (obj :: cells) :=
      (chain.update outside _).push (update_self obj _ s.next)
    have after := ih (prefillPush s obj) (obj :: cells) pushed distinct (disjoint_cons_right.mpr ⟨new,apart⟩)
    simpa using after

theorem prefill_fields (objs : List Nat) (s : State n) :
    (objs.foldl prefillPush s).slabs = s.slabs ∧ (objs.foldl prefillPush s).owned = s.owned ∧
    (objs.foldl prefillPush s).phase = s.phase := by
  induction objs generalizing s with
  | nil => exact ⟨rfl,rfl,rfl⟩
  | cons obj objs ih => exact ih (prefillPush s obj)

/-- The slabs do not overlap. -/
def Separate (sizes : Sizes) (slabs : List Nat) : Prop :=
  slabs.Pairwise fun a b => a + sizes.slabSize ≤ b ∨ b + sizes.slabSize ≤ a

theorem init_invariant (sized : Sized sizes) (n : Nat) (next : Nat → Option Nat) (separate : Separate sizes slabs) :
    Invariant sizes (init n sizes next slabs) (slabs.flatMap sizes.objects).reverse := by
  have distinct : (slabs.flatMap sizes.objects).Nodup := by
    refine nodup_flatMap.mpr ⟨fun slab _ => objects_nodup sized slab,separate.imp ?_⟩
    intro a b apart o inA inB
    have here := mem_objects sized inA
    have there := mem_objects sized inB
    omega
  obtain ⟨slabs',owned,phase⟩ := prefill_fields (slabs.flatMap sizes.objects)
    (⟨⟨none,0⟩,next,slabs,slabs.length,none,[],fun _ => .idle,false⟩ : State n)
  refine ⟨?_,?_,fun o => ?_,fun t => ?_⟩
  · have chain := prefill_chain (slabs.flatMap sizes.objects)
      (⟨⟨none,0⟩,next,slabs,slabs.length,none,[],fun _ => .idle,false⟩ : State n) [] trivial distinct
        (disjoint_nil_right _)
    rwa [append_nil] at chain
  · rw [State.objects,init,slabs']
    exact distinct
  · rw [State.objects,init,slabs',owned,phase]
    simp [tally,Phase.held]
  · rw [init,phase]
    trivial

/-- Every object of every slab is in one place, once: on the free list, which ends, handed out, or in the hands of a
free or grow in flight; and nothing else is anywhere. -/
theorem slab_object_in_one_place (n objSize : Nat) (sizes : Sizes) (sized : slabSizes objSize = some sizes)
    (next : Nat → Option Nat)
    (slabs : List Nat) (separate : Separate sizes slabs) (as : List (Act n)) (s : State n)
    (ran : run (step sizes) (init n sizes next slabs) as = some s) :
    ∃ cells, Chain s.next s.freeList.obj cells ∧
      ∀ o, cells.count o + s.owned.count o + tally (fun p => p.held.count o) s.phase = if o ∈
        s.objects sizes then 1 else 0 := by
  have fits := slabSizes_sized sized
  obtain ⟨cells,inv⟩ := run_invariant_always (step sizes) (fun s : State n => ∃ cells, Invariant sizes s cells)
    (fun _ _ _ held next => held.elim fun _ inv => inv.step fits next) _ as s ⟨_,init_invariant fits n next separate⟩ ran
  refine ⟨cells,inv.chain,fun o => ?_⟩
  rw [inv.places]
  split
  next member => exact count_eq_one_of_mem inv.distinct member
  next outside => exact count_eq_zero.mpr outside

def aba (a b : Fin n) : List (Act n) :=
  [.alloc a,.go a false,.go a false] ++ [.alloc b,.go b false,.go b false,.go b false] ++
    [.alloc b,.go b false,.go b false,.go b false] ++ [.write 16 (some 99),.free b 16,.go b false,.go b false,.go b false] ++
    [.go a false,.go a false,.go a false,.go a false]

theorem slab_object_in_one_place_aba : ∃ s, run (step ⟨8,1,8⟩) (init 2 ⟨8,1,8⟩ (fun _ => none) [0,8,16])
    (aba 0 1) = some s ∧
    s.owned = [16,8] ∧ ∃ cells, Chain s.next s.freeList.obj cells ∧
      ∀ o, cells.count o + s.owned.count o + tally (fun p => p.held.count o) s.phase = if o ∈
        s.objects ⟨8,1,8⟩ then 1 else 0 := by
  have ends : (run (step ⟨8,1,8⟩) (init 2 ⟨8,1,8⟩ (fun _ => none) [0,8,16]) (aba 0 1)).map
      (fun s => s.owned) = some [16,8] := by
    decide
  obtain ⟨s,ran,owned⟩ := map_eq_some_iff.mp ends
  have separate : Separate ⟨8,1,8⟩ [0,8,16] := by simp [Separate]
  exact ⟨s,ran,owned,slab_object_in_one_place 2 1 ⟨8,1,8⟩ (by decide) (fun _ => none) [0,8,16] separate (aba 0 1) s ran⟩

end Oxbow.OxbSlab
