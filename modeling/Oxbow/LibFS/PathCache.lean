import Mathlib.Data.List.AList
import Oxbow.Lib.Run

/-! The hash table from paths to inodes that the library keeps, against the namespace of the
kernel. `open`, `unlink` and `rename` change the table and call the kernel in one order or the
other; the kernel call succeeds or fails as it likes. -/
namespace Oxbow.LibFS.PathCache

open Oxbow.Lib Function Option

structure LfsInode (K : Type) where
  path : K
  file : Nat
  deriving DecidableEq, Repr

structure Heap (K : Type) where
  inode : Nat → Option (LfsInode K)
  next : Nat
  fresh : ∀ a, next ≤ a → inode a = none

def Heap.empty : Heap K := ⟨fun _ => none,0,fun _ _ => rfl⟩

def Heap.alloc (h : Heap K) (inode : LfsInode K) : Heap K where
  inode := update h.inode h.next (some inode)
  next := h.next + 1
  fresh a above := by
    rw [update_of_ne (Nat.ne_of_gt above)]
    exact h.fresh a (Nat.le_of_succ_le above)

def Heap.setPath (h : Heap K) (a : Nat) (path : K) : Heap K where
  inode := update h.inode a ((h.inode a).map fun inode => {inode with path})
  next := h.next
  fresh b above := by
    by_cases same : b = a
    · subst same
      simp [h.fresh b above]
    · rw [update_of_ne same]
      exact h.fresh b above

def Heap.free (h : Heap K) (a : Nat) : Heap K where
  inode := update h.inode a none
  next := h.next
  fresh b above := by
    by_cases same : b = a
    · simp [same]
    · rw [update_of_ne same]
      exact h.fresh b above

abbrev Names (N : Type) := List N → Option Nat

structure State (K N : Type) where
  cache : AList fun _ : K => Nat
  heap : Heap K
  names : Names N

/-- With what the kernel answers: `ok`, the number of a created file, and whether the daemon
could be notified of the open. -/
inductive Call (K : Type)
  | opens (path : K) (creat : Bool) (created : Nat) (ok notified : Bool)
  | unlink (path : K) (ok : Bool)
  | rename (oldpath newpath : K) (ok : Bool)
  deriving DecidableEq, Repr

structure Answer where
  ret : Int
  kernel : Option Bool
  deriving DecidableEq, Repr

section Code

variable [DecidableEq K] [DecidableEq N]

section

variable (names : Names N)

def kernelOpen (path : List N) (creat : Bool) (created : Nat) (ok : Bool) : Option (Names N × Nat) :=
  if ok then
    match names path with
    | some file => some (names,file)
    | none => if creat then some (update names path (some created),created) else none
  else none

def kernelUnlink (path : List N) (ok : Bool) : Option (Names N) :=
  if ok ∧ (names path).isSome then some (update names path none) else none

def moveTree (old new : List N) : Names N := fun path =>
  if new <+: path then names (old ++ path.drop new.length)
  else if old <+: path then none
  else names path

/-- Two names of one file stay as they are. -/
def kernelRename (old new : List N) (ok : Bool) : Option (Names N) :=
  if ok ∧ (names old).isSome then some (if names old = names new then names else moveTree names old new) else none

end

def getLfsInode (s : State K N) (path : K) (file : Nat) : State K N :=
  match s.cache.lookup path with
  | some _ => s
  | none => {s with heap := s.heap.alloc ⟨path,file⟩, cache := s.cache.insert path s.heap.next}

/-- The entry is found by the path of the inode; none is a failed assertion. -/
def cleanLfsInode (s : State K N) (a : Nat) : Option (State K N) :=
  match s.heap.inode a with
  | none => none
  | some inode =>
    if (s.cache.lookup inode.path).isSome then
      some {s with cache := s.cache.erase inode.path, heap := s.heap.free a}
    else none

def removeLfsInode (s : State K N) (path : K) : Option (State K N) :=
  match s.cache.lookup path with
  | none => some s
  | some a => cleanLfsInode s a

def changeHash (s : State K N) (a : Nat) (oldpath newpath : K) : State K N :=
  {s with cache := (s.cache.erase oldpath).insert newpath a, heap := s.heap.setPath a newpath}

section

variable (resolve : K → List N) (s : State K N)

def libfsPosixOpen (path : K) (creat : Bool) (created : Nat) (ok notified : Bool) : State K N × Answer :=
  match kernelOpen s.names (resolve path) creat created ok with
  | none => (s,⟨-1,some false⟩)
  | some (names,file) =>
    (getLfsInode {s with names} path file,if notified then ⟨0,some true⟩ else ⟨-1,some false⟩)

/-- The table first, the kernel second. -/
def libfsPosixUnlink (path : K) (ok : Bool) : Option (State K N × Answer) :=
  (removeLfsInode s path).map fun t =>
    match kernelUnlink t.names (resolve path) ok with
    | none => (t,⟨-1,some false⟩)
    | some names => ({t with names},⟨0,some true⟩)

/-- Without an entry the kernel is not called. -/
def libfsPosixRename (oldpath newpath : K) (ok : Bool) : State K N × Answer :=
  match s.cache.lookup oldpath with
  | none => (s,⟨-1,none⟩)
  | some a =>
    let t := changeHash s a oldpath newpath
    match kernelRename t.names (resolve oldpath) (resolve newpath) ok with
    | none => (t,⟨-1,some false⟩)
    | some names => ({t with names},⟨0,some true⟩)

def step : Call K → Option (State K N × Answer)
  | .opens path creat created ok notified => some (libfsPosixOpen resolve s path creat created ok notified)
  | .unlink path ok => libfsPosixUnlink resolve s path ok
  | .rename oldpath newpath ok => some (libfsPosixRename resolve s oldpath newpath ok)

end

end Code

structure Entry (resolve : K → List N) (s : State K N) (key : K) (a : Nat) (inode : LfsInode K) : Prop where
  live : s.heap.inode a = some inode
  path : inode.path = key
  bound : s.names (resolve key) = some inode.file

/-- Every entry is the file its path resolves to, and a path has one. -/
structure Coherent [DecidableEq K] (resolve : K → List N) (s : State K N) : Prop where
  entry : ∀ key a, s.cache.lookup key = some a → ∃ inode, Entry resolve s key a inode
  one : ∀ key a b, ⟨key,a⟩ ∈ s.cache.entries → ⟨key,b⟩ ∈ s.cache.entries → a = b

/-- What a call leaves: a coherent table, an error only from the kernel, and after a failed
kernel operation every entry there was. -/
structure Keeps [DecidableEq K] (resolve : K → List N) (s t : State K N) (answer : Answer) : Prop where
  coherent : Coherent resolve t
  honest : answer.ret < 0 → answer.kernel = some false
  kept : answer.kernel = some false → ∀ key a, s.cache.lookup key = some a → t.cache.lookup key = some a

section

variable [DecidableEq K] [DecidableEq N] (resolve : K → List N) (s : State K N)

/-- The call returns, and leaves what `Keeps` asks for. -/
def Good (call : Call K) (t : State K N) : Prop :=
  ∃ answer, step resolve s call = some (t,answer) ∧ Keeps resolve s t answer

/-- The condition on a call: a failed unlink names no entry; a successful one leaves no other entry
of the same file name; a rename starts from an entry, fails only onto itself, and leaves what the
kernel has for every other entry. -/
def Call.Harmless : Call K → Prop
  | .opens _ _ _ _ _ => True
  | .unlink path ok =>
    match kernelUnlink s.names (resolve path) ok with
    | none => s.cache.lookup path = none
    | some _ => ∀ other a, s.cache.lookup other = some a → other ≠ path → resolve other ≠ resolve path
  | .rename oldpath newpath ok => (s.cache.lookup oldpath).isSome ∧
    match kernelRename s.names (resolve oldpath) (resolve newpath) ok with
    | none => oldpath = newpath
    | some names => ∀ other a, s.cache.lookup other = some a → other ≠ oldpath → other ≠ newpath →
        names (resolve other) = s.names (resolve other)

def after (call : Call K) : Option (State K N) :=
  (step resolve s call).map Prod.fst

end

theorem one_entry (cache : AList fun _ : K => Nat) (key : K) (a b : Nat) (first : ⟨key,a⟩ ∈ cache.entries)
    (second : ⟨key,b⟩ ∈ cache.entries) : a = b := cache.nodupKeys.eq_of_mk_mem first second

theorem Entry.unique (entry : Entry resolve s key a inode)
    (also : Entry resolve t other a same) (live : t.heap.inode a = s.heap.inode a) : same = inode :=
  some.inj (also.live.symm.trans (live.trans entry.live))

section Coherence

variable [DecidableEq K] {resolve : K → List N} {s : State K N}

theorem lookup_apart {cache : AList fun _ : K => Nat} (found : cache.lookup key = some a) (missing : cache.lookup other = none) :
    key ≠ other := by
  rintro rfl
  rw [found] at missing
  cases missing

theorem keeps_success_iff : Keeps resolve s t ⟨0,some true⟩ ↔ Coherent resolve t :=
  ⟨fun keeps => keeps.coherent,
    fun coherent => ⟨coherent,fun negative => absurd negative (by decide),fun failed => absurd failed (by decide)⟩⟩

theorem coherent_of_entries (entry : ∀ key a, s.cache.lookup key = some a → ∃ inode, Entry resolve s key a inode) :
    Coherent resolve s := ⟨entry,one_entry s.cache⟩

section

variable (ok : Coherent resolve s)
include ok

theorem Coherent.same_key (first : s.cache.lookup key = some a) (second : s.cache.lookup other = some a) : other = key := by
  obtain ⟨inode,entry⟩ := ok.entry key a first
  obtain ⟨same,also⟩ := ok.entry other a second
  rw [← also.path,entry.unique also rfl,entry.path]

/-- A change of the namespace alone keeps coherence exactly when it keeps what the entries name. -/
theorem coherent_names_iff (names : Names N) : Coherent resolve {s with names} ↔
      ∀ key a, s.cache.lookup key = some a → names (resolve key) = s.names (resolve key) := by
  constructor
  · intro changed key a found
    obtain ⟨inode,entry⟩ := ok.entry key a found
    obtain ⟨same,also⟩ := changed.entry key a found
    rw [entry.bound,← entry.unique also rfl]
    exact also.bound
  · intro unchanged
    refine coherent_of_entries fun key a found => ?_
    obtain ⟨inode,entry⟩ := ok.entry key a found
    exact ⟨inode,entry.live,entry.path,(unchanged key a found).trans entry.bound⟩

/-- The entry goes and the others stay. -/
theorem removeLfsInode_spec (path : K) : ∃ t, removeLfsInode s path = some t ∧ t.names = s.names ∧ Coherent resolve t ∧
      ∀ key, t.cache.lookup key = if key = path then none else s.cache.lookup key := by
  unfold removeLfsInode
  split
  next missing =>
    refine ⟨s,rfl,rfl,ok,fun key => ?_⟩
    split
    next same => rw [same,missing]
    next => rfl
  next a found =>
    obtain ⟨inode,entry⟩ := ok.entry path a found
    refine ⟨{s with cache := s.cache.erase path, heap := s.heap.free a},?_,rfl,?_,fun key => ?_⟩
    · have inTable : (s.cache.lookup inode.path).isSome := by rw [entry.path,found,isSome_some]
      simp only [cleanLfsInode,entry.live,if_pos inTable,entry.path]
    · refine coherent_of_entries fun key b kept => ?_
      have other : key ≠ path := lookup_apart kept (AList.lookup_erase path s.cache)
      have before := (AList.lookup_erase_ne other).symm.trans kept
      obtain ⟨inode',entry'⟩ := ok.entry key b before
      have apart : b ≠ a := by
        rintro rfl
        exact other (ok.same_key found before)
      exact ⟨inode',(update_of_ne apart ..).trans entry'.live,entry'.path,entry'.bound⟩
    · split
      next same => exact same ▸ AList.lookup_erase path s.cache
      next other => exact AList.lookup_erase_ne other

/-- After the entry has moved, the other entries decide. -/
theorem changeHash_coherent_iff (found : s.cache.lookup old = some a) (new : K)
    (names : Names N) (bound : names (resolve new) = s.names (resolve old)) :
    Coherent resolve {changeHash s a old new with names} ↔
      ∀ other b, s.cache.lookup other = some b → other ≠ old → other ≠ new →
        names (resolve other) = s.names (resolve other) := by
  have lookup : ∀ other, other ≠ old → other ≠ new →
      (changeHash s a old new).cache.lookup other = s.cache.lookup other := by
    intro other apart notNew
    exact (AList.lookup_insert_ne notNew).trans (AList.lookup_erase_ne apart)
  have live : ∀ other b, s.cache.lookup other = some b → other ≠ old →
      (changeHash s a old new).heap.inode b = s.heap.inode b := by
    intro other b before apart
    refine update_of_ne ?_ ..
    rintro rfl
    exact apart (ok.same_key found before)
  constructor
  · intro coherent other b before apart notNew
    obtain ⟨inode,entry⟩ := ok.entry other b before
    obtain ⟨same,also⟩ := coherent.entry other b ((lookup other apart notNew).trans before)
    rw [entry.bound,← entry.unique also (live other b before apart)]
    exact also.bound
  · intro unchanged
    refine coherent_of_entries fun key b after => ?_
    by_cases isNew : key = new
    · subst isNew
      obtain rfl := some.inj ((AList.lookup_insert _).symm.trans after)
      obtain ⟨inode,entry⟩ := ok.entry old _ found
      refine ⟨{inode with path := key},?_,rfl,bound.trans entry.bound⟩
      exact (update_self ..).trans (by rw [entry.live,map_some])
    · have apart : key ≠ old :=
        lookup_apart ((AList.lookup_insert_ne isNew).symm.trans after) (AList.lookup_erase old s.cache)
      have before := (lookup key apart isNew).symm.trans after
      obtain ⟨inode,entry⟩ := ok.entry key b before
      exact ⟨inode,(live key b before apart).trans entry.live,entry.path,
        (unchanged key b before apart isNew).trans entry.bound⟩

theorem getLfsInode_coherent (bound : s.names (resolve path) = some file) : Coherent resolve (getLfsInode s path file) := by
  unfold getLfsInode
  split
  next => exact ok
  next =>
    refine coherent_of_entries fun key a found => ?_
    by_cases same : key = path
    · subst same
      obtain rfl := some.inj ((AList.lookup_insert s.cache).symm.trans found)
      exact ⟨⟨key,file⟩,update_self ..,rfl,bound⟩
    · obtain ⟨inode,entry⟩ := ok.entry key a ((AList.lookup_insert_ne same).symm.trans found)
      -- The new inode is at an address no entry holds.
      have old : a ≠ s.heap.next := by
        rintro rfl
        have free := s.heap.fresh _ (Nat.le_refl _)
        rw [entry.live] at free
        exact absurd free (by simp)
      exact ⟨inode,(update_of_ne old ..).trans entry.live,entry.path,entry.bound⟩

end

theorem getLfsInode_lookup (found : s.cache.lookup key = some a) (path : K) (file : Nat) :
    (getLfsInode s path file).cache.lookup key = some a := by
  unfold getLfsInode
  split
  next => exact found
  next missing =>
    exact (AList.lookup_insert_ne (lookup_apart found missing)).trans found

variable [DecidableEq N]

theorem kernelOpen_spec (opened : kernelOpen names path creat created ok = some (names',file)) :
    names' path = some file ∧ ∀ other : List N, (names other).isSome → names' other = names other := by
  obtain ⟨-,opened⟩ := ite_none_right_eq_some.mp opened
  split at opened
  next found =>
    obtain ⟨rfl,rfl⟩ := Prod.mk.inj (some.inj opened)
    exact ⟨found,fun _ _ => rfl⟩
  next missing =>
    obtain ⟨-,opened⟩ := ite_none_right_eq_some.mp opened
    obtain ⟨rfl,rfl⟩ := Prod.mk.inj (some.inj opened)
    refine ⟨update_self ..,fun other bound => update_of_ne ?_ ..⟩
    rintro rfl
    simp [missing] at bound

theorem open_good (ok : Coherent resolve s) (path : K) (creat : Bool) (created : Nat) (success notified : Bool) :
    ∃ t, Good resolve s (.opens path creat created success notified) t := by
  refine ⟨(libfsPosixOpen resolve s path creat created success notified).1,
    (libfsPosixOpen resolve s path creat created success notified).2,rfl,?_⟩
  unfold libfsPosixOpen
  split
  next => exact ⟨ok,fun _ => rfl,fun _ _ _ found => found⟩
  next names file opened =>
    obtain ⟨bound,others⟩ := kernelOpen_spec opened
    have changed : Coherent resolve {s with names} := by
      refine (coherent_names_iff ok names).mpr fun key a found => others _ ?_
      obtain ⟨inode,entry⟩ := ok.entry key a found
      simp [entry.bound]
    refine ⟨getLfsInode_coherent changed bound,?_,fun _ key a found => getLfsInode_lookup
      (s := {s with names}) found path file⟩
    cases notified with
    | true => exact fun negative => absurd negative (Int.not_lt.mpr (Int.le_refl 0))
    | false => exact fun _ => rfl

theorem unlink_good_iff (ok : Coherent resolve s) (path : K) (success : Bool) :
    (∃ t, Good resolve s (.unlink path success) t) ↔ (Call.unlink path success).Harmless resolve s := by
  obtain ⟨removed,ran,names,coherent,lookup⟩ := removeLfsInode_spec ok path
  have same : (∃ t, Good resolve s (.unlink path success) t) ↔
      match kernelUnlink s.names (resolve path) success with
      | none => Keeps resolve s removed ⟨-1,some false⟩
      | some names => Keeps resolve s {removed with names} ⟨0,some true⟩ := by
    simp only [Good,step,libfsPosixUnlink,ran,map_some,names]
    cases kernelUnlink s.names (resolve path) success with
    | none => simp
    | some names => simp
  rw [same,Call.Harmless]
  cases unlinked : kernelUnlink s.names (resolve path) success with
  | none =>
    constructor
    · intro keeps
      cases found : s.cache.lookup path with
      | none => rfl
      | some a =>
        have kept := keeps.kept rfl path a found
        rw [lookup,if_pos rfl] at kept
        exact absurd kept (by simp)
    · intro missing
      refine ⟨coherent,fun _ => rfl,fun _ key a found => ?_⟩
      rw [lookup,if_neg (lookup_apart found missing)]
      exact found
  | some names' =>
    have update : names' = update s.names (resolve path) none := by
      obtain ⟨-,unlinked⟩ := ite_none_right_eq_some.mp unlinked
      exact (some.inj unlinked).symm
    have exactly : Coherent resolve {removed with names := names'} ↔
        ∀ other a, s.cache.lookup other = some a → other ≠ path → resolve other ≠ resolve path := by
      rw [coherent_names_iff coherent,names,update]
      constructor
      · intro unchanged other a found apart same
        have kept := unchanged other a (by rw [lookup,if_neg apart,found])
        obtain ⟨inode,entry⟩ := ok.entry other a found
        rw [entry.bound,same,update_self] at kept
        exact absurd kept (by simp)
      · intro apart key a found
        rw [lookup] at found
        obtain ⟨other,found⟩ := ite_none_left_eq_some.mp found
        exact update_of_ne (apart key a found other) ..
    exact keeps_success_iff.trans exactly

theorem kernelRename_new (renamed : kernelRename names old new ok = some names') : names' new = names (old : List N) := by
  obtain ⟨-,⟨⟩⟩ := ite_none_right_eq_some.mp renamed
  split
  next same => exact same.symm
  next => simp [moveTree]

theorem rename_good_iff (ok : Coherent resolve s) (old new : K) (success : Bool) :
    (∃ t, Good resolve s (.rename old new success) t) ↔ (Call.rename old new success).Harmless resolve s := by
  have only : (∃ t, Good resolve s (.rename old new success) t) ↔
      Keeps resolve s (libfsPosixRename resolve s old new success).1 (libfsPosixRename resolve s old new success).2 := by
    constructor
    · rintro ⟨t,answer,ran,keeps⟩
      have same := some.inj ran
      rwa [same]
    · exact fun keeps => ⟨_,_,rfl,keeps⟩
  rw [only,Call.Harmless]
  cases found : s.cache.lookup old with
  | none =>
    -- An error, and the kernel was not asked.
    have ran : libfsPosixRename resolve s old new success = (s,⟨-1,none⟩) := by
      simp only [libfsPosixRename,found]
    rw [ran]
    exact iff_of_false (fun keeps => absurd (keeps.honest (Int.negSucc_lt_zero 0)) (by simp)) (by simp)
  | some a =>
    have names : (changeHash s a old new).names = s.names := rfl
    cases renamed : kernelRename s.names (resolve old) (resolve new) success with
    | none =>
      have ran : libfsPosixRename resolve s old new success = (changeHash s a old new,⟨-1,some false⟩) := by
        simp only [libfsPosixRename,found,names,renamed]
      rw [ran]
      simp only [isSome_some,true_and]
      constructor
      · intro keeps
        by_contra moved
        have kept := keeps.kept rfl old a found
        exact lookup_apart ((AList.lookup_insert_ne moved).symm.trans kept) (AList.lookup_erase old s.cache) rfl
      · rintro rfl
        have coherent := (changeHash_coherent_iff ok found old s.names rfl).mpr fun _ _ _ _ _ => rfl
        refine ⟨coherent,fun _ => rfl,fun _ key b before => ?_⟩
        by_cases same : key = old
        · subst same
          rw [found] at before
          exact (AList.lookup_insert _).trans before
        · exact (AList.lookup_insert_ne same).trans ((AList.lookup_erase_ne same).trans before)
    | some names' =>
      have ran : libfsPosixRename resolve s old new success =
          ({changeHash s a old new with names := names'},⟨0,some true⟩) := by
        simp only [libfsPosixRename,found,names,renamed]
      rw [ran]
      simp only [isSome_some,true_and]
      exact keeps_success_iff.trans (changeHash_coherent_iff ok found new names' (kernelRename_new renamed))

theorem good_iff_harmless (ok : Coherent resolve s) (call : Call K) :
    (∃ t, Good resolve s call t) ↔ call.Harmless resolve s := by
  cases call with
  | opens path creat created success notified => exact iff_of_true (open_good ok path creat created success notified) trivial
  | unlink path success => exact unlink_good_iff ok path success
  | rename old new success => exact rename_good_iff ok old new success

/-- A sequence of calls keeps the table coherent, its errors those of the kernel and the entries of
failed operations exactly when every call is harmless. -/
theorem coherent_iff_harmless (ok : Coherent resolve s) (calls : List (Call K)) :
    Meets (Good resolve) s calls ↔ Along (after resolve) (fun s call => call.Harmless resolve s) s calls := by
  refine meets_iff_along (after resolve) (Good resolve) _ (Coherent resolve) (fun _ => True) ?_ ?_ ?_ s calls ok
    fun _ _ => trivial
  · rintro s call t ⟨answer,ran,-⟩
    rw [after,ran,map_some]
  · intro s call ok _
    exact good_iff_harmless ok call
  · rintro s call t - - ⟨answer,-,keeps⟩
    exact keeps.coherent

end Coherence

/-- Two files are opened, one is renamed over the other, and the result is unlinked. -/
theorem coherent_iff_harmless_rename :
    Meets (Good fun path : Nat => [path]) ⟨∅,Heap.empty,fun _ => none⟩
      [.opens 1 true 10 true true,.opens 2 true 20 true true,.rename 1 2 true,.unlink 2 true] := by
  refine (coherent_iff_harmless ⟨fun key a found => absurd found (by simp),
    fun key a b first => absurd first (by simp)⟩ _).mpr ?_
  refine .cons _ trivial rfl (.cons _ trivial rfl (.cons _ ?_ rfl ⟨?_,fun _ _ => trivial⟩))
  · refine ⟨rfl,fun other a found notOld notNew => ?_⟩
    have gone : ((∅ : AList fun _ : Nat => Nat).insert 1 0 |>.insert 2 1).lookup other = none := by
      rw [AList.lookup_insert_ne notNew,AList.lookup_insert_ne notOld,AList.lookup_empty]
    exact absurd (gone.symm.trans found) (by simp)
  · intro other a found apart
    simpa using apart

/-- A rename that the kernel refuses has moved the entry; one from a path without an entry fails and
does not ask the kernel; an unlink that the kernel refuses has lost the entry; after a rename of a
directory an entry below it names nothing. -/
theorem rename_moves_before_kernel :
    ¬ Meets (Good fun path : Nat => [path]) ⟨∅,Heap.empty,fun _ => none⟩
        [.opens 1 true 10 true true,.rename 1 2 false] ∧
    ¬ Meets (Good fun path : Nat => [path]) ⟨∅,Heap.empty,fun _ => some 10⟩ [.rename 1 2 true] ∧
    ¬ Meets (Good fun path : Nat => [path]) ⟨∅,Heap.empty,fun _ => none⟩
        [.opens 1 true 10 true true,.unlink 1 false] ∧
    ¬ Meets (Good (id : List Nat → List Nat)) ⟨∅,Heap.empty,fun _ => none⟩
        [.opens [1] true 10 true true,.opens [1,5] true 20 true true,.rename [1] [2] true] := by
  refine ⟨?_,?_,?_,?_⟩
  · rintro ⟨t,⟨_,opened,-⟩,u,⟨_,renamed,keeps⟩,-⟩
    obtain ⟨rfl,-⟩ := Prod.mk.inj (some.inj opened)
    obtain ⟨rfl,rfl⟩ := Prod.mk.inj (some.inj renamed)
    exact absurd (keeps.kept rfl 1 0 rfl) (by decide)
  · rintro ⟨t,⟨_,renamed,keeps⟩,-⟩
    obtain ⟨rfl,rfl⟩ := Prod.mk.inj (some.inj renamed)
    exact absurd (keeps.honest (by decide)) (by decide)
  · rintro ⟨t,⟨_,opened,-⟩,u,⟨_,unlinked,keeps⟩,-⟩
    obtain ⟨rfl,-⟩ := Prod.mk.inj (some.inj opened)
    obtain ⟨rfl,rfl⟩ := Prod.mk.inj (some.inj unlinked)
    exact absurd (keeps.kept rfl 1 0 rfl) (by decide)
  · rintro ⟨t,⟨_,first,-⟩,u,⟨_,second,-⟩,v,⟨_,renamed,keeps⟩,-⟩
    obtain ⟨rfl,-⟩ := Prod.mk.inj (some.inj first)
    obtain ⟨rfl,-⟩ := Prod.mk.inj (some.inj second)
    obtain ⟨rfl,rfl⟩ := Prod.mk.inj (some.inj renamed)
    obtain ⟨inode,entry⟩ := keeps.coherent.entry [1,5] 1 rfl
    have gone : none = some inode.file := entry.bound
    exact absurd gone (by simp)

end Oxbow.LibFS.PathCache
