import Mathlib.Data.List.Basic
import Mathlib.Data.List.Induction
import Mathlib.Logic.Function.Basic

/-! Dirty metadata buffers and the private lists the journal takes them from. A mapping is
the superblock's or an inode's; a buffer names the mapping it is associated with apart
from the list it is linked on. -/
namespace Oxbow.Daemon.Buffer

open Function List

inductive Op (β : Type)
  | mark (b : β)
  | snapshot
  deriving DecidableEq

section History

variable {β : Type}

theorem sublist_snoc {α : Type} (xs l : List α) (y z : α) :
    List.Sublist (xs ++ [y]) (l ++ [z]) ↔ List.Sublist (xs ++ [y]) l ∨ y = z ∧ List.Sublist xs l := by
  rw [← reverse_sublist,reverse_append,reverse_append]
  simp only [reverse_singleton,singleton_append,sublist_cons_iff]
  constructor
  · rintro (inside | ⟨r,same,rest⟩)
    · exact .inl (reverse_sublist.mp (by simpa using inside))
    · obtain ⟨rfl,rfl⟩ := cons_eq_cons.mp same
      exact .inr ⟨rfl,reverse_sublist.mp rest⟩
  · rintro (inside | ⟨rfl,rest⟩)
    · exact .inl (by simpa using reverse_sublist.mpr inside)
    · exact .inr ⟨xs.reverse,rfl,reverse_sublist.mpr rest⟩

def Taken (b : β) (ops : List (Op β)) : Prop := [.mark b,.snapshot].Sublist ops

/-- The buffer is marked again after a snapshot took it. -/
def Remarked (b : β) (ops : List (Op β)) : Prop := [.mark b,.snapshot,.mark b].Sublist ops

theorem taken_mark (b c : β) (ops : List (Op β)) : Taken b (ops ++ [.mark c]) ↔ Taken b ops := by
  simpa [Taken] using sublist_snoc [Op.mark b] ops .snapshot (.mark c)

theorem taken_snapshot (b : β) (ops : List (Op β)) : Taken b (ops ++ [.snapshot]) ↔ .mark b ∈ ops := by
  have snoc := sublist_snoc [Op.mark b] ops .snapshot .snapshot
  simp only [singleton_append,true_and,singleton_sublist] at snoc
  refine snoc.trans ⟨?_,.inr⟩
  rintro (inside | member)
  · exact inside.subset mem_cons_self
  · exact member

theorem remarked_mark (b c : β) (ops : List (Op β)) :
    Remarked b (ops ++ [.mark c]) ↔ Remarked b ops ∨ b = c ∧ Taken b ops := by
  simpa [Remarked,Taken] using sublist_snoc [Op.mark b,.snapshot] ops (.mark b) (.mark c)

theorem remarked_snapshot (b : β) (ops : List (Op β)) :
    Remarked b (ops ++ [.snapshot]) ↔ Remarked b ops := by
  simpa [Remarked] using sublist_snoc [Op.mark b,.snapshot] ops (.mark b) .snapshot

theorem Remarked.taken (remarked : Remarked b ops) : Taken b ops :=
  List.Sublist.trans (sublist_append_left [Op.mark b,.snapshot] [.mark b]) remarked

theorem Taken.marked (taken : Taken b ops) : .mark b ∈ ops := taken.subset mem_cons_self

end History

variable {β μ γ : Type} [DecidableEq β] [DecidableEq μ]

structure State (β μ : Type) where
  dirty : β → Bool
  assoc : β → Option μ
  privateList : μ → List β
  nrEntries : μ → Nat

def listMoveTail (lists : μ → List β) (b : β) (m : μ) : μ → List β :=
  update (fun k => (lists k).filter (· ≠ b)) m ((lists m).filter (· ≠ b) ++ [b])

/-- `mark_buffer_dirty_sb` and `mark_buffer_dirty_inode`, for the mapping of the one or
the other. -/
def markBufferDirtyMapping (m : μ) (b : β) (s : State β μ) : State β μ :=
  let s := { s with dirty := update s.dirty b true }
  match s.assoc b with
  | none => { s with
      privateList := listMoveTail s.privateList b m
      assoc := update s.assoc b (some m)
      nrEntries := update s.nrEntries m (s.nrEntries m + 1) }
  | some k =>
    if k ≠ m then { s with
      privateList := listMoveTail s.privateList b m
      assoc := update s.assoc b (some m) }
    else s

def snapshotBlocks (s : State β μ) (m : μ) : List β := s.privateList m

/-- `snapshot_metadata_blocks`: every listed buffer is copied, cleaned and unlinked. -/
def snapshotMetadataBlocks (m : μ) (s : State β μ) : State β μ :=
  { s with
    dirty := fun b => if b ∈ s.privateList m then false else s.dirty b
    privateList := update s.privateList m [] }

def journalRegBlocks (s : State β μ) (m : μ) : List β := (s.privateList m).filter fun b => s.dirty b

/-- `journal_reg_inode`: every listed buffer is unlinked and its association reset; the
dirty ones are copied and cleaned first. -/
def journalRegInode (m : μ) (s : State β μ) : State β μ :=
  { s with
    dirty := fun b => if b ∈ s.privateList m then false else s.dirty b
    assoc := fun b => if b ∈ s.privateList m then none else s.assoc b
    privateList := update s.privateList m [] }

def tagged (blocknr : β → Nat) (data : β → γ) (bs : List β) : List (Nat × γ) := bs.map fun b => (blocknr b,data b)

structure Run (β μ : Type) where
  bufs : State β μ
  marked : β → Bool

def stepSb (m : μ) (r : Run β μ) : Op β → Run β μ
  | .mark b => ⟨markBufferDirtyMapping m b r.bufs,update r.marked b true⟩
  | .snapshot => ⟨snapshotMetadataBlocks m r.bufs,
      fun b => if b ∈ snapshotBlocks r.bufs m then false else r.marked b⟩

def stepInode (m : μ) (r : Run β μ) : Op β → Run β μ
  | .mark b => ⟨markBufferDirtyMapping m b r.bufs,update r.marked b true⟩
  | .snapshot => ⟨journalRegInode m r.bufs,
      fun b => if b ∈ journalRegBlocks r.bufs m then false else r.marked b⟩

def runSb (m : μ) (s : State β μ) (ops : List (Op β)) : Run β μ :=
  ops.foldl (stepSb m) ⟨s,fun _ => false⟩

def runInode (m : μ) (s : State β μ) (ops : List (Op β)) : Run β μ :=
  ops.foldl (stepInode m) ⟨s,fun _ => false⟩

/-- Nothing is associated with the mapping yet. -/
structure Fresh (m : μ) (s : State β μ) : Prop where
  empty : s.privateList m = []
  unassociated : ∀ b, s.assoc b ≠ some m

/-- Every buffer marked since the journal last took it is on the list, and what it holds
is copied and tagged by the next snapshot. -/
def NothingLost (m : μ) (taken : State β μ → μ → List β) (r : Run β μ) : Prop :=
  ∀ b, r.marked b = true → b ∈ r.bufs.privateList m ∧
    ∀ {γ : Type} (blocknr : β → Nat) (data : β → γ), (blocknr b,data b) ∈ tagged blocknr data (taken r.bufs m)

theorem mem_listMoveTail (lists : μ → List β) (b c : β) (m : μ) :
    c ∈ listMoveTail lists b m m ↔ c = b ∨ c ∈ lists m := by
  simp only [listMoveTail,update_self,mem_append,mem_filter,mem_singleton,
    decide_eq_true_eq]
  by_cases same : c = b <;> simp [same]

/-- A mark links the buffer only when it was not associated with the mapping. -/
theorem mark_list (m : μ) (b c : β) (s : State β μ) :
    c ∈ (markBufferDirtyMapping m b s).privateList m ↔
      c ∈ s.privateList m ∨ c = b ∧ s.assoc b ≠ some m := by
  unfold markBufferDirtyMapping
  simp only
  split
  next none => simp [mem_listMoveTail,none,or_comm]
  next k some =>
    split
    next other => simp [mem_listMoveTail,some,other,or_comm]
    next same =>
      obtain rfl : k = m := not_not.mp same
      simp [some]

theorem mark_assoc (m : μ) (b c : β) (s : State β μ) :
    (markBufferDirtyMapping m b s).assoc c = some m ↔ c = b ∨ s.assoc c = some m := by
  unfold markBufferDirtyMapping
  simp only
  by_cases same : c = b
  · subst same
    split
    next => simp
    next k some =>
      split
      next => simp
      next equal =>
        obtain rfl : k = m := not_not.mp equal
        simp [some]
  · split
    next => simp [same]
    next =>
      split
      next => simp [same]
      next => simp [same]

structure Linked (m : μ) (r : Run β μ) (ops : List (Op β)) : Prop where
  assoc : ∀ b, r.bufs.assoc b = some m ↔ .mark b ∈ ops
  listed : ∀ b, b ∈ r.bufs.privateList m ↔ .mark b ∈ ops ∧ ¬ Taken b ops
  marked : ∀ b, r.marked b = true ↔ (.mark b ∈ ops ∧ ¬ Taken b ops) ∨ Remarked b ops

theorem runSb_linked (m : μ) (s : State β μ) (fresh : Fresh m s) (ops : List (Op β)) :
    Linked m (runSb m s ops) ops := by
  induction ops using reverseRecOn with
  | nil =>
    refine ⟨?_,?_,?_⟩
    · simpa [runSb] using fresh.unassociated
    · simp [runSb,fresh.empty]
    · simp [runSb,Remarked]
  | append_singleton ops op ih =>
    have snoc : runSb m s (ops ++ [op]) = stepSb m (runSb m s ops) op := foldl_append
    rw [snoc]
    cases op with
    | mark c =>
      refine ⟨?_,?_,?_⟩
      · intro b
        simp [stepSb,mark_assoc,ih.assoc,or_comm]
      · intro b
        simp only [stepSb,mark_list,ih.listed,ne_eq,ih.assoc,taken_mark,mem_append,
          mem_singleton,Op.mark.injEq]
        constructor
        · rintro (⟨member,free⟩ | ⟨rfl,new⟩)
          · exact ⟨.inl member,free⟩
          · exact ⟨.inr rfl,fun taken => new taken.marked⟩
        · rintro ⟨member | rfl,free⟩
          · exact .inl ⟨member,free⟩
          · by_cases member : Op.mark b ∈ ops
            · exact .inl ⟨member,free⟩
            · exact .inr ⟨rfl,member⟩
      · intro b
        simp only [stepSb,remarked_mark,taken_mark,mem_append,mem_singleton,Op.mark.injEq]
        by_cases same : b = c
        · subst same
          by_cases taken : Taken b ops <;> simp [taken]
        · simp [ih.marked,same]
    | snapshot =>
      refine ⟨?_,?_,?_⟩
      · intro b
        simp [stepSb,snapshotMetadataBlocks,ih.assoc]
      · intro b
        simp [stepSb,snapshotMetadataBlocks,taken_snapshot]
      · intro b
        simp only [stepSb,remarked_snapshot,taken_snapshot,mem_append,mem_singleton,
          reduceCtorEq,or_false,and_not_self,false_or]
        by_cases listed : b ∈ snapshotBlocks (runSb m s ops).bufs m
        · have free := ((ih.listed b).mp listed).2
          simpa [listed] using fun remarked : Remarked b ops => free remarked.taken
        · have unlisted := mt (ih.listed b).mpr listed
          rw [if_neg listed,ih.marked]
          tauto

/-- No superblock-level update is lost exactly when no buffer is marked again after a
snapshot has taken it: the snapshot leaves the association that keeps the second mark from
linking the buffer. -/
theorem markBufferDirtySb_kept_iff (m : μ) (s : State β μ) (fresh : Fresh m s) (ops : List (Op β)) :
    NothingLost m snapshotBlocks (runSb m s ops) ↔ ∀ b, ¬ Remarked b ops := by
  have linked := runSb_linked m s fresh ops
  constructor
  · intro kept b remarked
    have listed := (kept b ((linked.marked b).mpr (.inr remarked))).1
    exact ((linked.listed b).mp listed).2 remarked.taken
  · intro once b marked
    have listed : b ∈ (runSb m s ops).bufs.privateList m := by
      rcases (linked.marked b).mp marked with waiting | remarked
      · exact (linked.listed b).mpr waiting
      · exact absurd remarked (once b)
    exact ⟨listed,fun blocknr data => mem_map.mpr ⟨b,listed,rfl⟩⟩

structure InodeLinked (m : μ) (r : Run β μ) : Prop where
  assoc : ∀ b, r.bufs.assoc b = some m ↔ b ∈ r.bufs.privateList m
  marked : ∀ b, r.marked b = true → b ∈ journalRegBlocks r.bufs m

theorem mark_dirty (m : μ) (b c : β) (s : State β μ) :
    (markBufferDirtyMapping m b s).dirty c = update s.dirty b true c := by
  unfold markBufferDirtyMapping
  simp only
  split
  next => rfl
  next => split <;> rfl

theorem stepInode_linked (m : μ) (r : Run β μ) (linked : InodeLinked m r) (op : Op β) :
    InodeLinked m (stepInode m r op) := by
  cases op with
  | mark c =>
    refine ⟨?_,?_⟩
    · intro b
      simp only [stepInode,mark_assoc,mark_list,linked.assoc]
      by_cases same : b = c
      · subst same
        by_cases listed : b ∈ r.bufs.privateList m
        · simp [listed]
        · simp [listed,mt (linked.assoc b).mp listed]
      · simp [same]
    · intro b marked
      simp only [stepInode,journalRegBlocks,mem_filter,mark_list,mark_dirty] at marked ⊢
      by_cases same : b = c
      · subst same
        refine ⟨?_,by simp⟩
        by_cases listed : b ∈ r.bufs.privateList m
        · exact .inl listed
        · exact .inr ⟨rfl,fun assoc => listed ((linked.assoc b).mp assoc)⟩
      · rw [update_of_ne same] at marked ⊢
        have before := mem_filter.mp (linked.marked b marked)
        exact ⟨.inl before.1,before.2⟩
  | snapshot =>
    refine ⟨?_,?_⟩
    · intro b
      by_cases listed : b ∈ r.bufs.privateList m
      · simp [stepInode,journalRegInode,listed]
      · simpa [stepInode,journalRegInode,listed] using mt (linked.assoc b).mp listed
    · intro b marked
      simp only [stepInode] at marked
      split at marked
      · cases marked
      next untaken => exact absurd (linked.marked b marked) untaken

/-- The inode counterpart resets the association, so there no sequence loses an update. -/
theorem markBufferDirtyInode_kept (m : μ) (s : State β μ) (fresh : Fresh m s) (ops : List (Op β)) :
    NothingLost m journalRegBlocks (runInode m s ops) := by
  have linked : InodeLinked m (runInode m s ops) := by
    induction ops using reverseRecOn with
    | nil =>
      refine ⟨?_,by simp [runInode]⟩
      simpa [runInode,fresh.empty] using fresh.unassociated
    | append_singleton ops op ih =>
      have snoc : runInode m s (ops ++ [op]) = stepInode m (runInode m s ops) op := foldl_append
      rw [snoc]
      exact stepInode_linked m _ ih op
  intro b marked
  have taken := linked.marked b marked
  exact ⟨(mem_filter.mp taken).1,fun blocknr data => mem_map.mpr ⟨b,taken,rfl⟩⟩

def freshState : State Nat Bool := ⟨fun _ => false,fun _ => none,fun _ => [],fun _ => 0⟩

theorem freshState_fresh : Fresh true freshState := ⟨rfl,fun _ => by simp [freshState]⟩

theorem markBufferDirtyInode_kept_again :
    NothingLost true journalRegBlocks (runInode true freshState [.mark 3,.snapshot,.mark 3]) :=
  markBufferDirtyInode_kept true freshState freshState_fresh [.mark 3,.snapshot,.mark 3]

theorem markBufferDirtySb_kept_sample :
    NothingLost true snapshotBlocks (runSb true freshState [.mark 3,.mark 5,.mark 3,.snapshot,.mark 4]) := by
  refine (markBufferDirtySb_kept_iff true freshState freshState_fresh _).mpr ?_
  intro b remarked
  rcases (remarked_mark b 4 [.mark 3,.mark 5,.mark 3,.snapshot]).mp remarked with inner | ⟨rfl,taken⟩
  · have early := (remarked_snapshot b [.mark 3,.mark 5,.mark 3]).mp inner
    have member : Op.snapshot ∈ [Op.mark 3,.mark 5,.mark 3] := early.subset (by simp)
    simp at member
  · exact absurd taken.marked (by decide)

/-- A buffer marked again after a snapshot is not linked any more. -/
theorem markBufferDirtySb_second_round_lost :
    ¬ NothingLost true snapshotBlocks (runSb true freshState [.mark 3,.snapshot,.mark 3]) := by
  intro kept
  have listed := (kept 3 rfl).1
  revert listed
  decide

end Oxbow.Daemon.Buffer
