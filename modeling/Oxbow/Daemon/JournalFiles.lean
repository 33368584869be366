import Mathlib.Logic.Function.Basic
import Oxbow.Lib.Run

/-! The files of the running journal transaction: how dirty inodes are registered in its
`j_files_set`, and how building, discarding and committing transactions takes them out of
it. A step ends where the inode's locks or the lock of the transaction let another party
in; a panic has no next state. -/
namespace Oxbow.Daemon.JournalFiles

open Oxbow.Lib Function List

structure Config where
  isDir : Nat → Bool
  useJournal : Nat → Bool

structure Transaction where
  tid : UInt32
  files : List Nat
  deriving DecidableEq, Repr

/-- The lock a registration runs under: `inode_lock` when the inode is dirtied; when it is
staged, `shared_inode_lock` of a regular file as well, `dir_inode_lock` of a directory. -/
inductive Path
  | dirty
  | staged
  deriving DecidableEq, Repr

structure Registration where
  ino : Nat
  path : Path
  added : Bool
  deriving DecidableEq, Repr

inductive Builder
  | idle
  | locked (next : Transaction)
  | building (tx : Transaction) (left : List Nat) (current : Option Nat) (written : Bool)
  deriving DecidableEq, Repr

def Builder.left : Builder → List Nat
  | .building _ left _ _ => left
  | _ => []

def Builder.written : Builder → Bool
  | .building _ _ _ written => written
  | _ => false

structure State where
  sequence : UInt32
  front : Transaction
  builder : Builder
  committing : Option Transaction
  registering : List Registration
  inDirtyList : Nat → Bool
  journalTxid : Nat → UInt32

def newTransaction (sequence : UInt32) : Transaction := ⟨sequence,[]⟩

def init (sequence : UInt32) : State :=
  ⟨sequence + 1,newTransaction sequence,.idle,none,[],fun _ => false,fun _ => 0⟩

/-- No registration is under way and no transaction is being built. -/
def Quiescent (s : State) : Prop := s.registering = [] ∧ s.builder = .idle

instance (s : State) : Decidable (Quiescent s) := inferInstanceAs (Decidable (_ ∧ _))

structure Seen where
  hasWorker : Bool
  shmHeader : Bool
  failed : Bool
  stageList : Bool
  regInodeFails : Bool
  writeInodeFails : Bool
  deriving DecidableEq, Repr

inductive Act
  | markInodeDirty (i : Nat)
  | inodeAddJournal (i : Nat)
  | checkAndAddJournalFile (i : Nat)
  | put (i : Nat) (path : Path)
  | endJournal (i : Nat) (path : Path)
  | noBuffer
  | lock
  | startTransaction (written : Bool)
  | enterFile (i : Nat) (seen : Seen)
  | leaveFile (written : Bool)
  | endBuild (written : Bool)
  | commitResponse
  deriving DecidableEq, Repr

variable (cfg : Config)

section

variable (s : State)

def State.busy (i : Nat) (path : Path) : Bool :=
  s.registering.any fun r => r.ino = i ∧ r.path = path

/-- Any registration of `i` under way that holds a lock `path` needs. All those of a
regular file hold `inode_lock`. -/
def State.blocked (i : Nat) (path : Path) : Bool :=
  s.busy i path || (!cfg.isDir i && (s.busy i .dirty || s.busy i .staged))

def State.sharedLocked (i : Nat) : Bool :=
  match s.builder with
  | .building _ _ current _ => current = some i && !cfg.isDir i
  | _ => false

def State.isLocked : Bool :=
  match s.builder with
  | .locked _ => true
  | _ => false

def startJournal (i : Nat) (path : Path) : Option State :=
  if s.isLocked then none
  else some { s with registering := ⟨i,path,false⟩ :: s.registering }

def markInodeDirty (i : Nat) : Option State :=
  if s.blocked cfg i .dirty then none
  else if cfg.useJournal i ∧ ¬ s.inDirtyList i then startJournal s i .dirty
  else some s

def inodeAddJournal (i : Nat) : Option State :=
  if s.blocked cfg i .dirty ∨ ¬ cfg.useJournal i then none
  else if s.inDirtyList i then some s
  else startJournal s i .dirty

def checkAndAddJournalFile (i : Nat) : Option State :=
  if s.blocked cfg i .staged ∨ s.sharedLocked cfg i then none
  else startJournal s i .staged

def State.release (r : Registration) : State :=
  { s with registering := s.registering.erase r }

/-- `kh_put` into `j_files_set`. On the staging path an inode that is there already is
left as it is. -/
def put (i : Nat) (path : Path) : Option State :=
  if ⟨i,path,false⟩ ∉ s.registering then none
  else if i ∈ s.front.files ∧ path = .staged then some (s.release ⟨i,path,false⟩)
  else
    some { s with
      front := { s.front with files := s.front.files.insert i }
      registering := ⟨i,path,true⟩ :: s.registering.erase ⟨i,path,false⟩ }

def endJournal (i : Nat) (path : Path) : Option State :=
  if ⟨i,path,true⟩ ∉ s.registering then none
  else
    some { s.release ⟨i,path,true⟩ with
      inDirtyList := update s.inDirtyList i true
      journalTxid := update s.journalTxid i s.front.tid }

/-- `build_transaction` up to `TR_LOCKED`. There are two data fetchers, so the transaction
to follow waits for the commit response of the one before. -/
def lock : Option State :=
  if s.builder ≠ .idle ∨ s.committing ≠ none then none
  else
    some { s with
      builder := .locked (newTransaction s.sequence)
      sequence := s.sequence + 1 }

def startTransaction (written : Bool) : Option State :=
  match s.builder with
  | .locked next =>
    if s.registering ≠ [] then none
    else some { s with front := next, builder := .building s.front s.front.files none written }
  | _ => none

/-- `build_jtx_regular_file` to the point where the stage list is cut, or
`build_jtx_directory` to `dir_inode_lock`. -/
def enterFile (i : Nat) (seen : Seen) : Option State :=
  match s.builder with
  | .building tx left none written =>
    if i ∉ left ∨ s.blocked cfg i .dirty then none
    else if cfg.isDir i then
      if seen.writeInodeFails then none
      else some { s with builder := .building tx left (some i) written }
    else if ¬ seen.hasWorker then some { s with builder := .building tx (left.erase i) none written }
    else if ¬ seen.shmHeader then
      if seen.failed then none
      else some { s with builder := .building tx (left.erase i) none written }
    else if (¬ s.inDirtyList i ∧ ¬ seen.stageList) ∨ seen.regInodeFails then none
    else some { s with builder := .building tx left (some i) written }
  | _ => none

/-- The rest of the build of the file. A regular file keeps the bit unless the transaction
id recorded in it is the one being built; a directory always loses it. -/
def leaveFile (written : Bool) : Option State :=
  match s.builder with
  | .building tx left (some i) before =>
    if s.blocked cfg i .staged then none
    else
      some { s with
        builder := .building tx (left.erase i) none (before || written)
        inDirtyList :=
          if cfg.isDir i ∨ s.journalTxid i = tx.tid then update s.inDirtyList i false
          else s.inDirtyList }
  | _ => none

def discardTransaction : State :=
  { s with
    front := { s.front with tid := s.front.tid - 1 }
    sequence := s.sequence - 1 }

def endBuild (written : Bool) : Option State :=
  match s.builder with
  | .building tx [] none before =>
    if before || written then some { s with builder := .idle, committing := some tx }
    else some { discardTransaction s with builder := .idle }
  | _ => none

def commitResponse : Option State :=
  if s.committing = none then none else some { s with committing := none }

def step : Act → Option State
  | .markInodeDirty i => markInodeDirty cfg s i
  | .inodeAddJournal i => inodeAddJournal cfg s i
  | .checkAndAddJournalFile i => checkAndAddJournalFile cfg s i
  | .put i path => put s i path
  | .endJournal i path => endJournal s i path
  | .noBuffer => if s.builder = .idle then some s else none
  | .lock => lock s
  | .startTransaction written => startTransaction s written
  | .enterFile i seen => enterFile cfg s i seen
  | .leaveFile written => leaveFile cfg s written
  | .endBuild written => endBuild s written
  | .commitResponse => commitResponse s

/-- What keeps every dirty inode in the journal: a transaction is discarded only while no
regular file is registered in the one that follows it, and a regular file that is built
has its worker and its shared header. -/
def Meets : Act → Prop
  | .enterFile i seen => ¬ cfg.isDir i → seen.hasWorker ∧ seen.shmHeader
  | .endBuild written => s.builder.written ∨ written ∨ ∀ i ∈ s.front.files, cfg.isDir i
  | _ => True

end

instance (s : State) (a : Act) : Decidable (Meets cfg s a) :=
  match a with
  | .enterFile _ _ => inferInstanceAs (Decidable (_ → _))
  | .endBuild _ => inferInstanceAs (Decidable (_ ∨ _))
  | .markInodeDirty _ | .inodeAddJournal _ | .checkAndAddJournalFile _ | .put _ _
  | .endJournal _ _ | .noBuffer | .lock | .startTransaction _ | .leaveFile _
  | .commitResponse => .isTrue trivial

/-- A regular file still to be built either carries the id of the transaction being built
or has moved on to the running one. -/
def Builder.Pending (b : Builder) (front : Transaction) (journalTxid : Nat → UInt32) : Prop :=
  match b with
  | .idle => True
  | .locked next => next.files = []
  | .building tx left current _ =>
    (∀ i ∈ left, ¬ cfg.isDir i → journalTxid i = tx.tid ∨ i ∈ front.files) ∧
    ∀ i, current = some i → i ∈ left

structure Invariant (s : State) : Prop where
  registered : ∀ i, s.inDirtyList i → i ∈ s.front.files ∨ i ∈ s.builder.left
  added : ∀ r ∈ s.registering, r.added → r.ino ∈ s.front.files
  recorded : ∀ i ∈ s.front.files, ¬ cfg.isDir i →
    s.journalTxid i = s.front.tid ∨ ∃ r ∈ s.registering, r.added ∧ r.ino = i
  pending : s.builder.Pending cfg s.front s.journalTxid

theorem init_invariant (sequence : UInt32) : Invariant cfg (init sequence) where
  registered := by simp [init]
  added := by simp [init]
  recorded := by simp [init,newTransaction]
  pending := trivial

variable {cfg}

section

variable (inv : Invariant cfg s)
include inv

theorem startJournal_preserves (next : startJournal s i path = some t) : Invariant cfg t := by
  unfold startJournal at next
  split at next
  · cases next
  · cases next
    refine ⟨inv.registered,?_,?_,inv.pending⟩
    · intro r member added
      rcases mem_cons.mp member with rfl | member
      · cases added
      · exact inv.added r member added
    · intro j member regular
      rcases inv.recorded j member regular with same | ⟨r,inFlight,added,rfl⟩
      · exact .inl same
      · exact .inr ⟨r,mem_cons_of_mem _ inFlight,added,rfl⟩

theorem markInodeDirty_preserves (next : markInodeDirty cfg s i = some t) : Invariant cfg t := by
  unfold markInodeDirty at next
  split at next
  · cases next
  split at next
  · exact startJournal_preserves inv next
  · cases next
    exact inv

theorem inodeAddJournal_preserves (next : inodeAddJournal cfg s i = some t) : Invariant cfg t := by
  unfold inodeAddJournal at next
  split at next
  · cases next
  split at next
  · cases next
    exact inv
  · exact startJournal_preserves inv next

theorem checkAndAddJournalFile_preserves (next : checkAndAddJournalFile cfg s i = some t) : Invariant cfg t := by
  unfold checkAndAddJournalFile at next
  split at next
  · cases next
  · exact startJournal_preserves inv next

end

theorem Builder.Pending.mono {b : Builder} (pending : b.Pending cfg front txid)
    (grows : ∀ i ∈ front.files, i ∈ front'.files)
    (keeps : ∀ i, txid' i = txid i ∨ i ∈ front'.files) : b.Pending cfg front' txid' := by
  cases b with
  | idle => trivial
  | locked next => exact pending
  | building tx left current written =>
    refine ⟨?_,pending.2⟩
    intro i member regular
    rcases keeps i with same | moved
    · rcases pending.1 i member regular with recorded | moved
      · exact .inl (same.trans recorded)
      · exact .inr (grows i moved)
    · exact .inr moved

theorem release_unadded (inv : Invariant cfg s) (r : Registration)
    (unadded : r.added = false) : Invariant cfg (s.release r) where
  registered := inv.registered
  added r' member := inv.added r' (mem_of_mem_erase member)
  recorded i member regular := by
    rcases inv.recorded i member regular with same | ⟨r',inFlight,added,rfl⟩
    · exact .inl same
    · have different : r' ≠ r := by
        rintro rfl
        rw [unadded] at added
        cases added
      exact .inr ⟨r',(mem_erase_of_ne different).mpr inFlight,added,rfl⟩
  pending := inv.pending

theorem put_preserves (inv : Invariant cfg s)
    (next : put s i path = some t) : Invariant cfg t := by
  unfold put at next
  split at next
  · cases next
  split at next
  · cases next
    exact release_unadded inv _ rfl
  · cases next
    have before := release_unadded inv ⟨i,path,false⟩ rfl
    refine ⟨?_,?_,?_,?_⟩
    · intro j dirty
      rcases inv.registered j dirty with here | left
      · exact .inl (mem_insert_of_mem here)
      · exact .inr left
    · intro r member added
      rcases mem_cons.mp member with rfl | member
      · exact mem_insert_self
      · exact mem_insert_of_mem (before.added r member added)
    · intro j member regular
      rcases mem_insert_iff.mp member with rfl | member
      · exact .inr ⟨_,mem_cons_self,rfl,rfl⟩
      · rcases before.recorded j member regular with same | ⟨r,inFlight,added,rfl⟩
        · exact .inl same
        · exact .inr ⟨r,mem_cons_of_mem _ inFlight,added,rfl⟩
    · exact inv.pending.mono (fun _ => mem_insert_of_mem) fun _ => .inl rfl

theorem endJournal_preserves (inv : Invariant cfg s)
    (next : endJournal s i path = some t) : Invariant cfg t := by
  unfold endJournal at next
  split at next
  · cases next
  rename_i present
  have here : i ∈ s.front.files := inv.added _ (not_not.mp present) rfl
  cases next
  refine ⟨?_,?_,?_,?_⟩
  · intro j dirty
    by_cases same : j = i
    · exact .inl (same ▸ here)
    · exact inv.registered j (by simpa [update_of_ne same] using dirty)
  · intro r member
    exact inv.added r (mem_of_mem_erase member)
  · intro j member regular
    by_cases same : j = i
    · exact .inl (by simp [same,State.release])
    · rcases inv.recorded j member regular with recorded | ⟨r,inFlight,added,rfl⟩
      · exact .inl ((update_of_ne same _ _).trans recorded)
      · refine .inr ⟨r,(mem_erase_of_ne ?_).mpr inFlight,added,rfl⟩
        rintro rfl
        exact same rfl
  · refine inv.pending.mono (fun _ member => member) fun j => ?_
    by_cases same : j = i
    · exact .inr (same ▸ here)
    · exact .inl (update_of_ne same _ _)

section

variable (inv : Invariant cfg s)
include inv

theorem lock_preserves (next : lock s = some t) : Invariant cfg t := by
  unfold lock at next
  split at next
  · cases next
  · rename_i free
    have idle : s.builder = .idle := by simpa using (not_or.mp free).1
    cases next
    refine ⟨?_,inv.added,inv.recorded,rfl⟩
    simpa [idle,Builder.left] using inv.registered

/-- The files of the replaced transaction are now those left to build. -/
theorem startTransaction_preserves (next : startTransaction s written = some t) : Invariant cfg t := by
  unfold startTransaction at next
  split at next
  · rename_i tx locked
    split at next
    · cases next
    · rename_i unreferenced
      have none : s.registering = [] := not_not.mp unreferenced
      have empty : tx.files = [] := by simpa [locked,Builder.Pending] using inv.pending
      cases next
      refine ⟨?_,?_,?_,?_,?_⟩
      · intro i dirty
        have := inv.registered i dirty
        exact .inr (by simpa [locked,Builder.left] using this)
      · simp [none]
      · simp [empty]
      · intro i member regular
        have := inv.recorded i member regular
        exact .inl (by simpa [none] using this)
      · simp
  · cases next

theorem enterFile_preserves (meets : Meets cfg s (.enterFile i seen)) (next : enterFile cfg s i seen = some t) :
    Invariant cfg t := by
  have left := inv.registered
  have pending := inv.pending
  unfold enterFile at next
  split at next
  · rename_i tx files written building
    rw [building] at left pending
    have entered : i ∈ files → Invariant cfg
        { s with builder := .building tx files (some i) written } := fun member =>
      ⟨left,inv.added,inv.recorded,pending.1,fun j same => Option.some.inj same ▸ member⟩
    split at next
    · cases next
    rename_i free
    have member : i ∈ files := not_not.mp (not_or.mp free).1
    split at next
    · split at next
      · cases next
      · cases next
        exact entered member
    · rename_i regular
      obtain ⟨worker,header⟩ := meets regular
      rw [if_neg (not_not.mpr worker),if_neg (not_not.mpr header)] at next
      split at next
      · cases next
      · cases next
        exact entered member
  · cases next

/-- A file that leaves the builder without losing the bit is in the running transaction. -/
theorem leaveFile_preserves (next : leaveFile cfg s written = some t) : Invariant cfg t := by
  have left := inv.registered
  have pending := inv.pending
  unfold leaveFile at next
  split at next
  · rename_i tx files i before building
    rw [building] at left pending
    split at next
    · cases next
    cases next
    have keeps : ∀ j ∈ files, j ≠ i → j ∈ files.erase i := fun j member different =>
      (mem_erase_of_ne different).mpr member
    refine ⟨?_,inv.added,inv.recorded,?_,by simp⟩
    · intro j dirty
      by_cases same : j = i
      · subst same
        split at dirty
        · simp at dirty
        · rename_i kept
          obtain ⟨regular,other⟩ := not_or.mp kept
          rcases pending.1 j (pending.2 j rfl) regular with recorded | moved
          · exact absurd recorded other
          · exact .inl moved
      · have before : s.inDirtyList j := by
          split at dirty
          · simpa [update_of_ne same] using dirty
          · exact dirty
        rcases left j before with here | waits
        · exact .inl here
        · exact .inr (keeps j waits same)
    · intro j member
      exact pending.1 j (mem_of_mem_erase member)
  · cases next

theorem endBuild_preserves (meets : Meets cfg s (.endBuild written)) (next : endBuild s written = some t) :
    Invariant cfg t := by
  have left := inv.registered
  unfold endBuild at next
  split at next
  · rename_i tx before building
    rw [building] at left
    split at next
    · cases next
      exact ⟨left,inv.added,inv.recorded,trivial⟩
    · rename_i nothing
      have directories : ∀ i ∈ s.front.files, cfg.isDir i := by
        simp only [Meets,building,Builder.written] at meets
        rcases meets with wrote | wrote | directories
        · simp [wrote] at nothing
        · simp [wrote] at nothing
        · exact directories
      obtain rfl := Option.some.inj next
      refine ⟨left,inv.added,?_,trivial⟩
      intro i member regular
      exact absurd (directories i member) regular
  · cases next

end

theorem step_preserves (s : State) (a : Act) (t : State) (inv : Invariant cfg s)
    (meets : Meets cfg s a) (next : step cfg s a = some t) : Invariant cfg t := by
  cases a with
  | markInodeDirty i => exact markInodeDirty_preserves inv next
  | inodeAddJournal i => exact inodeAddJournal_preserves inv next
  | checkAndAddJournalFile i => exact checkAndAddJournalFile_preserves inv next
  | put i path => exact put_preserves inv next
  | endJournal i path => exact endJournal_preserves inv next
  | noBuffer =>
    simp only [step] at next
    split at next
    · cases next
      exact inv
    · cases next
  | lock => exact lock_preserves inv next
  | startTransaction written => exact startTransaction_preserves inv next
  | enterFile i seen => exact enterFile_preserves inv meets next
  | leaveFile written => exact leaveFile_preserves inv next
  | endBuild written => exact endBuild_preserves inv meets next
  | commitResponse =>
    simp only [step,commitResponse] at next
    split at next
    · cases next
    · cases next
      exact ⟨inv.registered,inv.added,inv.recorded,inv.pending⟩

def regularFiles : Config := ⟨fun _ => false,fun _ => true⟩

def openFile : Seen := ⟨true,true,false,false,false,false⟩

def registerDirty (i : Nat) : List Act := [.markInodeDirty i,.put i .dirty,.endJournal i .dirty]

def twoFiles : List Act :=
  registerDirty 0 ++ [.lock,.startTransaction false,.enterFile 0 openFile] ++ registerDirty 1 ++
    [.leaveFile true,.endBuild false,.commitResponse]

def forgottenFile : List Act :=
  [.lock,.startTransaction false] ++ registerDirty 0 ++ [.endBuild false] ++
    [.lock,.startTransaction false,.enterFile 0 openFile,.leaveFile true,.endBuild false]

example :
    ∃ s, run (step regularFiles) (init 1) (registerDirty 0 ++ [.lock,.startTransaction true,
        .enterFile 0 { openFile with hasWorker := false },.endBuild false]) = some s ∧
      Quiescent s ∧ s.inDirtyList 0 = true ∧ 0 ∉ s.front.files :=
  ⟨_,rfl,by decide,rfl,by decide⟩

end Oxbow.Daemon.JournalFiles
