import Mathlib.Logic.Function.Basic
import Oxbow.Daemon.JournalFiles

/-! The references the journal holds on inodes. Registering a file takes one, and its build drops one at some of its exits. Each
call is one step; a panic has no next state. -/
namespace Oxbow.Daemon.JournalRefs

open Oxbow.Lib Function Option

structure Tx where
  tid : UInt32
  files : List Nat
  built : List Nat
  deriving DecidableEq, Repr

structure State where
  sequence : UInt32
  front : Tx
  back : Option Tx
  sent : Option Tx
  inDirtyList : Nat → Bool
  journalTxid : Nat → UInt32
  /-- What `iget` and `iput` of the journal have done to `i_count`. -/
  refs : Nat → Int

def init (sequence : UInt32) : State := ⟨sequence + 1,⟨sequence,[],[]⟩,none,none,fun _ => false,fun _ => 0,fun _ => 0⟩

def iget (s : State) (i : Nat) : State := { s with refs := update s.refs i (s.refs i + 1) }

def iput (s : State) (i : Nat) : State := { s with refs := update s.refs i (s.refs i - 1) }

def register (checks : Bool) (s : State) (i : Nat) : State :=
  if checks ∧ i ∈ s.front.files then iget s i
  else
    { iget s i with
      front := { s.front with files := s.front.files.insert i }
      inDirtyList := update s.inDirtyList i true
      journalTxid := update s.journalTxid i s.front.tid }

def addJournalFile : State → Nat → State := register false

def checkAndAddJournalFile : State → Nat → State := register true

def startTransaction (s : State) : Option State :=
  if s.back = none ∧ s.sent = none then
    some { s with sequence := s.sequence + 1, front := ⟨s.sequence,[],[]⟩, back := some s.front }
  else none

structure Seen extends JournalFiles.Seen where
  deleted : Bool
  deriving DecidableEq, Repr

def buildJtxRegularFile (s : State) (tx : Tx) (i : Nat) (seen : Seen) : Option State :=
  if seen.deleted ∨ ¬ seen.hasWorker then some (iput s i)
  else if ¬ seen.shmHeader then
    if seen.failed then none else some s
  else if (¬ s.inDirtyList i ∧ ¬ seen.stageList) ∨ seen.regInodeFails then none
  else
    some (iput
      { s with inDirtyList := if s.journalTxid i = tx.tid then update s.inDirtyList i false else s.inDirtyList } i)

/-- Only a directory that is deleted is put. -/
def buildJtxDirectory (s : State) (i : Nat) (seen : Seen) : Option State :=
  if seen.deleted then some (iput s i)
  else if seen.writeInodeFails then none
  else some { s with inDirtyList := update s.inDirtyList i false }

variable (isDir : Nat → Bool)

def buildTxFromFile (s : State) (i : Nat) (seen : Seen) : Option State :=
  s.back.bind fun tx =>
    if i ∈ tx.files ∧ i ∉ tx.built then
      (if isDir i then buildJtxDirectory s i seen else buildJtxRegularFile s tx i seen).map fun t =>
        { t with back := some { tx with built := tx.built ++ [i] } }
    else none

def discardTransaction (s : State) : State :=
  { s with front := { s.front with tid := s.front.tid - 1 }, sequence := s.sequence - 1 }

def endBuild (s : State) (written : Bool) : Option State :=
  s.back.bind fun tx =>
    if ∀ i ∈ tx.files, i ∈ tx.built then
      if written then some { s with back := none, sent := some tx } else some { discardTransaction s with back := none }
    else none

def commitResponse (s : State) : Option State := s.sent.map fun _ => { s with sent := none }

inductive Act
  | addJournalFile (i : Nat)
  | checkAndAddJournalFile (i : Nat)
  | startTransaction
  | buildTxFromFile (i : Nat) (seen : Seen)
  | endBuild (written : Bool)
  | commitResponse
  deriving DecidableEq, Repr

def step (s : State) : Act → Option State
  | .addJournalFile i => some (addJournalFile s i)
  | .checkAndAddJournalFile i => some (checkAndAddJournalFile s i)
  | .startTransaction => startTransaction s
  | .buildTxFromFile i seen => buildTxFromFile isDir s i seen
  | .endBuild written => endBuild s written
  | .commitResponse => commitResponse s

/-- The file is in the transaction and still to be built. -/
def Tx.Awaits (tx : Tx) (i : Nat) : Prop := i ∈ tx.files ∧ i ∉ tx.built

instance (tx : Tx) (i : Nat) : Decidable (tx.Awaits i) := inferInstanceAs (Decidable (_ ∧ _))

def State.transactions (s : State) : List Tx := s.front :: (s.back.toList ++ s.sent.toList)

def State.awaiting (s : State) (i : Nat) : Nat := s.transactions.countP fun tx => tx.Awaits i

/-- A file has one reference for every transaction that awaits it. -/
def Balanced (s : State) : Prop := ∀ i, s.refs i = s.awaiting i

/-- A file is registered once with a transaction, and it is put when it is built. -/
def Meets (s : State) : Act → Prop
  | .addJournalFile i | .checkAndAddJournalFile i => i ∉ s.front.files
  | .buildTxFromFile i seen =>
    if isDir i then seen.deleted = true else seen.deleted = true ∨ seen.hasWorker = false ∨ seen.shmHeader = true
  | _ => True

instance (s : State) : (a : Act) → Decidable (Meets isDir s a)
  | .addJournalFile _ | .checkAndAddJournalFile _ => inferInstanceAs (Decidable (_ ∉ _))
  | .buildTxFromFile i seen =>
    inferInstanceAs (Decidable (if isDir i then seen.deleted = true
      else seen.deleted = true ∨ seen.hasWorker = false ∨ seen.shmHeader = true))
  | .startTransaction | .endBuild _ | .commitResponse => .isTrue trivial

structure Ordered (s : State) : Prop where
  front : s.front.built = []
  sent : ∀ tx ∈ s.sent, ∀ i, ¬ tx.Awaits i

@[simp] theorem iget_refs_self (s : State) (i : Nat) : (iget s i).refs i = s.refs i + 1 := update_self ..

@[simp] theorem iget_refs_other (s : State) (other : j ≠ i) : (iget s i).refs j = s.refs j :=
  update_of_ne other ..

@[simp] theorem iput_refs_self (s : State) (i : Nat) : (iput s i).refs i = s.refs i - 1 := update_self ..

@[simp] theorem iput_refs_other (s : State) (other : j ≠ i) : (iput s i).refs j = s.refs j :=
  update_of_ne other ..

/-! The transactions that await a file. -/

theorem awaiting_eq (s : State) (i : Nat) : s.awaiting i =
    (if s.front.Awaits i then 1 else 0) + (s.back.elim 0 fun tx => if tx.Awaits i then 1 else 0) +
      s.sent.elim 0 fun tx => if tx.Awaits i then 1 else 0 := by
  obtain ⟨_,_,back,sent,_,_,_⟩ := s
  cases back <;> cases sent <;> simp [State.awaiting,State.transactions,List.countP_cons] <;> omega

theorem Ordered.sent_none (ordered : Ordered s) (i : Nat) : (s.sent.elim 0 fun tx => if tx.Awaits i then 1 else 0) = 0 := by
  cases sent : s.sent with
  | none => rfl
  | some tx => simp [ordered.sent tx (by simp [sent]) i]

theorem Tx.awaits_build {tx : Tx} (awaits : tx.Awaits i) (j : Nat) :
    (if Tx.Awaits { tx with built := tx.built ++ [i] } j then 1 else 0) + (if j = i then 1 else 0) =
      if tx.Awaits j then 1 else 0 := by
  by_cases same : j = i
  · rw [same,if_pos rfl,if_pos awaits,if_neg (by simp [Tx.Awaits])]
  · have unchanged : Tx.Awaits { tx with built := tx.built ++ [i] } j ↔ tx.Awaits j := by simp [Tx.Awaits,same]
    rw [if_neg same,if_congr unchanged rfl rfl,Nat.add_zero]

/-- A step that concerns one file is balanced if it is so for this file. -/
theorem balanced_iff_at (balanced : Balanced s)
    (others : ∀ j, j ≠ i → t.refs j = s.refs j ∧ t.awaiting j = s.awaiting j) : Balanced t ↔
      t.refs i = t.awaiting i := by
  refine ⟨fun all => all i,?_⟩
  intro here j
  by_cases same : j = i
  · rw [same,here]
  · obtain ⟨refs,awaiting⟩ := others j same
    rw [refs,awaiting,balanced j]

theorem register_present (checks : Bool) (present : i ∈ s.front.files) :
    (register checks s i).refs = (iget s i).refs ∧ (register checks s i).front = s.front ∧
      (register checks s i).back = s.back ∧
      (register checks s i).sent = s.sent := by
  rw [register]
  split
  · exact ⟨rfl,rfl,rfl,rfl⟩
  · refine ⟨rfl,?_,rfl,rfl⟩
    simp only [List.insert_of_mem present]

theorem register_absent (checks : Bool) (absent : i ∉ s.front.files) : (register checks s i).refs = (iget s i).refs ∧
      (register checks s i).front = { s.front with files := i :: s.front.files } ∧ (register checks s i).back = s.back ∧
      (register checks s i).sent = s.sent := by
  rw [register,if_neg (by simp [absent])]
  refine ⟨rfl,?_,rfl,rfl⟩
  simp only [List.insert_of_not_mem absent]

theorem register_balanced (checks : Bool) (i : Nat) (ordered : Ordered s) (balanced : Balanced s) :
    Ordered (register checks s i) ∧ (Balanced (register checks s i) ↔ i ∉ s.front.files) := by
  have before := balanced i
  by_cases present : i ∈ s.front.files
  · obtain ⟨refs,front,back,sent⟩ := register_present checks present
    have awaiting : ∀ j, (register checks s i).awaiting j = s.awaiting j := fun j => by
      rw [awaiting_eq,awaiting_eq,front,back,sent]
    refine ⟨⟨by rw [front]; exact ordered.front,by rw [sent]; exact ordered.sent⟩,?_⟩
    rw [balanced_iff_at (i := i) balanced fun j other => ⟨by simp [refs,other],awaiting j⟩,refs,awaiting i]
    simp only [iget_refs_self,present,not_true,iff_false]
    omega
  · obtain ⟨refs,front,back,sent⟩ := register_absent checks present
    have awaiting : ∀ j, (register checks s i).awaiting j = s.awaiting j + if j = i then 1 else 0 := by
      intro j
      rw [awaiting_eq,awaiting_eq,front,back,sent]
      by_cases same : j = i
      · simp [same,Tx.Awaits,ordered.front,present]
        omega
      · simp [same,Tx.Awaits,ordered.front]
    refine ⟨⟨by rw [front]; exact ordered.front,by rw [sent]; exact ordered.sent⟩,?_⟩
    rw [balanced_iff_at (i := i) balanced fun j other => ⟨by simp [refs,other],by simp [awaiting j,other]⟩,refs,awaiting i]
    simp [before,present]

variable {isDir}

theorem buildJtxDirectory_refs (done : buildJtxDirectory s i seen = some t) :
    t.front = s.front ∧ t.sent = s.sent ∧ t.refs = if seen.deleted = true then (iput s i).refs else s.refs := by
  rw [buildJtxDirectory] at done
  split at done
  next gone =>
    obtain rfl := some.inj done
    exact ⟨rfl,rfl,by simp [gone]⟩
  next alive =>
    obtain ⟨-,⟨⟩⟩ := ite_none_left_eq_some.mp done
    exact ⟨rfl,rfl,by simp [alive]⟩

theorem buildJtxRegularFile_refs (done : buildJtxRegularFile s tx i seen = some t) :
    t.front = s.front ∧ t.sent = s.sent ∧
      t.refs = if seen.deleted = true ∨ seen.hasWorker = false ∨ seen.shmHeader = true then (iput s i).refs else s.refs := by
  rw [buildJtxRegularFile] at done
  split at done
  next gone =>
    obtain rfl := some.inj done
    refine ⟨rfl,rfl,?_⟩
    rcases gone with gone | gone <;> simp [gone]
  next alive =>
    rw [not_or,not_not] at alive
    split at done
    next unshared =>
      obtain ⟨-,⟨⟩⟩ := ite_none_left_eq_some.mp done
      exact ⟨rfl,rfl,by simp [alive,unshared]⟩
    next shared =>
      obtain ⟨-,⟨⟩⟩ := ite_none_left_eq_some.mp done
      exact ⟨rfl,rfl,by simp [shared,iput]⟩

/-- The exits that put the file are those of `Meets`. -/
theorem build_refs (done : (if isDir i then buildJtxDirectory s i seen else buildJtxRegularFile s tx i seen) = some t) :
    t.front = s.front ∧ t.sent = s.sent ∧
      t.refs = if Meets isDir s (.buildTxFromFile i seen) then (iput s i).refs else s.refs := by
  simp only [Meets]
  split at done
  next dir => simpa [dir] using buildJtxDirectory_refs done
  next file => simpa [file] using buildJtxRegularFile_refs done

theorem buildTxFromFile_balanced (ordered : Ordered s) (balanced : Balanced s)
    (next : buildTxFromFile isDir s i seen = some t) :
    Ordered t ∧ (Balanced t ↔ Meets isDir s (.buildTxFromFile i seen)) := by
  obtain ⟨tx,back,next⟩ := bind_eq_some_iff.mp next
  obtain ⟨awaits,next⟩ := ite_none_right_eq_some.mp next
  obtain ⟨u,built,rfl⟩ := map_eq_some_iff.mp next
  obtain ⟨front,sent,refs⟩ := build_refs built
  have before := balanced i
  have awaiting : ∀ j, State.awaiting { u with back := some { tx with built := tx.built ++ [i] } } j +
    (if j = i then 1 else 0) =
      s.awaiting j := by
    intro j
    rw [awaiting_eq,awaiting_eq,front,sent,back]
    have built := Tx.awaits_build awaits j
    dsimp only [elim_some]
    omega
  refine ⟨⟨by simpa [front] using ordered.front,by simpa [sent] using ordered.sent⟩,?_⟩
  rw [balanced_iff_at (i := i) balanced fun j other => ⟨?_,?_⟩]
  · have here := awaiting i
    rw [if_pos rfl] at here
    by_cases put : Meets isDir s (.buildTxFromFile i seen)
    · have now : u.refs i = s.refs i - 1 := by rw [refs,if_pos put,iput_refs_self]
      rw [now,iff_true_right put]
      omega
    · have now : u.refs i = s.refs i := by rw [refs,if_neg put]
      rw [now,iff_false_right put]
      omega
  · change u.refs j = s.refs j
    rw [refs]
    split
    · exact iput_refs_other s other
    · rfl
  · have there := awaiting j
    rwa [if_neg other,Nat.add_zero] at there

/-! The steps that touch no file. -/

section

variable (ordered : Ordered s) (balanced : Balanced s)
include ordered balanced

theorem startTransaction_balanced (next : startTransaction s = some t) : Ordered t ∧ Balanced t := by
  rw [startTransaction] at next
  obtain ⟨idle,⟨⟩⟩ := ite_none_right_eq_some.mp next
  refine ⟨⟨rfl,ordered.sent⟩,?_⟩
  intro i
  have before := balanced i
  rw [awaiting_eq,idle.1,idle.2] at before
  rw [awaiting_eq]
  simpa [idle.2,Tx.Awaits] using before

theorem endBuild_balanced (next : endBuild s written = some t) : Ordered t ∧ Balanced t := by
  obtain ⟨tx,back,next⟩ := bind_eq_some_iff.mp next
  have none := ordered.sent_none
  obtain ⟨all,next⟩ := ite_none_right_eq_some.mp next
  have done : ∀ i, ¬ tx.Awaits i := fun i awaits => awaits.2 (all i awaits.1)
  split at next
  · obtain rfl := some.inj next
    refine ⟨⟨ordered.front,?_⟩,?_⟩
    · intro other same
      obtain rfl := some.inj same
      exact done
    · intro i
      have before := balanced i
      rw [awaiting_eq,back,none i] at before
      rw [awaiting_eq]
      simpa [done i] using before
  · obtain rfl := some.inj next
    refine ⟨⟨ordered.front,ordered.sent⟩,?_⟩
    intro i
    have before := balanced i
    rw [awaiting_eq,back] at before
    rw [awaiting_eq]
    dsimp only [Option.elim] at before ⊢
    rw [if_neg (done i)] at before
    exact before

theorem commitResponse_balanced (next : commitResponse s = some t) : Ordered t ∧ Balanced t := by
  obtain ⟨tx,_,rfl⟩ := map_eq_some_iff.mp next
  refine ⟨⟨ordered.front,by simp⟩,?_⟩
  intro i
  have before := balanced i
  rw [awaiting_eq,ordered.sent_none i] at before
  rw [awaiting_eq]
  exact before

theorem step_balanced (next : step isDir s a = some t) : Ordered t ∧ (Balanced t ↔ Meets isDir s a) := by
  cases a with
  | addJournalFile i =>
    obtain rfl := some.inj next
    exact register_balanced false i ordered balanced
  | checkAndAddJournalFile i =>
    obtain rfl := some.inj next
    exact register_balanced true i ordered balanced
  | startTransaction =>
    obtain ⟨after,balance⟩ := startTransaction_balanced ordered balanced next
    exact ⟨after,iff_of_true balance trivial⟩
  | buildTxFromFile i seen => exact buildTxFromFile_balanced ordered balanced next
  | endBuild written =>
    obtain ⟨after,balance⟩ := endBuild_balanced ordered balanced next
    exact ⟨after,iff_of_true balance trivial⟩
  | commitResponse =>
    obtain ⟨after,balance⟩ := commitResponse_balanced ordered balanced next
    exact ⟨after,iff_of_true balance trivial⟩

end

def Accounted (s : State) : Prop := Ordered s ∧ Balanced s

theorem init_accounted (sequence : UInt32) : Accounted (init sequence) := by
  refine ⟨⟨rfl,by simp [init]⟩,?_⟩
  intro i
  simp [init,awaiting_eq,Tx.Awaits]

/-- The journal holds a reference on a file for each transaction that has yet to process it, and none when all have, just when
no registration finds the file in the set already, every directory that is built is deleted, and every regular file is
deleted, without a worker or has its shared memory. -/
theorem references_balanced_iff (isDir : Nat → Bool) (sequence : UInt32) (acts : List Act) (s : State)
    (ran : run (step isDir) (init sequence) acts = some s) :
    (Lib.Meets (fun s a t => step isDir s a = some t ∧ Balanced t) (init sequence) acts ∧
        ∀ i, (∀ tx ∈ s.transactions, ¬ tx.Awaits i) → s.refs i = 0) ↔
      Along (step isDir) (Meets isDir) (init sequence) acts := by
  have exactly := meets_iff_along_of_run (step isDir) (fun _ _ t => Balanced t) (Meets isDir) Accounted
    (fun s a t inv next => (step_balanced inv.1 inv.2 next).2)
    (fun s a t inv next good => ⟨(step_balanced inv.1 inv.2 next).1,good⟩)
    (init sequence) acts s (init_accounted sequence) ran
  constructor
  · rintro ⟨balanced,-⟩
    exact exactly.mp balanced
  · intro meets
    refine ⟨exactly.mpr meets,?_⟩
    intro i processed
    have accounted := run_invariant (step isDir) Accounted (Meets isDir)
      (fun s a t inv meets next => (step_balanced inv.1 inv.2 next).imp_right fun exactly => exactly.mpr meets)
      (init sequence) acts s (init_accounted sequence) meets ran
    have none : s.awaiting i = 0 := List.countP_eq_zero.mpr (by simpa using processed)
    rw [accounted.2 i,none,Int.natCast_zero]

def mapped : Seen := ⟨⟨true,true,false,false,false,false⟩,false⟩

def registeredOnce : List Act :=
  [.addJournalFile 1,.startTransaction,.checkAndAddJournalFile 1,.buildTxFromFile 1 mapped,.endBuild true,.commitResponse]

theorem references_balanced_registeredOnce : ∃ s, run (step fun _ => false) (init 0) registeredOnce = some s ∧
    Lib.Meets (fun s a t => step (fun _ => false) s a = some t ∧ Balanced t) (init 0) registeredOnce ∧
    ∀ i, (∀ tx ∈ s.transactions, ¬ tx.Awaits i) → s.refs i = 0 := by
  have defined : (run (step fun _ => false) (init 0) registeredOnce).isSome := by decide
  obtain ⟨s,ran⟩ := isSome_iff_exists.mp defined
  exact ⟨s,ran,(references_balanced_iff (fun _ => false) 0 registeredOnce s ran).mpr (by decide)⟩

/-- Every transaction has processed the file, and the journal still has a reference: the file was registered twice, it is a
directory, or its shared memory was not there when it was built. -/
theorem reference_left_behind :
    (run (step fun _ => false) (init 0) [.addJournalFile 1,.checkAndAddJournalFile 1,.startTransaction,
        .buildTxFromFile 1 mapped,.endBuild true,.commitResponse]).map (fun s => (s.awaiting 1,s.refs 1)) = some (0,1) ∧
    (run (step fun _ => true) (init 0) [.addJournalFile 1,.startTransaction,
        .buildTxFromFile 1 mapped,.endBuild true,.commitResponse]).map (fun s => (s.awaiting 1,s.refs 1)) = some (0,1) ∧
    (run (step fun _ => false) (init 0) [.addJournalFile 1,.startTransaction,
        .buildTxFromFile 1 { mapped with shmHeader := false },.endBuild false]).map (fun s => (s.awaiting 1,s.refs 1)) =
      some (0,1) := by
  decide

end Oxbow.Daemon.JournalRefs
