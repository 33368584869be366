import Oxbow.Daemon.JournalRefs
import Oxbow.Daemon.Transactions
import Oxbow.Lib.Ring

/-! The waiting lists of the journal. A transaction links all its files when its build begins, by the link that each inode
has for the data fetcher; some exits of the build unlink one, the commit response unlinks the rest, and a discard none. -/
namespace Oxbow.Daemon.WaitingLists

open Oxbow.Lib List Option
open Transactions (allocDataFetcher holder firstDf)

structure Found extends toRefs : JournalRefs.Seen where
  inDirtyList : Bool
  blks : Nat
  deriving DecidableEq, Repr

structure Tx where
  dfId : Fin 2
  files : List Nat
  waiting : List Nat
  usedBlkCnt : Nat
  traced : Bool
  built : List (Nat × Found)
  deriving DecidableEq, Repr

structure State where
  occupied : Fin 2 → Bool
  front : Tx
  next : Option Tx
  back : Option Tx
  committing : List Tx
  freed : List Tx

def newTx (dfId : Fin 2) : Tx := ⟨dfId,[],[],0,false,[]⟩

def init : State := ⟨Function.update (fun _ => false) firstDf true,newTx firstDf,none,none,[],[]⟩

def addJournalFile (s : State) (i : Nat) : State := { s with front := { s.front with files := s.front.files.insert i } }

def newTransaction (s : State) : Option State :=
  if s.next = none ∧ s.back = none then
    (allocDataFetcher s.occupied).map fun dfId =>
      { s with occupied := Function.update s.occupied dfId true, next := some (newTx dfId) }
  else none

/-- From `start_transaction` to the loop that copies `j_files` to `j_files_waiting`; `blks` are the metadata blocks. -/
def startTransaction (s : State) (blks : Nat) : Option State :=
  if s.back = none then
    s.next.map fun next =>
      { s with
        front := next
        next := none
        back := some
          { s.front with waiting := s.front.waiting ++ s.front.files, usedBlkCnt := u32 (s.front.usedBlkCnt + blks) } }
  else none

/-- Every error is a panic of the caller, and so is a worker that is gone after `journal_reg_inode`. -/
def buildJtxRegularFile (tx : Tx) (i : Nat) (seen : Found) : Option Tx :=
  if seen.deleted ∨ ¬ seen.hasWorker then some { tx with waiting := tx.waiting.erase i }
  else if ¬ seen.shmHeader then
    if seen.failed then none else some tx
  else if (¬ seen.inDirtyList ∧ ¬ seen.stageList) ∨ seen.regInodeFails then none
  else some { tx with usedBlkCnt := u32 (tx.usedBlkCnt + seen.blks), traced := tx.traced || seen.stageList }

def buildJtxDirectory (tx : Tx) (seen : Found) : Option Tx :=
  if seen.deleted then some tx
  else if seen.writeInodeFails then none
  else some { tx with usedBlkCnt := u32 (tx.usedBlkCnt + seen.blks) }

variable (isDir : Nat → Bool)

def buildTxFromFile (s : State) (i : Nat) (seen : Found) : Option State :=
  s.back.bind fun tx =>
    if i ∈ tx.files ∧ i ∉ tx.built.map Prod.fst then
      (if isDir i then buildJtxDirectory tx seen else buildJtxRegularFile tx i seen).map fun t =>
        { s with back := some { t with built := t.built ++ [(i,seen)] } }
    else none

def freeTransaction (s : State) (tx : Tx) : State :=
  { s with occupied := Function.update s.occupied tx.dfId false, freed := s.freed ++ [tx] }

def Tx.Nothing (tx : Tx) (blks : Nat) : Prop := u32 (tx.usedBlkCnt + blks) = 0 ∧ tx.traced = false

instance (tx : Tx) (blks : Nat) : Decidable (tx.Nothing blks) := inferInstanceAs (Decidable (_ ∧ _))

def endBuild (s : State) (blks : Nat) : Option State :=
  s.back.bind fun tx =>
    if ∀ i ∈ tx.files, i ∈ tx.built.map Prod.fst then
      if tx.Nothing blks then some (freeTransaction { s with back := none } tx)
      else some { s with back := none, committing := s.committing ++ [tx] }
    else none

def clearWaiting (s : State) (k : Nat) : Option State :=
  s.committing[k]?.map fun tx => { s with committing := s.committing.set k { tx with waiting := tx.waiting.tail } }

def commitResponse (s : State) (k : Nat) : Option State :=
  s.committing[k]?.bind fun tx =>
    if tx.waiting = [] then some (freeTransaction { s with committing := s.committing.eraseIdx k } tx) else none

inductive Act
  | addJournalFile (i : Nat)
  | newTransaction
  | startTransaction (blks : Nat)
  | buildTxFromFile (i : Nat) (seen : Found)
  | endBuild (blks : Nat)
  | clearWaiting (k : Nat)
  | commitResponse (k : Nat)
  deriving DecidableEq, Repr

def step (s : State) : Act → Option State
  | .addJournalFile i => some (addJournalFile s i)
  | .newTransaction => newTransaction s
  | .startTransaction blks => startTransaction s blks
  | .buildTxFromFile i seen => buildTxFromFile isDir s i seen
  | .endBuild blks => endBuild s blks
  | .clearWaiting k => clearWaiting s k
  | .commitResponse k => commitResponse s k

def State.live (s : State) : List Tx := s.front :: (s.next.toList ++ (s.back.toList ++ s.committing))

def links (txs : List Tx) (dfId : Fin 2) : List Nat := (txs.filter fun tx => decide (tx.dfId = dfId)).flatMap Tx.waiting

/-- A transaction is freed with an empty list, a link is in one list only, and the data fetcher of a live transaction is its
own. -/
structure Good (s : State) : Prop where
  freed : ∀ tx ∈ s.freed, tx.waiting = []
  once : ∀ dfId, (links (s.live ++ s.freed) dfId).Nodup
  held : ∀ tx ∈ s.live, s.occupied tx.dfId = true

def Unlinks (i : Nat) (seen : Found) : Prop := isDir i = false ∧ (seen.deleted = true ∨ seen.hasWorker = false)

instance (i : Nat) (seen : Found) : Decidable (Unlinks isDir i seen) := inferInstanceAs (Decidable (_ ∧ _))

/-- Every file of a transaction that is discarded was a regular file and deleted or without a worker when it was built. -/
def Unlinked (s : State) : Act → Prop
  | .endBuild blks => ∀ tx ∈ s.back, tx.Nothing blks → ∀ i ∈ tx.files, ∃ e ∈ tx.built,
    e.1 = i ∧ Unlinks isDir i e.2
  | _ => True

instance (s : State) : (act : Act) → Decidable (Unlinked isDir s act)
  | .endBuild blks => inferInstanceAs
      (Decidable (∀ tx ∈ s.back, tx.Nothing blks → ∀ i ∈ tx.files, ∃ e ∈ tx.built,
        e.1 = i ∧ Unlinks isDir i e.2))
  | .addJournalFile _ | .newTransaction | .startTransaction _ | .buildTxFromFile .. | .clearWaiting _ | .commitResponse _ =>
    .isTrue trivial

structure Building (tx : Tx) : Prop where
  files : tx.files.Nodup
  once : tx.waiting.Nodup
  waiting : ∀ i, i ∈ tx.waiting ↔ i ∈ tx.files ∧ ∀ e ∈ tx.built, e.1 = i → ¬ Unlinks isDir i e.2

structure Running (tx : Tx) : Prop where
  files : tx.files.Nodup
  waiting : tx.waiting = []
  built : tx.built = []

variable {isDir} {s t : State}

theorem newTx_running (dfId : Fin 2) : Running (newTx dfId) := ⟨nodup_nil,rfl,rfl⟩

theorem Building.empty_iff (building : Building isDir tx) :
    tx.waiting = [] ↔ ∀ i ∈ tx.files, ∃ e ∈ tx.built, e.1 = i ∧ Unlinks isDir i e.2 := by
  simp only [eq_nil_iff_forall_not_mem,building.waiting,not_and,not_forall,not_not,exists_prop]

theorem Running.start (running : Running tx) (blks : Nat) :
    Building isDir { tx with waiting := tx.waiting ++ tx.files, usedBlkCnt := blks } := by
  obtain ⟨files,waiting,built⟩ := running
  refine ⟨files,?_,fun i => ?_⟩
  · simpa [waiting] using files
  · simp [waiting,built]

theorem build_tx {t : Tx} (done : (if isDir i then buildJtxDirectory tx seen else buildJtxRegularFile tx i seen) = some t) :
    t.dfId = tx.dfId ∧ t.files = tx.files ∧ t.built = tx.built ∧
      t.waiting = if Unlinks isDir i seen then tx.waiting.erase i else tx.waiting := by
  by_cases dir : isDir i
  · have stays : ¬ Unlinks isDir i seen := by simp [Unlinks,dir]
    rw [if_pos dir,buildJtxDirectory] at done
    rw [if_neg stays]
    split at done
    · obtain rfl := some.inj done
      exact ⟨rfl,rfl,rfl,rfl⟩
    · obtain ⟨-,⟨⟩⟩ := ite_none_left_eq_some.mp done
      exact ⟨rfl,rfl,rfl,rfl⟩
  · rw [if_neg dir,buildJtxRegularFile] at done
    by_cases gone : seen.deleted ∨ ¬ seen.hasWorker
    · rw [if_pos gone] at done
      obtain rfl := some.inj done
      rw [if_pos ⟨by simpa using dir,by simpa using gone⟩]
      exact ⟨rfl,rfl,rfl,rfl⟩
    · rw [if_neg gone] at done
      rw [if_neg fun unlinks => gone (by simpa using unlinks.2)]
      split at done
      · obtain ⟨-,⟨⟩⟩ := ite_none_left_eq_some.mp done
        exact ⟨rfl,rfl,rfl,rfl⟩
      · obtain ⟨-,⟨⟩⟩ := ite_none_left_eq_some.mp done
        exact ⟨rfl,rfl,rfl,rfl⟩

theorem Building.build (building : Building isDir tx) {t : Tx} (files : t.files = tx.files) (built : t.built = tx.built)
    (waiting : t.waiting = if Unlinks isDir i seen then tx.waiting.erase i else tx.waiting) :
    Building isDir { t with built := t.built ++ [(i,seen)] } := by
  refine ⟨files ▸ building.files,?_,fun j => ?_⟩
  · dsimp only
    rw [waiting]
    split
    · exact building.once.erase i
    · exact building.once
  · dsimp only
    rw [waiting,files,built,forall_mem_append,forall_mem_singleton,← and_assoc,← building.waiting]
    split
    next unlinks =>
      rw [building.once.mem_erase_iff]
      constructor
      · rintro ⟨other,linked⟩
        exact ⟨linked,fun same => absurd same.symm other⟩
      · rintro ⟨linked,stays⟩
        exact ⟨fun same => stays same.symm (same ▸ unlinks),linked⟩
    next stays =>
      refine ⟨fun linked => ⟨linked,?_⟩,And.left⟩
      rintro rfl
      exact stays

def Exclusive (s : State) : Prop := Ledger (holder s.occupied) (s.live.map fun tx => (tx.dfId,()))

structure Invariant (isDir : Nat → Bool) (s : State) : Prop where
  exclusive : Exclusive s
  front : Running s.front
  next : ∀ tx ∈ s.next, Running tx
  back : ∀ tx ∈ s.back, Building isDir tx
  committing : ∀ tx ∈ s.committing, tx.waiting.Nodup

theorem init_exclusive : Exclusive init := by
  have taken := (Ledger.empty : Ledger (fun _ : Fin 2 => none) []).acquire (r := firstDf) rfl ()
  rw [Exclusive,init,Transactions.holder_take]
  exact taken

theorem init_invariant (isDir : Nat → Bool) : Invariant isDir init :=
  ⟨init_exclusive,newTx_running firstDf,by simp [init],by simp [init],by simp [init]⟩

theorem Exclusive.take (exclusive : Exclusive s) (free : s.occupied dfId = false) (empty : s.next = none) :
    Exclusive { s with occupied := Function.update s.occupied dfId true, next := some (newTx dfId) } := by
  have taken := exclusive.acquire (r := dfId) (by simp [holder,free]) ()
  rw [Exclusive,Transactions.holder_take]
  simp only [State.live,empty] at taken ⊢
  exact taken.perm (.swap _ _ _)

theorem Exclusive.free (exclusive : Exclusive s) (lived : s.live.Perm (tx :: t.live)) (same : t.occupied = s.occupied) :
    Exclusive (freeTransaction t tx) := by
  have freed := exclusive.perm (lived.map fun tx => (tx.dfId,()))
  rw [← same] at freed
  rw [Exclusive,freeTransaction,Transactions.holder_free]
  exact freed.release

theorem Exclusive.same (exclusive : Exclusive s) (occupied : t.occupied = s.occupied)
    (moved : (s.live.map Tx.dfId).Perm (t.live.map Tx.dfId)) : Exclusive t := by
  have moved := moved.map fun dfId => (dfId,())
  rw [List.map_map,List.map_map] at moved
  rw [Exclusive,occupied]
  exact exclusive.perm moved

theorem committing_perm (found : s.committing[k]? = some tx) :
    s.live.Perm (tx :: State.live { s with committing := s.committing.eraseIdx k }) := by
  obtain ⟨inside,rfl⟩ := List.getElem?_eq_some_iff.mp found
  have moved := (getElem_cons_eraseIdx_perm inside).symm.append_left (s.front :: (s.next.toList ++ s.back.toList))
  simpa [State.live] using moved.trans perm_middle

theorem links_nodup (ids : (s.live.map Tx.dfId).Nodup) (once : ∀ tx ∈ s.live, tx.waiting.Nodup)
    (freed : ∀ tx ∈ s.freed, tx.waiting = []) (dfId : Fin 2) : (links (s.live ++ s.freed) dfId).Nodup := by
  have none : (s.freed.filter fun tx => decide (tx.dfId = dfId)).flatMap Tx.waiting = [] :=
    flatMap_eq_nil_iff.mpr fun tx member => freed tx (mem_filter.mp member).1
  rw [links,filter_append,flatMap_append,none,append_nil,nodup_flatMap]
  refine ⟨fun tx member => once tx (mem_filter.mp member).1,?_⟩
  have apart := (pairwise_map.mp ids).filter fun tx => decide (tx.dfId = dfId)
  refine apart.imp_of_mem fun {one other} here there differ => ?_
  have same := of_decide_eq_true (mem_filter.mp here).2
  exact absurd (same.trans (of_decide_eq_true (mem_filter.mp there).2).symm) differ

theorem Invariant.once (inv : Invariant isDir s) (member : tx ∈ s.live) : tx.waiting.Nodup := by
  rcases mem_cons.mp member with rfl | member
  · rw [inv.front.waiting]
    exact nodup_nil
  rcases mem_append.mp member with next | member
  · rw [(inv.next tx (mem_toList.mp next)).waiting]
    exact nodup_nil
  rcases mem_append.mp member with back | committing
  · exact (inv.back tx (mem_toList.mp back)).once
  · exact inv.committing tx committing

/-- All that can go wrong is a transaction freed with inodes in its list. -/
theorem Invariant.good_iff (inv : Invariant isDir s) : Good s ↔ ∀ tx ∈ s.freed, tx.waiting = [] := by
  refine ⟨Good.freed,fun freed => ⟨freed,?_,?_⟩⟩
  · have ids := inv.exclusive.once
    rw [List.map_map] at ids
    exact links_nodup ids (fun _ member => inv.once member) freed
  · intro tx member
    have held := (inv.exclusive.owned tx.dfId ()).mp (mem_map_of_mem member)
    by_contra free
    simp [holder,free] at held

section Steps

variable (inv : Invariant isDir s)

include inv

theorem addJournalFile_invariant (i : Nat) : Invariant isDir (addJournalFile s i) :=
  { inv with
    exclusive := inv.exclusive.same rfl (.refl _)
    front := ⟨inv.front.files.insert,inv.front.waiting,inv.front.built⟩ }

theorem newTransaction_invariant (next : newTransaction s = some t) : Invariant isDir t ∧ t.freed = s.freed := by
  rw [newTransaction] at next
  obtain ⟨none,next⟩ := ite_none_right_eq_some.mp next
  obtain ⟨dfId,found,rfl⟩ := map_eq_some_iff.mp next
  have taken := inv.exclusive.take (Transactions.allocDataFetcher_free found) none.1
  refine ⟨{ inv with exclusive := taken, next := ?_ },rfl⟩
  rintro tx member
  obtain rfl := some.inj member
  exact newTx_running dfId

theorem startTransaction_invariant (next : startTransaction s blks = some t) : Invariant isDir t ∧ t.freed = s.freed := by
  rw [startTransaction] at next
  obtain ⟨none,next⟩ := ite_none_right_eq_some.mp next
  obtain ⟨tx,found,rfl⟩ := map_eq_some_iff.mp next
  refine ⟨⟨inv.exclusive.same rfl ?_,inv.next tx found,by simp,?_,inv.committing⟩,rfl⟩
  · simp only [State.live,found,none]
    exact .swap _ _ _
  · rintro tx member
    obtain rfl := some.inj member
    exact inv.front.start _

theorem buildTxFromFile_invariant (next : buildTxFromFile isDir s i seen = some t) :
    Invariant isDir t ∧ t.freed = s.freed := by
  obtain ⟨tx,back,next⟩ := bind_eq_some_iff.mp next
  obtain ⟨-,next⟩ := ite_none_right_eq_some.mp next
  obtain ⟨u,done,rfl⟩ := map_eq_some_iff.mp next
  obtain ⟨dfId,files,built,waiting⟩ := build_tx done
  refine ⟨{ inv with exclusive := inv.exclusive.same rfl ?_, back := ?_ },rfl⟩
  · simp [State.live,back,dfId]
  · rintro other member
    obtain rfl := some.inj member
    exact (inv.back tx back).build files built waiting

theorem endBuild_invariant (next : endBuild s blks = some t) : Invariant isDir t ∧
    (t.freed = s.freed ∧ (∀ tx ∈ s.back, ¬ tx.Nothing blks) ∨ ∃ tx, s.back = some tx ∧ tx.Nothing blks ∧
      t.freed = s.freed ++ [tx]) := by
  obtain ⟨tx,back,next⟩ := bind_eq_some_iff.mp next
  obtain ⟨-,next⟩ := ite_none_right_eq_some.mp next
  split at next
  next nothing =>
    obtain rfl := some.inj next
    refine ⟨{ inv with exclusive := inv.exclusive.free ?_ rfl, back := by simp [freeTransaction] },
      .inr ⟨tx,back,nothing,rfl⟩⟩
    have moved : (s.front :: s.next.toList ++ tx :: s.committing).Perm _ := perm_middle
    simpa [State.live,back] using moved
  next something =>
    obtain rfl := some.inj next
    refine ⟨{ inv with exclusive := inv.exclusive.same rfl ?_, back := by simp, committing := ?_ },
      .inl ⟨rfl,fun other member => ?_⟩⟩
    · simp only [State.live,back,toList_some,toList_none,nil_append,map_cons,map_append,map_nil,
        singleton_append]
      exact ((perm_append_singleton _ _).symm.append_left _).cons _
    · rintro other member
      rcases mem_append.mp member with old | new
      · exact inv.committing other old
      · rw [mem_singleton.mp new]
        exact (inv.back tx back).once
    · rwa [some.inj (back.symm.trans member)] at something

theorem clearWaiting_invariant (next : clearWaiting s k = some t) : Invariant isDir t ∧ t.freed = s.freed := by
  obtain ⟨tx,found,rfl⟩ := map_eq_some_iff.mp next
  obtain ⟨inside,rfl⟩ := List.getElem?_eq_some_iff.mp found
  refine ⟨{ inv with exclusive := inv.exclusive.same rfl ?_, committing := ?_ },rfl⟩
  · have same : (s.committing.set k { s.committing[k] with waiting := s.committing[k].waiting.tail }).map Tx.dfId =
        s.committing.map Tx.dfId := by
      rw [map_set]
      apply ext_getElem
      · simp
      · intro j one two
        rw [getElem_set]
        split
        next here => simp [here]
        · rfl
    simp [State.live,same]
  · intro tx member
    rcases mem_or_eq_of_mem_set member with old | rfl
    · exact inv.committing tx old
    · exact (inv.committing _ (getElem_mem inside)).tail

theorem commitResponse_invariant (next : commitResponse s k = some t) :
    Invariant isDir t ∧ ∃ tx, tx.waiting = [] ∧ t.freed = s.freed ++ [tx] := by
  obtain ⟨tx,found,next⟩ := bind_eq_some_iff.mp next
  obtain ⟨empty,⟨⟩⟩ := ite_none_right_eq_some.mp next
  refine ⟨{ inv with exclusive := inv.exclusive.free (committing_perm found) rfl, committing := ?_ },tx,empty,rfl⟩
  exact fun other member => inv.committing other (mem_of_mem_eraseIdx member)

end Steps

/-- A step leaves only empty lists behind, if it is not a discard with an inode still linked. -/
theorem step_freed (inv : Invariant isDir s) (freed : ∀ tx ∈ s.freed, tx.waiting = [])
    (next : step isDir s act = some t) : Invariant isDir t ∧
      ((∀ tx ∈ t.freed, tx.waiting = []) ↔ Unlinked isDir s act) := by
  have kept : Invariant isDir t ∧ t.freed = s.freed → Unlinked isDir s act →
      Invariant isDir t ∧ ((∀ tx ∈ t.freed, tx.waiting = []) ↔ Unlinked isDir s act) := by
    rintro ⟨after,same⟩ meets
    rw [same]
    exact ⟨after,iff_of_true freed meets⟩
  cases act with
  | addJournalFile i =>
    obtain rfl := some.inj next
    exact kept ⟨addJournalFile_invariant inv i,rfl⟩ trivial
  | newTransaction => exact kept (newTransaction_invariant inv next) trivial
  | startTransaction blks => exact kept (startTransaction_invariant inv next) trivial
  | buildTxFromFile i seen => exact kept (buildTxFromFile_invariant inv next) trivial
  | endBuild blks =>
    obtain ⟨after,⟨same,something⟩ | ⟨tx,back,nothing,more⟩⟩ := endBuild_invariant inv next
    · exact kept ⟨after,same⟩ fun tx member nothing => absurd nothing (something tx member)
    · refine ⟨after,?_⟩
      have discards : Unlinked isDir s (.endBuild blks) ↔ tx.waiting = [] := by
        rw [(inv.back tx back).empty_iff]
        constructor
        · exact fun meets => meets tx back nothing
        · intro unlinked other member _
          rwa [← some.inj (back.symm.trans member)]
      rw [discards,more,forall_mem_append,forall_mem_singleton]
      exact and_iff_right freed
  | clearWaiting k => exact kept (clearWaiting_invariant inv next) trivial
  | commitResponse k =>
    obtain ⟨after,tx,empty,more⟩ := commitResponse_invariant inv next
    refine ⟨after,iff_of_true ?_ trivial⟩
    rw [more,forall_mem_append,forall_mem_singleton]
    exact ⟨freed,empty⟩

/-- Waiting lists die with their transaction, and every link is in the list of one live transaction, just when every
transaction that is discarded has only files that were regular and deleted or without a worker. -/
theorem waiting_lists_iff (isDir : Nat → Bool) (acts : List Act) (t : State) (ran : run (step isDir) init acts = some t) :
    Meets (fun s act t => step isDir s act = some t ∧ Good t) init acts ↔ Along (step isDir) (Unlinked isDir) init acts := by
  refine meets_iff_along_of_run (step isDir) (fun _ _ t => Good t) (Unlinked isDir)
    (fun s => Invariant isDir s ∧ ∀ tx ∈ s.freed, tx.waiting = []) ?_ ?_ init acts t
      ⟨init_invariant isDir,by simp [init]⟩ ran
  · rintro s act t ⟨inv,freed⟩ next
    obtain ⟨after,exactly⟩ := step_freed inv freed next
    rw [after.good_iff,exactly]
  · rintro s act t ⟨inv,freed⟩ next good
    exact ⟨(step_freed inv freed next).1,good.freed⟩

def regular : Nat → Bool := fun _ => false

def mapped : Found := ⟨⟨⟨true,true,false,false,false,false⟩,false⟩,true,1⟩

def deletedDiscarded : List Act :=
  [.addJournalFile 1,.newTransaction,.startTransaction 0,.buildTxFromFile 1 mapped,.endBuild 0,.addJournalFile 2,
    .clearWaiting 0,.commitResponse 0,.newTransaction,.startTransaction 0,.buildTxFromFile 2
      { mapped with deleted := true },.endBuild 0]

theorem waiting_lists_iff_deleted : ∃ t, run (step regular) init deletedDiscarded = some t ∧
    Meets (fun s act t => step regular s act = some t ∧ Good t) init deletedDiscarded := by
  have ends : (run (step regular) init deletedDiscarded).isSome := by decide
  obtain ⟨t,ran⟩ := isSome_iff_exists.mp ends
  exact ⟨t,ran,(waiting_lists_iff regular deletedDiscarded t ran).mpr (by decide)⟩

def unsharedDiscarded : List Act :=
  [.addJournalFile 1,.newTransaction,.startTransaction 0,.buildTxFromFile 1 { mapped with shmHeader := false },.endBuild 0]

def fetcherReused : List Act :=
  [.newTransaction,.startTransaction 0,.endBuild 0,.addJournalFile 1,.newTransaction,.startTransaction 0]

/-- The discard frees the transaction with the file still in its list; later the link is in this list and in that of a live
one. -/
theorem discard_leaves_links : ∃ s t, run (step regular) init unsharedDiscarded = some s ∧ s.freed.map Tx.waiting = [[1]] ∧
    run (step regular) s fetcherReused = some t ∧ links (t.live ++ t.freed) firstDf = [1,1] ∧ ¬ Good s ∧ ¬ Good t := by
  have first : (run (step regular) init unsharedDiscarded).map (fun s => s.freed.map Tx.waiting) = some [[1]] := by decide
  have second : ((run (step regular) init unsharedDiscarded).bind fun s => run (step regular) s fetcherReused).map
      (fun t => links (t.live ++ t.freed) firstDf) = some [1,1] := by decide
  obtain ⟨s,ran,freed⟩ := map_eq_some_iff.mp first
  rw [ran,bind_some] at second
  obtain ⟨t,later,twice⟩ := map_eq_some_iff.mp second
  refine ⟨s,t,ran,freed,later,twice,fun good => ?_,fun good => ?_⟩
  · obtain ⟨tx,member,linked⟩ : ∃ tx ∈ s.freed, tx.waiting = [1] := by
      simpa using mem_map.mp (freed ▸ mem_singleton_self [1])
    exact absurd (linked.symm.trans (good.freed tx member)) (by decide)
  · have once := good.once firstDf
    rw [twice] at once
    exact absurd once (by decide)

end Oxbow.Daemon.WaitingLists
