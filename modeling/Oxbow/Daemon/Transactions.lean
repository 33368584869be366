import Mathlib.Algebra.Ring.Nat
import Oxbow.Lib.Ledger
import Oxbow.Lib.Run

/-! The journal transactions of the daemon: the journal worker builds the running transaction, makes the
one to follow it, which takes a data fetcher and an id, and discards or sends what it has built; the answer
to a commit request frees the transaction and its data fetcher. -/
namespace Oxbow.Daemon.Transactions

open Oxbow.Lib Function List Option

structure Transaction where
  tid : UInt32
  dfId : Fin 2
  deriving DecidableEq, Repr

inductive Worker
  | idle
  | creating (descId tid : UInt32)
  | created (descId : UInt32) (next : Transaction)
  | building (tx : Transaction) (descId : UInt32) (chunks : List Nat)
  deriving DecidableEq, Repr

structure State where
  sequence : UInt32
  occupied : Fin 2 → Bool
  front : Transaction
  worker : Worker
  committing : List Transaction
  sent : List UInt32

def allocDataFetcher (occupied : Fin 2 → Bool) : Option (Fin 2) := (finRange 2).find? fun i => !occupied i

def firstDf : Fin 2 := ⟨0,Nat.two_pos⟩

def init (sequence : UInt32) : State :=
  ⟨sequence + 1,update (fun _ => false) firstDf true,⟨sequence,firstDf⟩,.idle,[],[]⟩

inductive Act
  | pass
  | newTransaction
  | allocDataFetcher
  | startTransaction
  | requestDataFetch (nBlks : Nat)
  | discardTransaction
  | requestCommit (mdBlks : Nat)
  | freeTransaction (k : Nat)
  deriving DecidableEq, Repr

/-- A transaction that has sent data is not empty, and metadata has at least the descriptor. -/
def step (s : State) (act : Act) : Option State :=
  match act,s.worker with
  | .pass,.idle => some s
  | .newTransaction,.idle => some {s with worker := .creating s.front.tid s.sequence,sequence := s.sequence + 1}
  | .allocDataFetcher,.creating descId tid =>
    (allocDataFetcher s.occupied).map fun dfId =>
      {s with occupied := update s.occupied dfId true,worker := .created descId ⟨tid,dfId⟩}
  | .startTransaction,.created descId next => some {s with front := next,worker := .building s.front descId []}
  | .requestDataFetch nBlks,.building tx descId chunks =>
    if 0 < nBlks then some {s with worker := .building tx descId (chunks ++ [nBlks])} else none
  | .discardTransaction,.building tx _ [] =>
    some {s with
      front := {s.front with tid := s.front.tid - 1},sequence := s.sequence - 1
      occupied := update s.occupied tx.dfId false,worker := .idle}
  | .requestCommit mdBlks,.building tx descId _ =>
    if 0 < mdBlks then some {s with committing := s.committing ++ [tx],sent := s.sent ++ [descId],worker := .idle}
    else none
  | .freeTransaction k,_ =>
    s.committing[k]?.map fun tx =>
      {s with committing := s.committing.eraseIdx k,occupied := update s.occupied tx.dfId false}
  | _,_ => none

def Worker.transactions : Worker → List Transaction
  | .created _ next => [next]
  | .building tx _ _ => [tx]
  | _ => []

def State.live (s : State) : List Transaction := s.front :: s.worker.transactions ++ s.committing

inductive Moves (s : State) : Act → State → Prop
  | pass (idle : s.worker = .idle) : Moves s .pass s
  | newTransaction (idle : s.worker = .idle) :
      Moves s .newTransaction {s with worker := .creating s.front.tid s.sequence,sequence := s.sequence + 1}
  | allocDataFetcher {descId tid : UInt32} {dfId : Fin 2} (creating : s.worker = .creating descId tid)
      (free : s.occupied dfId = false) :
      Moves s .allocDataFetcher
        {s with occupied := update s.occupied dfId true,worker := .created descId ⟨tid,dfId⟩}
  | startTransaction {descId : UInt32} {next : Transaction} (created : s.worker = .created descId next) :
      Moves s .startTransaction {s with front := next,worker := .building s.front descId []}
  | requestDataFetch {tx : Transaction} {descId : UInt32} {chunks : List Nat} {nBlks : Nat}
      (building : s.worker = .building tx descId chunks) (positive : 0 < nBlks) :
      Moves s (.requestDataFetch nBlks) {s with worker := .building tx descId (chunks ++ [nBlks])}
  | discardTransaction {tx : Transaction} {descId : UInt32} (building : s.worker = .building tx descId []) :
      Moves s .discardTransaction {s with
        front := {s.front with tid := s.front.tid - 1},sequence := s.sequence - 1
        occupied := update s.occupied tx.dfId false,worker := .idle}
  | requestCommit {tx : Transaction} {descId : UInt32} {chunks : List Nat} {mdBlks : Nat}
      (building : s.worker = .building tx descId chunks) (positive : 0 < mdBlks) :
      Moves s (.requestCommit mdBlks)
        {s with committing := s.committing ++ [tx],sent := s.sent ++ [descId],worker := .idle}
  | freeTransaction {k : Nat} {tx : Transaction} (answered : s.committing[k]? = some tx) :
      Moves s (.freeTransaction k)
        {s with committing := s.committing.eraseIdx k,occupied := update s.occupied tx.dfId false}

theorem allocDataFetcher_free (found : allocDataFetcher occupied = some dfId) : occupied dfId = false := by
  have free := List.find?_some found
  simpa using free

theorem step_moves (next : step s act = some t) : Moves s act t := by
  unfold step at next
  split at next
  next idle =>
    obtain rfl := some.inj next
    exact .pass idle
  next idle =>
    obtain rfl := some.inj next
    exact .newTransaction idle
  next creating =>
    obtain ⟨dfId,found,rfl⟩ := map_eq_some_iff.mp next
    exact .allocDataFetcher creating (allocDataFetcher_free found)
  next created =>
    obtain rfl := some.inj next
    exact .startTransaction created
  next building =>
    obtain ⟨positive,⟨⟩⟩ := ite_none_right_eq_some.mp next
    exact .requestDataFetch building positive
  next building =>
    obtain rfl := some.inj next
    exact .discardTransaction building
  next building =>
    obtain ⟨positive,⟨⟩⟩ := ite_none_right_eq_some.mp next
    exact .requestCommit building positive
  · obtain ⟨tx,answered,rfl⟩ := map_eq_some_iff.mp next
    exact .freeTransaction answered
  · cases next

section

variable (occupied : Fin 2 → Bool) (dfId : Fin 2)

def holder : Option Unit := if occupied dfId then some () else none

theorem holder_take : holder (update occupied dfId true) = update (holder occupied) dfId (some ()) := by
  funext other
  by_cases same : other = dfId <;> simp [holder,same]

theorem holder_free : holder (update occupied dfId false) = update (holder occupied) dfId none := by
  funext other
  by_cases same : other = dfId <;> simp [holder,same]

end

def holding (tx : Transaction) : Fin 2 × Unit := (tx.dfId,())

/-- Each live transaction has a data fetcher of its own, and the others are free. -/
def Exclusive (s : State) : Prop := Ledger (holder s.occupied) (s.live.map holding)

section

variable (exclusive : Exclusive s)
include exclusive

theorem Exclusive.distinct : (s.live.map Transaction.dfId).Nodup := by
  have once := exclusive.once
  rwa [List.map_map] at once

theorem Exclusive.front_apart (member : tx ∈ s.committing) : tx.dfId ≠ s.front.dfId := by
  have distinct := exclusive.distinct
  simp only [State.live,cons_append,map_cons,map_append,nodup_cons,mem_append] at distinct
  exact fun same => distinct.1 (.inr (same ▸ mem_map_of_mem member))

theorem Exclusive.building_apart (building : s.worker = .building tx descId chunks) (member : other ∈ s.committing) :
    other.dfId ≠ tx.dfId := by
  have distinct := exclusive.distinct
  simp only [State.live,building,Worker.transactions,cons_append,nil_append,map_cons,nodup_cons] at distinct
  exact fun same => distinct.2.1 (same ▸ mem_map_of_mem member)

theorem Exclusive.committing_apart
    (answered : s.committing[k]? = some tx) (member : other ∈ s.committing.eraseIdx k) : other.dfId ≠ tx.dfId := by
  obtain ⟨inside,rfl⟩ := List.getElem?_eq_some_iff.mp answered
  have distinct := exclusive.distinct
  rw [State.live,map_append,nodup_append] at distinct
  have moved := ((getElem_cons_eraseIdx_perm inside).map Transaction.dfId).nodup_iff.mpr distinct.2.1
  rw [map_cons,nodup_cons] at moved
  exact fun same => moved.1 (same ▸ mem_map_of_mem member)

end

theorem init_exclusive (sequence : UInt32) : Exclusive (init sequence) := by
  have taken := (Ledger.empty : Ledger (fun _ : Fin 2 => none) []).acquire (r := firstDf) rfl ()
  rw [Exclusive,init,holder_take]
  exact taken

theorem Exclusive.moves (exclusive : Exclusive s) (moves : Moves s act t) : Exclusive t := by
  unfold Exclusive State.live at *
  cases moves with
  | pass => exact exclusive
  | newTransaction idle =>
    rw [idle] at exclusive
    exact exclusive
  | allocDataFetcher creating free =>
    rw [creating] at exclusive
    rw [holder_take]
    exact (exclusive.acquire (by simp [holder,free]) ()).perm (.swap _ _ _)
  | startTransaction created =>
    rw [created] at exclusive
    exact exclusive.perm (.swap _ _ _)
  | requestDataFetch building =>
    rw [building] at exclusive
    exact exclusive
  | discardTransaction building =>
    rw [building] at exclusive
    rw [holder_free]
    exact (exclusive.perm (.swap _ _ _)).release
  | requestCommit building =>
    rw [building] at exclusive
    refine exclusive.perm ?_
    simp only [Worker.transactions,cons_append,nil_append,map_cons,map_append,map_nil]
    exact (perm_append_singleton _ _).symm.cons _
  | freeTransaction answered =>
    rw [holder_free]
    obtain ⟨inside,rfl⟩ := List.getElem?_eq_some_iff.mp answered
    have moved := ((getElem_cons_eraseIdx_perm inside).symm.append_left (s.front :: s.worker.transactions)).trans
      perm_middle
    exact (exclusive.perm (moved.map holding)).release

section Ids

variable {sequence : UInt32}

section

variable (sequence : UInt32)

def idAfter (n : Nat) : UInt32 := sequence + UInt32.ofNat n

theorem idAfter_succ (n : Nat) : idAfter sequence (n + 1) = idAfter sequence n + 1 := by
  rw [idAfter,idAfter,UInt32.ofNat_add,UInt32.add_assoc]
  rfl

def Numbered (s : State) : Prop :=
  s.sent = (List.range s.sent.length).map (idAfter sequence) ∧
    match s.worker with
    | .idle => s.front.tid = idAfter sequence s.sent.length ∧ s.sequence = idAfter sequence s.sent.length + 1
    | .creating descId tid => descId = idAfter sequence s.sent.length ∧ tid = idAfter sequence s.sent.length + 1 ∧
        s.sequence = idAfter sequence s.sent.length + 1 + 1
    | .created descId next => descId = idAfter sequence s.sent.length ∧ next.tid = idAfter sequence s.sent.length + 1 ∧
        s.sequence = idAfter sequence s.sent.length + 1 + 1
    | .building _ descId _ => descId = idAfter sequence s.sent.length ∧ s.front.tid = idAfter sequence s.sent.length + 1 ∧
        s.sequence = idAfter sequence s.sent.length + 1 + 1

theorem init_numbered : Numbered sequence (init sequence) := by
  simp [Numbered,init,idAfter]

end

theorem Numbered.moves (numbered : Numbered sequence s) (moves : Moves s act t) : Numbered sequence t := by
  obtain ⟨sent,ids⟩ := numbered
  cases moves with
  | pass => exact ⟨sent,ids⟩
  | newTransaction idle =>
    rw [idle] at ids
    obtain ⟨front,next⟩ := ids
    exact ⟨sent,front,next,congrArg (· + 1) next⟩
  | allocDataFetcher creating =>
    rw [creating] at ids
    exact ⟨sent,ids⟩
  | startTransaction created =>
    rw [created] at ids
    exact ⟨sent,ids⟩
  | requestDataFetch building =>
    rw [building] at ids
    exact ⟨sent,ids⟩
  | discardTransaction building =>
    rw [building] at ids
    obtain ⟨_,front,next⟩ := ids
    refine ⟨sent,?_,?_⟩
    · simp [front]
    · simp [next]
  | requestCommit building =>
    rw [building] at ids
    obtain ⟨desc,front,next⟩ := ids
    refine ⟨?_,?_,?_⟩
    · rw [length_append,length_singleton,range_succ,map_append,← sent,desc]
      rfl
    · simpa [idAfter_succ] using front
    · simpa [idAfter_succ] using next
  | freeTransaction => exact ⟨sent,ids⟩

theorem idAfter_toNat (sequence : UInt32) (n : Nat) : (idAfter sequence n).toNat = (sequence.toNat + n) % 2^32 := by
  simp [idAfter]

theorem ids_consecutive_iff (sequence : UInt32) (n : Nat) :
    (List.range n).map (fun i => (idAfter sequence i).toNat) = List.range' sequence.toNat n ↔ sequence.toNat + n ≤ 2^32 := by
  have small := sequence.toNat_lt
  rw [List.range'_eq_map_range,map_inj_left]
  simp only [mem_range,idAfter_toNat]
  constructor
  · intro same
    by_contra wraps
    have last := same (2^32 - sequence.toNat) (by omega)
    omega
  · intro room i early
    omega

/-- The ids in the descriptor blocks of the transactions sent are consecutive integers, from the one the
superblock holds on, if and only if they all fit in a `tid_t`. -/
theorem sent_ids_consecutive_iff (sequence : UInt32) (acts : List Act) (s : State)
    (ran : run step (init sequence) acts = some s) :
    s.sent.map UInt32.toNat = List.range' sequence.toNat s.sent.length ↔ sequence.toNat + s.sent.length ≤ 2^32 := by
  have numbered := run_invariant_always step (Numbered sequence) (fun _ _ _ numbered next => numbered.moves (step_moves next))
    _ acts s (init_numbered sequence) ran
  rw [← ids_consecutive_iff]
  conv_lhs => rw [numbered.1]
  simp [comp_def]

def sentDiscardedSent : List Act :=
  [.newTransaction,.allocDataFetcher,.startTransaction,.requestDataFetch 3,.requestCommit 1,.freeTransaction 0,
    .newTransaction,.allocDataFetcher,.startTransaction,.discardTransaction,.pass,
    .newTransaction,.allocDataFetcher,.startTransaction,.requestCommit 1]

theorem sent_ids_consecutive_iff_discard : ∃ s, run step (init 7) sentDiscardedSent = some s ∧ s.sent = [7,8] ∧
    s.sent.map UInt32.toNat = List.range' 7 2 := by
  have ends : (run step (init 7) sentDiscardedSent).map State.sent = some [7,8] := by decide
  obtain ⟨s,ran,sent⟩ := map_eq_some_iff.mp ends
  have exactly := sent_ids_consecutive_iff 7 sentDiscardedSent s ran
  rw [sent] at exactly
  exact ⟨s,ran,sent,by rw [sent]; exact exactly.mpr (by decide)⟩

/-- The second id wraps around. -/
theorem sent_ids_wrap : ∃ s, run step (init 4294967295) sentDiscardedSent = some s ∧
    s.sent.map UInt32.toNat = [4294967295,0] ∧ s.sent.map UInt32.toNat ≠ List.range' 4294967295 s.sent.length := by
  have ends : (run step (init 4294967295) sentDiscardedSent).map State.sent = some [4294967295,0] := by decide
  obtain ⟨s,ran,sent⟩ := map_eq_some_iff.mp ends
  exact ⟨s,ran,by rw [sent]; decide,by rw [sent]; decide⟩

end Ids

end Oxbow.Daemon.Transactions
