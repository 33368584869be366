import Oxbow.Daemon.JournalBuild
import Oxbow.Lib.Run

/-! The requests a journal transaction sends to DevFS. A data buffer goes out when it is full, from inside either of
the copy loops; what is left goes out with the commit request, which says how much there was. -/
namespace Oxbow.Daemon.JournalBuild

open Oxbow.Lib Oxbow.Sjd List Option
open JournalMeta (bufBlocks)
open Stage (RangeDirty)

structure CommitRequest where
  mdSize : Nat
  totalDataSize : Nat
  nFetchReqs : Nat

def requestCommit (tx : JournalTx β) : JournalTx β × CommitRequest :=
  let tx := (requestDataFetch tx).getD { tx with cur := [], nrBlocks := 0, nDfBufs := tx.nDfBufs - 1 }
  (tx,⟨nblksToBytes bufBlocks - nblksToBytes tx.md.mdNrBlocks,nblksToBytes tx.usedBlkCnt,tx.nDfBufs⟩)

/-- The end of `build_transaction` and the journal worker after it: all that is sent for a transaction. -/
def sendTransaction (tx : JournalTx β) : List (Fetch β) × Option CommitRequest :=
  if tx.usedBlkCnt = 0 ∧ tx.traceBlk = false then (tx.requests,none)
  else
    let sent := requestCommit tx
    (sent.1.requests,some sent.2)

inductive CopyOp (β : Type)
  | blk (src : β)
  | run (data : Nat → β) (rd : RangeDirty)

def copyStep (tx : JournalTx β) : CopyOp β → Option (JournalTx β)
  | .blk src => copyBlk tx src
  | .run data rd => copyRun data rd.nr rd.start rd.nr tx

def CopyOp.blks : CopyOp β → List β
  | .blk src => [src]
  | .run data rd => (List.range' rd.start rd.nr).map data

/-- What DevFS relies on. A transaction that is not sent has no requests. -/
structure Protocol (fetches : List (Fetch β)) (commit : Option CommitRequest) : Prop where
  full : ∀ r ∈ fetches.dropLast, r.size = nblksToBytes bufBlocks
  ids : fetches.map Fetch.reqId = List.range fetches.length
  nonempty : ∀ r ∈ fetches, 0 < r.size
  total : (fetches.map Fetch.size).sum = (commit.map CommitRequest.totalDataSize).getD 0
  announced : (commit.map CommitRequest.nFetchReqs).getD 0 = fetches.length

variable {tx : JournalTx β}

def lastFetch (tx : JournalTx β) : List (Fetch β) :=
  if tx.cur = [] then [] else [⟨tx.requests.length,nblksToBytes tx.cur.length,tx.cur⟩]

theorem Sound.cur_le (sound : Sound tx) : tx.cur.length < bufBlocks := by
  have size := sound.size
  have room := sound.room
  omega

theorem Sound.unsent (sound : Sound tx) : (((tx.usedBlkCnt : Int) - tx.nrSentBlks) % 2^32).toNat = tx.cur.length := by
  have small := sound.cur_le
  exact unsent_eq sound.sent sound.used (by simp only [bufBlocks] at small; omega)

theorem requestCommit_requests (sound : Sound tx) : (requestCommit tx).1.requests = tx.requests ++ lastFetch tx := by
  simp only [requestCommit,requestDataFetch,sound.unsent,lastFetch]
  cases tx.cur with
  | nil => simp
  | cons b bs => simp [sound.bufs]

theorem requestCommit_nFetchReqs (sound : Sound tx) :
    (requestCommit tx).2.nFetchReqs = (tx.requests ++ lastFetch tx).length := by
  simp only [requestCommit,requestDataFetch,sound.unsent,lastFetch]
  cases tx.cur with
  | nil => simp [sound.bufs]
  | cons b bs => simp [sound.bufs]

theorem requestCommit_totalDataSize (tx : JournalTx β) : (requestCommit tx).2.totalDataSize = nblksToBytes tx.usedBlkCnt := by
  simp only [requestCommit,requestDataFetch]
  split
  · rfl
  · rfl

theorem sum_sizes (fetches : List (Fetch β)) (sizes : ∀ r ∈ fetches, r.size = nblksToBytes r.blks.length) :
    (fetches.map Fetch.size).sum = nblksToBytes (fetches.flatMap Fetch.blks).length := by
  induction fetches with
  | nil => simp [nblksToBytes]
  | cons r fetches ih =>
    obtain ⟨first,rest⟩ := forall_mem_cons.mp sizes
    simp only [map_cons,sum_cons,flatMap_cons,length_append,nblksToBytes] at ih first ⊢
    rw [ih rest,first,Nat.add_mul]

section

variable (sound : Sound tx)
include sound

theorem Sound.sizes : ((tx.requests ++ lastFetch tx).map Fetch.size).sum = nblksToBytes (copied tx).length := by
  have carried : (tx.requests ++ lastFetch tx).flatMap Fetch.blks = copied tx := by
    rw [flatMap_append,copied,lastFetch]
    split
    next none => simp [none]
    next => simp
  rw [sum_sizes,carried]
  intro r member
  rcases mem_append.mp member with earlier | last
  · obtain ⟨length,size⟩ := sound.full r earlier
    rw [length,size]
  · rw [lastFetch] at last
    split at last
    · cases last
    · obtain rfl := mem_singleton.mp last
      rfl

theorem Sound.ids_last : (tx.requests ++ lastFetch tx).map Fetch.reqId = List.range (tx.requests ++ lastFetch tx).length := by
  rw [lastFetch]
  split
  · simpa using sound.ids
  · simp [sound.ids,range_succ]

theorem Sound.full_last : ∀ r ∈ (tx.requests ++ lastFetch tx).dropLast, r.size = nblksToBytes bufBlocks := by
  intro r member
  apply (sound.full r ?_).2
  rw [lastFetch] at member
  split at member
  · rw [append_nil] at member
    exact dropLast_subset _ member
  · rw [dropLast_concat] at member
    exact member

theorem Sound.nonempty_last : ∀ r ∈ tx.requests ++ lastFetch tx, 0 < r.size := by
  intro r member
  rcases mem_append.mp member with earlier | last
  · rw [(sound.full r earlier).2]
    decide
  · rw [lastFetch] at last
    split at last
    · cases last
    next some =>
      obtain rfl := mem_singleton.mp last
      have length := length_pos_iff.mpr some
      simp only [nblksToBytes]
      omega

/-- A counter of blocks that has not wrapped is what the requests need to agree with the commit request. -/
theorem Sound.protocol_iff : Protocol (sendTransaction tx).1 (sendTransaction tx).2 ↔ (copied tx).length < 2^32 := by
  have used := sound.used
  rw [sendTransaction]
  split
  next dropped =>
    -- no commit request: the counter is zero because nothing was copied or because it has wrapped
    have sizes := sound.sizes
    constructor
    · intro protocol
      have none : tx.requests = [] := eq_nil_of_length_eq_zero protocol.announced.symm
      have small := sound.cur_le
      simp only [copied,none,flatMap_nil,nil_append,bufBlocks] at small ⊢
      omega
    · intro small
      have length : (copied tx).length = 0 := by omega
      have none : tx.requests = [] := by
        cases given : tx.requests with
        | nil => rfl
        | cons r rest =>
          have full := (sound.full r (by simp [given])).1
          simp only [copied,given,flatMap_cons,length_append,bufBlocks] at length full
          omega
      rw [none]
      exact ⟨by simp,rfl,by simp,rfl,rfl⟩
  next =>
    simp only [requestCommit_requests sound]
    constructor
    · intro protocol
      have total := protocol.total
      simp only [map_some,getD_some,sound.sizes,requestCommit_totalDataSize,nblksToBytes] at total
      omega
    · intro small
      refine ⟨sound.full_last,sound.ids_last,sound.nonempty_last,?_,?_⟩
      · simp only [map_some,getD_some,sound.sizes,requestCommit_totalDataSize,nblksToBytes]
        omega
      · simp only [map_some,getD_some,requestCommit_nFetchReqs sound]

theorem copyStep_adds (op : CopyOp β) : ∃ tx', copyStep tx op = some tx' ∧ Adds tx tx' op.blks [] := by
  cases op with
  | blk src => exact copyBlk_adds sound src
  | run data rd => exact copyRun_adds data rd.nr rd.start rd.nr (Nat.le_refl _) sound

end

theorem run_copyStep_adds (ops : List (CopyOp β)) (sound : Sound tx) :
    ∃ tx', run copyStep tx ops = some tx' ∧ Adds tx tx' (ops.flatMap CopyOp.blks) [] := by
  induction ops generalizing tx with
  | nil => exact ⟨tx,rfl,.refl sound⟩
  | cons op ops ih =>
    obtain ⟨t,first,one⟩ := copyStep_adds sound op
    obtain ⟨tx',later,rest⟩ := ih one.sound
    exact ⟨tx',(run_cons copyStep first ops).trans later,one.trans rest⟩

theorem start_traced (memory : Nat → Page) (traced : Bool) : Sound ({ start memory with traceBlk := traced } : JournalTx β) :=
  let sound := (start_sound memory).1
  ⟨sound.room,sound.size,sound.sent,sound.used,sound.full,sound.ids,sound.bufs,sound.held,sound.next⟩

/-- However blocks and runs follow each other, every copy is made, and the requests agree with the commit request exactly
if the blocks can be counted in 32 bits. -/
theorem requests_protocol_iff (memory : Nat → Page) (traced : Bool) (ops : List (CopyOp β)) :
    ∃ tx, run copyStep { start memory with traceBlk := traced } ops = some tx ∧
      (Protocol (sendTransaction tx).1 (sendTransaction tx).2 ↔ (ops.flatMap CopyOp.blks).length < 2^32) := by
  obtain ⟨tx,ran,adds⟩ := run_copyStep_adds ops (start_traced memory traced)
  have copies : copied tx = ops.flatMap CopyOp.blks := adds.copied
  refine ⟨tx,ran,?_⟩
  rw [← copies]
  exact adds.sound.protocol_iff

/-- The transactions that `build_transaction` makes are of this kind, also when `get_blocks` fails. -/
theorem buildTransaction_protocol_iff (memory : Nat → Page) (built : buildTransaction memory src calls = some (tx,rest)) :
    Protocol (sendTransaction tx).1 (sendTransaction tx).2 ↔ (copied tx).length < 2^32 := by
  have places : Places (fun _ _ => True) src calls :=
    ⟨fun _ _ => trivial,fun _ _ _ _ => trivial,fun _ _ => trivial,fun _ _ _ _ _ _ _ => trivial⟩
  exact (buildTransaction_built memory places built).sound.protocol_iff

end Oxbow.Daemon.JournalBuild
