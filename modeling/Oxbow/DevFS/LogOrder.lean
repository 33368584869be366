import Mathlib.Data.Fintype.Card
import Oxbow.Daemon.Transactions
import Oxbow.DevFS.Commit
import Oxbow.DevFS.CommitTurn

/-! The daemon and DevFS together: a transaction holds its data fetcher until its commit request is
answered, so the log of a data fetcher gets one transaction after the other, and the checkpoint frees them
in the order in which they lie in the log. -/
namespace Oxbow.DevFS.LogOrder

open Oxbow.Lib Oxbow.Daemon.Transactions List Option

structure Fetch where
  reqId : Nat
  nBlks : Nat
  deriving DecidableEq, Repr

inductive Stage
  | requested
  | reserved (entry : CkptEntry)
  | committed
  | failed
  deriving DecidableEq, Repr

structure Request where
  tx : Transaction
  descId : UInt32
  chunks : List Nat
  mdBlks : Nat
  stage : Stage
  deriving DecidableEq, Repr

def Request.dataBlks (r : Request) : Nat := u32 r.chunks.sum

/-- What DevFS has for one data fetcher, the messages on their way to it included. The last two fields are
the transactions in the order in which they got their space and in which they were committed. -/
structure Port where
  log : JournalLog
  ctx : FetchCtx
  fetches : List Fetch
  requests : List Request
  segments : List Extent
  commits : List Extent

structure CkptListEntry where
  dfId : Fin 2
  entry : CkptEntry
  ready : Bool
  deriving DecidableEq, Repr

structure State where
  daemon : Daemon.Transactions.State
  port : Fin 2 → Port
  seqn : Nat
  ckptList : List CkptListEntry
  ckpt : Option CkptListEntry

def extentOf (e : CkptEntry) : Extent := ⟨e.jStartBaddr,e.totalTxSize / blockSize⟩

inductive Act
  | daemon (act : Daemon.Transactions.Act)
  | persistData (dfId : Fin 2) (k : Nat)
  | fetchFails (dfId : Fin 2) (k : Nat)
  | persistMeta (dfId : Fin 2) (k : Nat)
  /-- The metadata cannot be fetched, or the checkpoint entry not be allocated. -/
  | fail (dfId : Fin 2) (k : Nat)
  | commit (dfId : Fin 2) (k : Nat)
  | prepareCkpt (k : Nat)
  | ckptListDequeue
  | freeJournalSpace
  deriving DecidableEq, Repr

variable (maxIoBlks : Nat) (area : Fin 2 → LogRing)

def init (sequence : UInt32) : State where
  daemon := Daemon.Transactions.init sequence
  port dfId := ⟨⟨(area dfId).toRing,(area dfId).first,(area dfId).first,(area dfId).size⟩,⟨0,0,0⟩,[],[],[],[]⟩
  seqn := 0
  ckptList := []
  ckpt := none

namespace Port

variable (ring : LogRing) (p : Port) (k : Nat)

def persistData : Option Port :=
  p.fetches[k]?.bind fun f =>
    let out := DevFS.persistData maxIoBlks ring p.log.head f.reqId f.nBlks ⟨p.ctx,[],false⟩
    if out.aborted then none else some {p with ctx := out.ctx,fetches := p.fetches.eraseIdx k}

def fetchFails : Option Port := p.fetches[k]?.map fun _ => {p with fetches := p.fetches.eraseIdx k}

def persistMeta : Option Port :=
  p.requests[k]?.bind fun r =>
    match r.stage with
    | .requested =>
      (persistMetaAndCommit p.log p.ctx (r.mdBlks * blockSize) (r.dataBlks * blockSize) (u32 r.chunks.length)).map fun out =>
        {p with
          log := out.log,ctx := {p.ctx with descBlkBaddr := out.entry.jStartBaddr}
          requests := p.requests.set k {r with stage := .reserved out.entry}
          segments := p.segments ++ [extentOf out.entry]}
    | _ => none

/-- The error exits leave the fetch context as it is. -/
def fail : Option Port :=
  p.requests[k]?.bind fun r =>
    match r.stage with
    | .requested | .reserved _ => some {p with requests := p.requests.set k {r with stage := .failed}}
    | _ => none

end Port

def State.setPort (s : State) (dfId : Fin 2) (p : Port) : State := {s with port := Function.update s.port dfId p}

def commit (s : State) (dfId : Fin 2) (k : Nat) : Option State :=
  (s.port dfId).requests[k]?.bind fun r =>
    match r.stage with
    | .reserved entry =>
      if Turn.MyTurn s.seqn r.descId.toNat then
        some {s.setPort dfId {s.port dfId with
            ctx := ⟨0,0,0⟩
            requests := (s.port dfId).requests.set k {r with stage := .committed}
            commits := (s.port dfId).commits ++ [extentOf entry]} with
          seqn := r.descId.toNat,ckptList := s.ckptList ++ [⟨dfId,entry,false⟩]}
      else none
    | _ => none

def Request.answers (tx : Transaction) (r : Request) : Bool := r.tx = tx && (r.stage = .committed || r.stage = .failed)

/-- The messages of a step of the daemon; a transaction is freed when its request has been answered. -/
def deliver (s : State) (act : Daemon.Transactions.Act) (d : Daemon.Transactions.State) : Option State :=
  match act,s.daemon.worker with
  | .requestDataFetch nBlks,.building tx _ chunks =>
    let p := s.port tx.dfId
    some {s.setPort tx.dfId {p with fetches := p.fetches ++ [⟨chunks.length,nBlks⟩]} with daemon := d}
  | .requestCommit mdBlks,.building tx descId chunks =>
    let p := s.port tx.dfId
    some {s.setPort tx.dfId {p with requests := p.requests ++ [⟨tx,descId,chunks,mdBlks,.requested⟩]} with daemon := d}
  | .freeTransaction k,_ =>
    s.daemon.committing[k]?.bind fun tx =>
      let p := s.port tx.dfId
      if p.requests.any (Request.answers tx) then
        some {s.setPort tx.dfId {p with requests := p.requests.eraseP (Request.answers tx)} with daemon := d}
      else none
  | _,_ => some {s with daemon := d}

def step (s : State) : Act → Option State
  | .daemon act => (Daemon.Transactions.step s.daemon act).bind (deliver s act)
  | .persistData dfId k => ((s.port dfId).persistData maxIoBlks (area dfId) k).map (s.setPort dfId)
  | .fetchFails dfId k => ((s.port dfId).fetchFails k).map (s.setPort dfId)
  | .persistMeta dfId k => ((s.port dfId).persistMeta k).map (s.setPort dfId)
  | .fail dfId k => ((s.port dfId).fail k).map (s.setPort dfId)
  | .commit dfId k => commit s dfId k
  | .prepareCkpt k => some {s with ckptList := s.ckptList.modify k fun e => {e with ready := true}}
  | .ckptListDequeue =>
    match s.ckpt,s.ckptList with
    | none,e :: rest => if e.ready then some {s with ckpt := some e,ckptList := rest} else none
    | _,_ => none
  | .freeJournalSpace =>
    s.ckpt.bind fun e =>
      (freeJournalSpace (s.port e.dfId).log e.entry.jStartBaddr e.entry.totalTxSize).map fun log =>
        {s.setPort e.dfId {s.port e.dfId with log := log} with ckpt := none}

/-- What holds between the two: data fetchers are not shared, each log is committed in its order, and the
entry at the checkpoint starts at the tail of its log, so that `free_journal_space` does not assert. -/
structure Ordered (s : State) : Prop where
  exclusive : (s.daemon.live.map Transaction.dfId).Nodup
  atMostTwo : s.daemon.live.length ≤ 2
  inOrder : ∀ dfId, (s.port dfId).commits <+: (s.port dfId).segments
  fifo : ∀ e, s.ckpt = some e → e.entry.jStartBaddr = (s.port e.dfId).log.tail ∧
    (freeJournalSpace (s.port e.dfId).log e.entry.jStartBaddr e.entry.totalTxSize).isSome

/-- No commit request fails, and a transaction is not larger than its log. -/
def Regular (s : State) : Act → Prop
  | .persistMeta dfId k => ∀ r ∈ (s.port dfId).requests[k]?, r.chunks.sum + r.mdBlks + 2 ≤ (area dfId).size
  | .fail _ _ => False
  | _ => True

instance Regular.decidable (s : State) : (act : Act) → Decidable (Regular area s act)
  | .persistMeta dfId k => inferInstanceAs
    (Decidable (∀ r ∈ (s.port dfId).requests[k]?, r.chunks.sum + r.mdBlks + 2 ≤ (area dfId).size))
  | .fail _ _ => .isFalse id
  | .daemon _ | .persistData _ _ | .fetchFails _ _ | .commit _ _ | .prepareCkpt _ | .ckptListDequeue
  | .freeJournalSpace => .isTrue trivial

section Space

/-- The extents lie in the log one after the other, from its tail to its head. -/
structure Line (ring : LogRing) (log : JournalLog) (es : List Extent) : Prop where
  same : log.toRing = ring.toRing
  tail : ring.Holds log.tail
  head : ring.Holds log.head
  around : ring.Around log.tail es log.head
  small : ∀ e ∈ es, e.len ≤ ring.size

/-- Space taken in two parts is one more extent at the end of the line, also if it is not free. -/
theorem Line.take (line : Line ring log es) (a b : Nat) (within : a + b ≤ ring.size) :
    Line ring (updateLogState (updateLogState log a) b) (es ++ [⟨log.head,a + b⟩]) := by
  have first : advance log.toRing log.head a = ring.block log.head a := by
    rw [line.same]
    exact advance_eq ring.toRing ring.addressable line.head (by omega)
  have middle := ring.block_wraps line.head (show a ≤ ring.size by omega)
  have second : advance log.toRing (ring.block log.head a) b = ring.block log.head (a + b) := by
    rw [line.same,advance_eq ring.toRing ring.addressable middle (by omega),ring.block_block line.head within]
  have head : (updateLogState (updateLogState log a) b).head = ring.block log.head (a + b) := by
    simp only [updateLogState,first,second]
  refine ⟨line.same,line.tail,?_,?_,?_⟩
  · rw [head]
    exact ring.block_wraps line.head within
  · rw [head]
    exact line.around.snoc (a + b)
  · intro e member
    rcases mem_append.mp member with old | new
    · exact line.small e old
    · obtain rfl := mem_singleton.mp new
      exact within

/-- The first extent of the line can be freed. -/
theorem Line.free (line : Line ring log (e :: es)) :
    ∃ after, freeJournalSpace log e.start (e.len * blockSize) = some after ∧ Line ring after es ∧
      after.head = log.head := by
  have within := line.small e mem_cons_self
  have fits := ring.fits
  obtain ⟨start,around⟩ := line.around
  have moved : advance log.toRing log.tail e.len = ring.block log.tail e.len := by
    rw [line.same]
    exact advance_eq ring.toRing ring.addressable line.tail within
  rw [freeJournalSpace,bytesToNblks_whole,bind_some,if_neg (not_not.mpr start),u32_of_lt (by omega)]
  refine ⟨_,rfl,⟨line.same,?_,line.head,?_,fun f member => line.small f (mem_cons_of_mem e member)⟩,rfl⟩
  · simp only [moved]
    exact ring.block_wraps line.tail within
  · simp only [moved]
    exact around

/-- The space that `persist_meta_and_commit` takes and records, as far as it gets to taking it. -/
theorem persistMetaAndCommit_space (fetched : Fetched log.head d n ctx) (some : 1 ≤ m) (small : d + m + 2 < 2^32)
    (done : persistMetaAndCommit log ctx (m * blockSize) (d * blockSize) n = .some out) :
    out.entry = ⟨log.head,(1 + d + (m + 1)) * blockSize⟩ ∧ out.log = updateLogState (updateLogState log (1 + d))
    (m + 1) := by
  obtain ⟨nonzero,mdSize,allocSize,txSize⟩ := txSizes some (show d + m + 2 < 2^52 by omega)
  rw [show 1 + d + (m - 1) + 2 = 1 + d + (m + 1) by omega] at txSize
  rw [persistMetaAndCommit,if_neg nonzero,reserveData_eq fetched] at done
  split at done
  · cases done
  · simp only [bind_some,mdSize,allocSize,allocJournalSpace_blocks,bytesToNblks_whole,map_some,txSize,
      u32_of_lt (show m + 1 < 2^32 by omega)] at done
    split at done
    · cases done
    · obtain rfl := Option.some.inj done
      exact ⟨rfl,rfl⟩

end Space

section Data

structure Receiving (p : Port) (n : Nat) : Prop where
  counted : p.ctx.reqCnt + p.fetches.length ≤ n
  clean : n = 0 → p.ctx = ⟨0,0,0⟩
  desc : 0 < n → p.ctx.descBlkBaddr = p.log.head ∨ (∃ f ∈ p.fetches, f.reqId = 0) ∨ p.ctx.reqCnt + p.fetches.length < n

theorem Receiving.quiet (p : Port) (ctx : p.ctx = ⟨0,0,0⟩) (fetches : p.fetches = []) : Receiving p 0 :=
  ⟨by simp [ctx,fetches],fun _ => ctx,fun positive => absurd positive (Nat.lt_irrefl 0)⟩

theorem Receiving.sent (receiving : Receiving p n) (f : Fetch) (first : n = 0 → f.reqId = 0) :
    Receiving {p with fetches := p.fetches ++ [f]} (n + 1) := by
  have counted := receiving.counted
  refine ⟨by simp only [length_append,length_singleton]; omega,by simp,fun _ => ?_⟩
  rcases Nat.eq_zero_or_pos n with none | some
  · exact .inr (.inl ⟨f,by simp,first none⟩)
  · rcases receiving.desc some with set | ⟨g,member,zero⟩ | less
    · exact .inl set
    · exact .inr (.inl ⟨g,mem_append_left _ member,zero⟩)
    · refine .inr (.inr ?_)
      simp only [length_append,length_singleton]
      omega

theorem persistDispatched_ctx (ctx : FetchCtx) (writes : List (Nat × Nat)) (reqId nBlks : Nat)
    (first second : List (Nat × Nat) × Option Nat) :
    (persistDispatched ctx writes reqId nBlks first second).ctx.descBlkBaddr = ctx.descBlkBaddr ∧
      (persistDispatched ctx writes reqId nBlks first second).ctx.reqCnt ≤ ctx.reqCnt + 1 := by
  unfold persistDispatched
  split
  · exact ⟨rfl,Nat.le_succ _⟩
  · exact ⟨rfl,Nat.le_succ _⟩
  · exact ⟨rfl,Nat.le_succ _⟩
  · exact ⟨rfl,Nat.mod_le _ _⟩

/-- The context after a buffer is persisted: the first one sets the address, and it is counted once or not at all. -/
theorem persistData_ctx (maxIoBlks : Nat) (ring : LogRing) (head reqId nBlks : Nat) (ctx : FetchCtx)
    (alive : (DevFS.persistData maxIoBlks ring head reqId nBlks ⟨ctx,[],false⟩).aborted = false) :
    (DevFS.persistData maxIoBlks ring head reqId nBlks ⟨ctx,[],false⟩).ctx.descBlkBaddr =
        (if reqId = 0 then head else ctx.descBlkBaddr) ∧
      (DevFS.persistData maxIoBlks ring head reqId nBlks ⟨ctx,[],false⟩).ctx.reqCnt ≤ ctx.reqCnt + 1 := by
  unfold DevFS.persistData at alive ⊢
  simp only [Bool.false_eq_true,if_false] at alive ⊢
  split at alive
  · cases alive
  next unset =>
    have start : (if reqId = 0 then getChunckStart head reqId else ctx.descBlkBaddr) =
        if reqId = 0 then head else ctx.descBlkBaddr := by
      split
      next zero => simp [getChunckStart,zero]
      · rfl
    rw [if_neg unset,← start]
    exact persistDispatched_ctx {ctx with descBlkBaddr := if reqId = 0 then getChunckStart head reqId else ctx.descBlkBaddr}
      [] reqId nBlks _ _

theorem Receiving.handled (receiving : Receiving p n) (found : p.fetches[k]? = some f) (ctx : FetchCtx)
    (desc : ctx.descBlkBaddr = if f.reqId = 0 then p.log.head else p.ctx.descBlkBaddr)
    (once : ctx.reqCnt ≤ p.ctx.reqCnt + 1) : Receiving {p with ctx := ctx,fetches := p.fetches.eraseIdx k} n := by
  obtain ⟨inside,rfl⟩ := List.getElem?_eq_some_iff.mp found
  have counted := receiving.counted
  have length := length_eraseIdx_of_lt inside
  refine ⟨by simp only [length]; omega,fun none => by omega,fun some => ?_⟩
  simp only [length]
  by_cases zero : p.fetches[k].reqId = 0
  · rw [if_pos zero] at desc
    exact .inl desc
  · rw [if_neg zero] at desc
    rcases receiving.desc some with set | ⟨g,member,first⟩ | less
    · exact .inl (desc.trans set)
    · refine .inr (.inl ⟨g,?_,first⟩)
      rcases mem_cons.mp ((getElem_cons_eraseIdx_perm inside).mem_iff.mpr member) with rfl | left
      · exact absurd first zero
      · exact left
    · exact .inr (.inr (by omega))

theorem Receiving.lost (receiving : Receiving p n) (inside : k < p.fetches.length) :
    Receiving {p with fetches := p.fetches.eraseIdx k} n := by
  have counted := receiving.counted
  have length := length_eraseIdx_of_lt inside
  refine ⟨by simp only [length]; omega,fun none => by omega,fun _ => .inr (.inr ?_)⟩
  simp only [length]
  omega

end Data

inductive Use
  | quiet
  | building (chunks : List Nat)
  | committing (tx : Transaction)

inductive Using (d : Daemon.Transactions.State) (dfId : Fin 2) : Use → Prop
  | quiet (unbuilt : ∀ tx descId chunks, d.worker = .building tx descId chunks → tx.dfId ≠ dfId)
      (unsent : ∀ tx ∈ d.committing, tx.dfId ≠ dfId) : Using d dfId .quiet
  | building {tx : Transaction} {descId : UInt32} {chunks : List Nat} (worker : d.worker = .building tx descId chunks)
      (same : tx.dfId = dfId) : Using d dfId (.building chunks)
  | committing {tx : Transaction} (member : tx ∈ d.committing) (same : tx.dfId = dfId) : Using d dfId (.committing tx)

def Request.entry (r : Request) : Option CkptEntry :=
  match r.stage with
  | .reserved entry => some entry
  | _ => none

def Port.reserved (p : Port) : List CkptEntry := p.requests.filterMap Request.entry

def Received (p : Port) : Use → Prop
  | .quiet => p.requests = [] ∧ Receiving p 0
  | .building chunks => p.requests = [] ∧ (∀ c ∈ chunks, 0 < c) ∧ Receiving p chunks.length
  | .committing tx => ∃ r, p.requests = [r] ∧ r.tx = tx ∧ 0 < r.mdBlks ∧
    match r.stage with
    | .requested => (∀ c ∈ r.chunks, 0 < c) ∧ Receiving p r.chunks.length
    | .reserved _ => p.fetches = []
    | .committed => Receiving p 0
    | .failed => False

/-- The entries of the log that are not freed line up in it, in the order of the queue. -/
structure Stored (ring : LogRing) (p : Port) (queue : List CkptEntry) : Prop where
  line : Line ring p.log ((queue ++ p.reserved).map extentOf)
  whole : ∀ e ∈ queue ++ p.reserved, e.totalTxSize = (extentOf e).len * blockSize
  history : p.segments = p.commits ++ p.reserved.map extentOf

def State.queue (s : State) (dfId : Fin 2) : List CkptEntry :=
  ((s.ckpt.toList ++ s.ckptList).filter (·.dfId = dfId)).map CkptListEntry.entry

structure Invariant (s : State) : Prop where
  exclusive : Exclusive s.daemon
  stored : ∀ dfId, Stored (area dfId) (s.port dfId) (s.queue dfId)
  received : ∀ dfId u, Using s.daemon dfId u → Received (s.port dfId) u

section Ports

variable {p p' : Port}

theorem Received.unrequested (received : Received p u) (requests : p'.requests = p.requests)
    (settled : p.fetches = [] → p'.fetches = []) (each : ∀ n, Receiving p n → Receiving p' n) : Received p' u := by
  cases u with
  | quiet => exact ⟨requests.trans received.1,each 0 received.2⟩
  | building chunks => exact ⟨requests.trans received.1,received.2.1,each _ received.2.2⟩
  | committing tx =>
    obtain ⟨r,only,same,metadata,stage⟩ := received
    refine ⟨r,requests.trans only,same,metadata,?_⟩
    cases at_stage : r.stage with
    | requested =>
      rw [at_stage] at stage
      exact ⟨stage.1,each _ stage.2⟩
    | reserved entry =>
      rw [at_stage] at stage
      exact settled stage
    | committed =>
      rw [at_stage] at stage
      exact each 0 stage
    | failed =>
      rw [at_stage] at stage
      exact stage

theorem Port.persistData_cases {maxIoBlks : Nat} (done : p.persistData maxIoBlks ring k = some p') :
    ∃ f ctx, p.fetches[k]? = some f ∧ ctx.descBlkBaddr = (if f.reqId = 0 then p.log.head else p.ctx.descBlkBaddr) ∧
      ctx.reqCnt ≤ p.ctx.reqCnt + 1 ∧ p' = {p with ctx := ctx,fetches := p.fetches.eraseIdx k} := by
  obtain ⟨f,found,done⟩ := bind_eq_some_iff.mp done
  simp only at done
  split at done
  · cases done
  next alive =>
    obtain ⟨desc,once⟩ := persistData_ctx maxIoBlks ring p.log.head f.reqId f.nBlks p.ctx (by simpa using alive)
    exact ⟨f,_,found,desc,once,(Option.some.inj done).symm⟩

theorem Port.persistMeta_cases (done : p.persistMeta k = some p') :
    ∃ r out, p.requests[k]? = some r ∧ r.stage = .requested ∧
      persistMetaAndCommit p.log p.ctx (r.mdBlks * blockSize) (r.dataBlks * blockSize) (u32 r.chunks.length) = some out ∧
      p' = {p with
        log := out.log,ctx := {p.ctx with descBlkBaddr := out.entry.jStartBaddr}
        requests := p.requests.set k {r with stage := .reserved out.entry}
        segments := p.segments ++ [extentOf out.entry]} := by
  obtain ⟨r,found,done⟩ := bind_eq_some_iff.mp done
  split at done
  next requested =>
    obtain ⟨out,ran,rfl⟩ := map_eq_some_iff.mp done
    exact ⟨r,out,found,requested,ran,rfl⟩
  · cases done

theorem commit_cases (done : commit s dfId k = some t) :
    ∃ r entry, (s.port dfId).requests[k]? = some r ∧ r.stage = .reserved entry ∧
      t = {s.setPort dfId {s.port dfId with
          ctx := ⟨0,0,0⟩
          requests := (s.port dfId).requests.set k {r with stage := .committed}
          commits := (s.port dfId).commits ++ [extentOf entry]} with
        seqn := r.descId.toNat,ckptList := s.ckptList ++ [⟨dfId,entry,false⟩]} := by
  obtain ⟨r,found,done⟩ := bind_eq_some_iff.mp done
  split at done
  next entry reserved =>
    split at done
    · exact ⟨r,entry,found,reserved,(Option.some.inj done).symm⟩
    · cases done
  · cases done

theorem Received.persistData (received : Received p u) (found : p.fetches[k]? = some f)
    (desc : ctx.descBlkBaddr = if f.reqId = 0 then p.log.head else p.ctx.descBlkBaddr)
    (once : ctx.reqCnt ≤ p.ctx.reqCnt + 1) : Received {p with ctx := ctx,fetches := p.fetches.eraseIdx k} u :=
  received.unrequested rfl (fun settled => by simp [settled]) fun _ receiving => receiving.handled found ctx desc once

theorem Received.fetchFails (received : Received p u) (inside : k < p.fetches.length) :
    Received {p with fetches := p.fetches.eraseIdx k} u :=
  received.unrequested rfl (fun settled => by simp [settled]) fun _ receiving => receiving.lost inside

theorem Received.request (received : Received p u) (found : p.requests[k]? = some r) :
    k = 0 ∧ p.requests = [r] ∧ ∃ tx, u = .committing tx := by
  cases u with
  | quiet => simp [received.1] at found
  | building chunks => simp [received.1] at found
  | committing tx =>
    obtain ⟨r',only,_⟩ := received
    rw [only] at found
    obtain ⟨rfl,rfl⟩ : k = 0 ∧ r' = r := by
      cases k with
      | zero => exact ⟨rfl,by simpa using found⟩
      | succ k => simp at found
    exact ⟨rfl,only,tx,rfl⟩

theorem Receiving.complete (receiving : Receiving p n) (none : n = 0 ↔ d = 0)
    (done : reserveData p.log p.ctx (d * blockSize) n = some reserved) : Fetched p.log.head d n p.ctx ∧ p.fetches = [] := by
  have counted := receiving.counted
  unfold Fetched
  by_cases zero : n = 0
  · rw [if_pos (none.mp zero)]
    exact ⟨⟨zero,receiving.clean zero⟩,length_eq_zero_iff.mp (by omega)⟩
  · rw [reserveData,if_neg zero] at done
    split at done
    next all =>
      have settled : p.fetches = [] := length_eq_zero_iff.mp (by omega)
      have desc : p.ctx.descBlkBaddr = p.log.head := by
        rcases receiving.desc (Nat.pos_of_ne_zero zero) with set | ⟨f,member,-⟩ | less
        · exact set
        · simp [settled] at member
        · omega
      rw [if_neg (mt none.mpr zero)]
      refine ⟨⟨zero,?_⟩,settled⟩
      rw [← desc,all.2,← all.1]
    · cases done

theorem length_le_sum {chunks : List Nat} (positive : ∀ c ∈ chunks, 0 < c) : chunks.length ≤ chunks.sum := by
  induction chunks with
  | nil => simp
  | cons c cs ih =>
    have here := positive c (by simp)
    have later := ih fun c member => positive c (by simp [member])
    simp only [length_cons,sum_cons]
    omega

/-- The transaction gets its space behind everything that is in the log. -/
theorem Stored.persistMeta (stored : Stored ring p queue) (received : Received p u) (done : p.persistMeta k = some p')
    (regular : ∀ r ∈ p.requests[k]?, r.chunks.sum + r.mdBlks + 2 ≤ ring.size) :
    Stored ring p' queue ∧ Received p' u := by
  obtain ⟨r,out,found,requested,ran,rfl⟩ := Port.persistMeta_cases done
  have fits := ring.fits
  have small := regular r found
  obtain ⟨rfl,only,tx,rfl⟩ := received.request found
  obtain ⟨r',only',same,metadata,stage⟩ := received
  obtain rfl : r = r' := by simpa [only] using only'
  rw [requested] at stage
  obtain ⟨positive,receiving⟩ := stage
  have count := length_le_sum positive
  have blks : r.dataBlks = r.chunks.sum := u32_of_lt (by omega)
  rw [blks,u32_of_lt (show r.chunks.length < 2^32 by omega)] at ran
  have empty : r.chunks.length = 0 ↔ r.chunks.sum = 0 := by
    constructor
    · intro none
      rw [length_eq_zero_iff.mp none]
      rfl
    · omega
  obtain ⟨fetched,settled⟩ : Fetched p.log.head r.chunks.sum r.chunks.length p.ctx ∧ p.fetches = [] := by
    have began := ran
    rw [persistMetaAndCommit] at began
    split at began
    · cases began
    · obtain ⟨reserved,done,-⟩ := bind_eq_some_iff.mp began
      exact receiving.complete empty done
  obtain ⟨entry,log⟩ := persistMetaAndCommit_space fetched metadata (by omega) ran
  have nothing : p.reserved = [] := by simp [Port.reserved,only,Request.entry,requested]
  have extent : extentOf out.entry = ⟨p.log.head,1 + r.chunks.sum + (r.mdBlks + 1)⟩ := by
    rw [entry,extentOf,Nat.mul_div_cancel _ (by decide)]
  have line := stored.line.take (1 + r.chunks.sum) (r.mdBlks + 1) (by omega)
  have whole := stored.whole
  have history := stored.history
  rw [nothing] at line whole history
  refine ⟨⟨?_,?_,?_⟩,{r with stage := .reserved out.entry},by simp [only],same,metadata,settled⟩
  · simpa [Port.reserved,only,Request.entry,log,extent] using line
  · simp only [Port.reserved,only,set_cons_zero,filterMap_cons,Request.entry,filterMap_nil]
    intro e member
    rcases mem_append.mp member with old | new
    · exact whole e (by simpa using old)
    · obtain rfl := mem_singleton.mp new
      rw [extent,entry]
  · simpa [Port.reserved,only,Request.entry] using history

/-- The entry goes from the request to the end of the queue. -/
theorem Stored.commit (stored : Stored ring p queue) (received : Received p u)
    (found : p.requests[k]? = some r) (reserved : r.stage = .reserved entry) :
    let p' :=
      {p with ctx := ⟨0,0,0⟩,requests := p.requests.set k {r with stage := .committed},commits :=
      p.commits ++ [extentOf entry]}
    Stored ring p' (queue ++ [entry]) ∧ Received p' u := by
  obtain ⟨rfl,only,tx,rfl⟩ := received.request found
  obtain ⟨r',only',same,metadata,stage⟩ := received
  obtain rfl : r = r' := by simpa [only] using only'
  rw [reserved] at stage
  have held : p.reserved = [entry] := by simp [Port.reserved,only,Request.entry,reserved]
  have released : [{r with stage := .committed}].filterMap Request.entry = [] := rfl
  obtain ⟨line,whole,history⟩ := stored
  rw [held] at line whole history
  refine ⟨⟨?_,?_,?_⟩,{r with stage := .committed},by simp [only],same,metadata,.quiet _ rfl stage⟩
  · simpa [Port.reserved,only,released] using line
  · simpa [Port.reserved,only,released] using whole
  · simpa [Port.reserved,only,released] using history

end Ports

section System

variable {area} {s t : State}

theorem init_invariant (area : Fin 2 → LogRing) (sequence : UInt32) : Invariant area (init area sequence) where
  exclusive := init_exclusive sequence
  stored dfId := by
    have nonempty := (area dfId).nonempty
    exact ⟨⟨rfl,⟨le_rfl,nonempty⟩,⟨le_rfl,nonempty⟩,rfl,by simp [init,State.queue,Port.reserved]⟩,
      by simp [init,State.queue,Port.reserved],rfl⟩
  received dfId u use := by
    cases use with
    | quiet => exact ⟨rfl,.quiet _ rfl rfl⟩
    | building worker => cases worker
    | committing member => simp [init,Daemon.Transactions.init] at member

theorem using_total (d : Daemon.Transactions.State) (dfId : Fin 2) : ∃ u, Using d dfId u := by
  by_cases committing : ∃ tx ∈ d.committing, tx.dfId = dfId
  · obtain ⟨tx,member,same⟩ := committing
    exact ⟨_,.committing member same⟩
  by_cases building : ∃ tx descId chunks, d.worker = .building tx descId chunks ∧ tx.dfId = dfId
  · obtain ⟨tx,descId,chunks,worker,same⟩ := building
    exact ⟨_,.building worker same⟩
  · refine ⟨_,.quiet (fun tx descId chunks worker same => building ⟨tx,descId,chunks,worker,same⟩) ?_⟩
    intro tx member same
    exact committing ⟨tx,member,same⟩

theorem Using.congr (use : Using d dfId u) (worker : ∀ tx descId chunks, tx.dfId = dfId →
      (d.worker = .building tx descId chunks ↔ e.worker = .building tx descId chunks))
    (committing : ∀ tx, tx.dfId = dfId → (tx ∈ d.committing ↔ tx ∈ e.committing)) : Using e dfId u := by
  cases use with
  | quiet unbuilt unsent =>
    refine .quiet ?_ ?_
    · intro tx descId chunks building same
      exact unbuilt tx descId chunks ((worker tx descId chunks same).mpr building) same
    · intro tx member same
      exact unsent tx ((committing tx same).mpr member) same
  | building building same => exact .building ((worker _ _ _ same).mp building) same
  | committing member same => exact .committing ((committing _ same).mp member) same

theorem Invariant.requeue (inv : Invariant area s) (same : t.daemon = s.daemon)
    (port : t.port = Function.update s.port dfId p) (others : ∀ other, other ≠ dfId → t.queue other = s.queue other)
    (stored : Stored (area dfId) p (t.queue dfId)) (received : ∀ u, Using s.daemon dfId u → Received p u) :
    Invariant area t where
  exclusive := same ▸ inv.exclusive
  stored other := by
    by_cases here : other = dfId
    · subst here
      simpa [port] using stored
    · simpa [port,here,others other here] using inv.stored other
  received other u use := by
    rw [same] at use
    by_cases here : other = dfId
    · subst here
      simpa [port] using received u use
    · simpa [port,here] using inv.received other u use

theorem Invariant.setPort (inv : Invariant area s) (stored : Stored (area dfId) p (s.queue dfId))
    (received : ∀ u, Using s.daemon dfId u → Received p u) : Invariant area (s.setPort dfId p) :=
  inv.requeue rfl rfl (fun _ _ => rfl) stored received

theorem Invariant.persistData {maxIoBlks k : Nat} (inv : Invariant area s)
    (done : (s.port dfId).persistData maxIoBlks (area dfId) k = some p) : Invariant area (s.setPort dfId p) := by
  obtain ⟨f,ctx,found,desc,once,rfl⟩ := Port.persistData_cases done
  obtain ⟨line,whole,history⟩ := inv.stored dfId
  exact inv.setPort ⟨line,whole,history⟩ fun u use => (inv.received dfId u use).persistData found desc once

section

variable (inv : Invariant area s)
include inv

theorem Invariant.fetchFails (done : (s.port dfId).fetchFails k = some p) : Invariant area (s.setPort dfId p) := by
  obtain ⟨f,found,rfl⟩ := map_eq_some_iff.mp done
  obtain ⟨inside,-⟩ := List.getElem?_eq_some_iff.mp found
  obtain ⟨line,whole,history⟩ := inv.stored dfId
  exact inv.setPort ⟨line,whole,history⟩ fun u use => (inv.received dfId u use).fetchFails inside

theorem Invariant.persistMeta (done : (s.port dfId).persistMeta k = some p) (regular : Regular area s (.persistMeta dfId k)) :
    Invariant area (s.setPort dfId p) := by
  have each : ∀ u, Using s.daemon dfId u → Stored (area dfId) p (s.queue dfId) ∧ Received p u :=
    fun u use => (inv.stored dfId).persistMeta (inv.received dfId u use) done regular
  obtain ⟨u,use⟩ := using_total s.daemon dfId
  exact inv.setPort (each u use).1 fun u use => (each u use).2

theorem Invariant.commit (done : commit s dfId k = some t) : Invariant area t := by
  obtain ⟨r,entry,found,reserved,rfl⟩ := commit_cases done
  have each := fun u (use : Using s.daemon dfId u) =>
    (inv.stored dfId).commit (inv.received dfId u use) found reserved
  obtain ⟨u,use⟩ := using_total s.daemon dfId
  refine inv.requeue rfl rfl ?_ ?_ fun u use => (each u use).2
  · intro other apart
    simp [State.queue,State.setPort,Ne.symm apart]
  · have queue := (each u use).1
    simpa [State.queue,State.setPort] using queue

theorem Invariant.sameQueue (same : t.daemon = s.daemon) (port : t.port = s.port)
    (queue : ∀ dfId, t.queue dfId = s.queue dfId) : Invariant area t where
  exclusive := same ▸ inv.exclusive
  stored dfId := by
    rw [port,queue]
    exact inv.stored dfId
  received dfId u use := by
    rw [port]
    exact inv.received dfId u (same ▸ use)

end

theorem queue_prepared (ckptList : List CkptListEntry) (k : Nat) (dfId : Fin 2) :
    ((ckptList.modify k fun e => {e with ready := true}).filter (·.dfId = dfId)).map CkptListEntry.entry =
      (ckptList.filter (·.dfId = dfId)).map CkptListEntry.entry := by
  induction ckptList generalizing k with
  | nil => simp
  | cons e rest ih =>
    cases k with
    | zero => by_cases here : e.dfId = dfId <;> simp [here]
    | succ k => by_cases here : e.dfId = dfId <;> simp [here,ih k]

theorem Invariant.freeJournalSpace (inv : Invariant area s) (taken : s.ckpt = some e) :
    e.entry.jStartBaddr = (s.port e.dfId).log.tail ∧
      ∃ log, DevFS.freeJournalSpace (s.port e.dfId).log e.entry.jStartBaddr e.entry.totalTxSize = some log ∧
        Invariant area {s.setPort e.dfId {s.port e.dfId with log := log} with ckpt := none} := by
  have queue : s.queue e.dfId = e.entry :: (s.ckptList.filter (·.dfId = e.dfId)).map CkptListEntry.entry := by
    simp [State.queue,taken]
  obtain ⟨line,whole,history⟩ := inv.stored e.dfId
  rw [queue,cons_append] at line whole
  have start : e.entry.jStartBaddr = (s.port e.dfId).log.tail := line.around.1
  obtain ⟨log,freed,rest,head⟩ := line.free
  have size := whole e.entry mem_cons_self
  rw [← size] at freed
  refine ⟨start,log,freed,inv.requeue rfl rfl ?_ ?_ ?_⟩
  · intro other apart
    simp [State.queue,State.setPort,taken,Ne.symm apart]
  · refine ⟨?_,fun f member => whole f (mem_cons_of_mem _ ?_),history⟩
    · simpa [State.queue,State.setPort,Port.reserved] using rest
    · simpa [State.queue,State.setPort,Port.reserved] using member
  · intro u use
    refine (inv.received e.dfId u use).unrequested rfl id fun n receiving => ⟨receiving.counted,receiving.clean,?_⟩
    rw [head]
    exact receiving.desc

def Silent : Daemon.Transactions.Act → Prop
  | .requestDataFetch _ | .requestCommit _ | .freeTransaction _ => False
  | _ => True

/-- A data fetcher becomes used when the transaction that holds it is built, and free when it is discarded. -/
theorem received_silent {port : Fin 2 → Port} (exclusive : Exclusive s.daemon)
    (moves : Moves s.daemon act d) (silent : Silent act) (all : ∀ dfId u, Using s.daemon dfId u → Received (port dfId) u)
    (dfId : Fin 2) (u : Use) (use : Using d dfId u) : Received (port dfId) u := by
  cases moves with
  | pass => exact all dfId u use
  | newTransaction idle => exact all dfId u (use.congr (by simp [idle]) (by simp))
  | allocDataFetcher creating => exact all dfId u (use.congr (by simp [creating]) (by simp))
  | startTransaction created =>
    cases use with
    | quiet _ unsent => exact all dfId _ (.quiet (by simp [created]) unsent)
    | building worker same =>
      cases worker
      have quiet := all dfId _ (.quiet (by simp [created]) fun tx member => same ▸ exclusive.front_apart member)
      exact ⟨quiet.1,by simp,quiet.2⟩
    | committing member same => exact all dfId _ (.committing member same)
  | @discardTransaction tx descId building =>
    cases use with
    | quiet _ unsent =>
      by_cases here : tx.dfId = dfId
      · have empty := all dfId _ (.building building here)
        exact ⟨empty.1,empty.2.2⟩
      · refine all dfId _ (.quiet ?_ unsent)
        intro other descId chunks worker
        obtain ⟨rfl,-,-⟩ := Worker.building.inj (building.symm.trans worker)
        exact here
    | building worker => cases worker
    | committing member same => exact all dfId _ (.committing member same)
  | requestDataFetch => exact silent.elim
  | requestCommit => exact silent.elim
  | freeTransaction => exact silent.elim

theorem Invariant.message (inv : Invariant area s) (moves : Moves s.daemon act d)
    (stored : Stored (area dfId) p (s.queue dfId)) (received : ∀ u, Using d dfId u → Received p u)
    (others : ∀ other u, other ≠ dfId → Using d other u → Using s.daemon other u) :
    Invariant area {s.setPort dfId p with daemon := d} where
  exclusive := inv.exclusive.moves moves
  stored other := by
    by_cases here : other = dfId
    · subst here
      simpa [State.setPort,State.queue] using stored
    · simpa [State.setPort,State.queue,here] using inv.stored other
  received other u use := by
    by_cases here : other = dfId
    · subst here
      simpa [State.setPort] using received u use
    · simpa [State.setPort,here] using inv.received other u (others other u here use)

section Messages

theorem Invariant.requestDataFetch (inv : Invariant area s) (building : s.daemon.worker = .building tx descId chunks)
    (positive : 0 < n) :
    Invariant area {s.setPort tx.dfId {s.port tx.dfId with fetches := (s.port tx.dfId).fetches ++ [⟨chunks.length,n⟩]} with
      daemon := {s.daemon with worker := .building tx descId (chunks ++ [n])}} := by
  obtain ⟨line,whole,history⟩ := inv.stored tx.dfId
  refine inv.message (.requestDataFetch building positive) ⟨line,whole,history⟩ ?_ ?_
  · intro u use
    cases use with
    | quiet unbuilt => exact absurd rfl (unbuilt tx descId (chunks ++ [n]) rfl)
    | building worker =>
      cases worker
      obtain ⟨requests,sizes,receiving⟩ := inv.received tx.dfId _ (.building building rfl)
      refine ⟨requests,?_,?_⟩
      · intro c member
        rcases mem_append.mp member with old | new
        · exact sizes c old
        · obtain rfl := mem_singleton.mp new
          exact positive
      · rw [length_append]
        exact receiving.sent ⟨chunks.length,n⟩ id
    | committing member same => exact absurd same (inv.exclusive.building_apart building member)
  · intro other u apart use
    refine use.congr ?_ (by simp)
    rintro tx' _ _ rfl
    have unlike : tx ≠ tx' := fun same => apart (same ▸ rfl)
    simp [building,unlike]

theorem Invariant.requestCommit (inv : Invariant area s) (building : s.daemon.worker = .building tx descId chunks)
    (positive : 0 < n) :
    Invariant area
      {s.setPort tx.dfId
        {s.port tx.dfId with requests := (s.port tx.dfId).requests ++ [⟨tx,descId,chunks,n,.requested⟩]} with
        daemon := {s.daemon with
          committing := s.daemon.committing ++ [tx],sent := s.daemon.sent ++ [descId],worker := .idle}} := by
  obtain ⟨requests,sizes,receiving⟩ := inv.received tx.dfId _ (.building building rfl)
  obtain ⟨line,whole,history⟩ := inv.stored tx.dfId
  have nothing : (s.port tx.dfId).reserved = [] := by simp [Port.reserved,requests]
  have still : Port.reserved {s.port tx.dfId with
      requests := (s.port tx.dfId).requests ++ [⟨tx,descId,chunks,n,.requested⟩]} = [] := by
    simp [Port.reserved,requests,Request.entry]
  rw [nothing] at line whole history
  refine inv.message (.requestCommit building positive)
    ⟨by rw [still]; exact line,by rw [still]; exact whole,by rw [still]; exact history⟩ ?_ ?_
  · intro u use
    cases use with
    | quiet _ unsent => exact absurd rfl (unsent tx (by simp))
    | building worker => cases worker
    | committing member same =>
      rcases mem_append.mp member with old | new
      · exact absurd same (inv.exclusive.building_apart building old)
      · obtain rfl := mem_singleton.mp new
        refine ⟨⟨_,descId,chunks,n,.requested⟩,by rw [requests]; rfl,rfl,positive,sizes,?_⟩
        exact ⟨receiving.counted,receiving.clean,receiving.desc⟩
  · intro other u apart use
    refine use.congr ?_ ?_
    · rintro tx' _ _ rfl
      have unlike : tx ≠ tx' := fun same => apart (same ▸ rfl)
      simp [building,unlike]
    · rintro tx' rfl
      have unlike : tx' ≠ tx := fun same => apart (same ▸ rfl)
      simp [unlike]

theorem Invariant.freeTransaction (inv : Invariant area s) (found : s.daemon.committing[k]? = some tx)
    (answered : (s.port tx.dfId).requests.any (Request.answers tx) = true) :
    Invariant area
      {s.setPort tx.dfId {s.port tx.dfId with requests := (s.port tx.dfId).requests.eraseP (Request.answers tx)} with
        daemon := {s.daemon with
          committing := s.daemon.committing.eraseIdx k,occupied := Function.update s.daemon.occupied tx.dfId false}} := by
  have member := mem_of_getElem? found
  obtain ⟨r,only,-,-,stage⟩ := inv.received tx.dfId _ (.committing member rfl)
  have answers : r.answers tx = true := by simpa [only] using answered
  have committed : r.stage = .committed := by
    have either : r.stage = .committed ∨ r.stage = .failed := by
      simp only [Request.answers,Bool.and_eq_true,Bool.or_eq_true,decide_eq_true_eq] at answers
      exact answers.2
    rcases either with committed | failed
    · exact committed
    · rw [failed] at stage
      exact stage.elim
  rw [committed] at stage
  have gone : (s.port tx.dfId).requests.eraseP (Request.answers tx) = [] := by simp [only,answers]
  have nothing : (s.port tx.dfId).reserved = [] := by simp [Port.reserved,only,Request.entry,committed]
  obtain ⟨line,whole,history⟩ := inv.stored tx.dfId
  rw [nothing] at line whole history
  rw [gone]
  refine inv.message (.freeTransaction found) ⟨line,whole,history⟩ ?_ ?_
  · intro u use
    cases use with
    | quiet => exact ⟨rfl,stage.counted,stage.clean,stage.desc⟩
    | building worker same => exact absurd same.symm (inv.exclusive.building_apart worker member)
    | committing left same => exact absurd same (inv.exclusive.committing_apart found left)
  · intro other u apart use
    refine use.congr (by simp) ?_
    rintro tx' rfl
    obtain ⟨inside,rfl⟩ := List.getElem?_eq_some_iff.mp found
    have unlike : tx' ≠ s.daemon.committing[k] := fun same => apart (same ▸ rfl)
    rw [← (getElem_cons_eraseIdx_perm inside).mem_iff]
    simp [unlike]

end Messages

theorem Invariant.daemon (inv : Invariant area s)
    (done : (Daemon.Transactions.step s.daemon act).bind (deliver s act) = some t) : Invariant area t := by
  obtain ⟨d,stepped,delivered⟩ := bind_eq_some_iff.mp done
  have moves := step_moves stepped
  have silent (quiet : Silent act) : Invariant area {s with daemon := d} :=
    ⟨inv.exclusive.moves moves,inv.stored,received_silent inv.exclusive moves quiet inv.received⟩
  cases moves with
  | pass => exact Option.some.inj delivered ▸ silent trivial
  | newTransaction => exact Option.some.inj delivered ▸ silent trivial
  | allocDataFetcher => exact Option.some.inj delivered ▸ silent trivial
  | startTransaction => exact Option.some.inj delivered ▸ silent trivial
  | discardTransaction => exact Option.some.inj delivered ▸ silent trivial
  | requestDataFetch building positive =>
    simp only [deliver,building] at delivered
    exact Option.some.inj delivered ▸ inv.requestDataFetch building positive
  | requestCommit building positive =>
    simp only [deliver,building] at delivered
    exact Option.some.inj delivered ▸ inv.requestCommit building positive
  | freeTransaction found =>
    simp only [deliver,found,bind_some] at delivered
    split at delivered
    next answered => exact Option.some.inj delivered ▸ inv.freeTransaction found answered
    · cases delivered

theorem Invariant.step {maxIoBlks : Nat} (inv : Invariant area s) (regular : Regular area s act)
    (next : step maxIoBlks area s act = some t) : Invariant area t := by
  cases act with
  | daemon act => exact inv.daemon next
  | persistData dfId k =>
    obtain ⟨p,done,rfl⟩ := map_eq_some_iff.mp next
    exact inv.persistData done
  | fetchFails dfId k =>
    obtain ⟨p,done,rfl⟩ := map_eq_some_iff.mp next
    exact inv.fetchFails done
  | persistMeta dfId k =>
    obtain ⟨p,done,rfl⟩ := map_eq_some_iff.mp next
    exact inv.persistMeta done regular
  | fail => exact regular.elim
  | commit dfId k => exact inv.commit next
  | prepareCkpt k =>
    obtain rfl := Option.some.inj next
    refine inv.sameQueue rfl rfl fun dfId => ?_
    simp [State.queue,queue_prepared]
  | ckptListDequeue =>
    simp only [LogOrder.step] at next
    split at next
    next free list =>
      split at next
      · obtain rfl := Option.some.inj next
        refine inv.sameQueue rfl rfl fun dfId => ?_
        simp [State.queue,free,list]
      · cases next
    · cases next
  | freeJournalSpace =>
    obtain ⟨e,taken,done⟩ := bind_eq_some_iff.mp next
    obtain ⟨-,log,freed,after⟩ := inv.freeJournalSpace taken
    rw [freed] at done
    exact Option.some.inj done ▸ after

theorem Invariant.ordered (inv : Invariant area s) : Ordered s where
  exclusive := inv.exclusive.distinct
  atMostTwo := by
    have count := List.Nodup.length_le_card inv.exclusive.distinct
    simpa using count
  inOrder dfId := by
    rw [(inv.stored dfId).history]
    exact prefix_append _ _
  fifo e taken := by
    obtain ⟨start,log,freed,-⟩ := inv.freeJournalSpace taken
    exact ⟨start,by rw [freed]; rfl⟩

end System

/-- Data fetchers are exclusive, and each log is committed and freed in its order. -/
theorem ordered_of_regular (maxIoBlks : Nat) (area : Fin 2 → LogRing) (sequence : UInt32) (acts : List Act) (s : State)
    (regular : Along (step maxIoBlks area) (Regular area) (init area sequence) acts)
    (ran : run (step maxIoBlks area) (init area sequence) acts = some s) : Ordered s := by
  have inv := run_invariant (step maxIoBlks area) (Invariant area) (Regular area)
    (fun _ _ _ inv regular next => inv.step regular next) _ acts s (init_invariant area sequence) regular ran
  exact inv.ordered

section

variable (dfId : Fin 2)

theorem eightBlocks_nonempty : 1 + 8 * dfId.val ≤ 8 + 8 * dfId.val := by omega

theorem eightBlocks_fits : (⟨1 + 8 * dfId.val,8 + 8 * dfId.val,eightBlocks_nonempty dfId⟩ : Lib.Ring).size < 2^32 := by
  simp only [Lib.Ring.size]
  omega

theorem eightBlocks_addressable : 8 + 8 * dfId.val < 2^52 := by omega

def eightBlocks : LogRing where
  first := 1 + 8 * dfId.val
  last := 8 + 8 * dfId.val
  nonempty := eightBlocks_nonempty dfId
  fits := eightBlocks_fits dfId
  addressable := eightBlocks_addressable dfId

def twoOnOneLog (nBlks : Nat) : List Act :=
  [.daemon .newTransaction,.daemon .allocDataFetcher,.daemon .startTransaction,.daemon (.requestDataFetch nBlks),
    .persistData dfId 0,.daemon (.requestCommit 1),.persistMeta dfId 0,.commit dfId 0,.daemon (.freeTransaction 0),
    .daemon .newTransaction,.daemon .allocDataFetcher,.daemon .startTransaction,.daemon .discardTransaction,
    .daemon .newTransaction,.daemon .allocDataFetcher,.daemon .startTransaction,.daemon (.requestCommit 1),
    .persistMeta dfId 0,.commit dfId 0,.prepareCkpt 0,.prepareCkpt 1,.ckptListDequeue,.freeJournalSpace,.ckptListDequeue]

def startAndTail (s : State) : Option Nat × Nat :=
  (s.ckpt.map fun e => e.entry.jStartBaddr,(s.port dfId).log.tail)

end

theorem ordered_of_regular_wrapped : ∃ s, run (step 255 eightBlocks) (init eightBlocks 5) (twoOnOneLog 0 2) = some s ∧
    startAndTail 0 s = (some 6,6) ∧ Ordered s := by
  have ends : (run (step 255 eightBlocks) (init eightBlocks 5) (twoOnOneLog 0 2)).map (startAndTail 0) = some (some 6,6) := by
    decide +kernel
  obtain ⟨s,ran,final⟩ := map_eq_some_iff.mp ends
  exact ⟨s,ran,final,ordered_of_regular 255 eightBlocks 5 (twoOnOneLog 0 2) s (by decide +kernel) ran⟩

/-- A transaction of 17 blocks takes its space in two parts, which go around the log twice; the checkpoint frees
it in one, which goes around once. -/
theorem oversized_breaks_fifo : ∃ s, run (step 255 eightBlocks) (init eightBlocks 5) (twoOnOneLog 0 14) = some s ∧
    startAndTail 0 s = (some 2,10) ∧ ¬ Ordered s := by
  have ends : (run (step 255 eightBlocks) (init eightBlocks 5) (twoOnOneLog 0 14)).map
      (fun s => (s.ckpt.map fun e => (e.dfId,e.entry.jStartBaddr),(s.port 0).log.tail)) = some (some (0,2),10) := by
    decide +kernel
  obtain ⟨s,ran,final⟩ := map_eq_some_iff.mp ends
  obtain ⟨taken,tail⟩ := Prod.mk.inj final
  obtain ⟨e,found,entry⟩ := map_eq_some_iff.mp taken
  obtain ⟨zero,start⟩ := Prod.mk.inj entry
  refine ⟨s,ran,by simp [startAndTail,found,start,tail],?_⟩
  intro ordered
  have same := (ordered.fifo e found).1
  rw [start,zero,tail] at same
  omega

end Oxbow.DevFS.LogOrder
