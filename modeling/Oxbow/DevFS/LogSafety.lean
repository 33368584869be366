import Oxbow.DevFS.Commit

/-! Transactions one after the other on one log, with checkpoints in between. The data of a
transaction is written behind the head before any space is taken for it. -/
namespace Oxbow.DevFS

open Oxbow.Lib

structure Tx where
  dataBlks : Nat
  mdBlks : Nat
  sent : List Nat
  deriving DecidableEq

/-- The committed transactions that no checkpoint has freed are kept oldest first, each
with the start and the size its checkpoint entry records. -/
structure TxLog where
  log : JournalLog
  persist : PersistState
  tx : Option Tx
  committed : List Extent

inductive TxAct
  | begin (dataBlks mdBlks : Nat)
  | data (reqId : Nat)
  | commit
  | checkpoint
  deriving DecidableEq

def TxLog.init (area : LogRing) : TxLog :=
  ⟨⟨area.toRing,area.first,area.first,area.size⟩,.init,none,[]⟩

namespace TxLog

variable (maxIoBlks : Nat) (area : LogRing)

def persistChunk (s : TxLog) (tx : Tx) (reqId : Nat) : PersistState :=
  persistData maxIoBlks area s.log.head reqId (chunkBlks tx.dataBlks reqId) s.persist

def commitTx (s : TxLog) (tx : Tx) : Option Committed :=
  persistMetaAndCommit s.log s.persist.ctx (tx.mdBlks * blockSize) (tx.dataBlks * blockSize) (nChunks tx.dataBlks)

def step (s : TxLog) (act : TxAct) : Option TxLog :=
  if s.persist.aborted then none
  else match act, s.tx with
    | .begin d m, none => if 1 ≤ m then some { s with tx := some ⟨d,m,[]⟩ } else none
    | .data reqId, some tx =>
      if reqId < nChunks tx.dataBlks ∧ reqId ∉ tx.sent then
        some { s with persist := s.persistChunk maxIoBlks area tx reqId, tx := some { tx with sent := reqId :: tx.sent } }
      else none
    | .commit, some tx =>
      (s.commitTx tx).map fun out =>
        ⟨out.log,.init,none,s.committed ++ [⟨out.entry.jStartBaddr,out.entry.totalTxSize / blockSize⟩]⟩
    | .checkpoint, _ =>
      match s.committed with
      | [] => none
      | oldest :: rest =>
        (freeJournalSpace s.log oldest.start (oldest.len * blockSize)).map fun log =>
          { s with log := log, committed := rest }
    | _, _ => none

def written (s : TxLog) (act : TxAct) : List Nat :=
  match act, s.tx with
  | .data reqId, some tx =>
    ((s.persistChunk maxIoBlks area tx reqId).writes.drop s.persist.writes.length).map Prod.fst
  | .commit, some tx => ((s.commitTx tx).map fun out => out.writes.map Prod.fst).getD []
  | _, _ => []

/-- The step writes no block of a committed transaction, and the free count does not pass
below zero: it stays within the size of the log. -/
def SafeStep (s : TxLog) (act : TxAct) : Prop :=
  ∀ t ∈ s.step maxIoBlks area act,
    (∀ b ∈ s.written maxIoBlks area act, ∀ e ∈ s.committed, b ∉ area.addresses e) ∧
      t.log.nFreeBlks ≤ area.size

instance (s : TxLog) (act : TxAct) : Decidable (s.SafeStep maxIoBlks area act) :=
  inferInstanceAs (Decidable (∀ t ∈ s.step maxIoBlks area act, _))

/-- When a chunk is persisted, the descriptor and the data up to its end are free; the
metadata of a transaction is counted in 32 bits. -/
def Fits (s : TxLog) (act : TxAct) : Prop :=
  match act, s.tx with
  | .begin _ m, _ => m + 1 < 2^32
  | .data reqId, some tx => reqId * nBlksPerChunk + chunkBlks tx.dataBlks reqId + 1 ≤ s.log.nFreeBlks
  | _, _ => True

instance (s : TxLog) (act : TxAct) : Decidable (s.Fits act) := by
  unfold Fits
  split <;> infer_instance

end TxLog

theorem addBioToBl_two (buf start n : Nat) (large : bioMaxBlks < n) :
    ∃ b c rest, addBioToBl buf start n = b :: c :: rest ∧ b.blkNo = start := by
  have limit : 1 ≤ bioMaxBlks := by decide
  obtain ⟨m,rfl⟩ : ∃ m, n = m + 1 + 1 := ⟨n - 2,by omega⟩
  simp only [addBioToBl,addBioLoop]
  rw [if_pos (Nat.succ_pos _),if_pos (by omega)]
  exact ⟨_,_,_,rfl,rfl⟩

theorem dispatched_stopped (ctx : FetchCtx) (writes : List (Nat × Nat)) (reqId n : Nat)
    (first second : List (Nat × Nat) × Option Nat) (stopped : first.2 = none) :
    persistDispatched ctx writes reqId n first second = ⟨ctx,writes ++ ofChunk reqId first.1,true⟩ := by
  simp only [persistDispatched,stopped]

theorem dispatched_nothing (ctx : FetchCtx) (writes : List (Nat × Nat)) (reqId n : Nat)
    (first second : List (Nat × Nat) × Option Nat) (nothing : first = ([],some 0)) :
    persistDispatched ctx writes reqId n first second = ⟨ctx,writes,false⟩ := by
  subst nothing
  simp [persistDispatched,ofChunk]

theorem dispatch_two (maxIoBlks : Nat) (bl : List Bio) (two : bl = b :: c :: rest) :
    dispatchIoFast maxIoBlks bl = (b.blocks,none) := by
  rw [two,dispatchIoFast]

/-- A chunk that starts further than one block past the end makes two bios of blocks
behind the log, and the second one stops DevFS. -/
theorem dispatch_past_end (area : LogRing) (maxIoBlks start n : Nat) (positive : 0 < n) (past : area.last + 1 < start)
    (near : start - (area.last + 1) + nBlksPerChunk < 2^32) (small : start + n ≤ 2^64) :
    let bls := addBiosConsideringWrapIntoSeparateBls area start n
    (dispatchIoFast maxIoBlks bls.1).2 = none ∧ ∀ w ∈ (dispatchIoFast maxIoBlks bls.1).1, area.last < w.1 := by
  have addressable := area.addressable
  have wrap := (checkWrapAround_iff start n area.last positive small).mpr (by omega)
  have count : bioMaxBlks < blksToEnd start area.last := by
    simp only [nBlksPerChunk] at near
    simp only [blksToEnd,u32,u64,sub64,bioMaxBlks]
    omega
  obtain ⟨b,c,rest,bios,first⟩ := addBioToBl_two 0 start _ count
  have bls : (addBiosConsideringWrapIntoSeparateBls area start n).1 = b :: c :: rest := by
    simp only [addBiosConsideringWrapIntoSeparateBls,wrap,if_true,bios]
  simp only [dispatch_two maxIoBlks _ bls]
  refine ⟨trivial,?_⟩
  intro w member
  obtain ⟨i,_,rfl⟩ := List.mem_map.mp member
  simp only [first]
  omega

/-- The blocks a chunk writes are among the free ones or behind the log. -/
theorem persistData_new (area : LogRing) (maxIoBlks reqId n free : Nat) (s : PersistState) (holds : area.Holds head)
    (positive : 0 < n) (chunk : n ≤ nBlksPerChunk) (room : reqId * nBlksPerChunk + n + 1 ≤ free)
    (within : free ≤ area.size) (small : area.size + nBlksPerChunk ≤ 2^32) :
    ∃ new, (persistData maxIoBlks area head reqId n s).writes = s.writes ++ new ∧
      ∀ w ∈ new, (∃ k, k < free ∧ w.1 = area.block head k) ∨ area.last < w.1 := by
  have addressable := area.addressable
  have lower := holds.1
  have upper := holds.2
  by_cases stopped : s.aborted = true
  · exact ⟨[],by simp [persistData,stopped],by simp⟩
  by_cases set : reqId = 0 ∧ s.ctx.descBlkBaddr ≠ 0
  · exact ⟨[],by simp [persistData,stopped,set],by simp⟩
  have alive : s.aborted = false := by simpa using stopped
  have here : dataStart head reqId = head + 1 + reqId * nBlksPerChunk := rfl
  rcases Nat.lt_trichotomy (dataStart head reqId) (area.last + 1) with inside | atEnd | past
  · have placed := persistData_inside maxIoBlks area head reqId n s alive
      (fun zero => Decidable.not_not.mp fun nonzero => set ⟨zero,nonzero⟩) (by omega) lower positive chunk
    refine ⟨_,placed.2.2.2,?_⟩
    intro w member
    obtain ⟨i,early,rfl⟩ := List.mem_map.mp member
    rw [List.mem_range] at early
    exact .inl ⟨1 + (reqId * nBlksPerChunk + i),by omega,rfl⟩
  · have none : blksToEnd (dataStart head reqId) area.last = 0 :=
      (blksToEnd_of_le _ _ (by omega) (by omega) (by omega)).trans (by omega)
    have wrap := (checkWrapAround_iff (dataStart head reqId) n area.last positive (by omega)).mpr (by omega)
    have empty : (addBiosConsideringWrapIntoSeparateBls area (dataStart head reqId) n).1 = [] := by
      rw [addBiosConsideringWrapIntoSeparateBls,if_pos wrap]
      simp only [none]
      rfl
    refine ⟨[],?_,by simp⟩
    rw [persistData_eq maxIoBlks area head reqId n s alive set (by omega),empty,dispatchIoFast,
      dispatched_nothing _ _ _ _ _ _ rfl,List.append_nil]
  · have outside := dispatch_past_end area maxIoBlks (dataStart head reqId) n positive past (by omega) (by omega)
    refine ⟨ofChunk reqId (dispatchIoFast maxIoBlks
      (addBiosConsideringWrapIntoSeparateBls area (dataStart head reqId) n).1).1,?_,?_⟩
    · rw [persistData_eq maxIoBlks area head reqId n s alive set (by omega),
        dispatched_stopped _ _ _ _ _ _ outside.1]
    · intro w member
      obtain ⟨v,dispatched,rfl⟩ := List.mem_map.mp member
      exact .inr (outside.2 v dispatched)

theorem dispatched_ctx (ctx : FetchCtx) (writes : List (Nat × Nat)) (reqId n : Nat)
    (first second : List (Nat × Nat) × Option Nat)
    (alive : (persistDispatched ctx writes reqId n first second).aborted = false) :
    (persistDispatched ctx writes reqId n first second).ctx.descBlkBaddr = ctx.descBlkBaddr ∧
      (persistDispatched ctx writes reqId n first second).ctx.reqCnt ≤ ctx.reqCnt + 1 := by
  unfold persistDispatched at alive ⊢
  split at alive
  · cases alive
  · exact ⟨rfl,Nat.le_succ _⟩
  · cases alive
  · exact ⟨rfl,Nat.mod_le _ _⟩

theorem persistData_ctx (area : LogRing) (maxIoBlks head reqId n : Nat) (s : PersistState)
    (alive : (persistData maxIoBlks area head reqId n s).aborted = false) (before : s.aborted = false) :
    (persistData maxIoBlks area head reqId n s).ctx.descBlkBaddr =
        (if reqId = 0 then head else s.ctx.descBlkBaddr) ∧
      (persistData maxIoBlks area head reqId n s).ctx.reqCnt ≤ s.ctx.reqCnt + 1 := by
  have start : (if reqId = 0 then getChunckStart head reqId else s.ctx.descBlkBaddr) =
      if reqId = 0 then head else s.ctx.descBlkBaddr := by
    split
    next zero => rw [getChunckStart,if_pos zero]
    · rfl
  by_cases set : reqId = 0 ∧ s.ctx.descBlkBaddr ≠ 0
  · simp [persistData,before,set] at alive
  · rw [persistData,if_neg (by simp [before]),if_neg set,start] at alive ⊢
    exact dispatched_ctx _ _ _ _ _ _ alive

structure Sending (s : TxLog) (tx : Tx) : Prop where
  distinct : tx.sent.Nodup
  bound : ∀ reqId ∈ tx.sent, reqId < nChunks tx.dataBlks
  desc : s.persist.ctx.descBlkBaddr = if 0 ∈ tx.sent then s.log.head else 0
  counted : s.persist.ctx.reqCnt ≤ tx.sent.length
  fresh : tx.sent = [] → s.persist.ctx = ⟨0,0,0⟩
  room : ∀ reqId ∈ tx.sent, reqId * nBlksPerChunk + chunkBlks tx.dataBlks reqId + 1 ≤ s.log.nFreeBlks
  mdBlks : 1 ≤ tx.mdBlks ∧ tx.mdBlks + 1 < 2^32

structure TxLog.Invariant (area : LogRing) (s : TxLog) : Prop where
  queue : LiveLog.Queue area.toRing ⟨s.log,s.committed⟩
  idle : s.tx = none → s.persist = .init
  sending : ∀ tx, s.tx = some tx → s.persist.aborted = false → Sending s tx

theorem TxLog.Invariant.ready {s : TxLog} (inv : s.Invariant area) (positive : 0 < area.first) : s.log.Ready := by
  have queue := inv.queue
  have ring : s.log.toRing = area.toRing := queue.ring
  have counted : s.log.nFreeBlks + blocks s.committed = area.size := queue.counted
  have head : area.Holds s.log.head := queue.head
  have addressable := area.addressable
  rw [← ring] at counted head
  refine ⟨?_,?_,head,by omega⟩
  · rw [ring]
    exact positive
  · rw [ring]
    exact addressable

theorem commitTx_reserved (s : TxLog) (tx : Tx) (committed : s.commitTx tx = some out) :
    ∃ reserved, reserveData s.log s.persist.ctx (tx.dataBlks * blockSize) (nChunks tx.dataBlks) = some reserved := by
  rw [TxLog.commitTx,persistMetaAndCommit] at committed
  split at committed
  · cases committed
  · obtain ⟨reserved,first,_⟩ := Option.bind_eq_some_iff.mp committed
    exact ⟨reserved,first⟩

theorem nChunks_pos (positive : 0 < n) : 0 < nChunks n := by
  simp only [nChunks,nBlksPerChunk]
  omega

theorem last_chunk (positive : 0 < n) : (nChunks n - 1) * nBlksPerChunk + chunkBlks n (nChunks n - 1) = n := by
  simp only [nChunks,nBlksPerChunk,chunkBlks]
  omega

theorem Sending.fetched (sending : Sending s tx) (committed : s.commitTx tx = some out) :
    Fetched s.log.head tx.dataBlks (nChunks tx.dataBlks) s.persist.ctx ∧
      (0 < tx.dataBlks → 1 + tx.dataBlks ≤ s.log.nFreeBlks) := by
  obtain ⟨reserved,first⟩ := commitTx_reserved s tx committed
  by_cases data : tx.dataBlks = 0
  · have chunks : nChunks tx.dataBlks = 0 := by rw [data]; rfl
    rw [reserveData,if_pos chunks] at first
    split at first
    next clear => exact ⟨by rw [Fetched,if_pos data]; exact ⟨chunks,clear.2⟩,by omega⟩
    · cases first
  · have chunks := nChunks_pos (Nat.pos_of_ne_zero data)
    rw [reserveData,if_neg (by omega)] at first
    split at first
    next counted =>
      have all := all_of_distinct sending.distinct sending.bound (by have := sending.counted; omega)
      have last := sending.room _ (all (nChunks tx.dataBlks - 1) (by omega))
      rw [last_chunk (Nat.pos_of_ne_zero data)] at last
      have desc := sending.desc
      rw [if_pos (all 0 chunks)] at desc
      refine ⟨?_,by omega⟩
      rw [Fetched,if_neg data,← desc,← counted.1,counted.2]
      exact ⟨by omega,rfl⟩
    · cases first

section Safety

variable (maxIoBlks : Nat) (area : LogRing) {s t : TxLog}

theorem TxLog.Invariant.size (inv : s.Invariant area) : s.log.nFreeBlks ≤ area.size := by
  have : s.log.nFreeBlks + blocks s.committed = area.size := inv.queue.counted
  omega

/-- A commit that returns has taken its blocks from the free ones. -/
theorem commitTx_spec (positive : 0 < area.first) (inv : s.Invariant area) (sending : Sending s tx)
    (committed : s.commitTx tx = some out) :
    tx.dataBlks + tx.mdBlks + 2 ≤ s.log.nFreeBlks ∧ Laidout s.log tx.dataBlks tx.mdBlks out ∧
      out.log = updateLogState s.log (tx.dataBlks + tx.mdBlks + 2) := by
  have ready := inv.ready positive
  have bounded := inv.size area
  have narrow := area.fits
  obtain ⟨some,small⟩ := sending.mdBlks
  obtain ⟨fetched,data⟩ := sending.fetched committed
  have free : ¬ (tx.dataBlks = 0 ∧ u32 s.log.nFreeBlks = 0) := by
    intro none
    obtain ⟨reserved,first⟩ := commitTx_reserved s tx committed
    rw [reserveData_eq fetched,if_pos none] at first
    cases first
  have count : u32 s.log.nFreeBlks = s.log.nFreeBlks := u32_of_lt (by omega)
  have enough : 1 + tx.dataBlks ≤ s.log.nFreeBlks := by omega
  have whole := committed
  rw [TxLog.commitTx,persistMetaAndCommit_eq ready fetched some enough (by omega),u32_of_lt small,
    u32_of_lt (show s.log.nFreeBlks - (1 + tx.dataBlks) < 2^32 by omega)] at whole
  split at whole
  · cases whole
  next seen =>
    have fits : tx.dataBlks + tx.mdBlks + 2 ≤ s.log.nFreeBlks := by omega
    have seenFree : SeenFree s.log.nFreeBlks tx.dataBlks tx.mdBlks := by
      refine ⟨by omega,?_⟩
      rw [u32_of_lt (by omega)]
      omega
    obtain ⟨same,returned,laidout⟩ := laidout_of_seenFree ready fetched some fits seenFree
    obtain rfl : same = out := Option.some.inj (returned.symm.trans committed)
    refine ⟨fits,laidout,?_⟩
    have log := congrArg Committed.log (Option.some.inj whole)
    rw [← log]
    simp only
    rw [updateLogState_add ready (by omega)]
    congr 1
    omega

theorem TxLog.step_cases (stepped : s.step maxIoBlks area act = some t) : s.persist.aborted = false ∧
    ((∃ d m, act = .begin d m ∧ s.tx = none ∧ 1 ≤ m ∧ t = { s with tx := some ⟨d,m,[]⟩ }) ∨
    (∃ reqId tx, act = .data reqId ∧ s.tx = some tx ∧ reqId < nChunks tx.dataBlks ∧ reqId ∉ tx.sent ∧
      t = { s with persist := s.persistChunk maxIoBlks area tx reqId, tx := some { tx with sent := reqId :: tx.sent } }) ∨
    (∃ tx out, act = .commit ∧ s.tx = some tx ∧ s.commitTx tx = some out ∧
      t = ⟨out.log,.init,none,s.committed ++ [⟨out.entry.jStartBaddr,out.entry.totalTxSize / blockSize⟩]⟩) ∨
    ∃ oldest rest log, act = .checkpoint ∧ s.committed = oldest :: rest ∧
      freeJournalSpace s.log oldest.start (oldest.len * blockSize) = some log ∧
      t = { s with log := log, committed := rest }) := by
  unfold TxLog.step at stepped
  split at stepped
  · cases stepped
  next alive =>
    refine ⟨by simpa using alive,?_⟩
    split at stepped
    next d m idle =>
      split at stepped
      next some => exact .inl ⟨d,m,rfl,idle,some,(Option.some.inj stepped).symm⟩
      · cases stepped
    next reqId tx sending =>
      split at stepped
      next new => exact .inr (.inl ⟨reqId,tx,rfl,sending,new.1,new.2,(Option.some.inj stepped).symm⟩)
      · cases stepped
    next tx sending =>
      obtain ⟨out,committed,rfl⟩ := Option.map_eq_some_iff.mp stepped
      exact .inr (.inr (.inl ⟨tx,out,rfl,sending,committed,rfl⟩))
    next =>
      split at stepped
      · cases stepped
      next oldest rest queue =>
        obtain ⟨log,freed,rfl⟩ := Option.map_eq_some_iff.mp stepped
        exact .inr (.inr (.inr ⟨oldest,rest,log,rfl,queue,freed,rfl⟩))
    · cases stepped

theorem freeJournalSpace_head (freed : freeJournalSpace log start size = some after) : after.head = log.head := by
  rw [freeJournalSpace] at freed
  obtain ⟨n,_,moved⟩ := Option.bind_eq_some_iff.mp freed
  split at moved
  · cases moved
  · rw [← Option.some.inj moved]

theorem sending_data (sending : Sending s tx)
    (room : reqId * nBlksPerChunk + chunkBlks tx.dataBlks reqId + 1 ≤ s.log.nFreeBlks)
    (bound : reqId < nChunks tx.dataBlks) (new : reqId ∉ tx.sent) (before : s.persist.aborted = false)
    (alive : (s.persistChunk maxIoBlks area tx reqId).aborted = false) :
    Sending { s with persist := s.persistChunk maxIoBlks area tx reqId, tx := some { tx with sent := reqId :: tx.sent } }
      { tx with sent := reqId :: tx.sent } := by
  obtain ⟨desc,counted⟩ :=
    persistData_ctx area maxIoBlks s.log.head reqId (chunkBlks tx.dataBlks reqId) s.persist alive before
  refine ⟨List.nodup_cons.mpr ⟨new,sending.distinct⟩,?_,?_,?_,by simp,?_,sending.mdBlks⟩
  · intro other member
    rcases List.mem_cons.mp member with rfl | member
    · exact bound
    · exact sending.bound other member
  · simp only [TxLog.persistChunk,desc,sending.desc,List.mem_cons,eq_comm (a := 0)]
    by_cases zero : reqId = 0 <;> simp [zero]
  · have := sending.counted
    simp only [TxLog.persistChunk,List.length_cons]
    omega
  · intro other member
    rcases List.mem_cons.mp member with rfl | member
    · exact room
    · exact sending.room other member

theorem TxLog.step_preserves (positive : 0 < area.first) (s : TxLog) (act : TxAct) (t : TxLog)
    (inv : s.Invariant area) (fits : s.Fits act) (stepped : s.step maxIoBlks area act = some t) :
    t.Invariant area := by
  obtain ⟨alive,cases⟩ := TxLog.step_cases maxIoBlks area stepped
  rcases cases with
      ⟨d,m,rfl,idle,some,rfl⟩ | ⟨reqId,tx,rfl,current,bound,new,rfl⟩ | ⟨tx,out,rfl,current,committed,rfl⟩ |
    ⟨oldest,rest,log,rfl,queue,freed,rfl⟩
  · refine ⟨inv.queue,by simp,?_⟩
    intro tx same _
    obtain rfl := Option.some.inj same
    have fresh := inv.idle idle
    exact ⟨.nil,by simp,by simp [fresh,PersistState.init],by simp [fresh,PersistState.init],
      by simp [fresh,PersistState.init],by simp,some,fits⟩
  · refine ⟨inv.queue,by simp,?_⟩
    intro other same still
    obtain rfl := Option.some.inj same
    simp only [TxLog.Fits,current] at fits
    exact sending_data maxIoBlks area (inv.sending tx current alive) fits bound new alive still
  · obtain ⟨room,laidout,log⟩ := commitTx_spec area positive inv (inv.sending tx current alive) committed
    refine ⟨?_,fun _ => rfl,by simp⟩
    have some := (inv.sending tx current alive).mdBlks.1
    have len : (1 + tx.dataBlks + (tx.mdBlks - 1) + 2) * blockSize / blockSize = tx.dataBlks + tx.mdBlks + 2 := by
      rw [Nat.mul_div_cancel _ (by decide)]
      omega
    rw [laidout.entry,log]
    simp only [len]
    exact inv.queue.take _ room
  · have taken := inv.queue.release 1 (by
      have := inv.queue.counted
      have := area.fits
      simp only [queue,List.take_succ_cons,List.take_zero,blocks_cons,blocks_nil] at *
      omega) log (by simpa [queue] using freed)
    simp only [queue,List.drop_succ_cons,List.drop_zero] at taken
    refine ⟨taken,inv.idle,?_⟩
    intro tx current _
    have sending := inv.sending tx current alive
    have head := freeJournalSpace_head freed
    have more : s.log.nFreeBlks ≤ log.nFreeBlks := by
      have before := inv.queue.counted
      have after := taken.counted
      simp only [queue,blocks_cons] at before after
      omega
    exact ⟨sending.distinct,sending.bound,by simp only [head]; exact sending.desc,sending.counted,sending.fresh,
      fun reqId member => Nat.le_trans (sending.room reqId member) more,sending.mdBlks⟩

theorem data_apart (small : area.size + nBlksPerChunk ≤ 2^32) (inv : s.Invariant area)
    (room : reqId * nBlksPerChunk + chunkBlks tx.dataBlks reqId + 1 ≤ s.log.nFreeBlks)
    (bound : reqId < nChunks tx.dataBlks) :
    ∀ b ∈ ((s.persistChunk maxIoBlks area tx reqId).writes.drop s.persist.writes.length).map Prod.fst,
      ∀ e ∈ s.committed, b ∉ area.addresses e := by
  obtain ⟨new,writes,places⟩ := persistData_new area maxIoBlks reqId (chunkBlks tx.dataBlks reqId) s.log.nFreeBlks
    s.persist inv.queue.head (chunkBlks_pos tx.dataBlks reqId bound) (Nat.min_le_left _ _) room
    (inv.size area) small
  rw [TxLog.persistChunk,writes,List.drop_left]
  intro b member e live
  obtain ⟨w,written,rfl⟩ := List.mem_map.mp member
  rcases places w written with ⟨k,free,address⟩ | outside
  · rw [address]
    exact inv.queue.free_apart free e live
  · intro inside
    have := (inv.queue.inside e live w.1 inside).2
    omega

theorem commit_apart (positive : 0 < area.first) (inv : s.Invariant area) (sending : Sending s tx)
    (committed : s.commitTx tx = some out) :
    ∀ b ∈ out.writes.map Prod.fst, ∀ e ∈ s.committed, b ∉ area.addresses e := by
  obtain ⟨room,laidout,_⟩ := commitTx_spec area positive inv sending committed
  have ring : s.log.toRing = area.toRing := inv.queue.ring
  have zero := s.log.block_zero (inv.ready positive).head
  have free : ∀ w ∈ out.writes, ∃ k, k < s.log.nFreeBlks ∧ w.1 = s.log.block s.log.head k := by
    intro w written
    have member := laidout.writes.mem_iff.mp written
    simp only [txBlocks,List.cons_append,List.mem_cons,List.mem_append,List.mem_map,List.mem_range,
      List.not_mem_nil,or_false] at member
    rcases member with rfl | ⟨k,early,rfl⟩ | rfl | rfl
    · exact ⟨0,by omega,zero.symm⟩
    · exact ⟨_,by omega,rfl⟩
    · exact ⟨_,by omega,rfl⟩
    · exact ⟨_,by omega,rfl⟩
  intro b member e live
  obtain ⟨w,written,rfl⟩ := List.mem_map.mp member
  obtain ⟨k,early,address⟩ := free w written
  rw [address,ring]
  exact inv.queue.free_apart early e live

theorem TxLog.step_safe (positive : 0 < area.first) (small : area.size + nBlksPerChunk ≤ 2^32) (s : TxLog)
    (act : TxAct) (inv : s.Invariant area) (fits : s.Fits act) : s.SafeStep maxIoBlks area act := by
  intro t stepped
  refine ⟨?_,(TxLog.step_preserves maxIoBlks area positive s act t inv fits stepped).size area⟩
  obtain ⟨alive,cases⟩ := TxLog.step_cases maxIoBlks area stepped
  rcases cases with ⟨d,m,rfl,_⟩ | ⟨reqId,tx,rfl,current,bound,_⟩ | ⟨tx,out,rfl,current,committed,_⟩ |
    ⟨oldest,rest,log,rfl,_⟩
  · simp [TxLog.written]
  · simp only [TxLog.Fits,current] at fits
    simp only [TxLog.written,current]
    exact data_apart maxIoBlks area small inv fits bound
  · simp only [TxLog.written,current,committed,Option.map_some,Option.getD_some]
    exact commit_apart area positive inv (inv.sending tx current alive) committed
  · simp [TxLog.written]

theorem TxLog.init_invariant : (TxLog.init area).Invariant area := by
  refine ⟨⟨rfl,?_,⟨Nat.le_refl _,area.nonempty⟩,rfl,rfl⟩,fun _ => rfl,by simp [TxLog.init]⟩
  exact area.addressable

end Safety

/-- As long as the space of every chunk is free when the chunk is persisted, no step of any
run writes a live block or takes more blocks than are free. -/
theorem txLog_safe (maxIoBlks : Nat) (area : LogRing) (positive : 0 < area.first)
    (small : area.size + nBlksPerChunk ≤ 2^32) (acts : List TxAct)
    (fits : Along (TxLog.step maxIoBlks area) TxLog.Fits (TxLog.init area) acts) :
    Along (TxLog.step maxIoBlks area) (TxLog.SafeStep maxIoBlks area) (TxLog.init area) acts :=
  Along.of_invariant (TxLog.step maxIoBlks area) (TxLog.Invariant area) TxLog.Fits (TxLog.SafeStep maxIoBlks area)
    (TxLog.step_preserves maxIoBlks area positive) (TxLog.step_safe maxIoBlks area positive small)
    (TxLog.init area) acts (TxLog.init_invariant area) fits

def eightBlockArea : LogRing := ⟨⟨1,8,by decide⟩,by decide,by decide⟩

def freedBetween : List TxAct := [.begin 2 1,.data 0,.commit,.begin 2 2,.checkpoint,.data 0,.commit]

theorem txLog_safe_freed : (run (TxLog.step 31 eightBlockArea) (TxLog.init eightBlockArea) freedBetween).isSome ∧
    Along (TxLog.step 31 eightBlockArea) (TxLog.SafeStep 31 eightBlockArea) (TxLog.init eightBlockArea) freedBetween :=
  ⟨by decide,txLog_safe 31 eightBlockArea (by decide) (by decide) _ (by decide)⟩

/-- The first transaction holds blocks 1 to 5. The data of the second runs over the end
into blocks 1 to 3, and its commit takes six blocks where three are free. -/
theorem txLog_overwrites : ¬ Along (TxLog.step 31 eightBlockArea) (TxLog.SafeStep 31 eightBlockArea)
    (TxLog.init eightBlockArea) [.begin 2 1,.data 0,.commit,.begin 5 1,.data 0] := by
  decide

end Oxbow.DevFS
