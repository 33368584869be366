import Oxbow.DevFS.PersistData
import Oxbow.Lib.Run

/-! The order of the writes of a transaction on one data fetcher. The chunks are persisted
by handlers of their own, at the same time as the handler that commits; the two sides meet
in the counter of the fetch context. The daemon sends the next transaction after the commit
has been answered, whatever the answer is. -/
namespace Oxbow.DevFS.WriteAhead

open Oxbow.Lib List Option

structure TxMsg where
  sizes : List Nat
  mdBlks : Nat
  head : Nat
  deriving DecidableEq, Repr

inductive ChunkPhase
  | sent
  | dispatched
  | completed
  | sized
  | counted
  | failed
  deriving DecidableEq, Repr

inductive CommitPhase
  | received
  | waiting
  | reserved
  | flushed
  | committed
  | reset
  | failed
  deriving DecidableEq, Repr

inductive Blk
  | data (tx reqId : Nat)
  | desc (tx : Nat)
  | metadata (tx k : Nat)
  | super (tx : Nat)
  | commit (tx : Nat)
  deriving DecidableEq, Repr

/-- `phase` is the commit handler of the last transaction, none once it is answered.
`durable` are the blocks whose write has completed; `counted` are the chunks that the
value of `req_cnt` stands for. -/
structure State where
  txs : List TxMsg
  phase : Option CommitPhase
  chunk : Nat → Nat → ChunkPhase
  ctx : FetchCtx
  durable : List Blk
  counted : List (Nat × Nat)

def init : State := ⟨[],none,fun _ _ => .sent,⟨0,0,0⟩,[],[]⟩

inductive ChunkAct
  | dispatch
  | poll
  | addSize
  | count
  | fail
  deriving DecidableEq, Repr

inductive Act
  | send (m : TxMsg)
  | chunk (tx reqId : Nat) (act : ChunkAct)
  | lock
  | wait
  | flush
  | allocFails
  | commitTx
  | resetFetchCtx
  | respond
  deriving DecidableEq, Repr

namespace State

variable (s : State)

def chunkMsg (tx reqId : Nat) : Option (TxMsg × Nat) :=
  (s.txs[tx]?).bind fun m => (m.sizes[reqId]?).map fun size => (m,size)

def Has (tx reqId : Nat) : Prop := (s.chunkMsg tx reqId).isSome

def setChunk (tx reqId : Nat) (p : ChunkPhase) : State :=
  { s with chunk := fun t i => if t = tx ∧ i = reqId then p else s.chunk t i }

def current : Nat := s.txs.length - 1

def metaBlks (m : TxMsg) : List Blk :=
  .desc s.current :: (List.range m.mdBlks).map (.metadata s.current) ++ [.super s.current]

def dataBlks (m : TxMsg) : List Blk := (List.range m.sizes.length).map (.data s.current)

end State

/-- The request that finds the chunk in the phase it waits in. Chunk 0 asserts that the
descriptor's address has been reset. -/
def chunkStep (s : State) (tx reqId : Nat) (m : TxMsg) (size : Nat) (act : ChunkAct) : Option State :=
  match act, s.chunk tx reqId with
  | .dispatch, .sent =>
    if reqId = 0 ∧ s.ctx.descBlkBaddr ≠ 0 then none
    else some { s.setChunk tx reqId .dispatched with
      ctx := { s.ctx with descBlkBaddr := if reqId = 0 then m.head else s.ctx.descBlkBaddr } }
  | .poll, .dispatched =>
    some { s.setChunk tx reqId .completed with durable := s.durable ++ [.data tx reqId] }
  | .fail, .dispatched => some (s.setChunk tx reqId .failed)
  | .addSize, .completed =>
    some { s.setChunk tx reqId .sized with
      ctx := { s.ctx with totalLogSize := u64 (s.ctx.totalLogSize + size) } }
  | .count, .sized =>
    some { s.setChunk tx reqId .counted with
      ctx := { s.ctx with reqCnt := u32 (s.ctx.reqCnt + 1) }
      counted := s.counted ++ [(tx,reqId)] }
  | _, _ => none

def commitStep (s : State) (m : TxMsg) : Act → CommitPhase → Option State
  | .lock, .received =>
    if m.sizes.length = 0 then
      if s.ctx = ⟨0,0,0⟩ then
        some { s with phase := some .reserved, ctx := { s.ctx with descBlkBaddr := m.head } }
      else none
    else some { s with phase := some .waiting }
  | .wait, .waiting =>
    if s.ctx.reqCnt = u32 m.sizes.length ∧ u64 m.sizes.sum = s.ctx.totalLogSize then
      some { s with phase := some .reserved }
    else none
  | .flush, .reserved => some { s with phase := some .flushed, durable := s.durable ++ s.metaBlks m }
  | .allocFails, .flushed => some { s with phase := some .failed }
  | .commitTx, .flushed => some { s with phase := some .committed, durable := s.durable ++ [.commit s.current] }
  | .resetFetchCtx, .committed => some { s with phase := some .reset, ctx := ⟨0,0,0⟩, counted := [] }
  | .respond, .reset => some { s with phase := none }
  | .respond, .failed => some { s with phase := none }
  | _, _ => none

def step (s : State) : Act → Option State
  | .send m =>
    if s.phase = none ∧ m.sizes.length < 2^31 ∧ m.head ≠ 0 then
      some { s with txs := s.txs ++ [m], phase := some .received }
    else none
  | .chunk tx reqId act => (s.chunkMsg tx reqId).bind fun msg => chunkStep s tx reqId msg.1 msg.2 act
  | act => s.phase.bind fun p => (s.txs.getLast?).bind fun m => commitStep s m act p

/-- The commit block is issued after every other block of its transaction is durable, and
what `req_cnt` counts are chunks of the transaction being received. -/
def SafeStep (s : State) (act : Act) : Prop :=
  (act = .commitTx → (step s act).isSome →
    ∀ m ∈ s.txs.getLast?, ∀ b ∈ s.dataBlks m ++ s.metaBlks m, b ∈ s.durable) ∧
    ∀ c ∈ s.counted, c.1 + 1 = s.txs.length

instance (s : State) (act : Act) : Decidable (SafeStep s act) :=
  inferInstanceAs (Decidable ((_ → _ → ∀ m ∈ _, ∀ b ∈ _, _) ∧ ∀ c ∈ _, _))

/-- The checkpoint entry can be allocated. -/
def Allocates (_ : State) (act : Act) : Prop := act ≠ .allocFails

instance (s : State) (act : Act) : Decidable (Allocates s act) := inferInstanceAs (Decidable (¬ _))

def Counting : Option CommitPhase → Bool
  | some .received | some .waiting | some .reserved | some .flushed | some .committed => true
  | _ => false

def Settled : Option CommitPhase → Bool
  | some .received | some .waiting => false
  | _ => true

def ChunkPhase.Written (p : ChunkPhase) : Prop := p = .completed ∨ p = .sized ∨ p = .counted

structure Invariant (s : State) : Prop where
  small : ∀ m ∈ s.txs, m.sizes.length < 2^31
  started : s.phase ≠ none → s.txs ≠ []
  succeeds : s.phase ≠ some .failed
  sent : ∀ t i, s.chunk t i ≠ .sent → s.Has t i
  finished : ∀ t i, s.Has t i → t + 1 < s.txs.length ∨ Settled s.phase = true → s.chunk t i = .counted
  distinct : s.counted.Nodup
  credited : ∀ c, c ∈ s.counted ↔
    Counting s.phase = true ∧ c.1 + 1 = s.txs.length ∧ s.chunk c.1 c.2 = .counted
  reqCnt : s.ctx.reqCnt = u32 s.counted.length
  durable : ∀ t i, (s.chunk t i).Written → .data t i ∈ s.durable
  flushed : s.phase = some .flushed → ∀ m ∈ s.txs.getLast?, ∀ b ∈ s.metaBlks m, b ∈ s.durable

theorem init_invariant : Invariant init := by
  constructor <;> simp [init,Counting,State.Has,State.chunkMsg,ChunkPhase.Written,u32]

variable {s t : State}

theorem State.Has.lt (has : s.Has tx reqId) : tx < s.txs.length := by
  by_contra outside
  have none : s.txs[tx]? = none := List.getElem?_eq_none (Nat.le_of_not_lt outside)
  simp [State.Has,State.chunkMsg,none] at has

theorem has_iff : s.Has tx reqId ↔ ∃ m, s.txs[tx]? = some m ∧ reqId < m.sizes.length := by
  simp only [State.Has,State.chunkMsg]
  cases s.txs[tx]? with
  | none => simp
  | some m => simp

theorem chunk_setChunk (tx reqId : Nat) (p : ChunkPhase) (i j : Nat) :
    (s.setChunk tx reqId p).chunk i j = if i = tx ∧ j = reqId then p else s.chunk i j := rfl

section

variable (inv : Invariant s) (has : s.Has tx reqId)
include inv has

theorem Invariant.moveChunk
    (before : s.chunk tx reqId ≠ .counted) (after : p ≠ .counted) (txs : t.txs = s.txs) (phase : t.phase = s.phase)
    (chunk : t.chunk = (s.setChunk tx reqId p).chunk) (counted : t.counted = s.counted)
    (reqCnt : t.ctx.reqCnt = s.ctx.reqCnt) (durable : ∀ b ∈ s.durable, b ∈ t.durable)
    (written : p.Written → .data tx reqId ∈ t.durable) : Invariant t := by
  have here : ∀ i j, t.Has i j ↔ s.Has i j := fun i j => by simp only [has_iff,txs]
  have sameMeta : ∀ m, t.metaBlks m = s.metaBlks m := fun m => by simp only [State.metaBlks,State.current,txs]
  constructor
  · rw [txs]
    exact inv.small
  · rw [phase,txs]
    exact inv.started
  · rw [phase]
    exact inv.succeeds
  · intro i j moved
    rw [here]
    rw [chunk,chunk_setChunk] at moved
    split at moved
    next same =>
      obtain ⟨rfl,rfl⟩ := same
      exact has
    · exact inv.sent i j moved
  · intro i j sent finished
    rw [here] at sent
    rw [txs,phase] at finished
    have done := inv.finished i j sent finished
    rw [chunk,chunk_setChunk]
    split
    next same =>
      obtain ⟨rfl,rfl⟩ := same
      exact absurd done before
    · exact done
  · rw [counted]
    exact inv.distinct
  · intro c
    rw [counted,txs,phase,chunk,chunk_setChunk,inv.credited]
    split
    next same => simp [same,before,after]
    · rfl
  · rw [reqCnt,counted]
    exact inv.reqCnt
  · intro i j isWritten
    rw [chunk,chunk_setChunk] at isWritten
    split at isWritten
    next same =>
      obtain ⟨rfl,rfl⟩ := same
      exact written isWritten
    · exact durable _ (inv.durable i j isWritten)
  · intro flushed m last b member
    rw [phase] at flushed
    rw [txs] at last
    rw [sameMeta] at member
    exact durable _ (inv.flushed flushed m last b member)

theorem Invariant.waitedFor
    (before : s.chunk tx reqId ≠ .counted) : tx + 1 = s.txs.length ∧ Counting s.phase = true ∧
      Settled s.phase = false := by
  have lt := has.lt
  have notYet : ¬ (tx + 1 < s.txs.length ∨ Settled s.phase = true) :=
    fun done => before (inv.finished tx reqId has done)
  have last : tx + 1 = s.txs.length := by omega
  have unsettled : Settled s.phase = false := by simpa using fun settled => notYet (.inr settled)
  refine ⟨last,?_,unsettled⟩
  revert unsettled
  cases s.phase with
  | none => simp [Settled]
  | some p => cases p <;> simp [Settled,Counting]

theorem Invariant.count (sized : s.chunk tx reqId = .sized) : Invariant { s.setChunk tx reqId .counted with
      ctx := { s.ctx with reqCnt := u32 (s.ctx.reqCnt + 1) }
      counted := s.counted ++ [(tx,reqId)] } := by
  obtain ⟨last,counting,unsettled⟩ := inv.waitedFor has (by simp [sized])
  have new : (tx,reqId) ∉ s.counted := by
    simp [inv.credited,sized]
  constructor
  · exact inv.small
  · exact inv.started
  · exact inv.succeeds
  · intro i j moved
    simp only [chunk_setChunk] at moved
    split at moved
    next same =>
      obtain ⟨rfl,rfl⟩ := same
      exact has
    · exact inv.sent i j moved
  · intro i j sent done
    simp only [chunk_setChunk]
    split
    · rfl
    · exact inv.finished i j sent done
  · exact nodup_append.mpr ⟨inv.distinct,by simp,fun c member d last same =>
      new (mem_singleton.mp last ▸ same ▸ member)⟩
  · rintro ⟨i,j⟩
    simp only [mem_append,mem_singleton,Prod.mk.injEq,chunk_setChunk,inv.credited]
    by_cases same : i = tx ∧ j = reqId
    · obtain ⟨rfl,rfl⟩ := same
      simp [State.setChunk,counting,last]
    · simp [State.setChunk,same]
  · simp only [length_append,length_singleton,inv.reqCnt,u32]
    omega
  · intro i j isWritten
    simp only [chunk_setChunk] at isWritten
    split at isWritten
    next same =>
      obtain ⟨rfl,rfl⟩ := same
      exact inv.durable i j (by simp [sized,ChunkPhase.Written])
    · exact inv.durable i j isWritten
  · exact inv.flushed

theorem chunkStep_preserves (stepped : chunkStep s tx reqId m size act = some t) : Invariant t := by
  unfold chunkStep at stepped
  split at stepped
  next sent =>
    obtain ⟨-,⟨⟩⟩ := ite_none_left_eq_some.mp stepped
    exact inv.moveChunk (p := .dispatched) has (by simp [sent]) (by simp) rfl rfl rfl rfl rfl
      (fun b member => member) (by simp [ChunkPhase.Written])
  next dispatched =>
    obtain rfl := some.inj stepped
    exact inv.moveChunk (p := .completed) has (by simp [dispatched]) (by simp) rfl rfl rfl rfl rfl
      (fun b member => mem_append_left _ member) (by simp)
  next dispatched =>
    obtain rfl := some.inj stepped
    exact inv.moveChunk (p := .failed) has (by simp [dispatched]) (by simp) rfl rfl rfl rfl rfl
      (fun b member => member) (by simp [ChunkPhase.Written])
  next completed =>
    obtain rfl := some.inj stepped
    exact inv.moveChunk (p := .sized) has (by simp [completed]) (by simp) rfl rfl rfl rfl rfl
      (fun b member => member) (fun _ => inv.durable tx reqId (by simp [completed,ChunkPhase.Written]))
  next sized =>
    obtain rfl := some.inj stepped
    exact inv.count has sized
  · cases stepped

end

theorem send_preserves (inv : Invariant s) (stepped : step s (.send m) = some t) : Invariant t := by
  simp only [step] at stepped
  split at stepped
  case isFalse => cases stepped
  case isTrue idle =>
    obtain rfl := some.inj stepped
    have before : ∀ i j, i < s.txs.length →
        (State.Has { s with txs := s.txs ++ [m], phase := some .received } i j ↔ s.Has i j) := by
      intro i j old
      simp only [has_iff,List.getElem?_append_left old]
    have none : s.counted = [] := by
      refine eq_nil_iff_forall_not_mem.mpr ?_
      intro c member
      have := (inv.credited c).mp member
      simp [idle.1,Counting] at this
    constructor
    · intro other member
      rcases mem_append.mp member with old | new
      · exact inv.small other old
      · exact mem_singleton.mp new ▸ idle.2.1
    · simp
    · simp
    · intro i j moved
      have has := inv.sent i j moved
      exact (before i j has.lt).mpr has
    · intro i j sent done
      simp only [Settled,length_append,length_singleton,Bool.false_eq_true,or_false] at done
      have old : i < s.txs.length := by omega
      exact inv.finished i j ((before i j old).mp sent) (.inr (by simp [idle.1,Settled]))
    · exact inv.distinct
    · intro c
      simp only [none,not_mem_nil,false_iff]
      rintro ⟨_,last,counted⟩
      have has := (inv.sent c.1 c.2 (by simp [counted])).lt
      simp only [length_append,length_singleton] at last
      omega
    · exact inv.reqCnt
    · exact inv.durable
    · simp

theorem last_msg (last : m ∈ s.txs.getLast?) : s.txs[s.current]? = some m := by
  rw [State.current,← getLast?_eq_getElem?]
  exact last

/-- When the counter has reached the number of requests, every chunk is counted. -/
theorem Invariant.waited (inv : Invariant s) (last : m ∈ s.txs.getLast?) (reached : s.ctx.reqCnt = u32 m.sizes.length) :
    ∀ i, s.Has s.current i → s.chunk s.current i = .counted := by
  have msg := last_msg last
  have small := inv.small m (mem_of_getLast? last)
  have nonempty : 0 < s.txs.length := by
    have := (List.getElem?_eq_some_iff.mp msg).1
    omega
  have inside : ∀ c ∈ s.counted, c.1 = s.current ∧ c.2 < m.sizes.length := by
    intro c member
    obtain ⟨_,here,counted⟩ := (inv.credited c).mp member
    have same : c.1 = s.current := by
      simp only [State.current]
      omega
    obtain ⟨other,which,bound⟩ := has_iff.mp (inv.sent c.1 c.2 (by simp [counted]))
    rw [same,msg] at which
    exact ⟨same,some.inj which ▸ bound⟩
  have distinct : (s.counted.map Prod.snd).Nodup := by
    refine inv.distinct.map_on ?_
    intro c cIn d dIn same
    exact Prod.ext ((inside c cIn).1.trans (inside d dIn).1.symm) same
  have bound : ∀ i ∈ s.counted.map Prod.snd, i < m.sizes.length := by
    intro i member
    obtain ⟨c,counted,rfl⟩ := mem_map.mp member
    exact (inside c counted).2
  have short : s.counted.length ≤ m.sizes.length := by
    have part : (s.counted.map Prod.snd).Subperm (List.range m.sizes.length) :=
      distinct.subperm fun i member => mem_range.mpr (bound i member)
    simpa using part.length_le
  have all : m.sizes.length ≤ (s.counted.map Prod.snd).length := by
    rw [inv.reqCnt,u32_of_lt (by omega),u32_of_lt (by omega)] at reached
    simp [reached]
  intro i has
  obtain ⟨other,which,small⟩ := has_iff.mp has
  rw [msg] at which
  obtain ⟨c,member,rfl⟩ := mem_map.mp (all_of_distinct distinct bound all i (some.inj which ▸ small))
  have counted := ((inv.credited c).mp member).2.2
  rwa [(inside c member).1] at counted

theorem Invariant.movePhase (inv : Invariant s) (q : Option CommitPhase) (txs : t.txs = s.txs)
    (phase : t.phase = q) (chunk : t.chunk = s.chunk) (counted : t.counted = s.counted)
    (reqCnt : t.ctx.reqCnt = s.ctx.reqCnt) (durable : ∀ b ∈ s.durable, b ∈ t.durable)
    (busy : s.phase ≠ none) (succeeds : q ≠ some .failed) (counting : Counting q = Counting s.phase)
    (settled : Settled q = true → Settled s.phase = true ∨ ∀ i, s.Has s.current i → s.chunk s.current i = .counted)
    (flushed : q = some .flushed → ∀ m ∈ s.txs.getLast?, ∀ b ∈ s.metaBlks m, b ∈ t.durable) : Invariant t := by
  have here : ∀ i j, t.Has i j ↔ s.Has i j := fun i j => by simp only [has_iff,txs]
  have sameMeta : ∀ m, t.metaBlks m = s.metaBlks m := fun m => by simp only [State.metaBlks,State.current,txs]
  constructor
  · rw [txs]
    exact inv.small
  · rw [txs]
    exact fun _ => inv.started busy
  · rw [phase]
    exact succeeds
  · intro i j moved
    rw [here]
    rw [chunk] at moved
    exact inv.sent i j moved
  · intro i j sent done
    rw [here] at sent
    rw [txs,phase] at done
    rw [chunk]
    by_cases earlier : i + 1 < s.txs.length
    · exact inv.finished i j sent (.inl earlier)
    · rcases settled (done.resolve_left earlier) with before | now
      · exact inv.finished i j sent (.inr before)
      · have lt := sent.lt
        obtain rfl : i = s.current := by
          simp only [State.current]
          omega
        exact now j sent
  · rw [counted]
    exact inv.distinct
  · intro c
    rw [counted,txs,phase,chunk,counting]
    exact inv.credited c
  · rw [reqCnt,counted]
    exact inv.reqCnt
  · intro i j written
    rw [chunk] at written
    exact durable _ (inv.durable i j written)
  · intro here m last b member
    rw [txs] at last
    rw [sameMeta] at member
    exact flushed (phase ▸ here) m last b member

theorem Invariant.resetFetchCtx (inv : Invariant s) (committed : s.phase = some .committed) :
    Invariant { s with phase := some .reset, ctx := ⟨0,0,0⟩, counted := [] } := by
  constructor
  · exact inv.small
  · exact fun _ => inv.started (by simp [committed])
  · simp
  · exact inv.sent
  · exact fun i j sent _ => inv.finished i j sent (.inr (by simp [committed,Settled]))
  · simp
  · simp [Counting]
  · simp [u32]
  · exact inv.durable
  · simp

theorem commitStep_preserves (inv : Invariant s)
    (phase : s.phase = some p) (last : m ∈ s.txs.getLast?) (allocates : act ≠ .allocFails)
    (stepped : commitStep s m act p = some t) : Invariant t := by
  have busy : s.phase ≠ none := by simp [phase]
  unfold commitStep at stepped
  split at stepped
  · split at stepped
    next noData =>
      obtain ⟨-,⟨⟩⟩ := ite_none_right_eq_some.mp stepped
      refine inv.movePhase (some .reserved) rfl rfl rfl rfl rfl (fun b member => member) busy (by simp)
        (by simp [phase,Counting]) (fun _ => .inr ?_) (by simp)
      intro i has
      obtain ⟨other,which,bound⟩ := has_iff.mp has
      rw [last_msg last] at which
      obtain rfl := some.inj which
      omega
    · obtain rfl := some.inj stepped
      exact inv.movePhase (some .waiting) rfl rfl rfl rfl rfl (fun b member => member) busy (by simp)
        (by simp [phase,Counting]) (by simp [Settled]) (by simp)
  · obtain ⟨reached,⟨⟩⟩ := ite_none_right_eq_some.mp stepped
    exact inv.movePhase (some .reserved) rfl rfl rfl rfl rfl (fun b member => member) busy (by simp)
      (by simp [phase,Counting]) (fun _ => .inr (inv.waited last reached.1)) (by simp)
  · obtain rfl := some.inj stepped
    refine inv.movePhase (some .flushed) rfl rfl rfl rfl rfl (fun b member => mem_append_left _ member) busy
      (by simp) (by simp [phase,Counting]) (by simp [phase,Settled]) ?_
    intro _ other isLast b member
    obtain rfl := mem_unique isLast last
    exact mem_append_right _ member
  · exact absurd rfl allocates
  · obtain rfl := some.inj stepped
    exact inv.movePhase (some .committed) rfl rfl rfl rfl rfl (fun b member => mem_append_left _ member) busy
      (by simp) (by simp [phase,Counting]) (by simp [phase,Settled]) (by simp)
  · obtain rfl := some.inj stepped
    exact inv.resetFetchCtx phase
  · obtain rfl := some.inj stepped
    exact inv.movePhase none rfl rfl rfl rfl rfl (fun b member => member) busy (by simp)
      (by simp [phase,Counting]) (by simp [phase,Settled]) (by simp)
  · exact absurd phase inv.succeeds
  · cases stepped

theorem step_preserves (s : State) (act : Act) (t : State) (inv : Invariant s) (allocates : Allocates s act)
    (stepped : step s act = some t) : Invariant t := by
  have commit : (s.phase.bind fun p => (s.txs.getLast?).bind fun m => commitStep s m act p) = some t → Invariant t := by
    intro stepped
    obtain ⟨p,phase,stepped⟩ := bind_eq_some_iff.mp stepped
    obtain ⟨m,last,stepped⟩ := bind_eq_some_iff.mp stepped
    exact commitStep_preserves inv phase last allocates stepped
  cases act with
  | send m => exact send_preserves inv stepped
  | chunk tx reqId act =>
    obtain ⟨msg,sent,stepped⟩ := bind_eq_some_iff.mp stepped
    exact chunkStep_preserves inv (by simp [State.Has,sent]) stepped
  | lock | wait | flush | allocFails | commitTx | resetFetchCtx | respond => exact commit stepped

theorem commitTx_flushed (issued : (step s .commitTx).isSome) : s.phase = some .flushed := by
  obtain ⟨t,stepped⟩ := isSome_iff_exists.mp issued
  obtain ⟨p,phase,stepped⟩ := bind_eq_some_iff.mp stepped
  obtain ⟨m,_,stepped⟩ := bind_eq_some_iff.mp stepped
  cases p with
  | flushed => exact phase
  | received | waiting | reserved | committed | reset | failed => cases stepped

theorem step_safe (s : State) (act : Act) (inv : Invariant s) (_ : Allocates s act) : SafeStep s act := by
  refine ⟨?_,fun c member => ((inv.credited c).mp member).2.1⟩
  rintro rfl issued m last b member
  have flushed := commitTx_flushed issued
  rcases mem_append.mp member with data | rest
  · obtain ⟨i,bound,rfl⟩ := mem_map.mp data
    have has : s.Has s.current i := has_iff.mpr ⟨m,last_msg last,mem_range.mp bound⟩
    have counted := inv.finished s.current i has (.inr (by simp [flushed,Settled]))
    exact inv.durable s.current i (.inr (.inr counted))
  · exact inv.flushed flushed m last b rest

/-- In every interleaving of the chunk handlers with the commit handler, over any sequence
of transactions whose checkpoint entries can be allocated, the commit block comes last and
no count is carried over. -/
theorem writeAhead (acts : List Act) (allocates : Along step Allocates init acts) : Along step SafeStep init acts :=
  Along.of_invariant step Invariant Allocates SafeStep step_preserves step_safe init acts init_invariant allocates

def persisted (tx reqId : Nat) : List Act :=
  [.chunk tx reqId .dispatch,.chunk tx reqId .poll,.chunk tx reqId .addSize,.chunk tx reqId .count]

def twoTransactions : List Act :=
  [.send ⟨[8,4],1,100⟩,.lock] ++ persisted 0 1 ++ persisted 0 0 ++
    [.wait,.flush,.commitTx,.resetFetchCtx,.respond,.send ⟨[8,2],2,120⟩] ++ persisted 1 1 ++ [.lock] ++
    persisted 1 0 ++ [.wait,.flush,.commitTx,.resetFetchCtx]

theorem writeAhead_two : (run step init twoTransactions).isSome ∧ Along step SafeStep init twoTransactions :=
  ⟨by decide,writeAhead twoTransactions (by decide)⟩

def staleCount : List Act :=
  [.send ⟨[8],1,100⟩,.lock] ++ persisted 0 0 ++ [.wait,.flush,.allocFails,.respond,.send ⟨[8,4],1,110⟩,.lock] ++
    persisted 1 1 ++ [.wait,.flush,.commitTx]

/-- With `HOST_JOURNALING`, the second transaction commits without the data of its chunk 0. -/
theorem staleCount_commits_early : ¬ Along step SafeStep init staleCount ∧
    (run step init staleCount).any (fun s => decide (.commit 1 ∈ s.durable ∧ .data 1 0 ∉ s.durable)) := by
  decide

end Oxbow.DevFS.WriteAhead
