import Oxbow.DevFS.CheckpointEffect
import Oxbow.DevFS.Commit
import Oxbow.Lib.Loop

/-! `start_checkpoint` on the checkpoint list and both logs: it checkpoints the oldest transaction until the lower of the
two free
percentages is at the target. No transaction is committed meanwhile. What the passes of a checkpoint copy is a parameter, which
`doCheckpointCoalesce_agrees` gives for the transactions of the coalescing checkpoint. -/
namespace Oxbow.DevFS.StartCkpt

open Oxbow.Lib Oxbow.Lib.Loop Function List Option

structure CkptListEntry (τ : Type) where
  dfId : Fin 2
  entry : CkptEntry
  txId : Nat
  tx : τ
  ready : Bool

def CkptListEntry.extent (ce : CkptListEntry τ) : Extent := ⟨ce.entry.jStartBaddr,ce.entry.totalTxSize / blockSize⟩

structure State (τ δ : Type) where
  log : Fin 2 → JournalLog
  sbTxId : Nat
  ckptList : List (CkptListEntry τ)
  disk : δ

/-- `free_blks * 100` and the number of blocks are 64-bit, the result is an `int`. -/
def journalFreePercent (log : JournalLog) : Int :=
  int32 (u64 (log.nFreeBlks * 100) / u64 (sub64 log.last log.first + 1) : Nat)

def firstDf : Fin 2 := ⟨0,Nat.two_pos⟩
def secondDf : Fin 2 := ⟨1,Nat.one_lt_two⟩

def lowerJournalFreePercent (s : State τ δ) : Int :=
  min (journalFreePercent (s.log firstDf)) (journalFreePercent (s.log secondDf))

def ckptListDequeue : List (CkptListEntry τ) → Option (CkptListEntry τ × List (CkptListEntry τ))
  | [] => none
  | ce :: rest => if ce.ready then some (ce,rest) else none

section

variable (copy : τ → δ → δ)

def doCheckpointCoalesce (s : State τ δ) : Option (State τ δ) :=
  match ckptListDequeue s.ckptList with
  | none => some s
  | some (ce,rest) =>
    (freeJournalSpace (s.log ce.dfId) ce.entry.jStartBaddr ce.entry.totalTxSize).map fun log =>
      ⟨Function.update s.log ce.dfId log,u32 (ce.txId + 1),rest,copy ce.tx s.disk⟩

def startCheckpoint (targetPerc : Int) : Nat → State τ δ → Option (State τ δ) :=
  whileLoop (fun s => lowerJournalFreePercent s < targetPerc) (doCheckpointCoalesce copy)

end

def live (ckptList : List (CkptListEntry τ)) (dfId : Fin 2) : List Extent :=
  (ckptList.filter (·.dfId = dfId)).map CkptListEntry.extent

def State.journal (s : State τ δ) : Journal := fun dfId => ⟨s.log dfId,live s.ckptList dfId⟩

/-- All the used blocks of both logs are those of the transactions on the list, which are ready. -/
structure Listed (s : State τ δ) : Prop where
  queue : ∀ dfId, (s.journal dfId).Queue (s.log dfId).toRing
  ready : ∀ ce ∈ s.ckptList, ce.ready = true
  whole : ∀ ce ∈ s.ckptList, ce.entry.totalTxSize % blockSize = 0

/-- The transactions `done` have been taken from the list and checkpointed in its order. -/
structure Checkpointed (copy : τ → δ → δ) (s t : State τ δ) (done : List (CkptListEntry τ)) : Prop where
  list : s.ckptList = done ++ t.ckptList
  disk : t.disk = done.foldl (fun disk ce => copy ce.tx disk) s.disk

/-- The loop ends, in the order of the list, and both logs are at the target. -/
def Reaches (copy : τ → δ → δ) (targetPerc : Int) (s : State τ δ) : Prop :=
  ∃ rounds t done, startCheckpoint copy targetPerc rounds s = some t ∧ Checkpointed copy s t done ∧
    ∀ dfId, targetPerc ≤ journalFreePercent (t.log dfId)

theorem journalFreePercent_eq (addressable : log.last < 2^52) (free : log.nFreeBlks ≤ log.size) :
    journalFreePercent log = (log.nFreeBlks * 100 / log.size : Nat) := by
  have order := log.nonempty
  have size : log.size = log.last - log.first + 1 := rfl
  have bound : log.nFreeBlks * 100 / log.size ≤ 100 := by
    apply Nat.div_le_of_le_mul
    exact Nat.mul_le_mul_right 100 free
  rw [journalFreePercent,u64_of_lt (show log.nFreeBlks * 100 < 2^64 by omega),sub64_of_le order (by omega),← size,
    u64_of_lt (show log.size < 2^64 by omega),int32_natCast (by omega)]

theorem full_percent_iff (addressable : log.last < 2^52) (free : log.nFreeBlks ≤ log.size) :
    100 ≤ journalFreePercent log ↔ log.nFreeBlks = log.size := by
  have positive : 0 < log.size := Nat.succ_pos _
  rw [journalFreePercent_eq addressable free]
  have hundred : 100 ≤ log.nFreeBlks * 100 / log.size ↔ log.size ≤ log.nFreeBlks := by
    rw [Nat.le_div_iff_mul_le positive,Nat.mul_comm]
    omega
  omega

theorem not_lower_iff (s : State τ δ) (targetPerc : Int) :
    ¬ lowerJournalFreePercent s < targetPerc ↔ ∀ dfId, targetPerc ≤ journalFreePercent (s.log dfId) := by
  rw [lowerJournalFreePercent,not_lt,le_min_iff,Fin.forall_fin_two]
  exact Iff.rfl

theorem doCheckpointCoalesce_cons (copy : τ → δ → δ) (first : s.ckptList = ce :: rest) (ready : ce.ready = true) :
    doCheckpointCoalesce copy s = (freeJournalSpace (s.log ce.dfId) ce.entry.jStartBaddr ce.entry.totalTxSize).map fun log =>
      ⟨Function.update s.log ce.dfId log,u32 (ce.txId + 1),rest,copy ce.tx s.disk⟩ := by
  rw [doCheckpointCoalesce,first,ckptListDequeue,if_pos ready]

theorem doCheckpointCoalesce_empty (copy : τ → δ → δ) (empty : s.ckptList = []) :
    doCheckpointCoalesce copy s = some s := by
  rw [doCheckpointCoalesce,empty,ckptListDequeue]

theorem live_own (ce : CkptListEntry τ) (rest : List (CkptListEntry τ)) :
    live (ce :: rest) ce.dfId = ce.extent :: live rest ce.dfId := by
  simp [live]

theorem live_other (other : dfId ≠ ce.dfId) (rest : List (CkptListEntry τ)) : live (ce :: rest) dfId = live rest dfId := by
  simp [live,other.symm]

theorem CkptListEntry.extent_size {ce : CkptListEntry τ} (whole : ce.entry.totalTxSize % blockSize = 0) :
    ce.extent.len * blockSize = ce.entry.totalTxSize := Nat.div_mul_cancel (Nat.dvd_of_mod_eq_zero whole)

theorem doCheckpointCoalesce_frees {copy : τ → δ → δ}
    (listed : Listed s) (first : s.ckptList = ce :: rest) (done : doCheckpointCoalesce copy s = some t) :
    s.journal.step (ce.dfId,.free 1) = some t.journal := by
  have member : ce ∈ s.ckptList := by simp [first]
  rw [doCheckpointCoalesce_cons copy first (listed.ready ce member)] at done
  obtain ⟨log,freed,rfl⟩ := map_eq_some_iff.mp done
  have taken : (s.journal ce.dfId).step (.free 1) = some ⟨log,live rest ce.dfId⟩ := by
    simp only [State.journal,LiveLog.step,first,live_own,take_succ_cons,take_zero,blocks_cons,blocks_nil,Nat.add_zero,
      ce.extent_size (listed.whole ce member),drop_succ_cons,drop_zero]
    change (freeJournalSpace (s.log ce.dfId) ce.entry.jStartBaddr ce.entry.totalTxSize).map _ = _
    rw [freed,map_some]
  rw [Journal.step,taken,map_some]
  congr 1
  funext dfId
  by_cases same : dfId = ce.dfId
  · subst same
    simp [State.journal]
  · simp [State.journal,first,live_other same,same]

theorem doCheckpointCoalesce_succeeds (copy : τ → δ → δ) (listed : Listed s) (first : s.ckptList = ce :: rest) :
    ∃ t, doCheckpointCoalesce copy s = some t ∧ t.ckptList = rest ∧ t.disk = copy ce.tx s.disk := by
  have member : ce ∈ s.ckptList := by simp [first]
  have laid := (listed.queue ce.dfId).laid
  simp only [State.journal,first,live_own] at laid
  have start : ce.entry.jStartBaddr = (s.log ce.dfId).tail := laid.1
  rw [doCheckpointCoalesce_cons copy first (listed.ready ce member),freeJournalSpace,bytesToNblks,
    if_pos (listed.whole ce member),
    bind_some,if_neg (not_not.mpr start)]
  exact ⟨_,rfl,rfl,rfl⟩

theorem Listed.checkpointed {copy : τ → δ → δ}
    (listed : Listed s) (first : s.ckptList = ce :: rest) (narrow : ce.extent.len < 2^32)
    (done : doCheckpointCoalesce copy s = some t) (left : t.ckptList = rest) : Listed t := by
  have small : s.journal.Narrow (ce.dfId,.free 1) := by
    change blocks ((live s.ckptList ce.dfId).take 1) < 2^32
    simpa [first,live_own] using narrow
  have queues := journal_step_queues (fun dfId => (s.log dfId).toRing) s.journal _ t.journal listed.queue small
    (doCheckpointCoalesce_frees listed first done)
  refine ⟨?_,?_,?_⟩
  · intro dfId
    have ring : (t.log dfId).toRing = (s.log dfId).toRing := (queues dfId).ring
    rw [ring]
    exact queues dfId
  · intro e member
    rw [left] at member
    exact listed.ready e (by simp [first,member])
  · intro e member
    rw [left] at member
    exact listed.whole e (by simp [first,member])

/-- The logs that `init_journal` makes are so after every run of allocations and frees, if the segments that are left are
those of the list. -/
theorem Listed.of_run (sb : JournalSb) (acts : List (Fin 2 × LogOp)) {s : State τ δ}
    (narrow : Along Journal.step Journal.Narrow (Journal.init sb) acts)
    (ran : run Journal.step (Journal.init sb) acts = some s.journal) (ready : ∀ ce ∈ s.ckptList, ce.ready = true)
    (whole : ∀ ce ∈ s.ckptList, ce.entry.totalTxSize % blockSize = 0) : Listed s := by
  have queues := run_invariant Journal.step
    (fun j => ∀ dfId, (j dfId).Queue (initJournal sb dfId).toRing) Journal.Narrow
    (journal_step_queues _) (Journal.init sb) acts s.journal (initJournal_queue sb) narrow ran
  refine ⟨?_,ready,whole⟩
  intro dfId
  have ring : (s.log dfId).toRing = (initJournal sb dfId).toRing := (queues dfId).ring
  rw [ring]
  exact queues dfId

theorem Listed.empty (listed : Listed s) (empty : s.ckptList = []) (dfId : Fin 2) : 100 ≤ journalFreePercent (s.log dfId) := by
  have queue := listed.queue dfId
  have counted := queue.counted
  simp only [State.journal,live,empty,filter_nil,map_nil,blocks_nil,Nat.add_zero] at counted
  exact (full_percent_iff queue.addressable (by omega)).mpr counted

theorem Checkpointed.next {copy : τ → δ → δ} (before : Checkpointed copy s t done) (first : t.ckptList = ce :: rest)
    (left : u.ckptList = rest) (copied : u.disk = copy ce.tx t.disk) : Checkpointed copy s u (done ++ [ce]) := by
  refine ⟨?_,?_⟩
  · rw [before.list,first,left,append_assoc,singleton_append]
  · rw [copied,before.disk,foldl_append,foldl_cons,foldl_nil]

theorem reaches_of_narrow (copy : τ → δ → δ) (listed : Listed s)
    (narrow : ∀ ce ∈ s.ckptList, ce.extent.len < 2^32) (most : targetPerc ≤ 100) : Reaches copy targetPerc s := by
  have round : ∀ t : State τ δ, (∃ done, Checkpointed copy s t done ∧ Listed t) →
    lowerJournalFreePercent t < targetPerc →
      ∃ u, doCheckpointCoalesce copy t = some u ∧ (∃ done, Checkpointed copy s u done ∧ Listed u) ∧
        u.ckptList.length < t.ckptList.length := by
    rintro t ⟨done,before,listed⟩ low
    match first : t.ckptList with
    | [] =>
      have free := (not_lower_iff t targetPerc).mpr fun dfId => Int.le_trans most (listed.empty first dfId)
      exact absurd low free
    | ce :: rest =>
      obtain ⟨u,next,left,copied⟩ := doCheckpointCoalesce_succeeds copy listed first
      have small := narrow ce (by simp [before.list,first])
      refine ⟨u,next,⟨done ++ [ce],before.next first left copied,listed.checkpointed first small next left⟩,?_⟩
      rw [left]
      exact Nat.lt_succ_self _
  obtain ⟨rounds,t,returned,⟨done,checkpointed,_⟩,stopped⟩ := whileLoop_returns
    (fun t => ∃ done, Checkpointed copy s t done ∧ Listed t) (fun t => t.ckptList.length) round ⟨[],⟨rfl,rfl⟩,listed⟩
  exact ⟨rounds,t,done,returned,checkpointed,(not_lower_iff t targetPerc).mp stopped⟩

/-! Space that the conversion to `uint32_t` loses. -/

def truncated (e : Extent) : Extent := ⟨e.start,u32 e.len⟩

theorem blocks_truncated_le (es : List Extent) : blocks (es.map truncated) ≤ blocks es := by
  induction es with
  | nil => exact Nat.le_refl 0
  | cons e es ih =>
    have here : u32 e.len ≤ e.len := Nat.mod_le _ _
    simp only [map_cons,blocks_cons,truncated]
    exact Nat.add_le_add here ih

theorem narrow_of_blocks_truncated (enough : blocks es ≤ blocks (es.map truncated)) : ∀ e ∈ es, e.len < 2^32 := by
  induction es with
  | nil => simp
  | cons e es ih =>
    have here : u32 e.len ≤ e.len := Nat.mod_le _ _
    have later := blocks_truncated_le es
    simp only [map_cons,blocks_cons,truncated] at enough
    intro f member
    rcases mem_cons.mp member with rfl | member
    · have same : u32 f.len = f.len := by omega
      rw [← same]
      exact u32_lt _
    · exact ih (by omega) f member

def State.room (s : State τ δ) (dfId : Fin 2) : Nat := (s.log dfId).nFreeBlks + blocks ((live s.ckptList dfId).map truncated)

theorem freeJournalSpace_cases {log after : JournalLog} (freed : freeJournalSpace log start size = some after) :
    after.toRing = log.toRing ∧ after.nFreeBlks ≤ log.nFreeBlks + u32 (size / blockSize) := by
  obtain ⟨n,count,freed⟩ := bind_eq_some_iff.mp freed
  rw [bytesToNblks] at count
  obtain ⟨-,⟨⟩⟩ := ite_none_right_eq_some.mp count
  obtain ⟨-,⟨⟩⟩ := ite_none_left_eq_some.mp freed
  exact ⟨rfl,Nat.mod_le _ _⟩

theorem doCheckpointCoalesce_room {copy : τ → δ → δ} (done : doCheckpointCoalesce copy s = some t)
    (dfId : Fin 2) : (t.log dfId).toRing = (s.log dfId).toRing ∧ t.room dfId ≤ s.room dfId := by
  match first : s.ckptList with
  | [] =>
    rw [doCheckpointCoalesce_empty copy first] at done
    obtain rfl := some.inj done
    exact ⟨rfl,Nat.le_refl _⟩
  | ce :: rest =>
    by_cases ready : ce.ready = true
    · rw [doCheckpointCoalesce_cons copy first ready] at done
      obtain ⟨log,freed,rfl⟩ := map_eq_some_iff.mp done
      obtain ⟨ring,free⟩ := freeJournalSpace_cases freed
      by_cases same : dfId = ce.dfId
      · subst same
        refine ⟨by simp [ring],?_⟩
        simp only [State.room,first,live_own,update_self,map_cons,blocks_cons,truncated,CkptListEntry.extent]
        omega
      · refine ⟨by simp [same],?_⟩
        simp only [State.room,first,live_other same,update_of_ne same]
        exact Nat.le_refl _
    · rw [doCheckpointCoalesce,first,ckptListDequeue,if_neg ready] at done
      obtain rfl := some.inj done
      exact ⟨rfl,Nat.le_refl _⟩

theorem narrow_of_returned {copy : τ → δ → δ} (listed : Listed s)
    (returned : startCheckpoint copy 100 rounds s = some t) : ∀ ce ∈ s.ckptList, ce.extent.len < 2^32 := by
  intro ce member
  obtain ⟨⟨ring,room⟩,stopped⟩ := whileLoop_invariant
    (fun t => (t.log ce.dfId).toRing = (s.log ce.dfId).toRing ∧ t.room ce.dfId ≤ s.room ce.dfId)
    (fun t u before _ next => ⟨(doCheckpointCoalesce_room next _).1.trans before.1,
      Nat.le_trans (doCheckpointCoalesce_room next _).2 before.2⟩) ⟨rfl,Nat.le_refl _⟩ returned
  have free := (not_lower_iff t 100).mp stopped
  have queue := listed.queue ce.dfId
  have counted := queue.counted
  have part := blocks_truncated_le (live s.ckptList ce.dfId)
  simp only [State.journal] at counted
  simp only [State.room] at room
  have full := (full_percent_iff (by rw [ring]; exact queue.addressable) (by rw [ring]; omega)).mp (free ce.dfId)
  rw [ring] at full
  have enough : blocks (live s.ckptList ce.dfId) ≤ blocks ((live s.ckptList ce.dfId).map truncated) := by omega
  refine narrow_of_blocks_truncated enough ce.extent ?_
  exact mem_map_of_mem (mem_filter.mpr ⟨member,by simp⟩)

/-- From a state in which all the used blocks belong to transactions on the list, every target is reached exactly if each of
these transactions has fewer than 2^32 blocks, which is so in logs with fewer blocks than that. -/
theorem startCheckpoint_reaches_iff (copy : τ → δ → δ) (s : State τ δ) (listed : Listed s) :
    (∀ targetPerc : Int, 0 ≤ targetPerc → targetPerc ≤ 100 → Reaches copy targetPerc s) ↔
      ∀ ce ∈ s.ckptList, ce.entry.totalTxSize / blockSize < 2^32 := by
  constructor
  · intro reaches
    obtain ⟨rounds,t,_,returned,_⟩ := reaches 100 (by decide) (by decide)
    exact narrow_of_returned listed returned
  · intro narrow targetPerc _ most
    exact reaches_of_narrow copy listed narrow most

theorem threeListed_first : 1 ≤ 10 := by decide
theorem threeListed_second : 11 ≤ 20 := by decide

def threeListed : State Nat (List Nat) where
  log := fun dfId => if dfId = firstDf then ⟨⟨1,10,threeListed_first⟩,5,8,3⟩ else
    ⟨⟨11,20,threeListed_second⟩,15,11,6⟩
  sbTxId := 7
  ckptList := [⟨firstDf,⟨8,16384⟩,7,7,true⟩,⟨secondDf,⟨11,16384⟩,8,8,true⟩,⟨firstDf,⟨2,12288⟩,9,9,true⟩]
  disk := []

theorem threeListed_listed : Listed threeListed := by
  refine ⟨?_,by decide,by decide⟩
  rw [Fin.forall_fin_two]
  refine ⟨⟨rfl,by decide,by decide,by decide,?_⟩,⟨rfl,by decide,by decide,by decide,?_⟩⟩
  · exact ⟨rfl,rfl,rfl⟩
  · exact ⟨rfl,rfl⟩

theorem startCheckpoint_reaches_threeListed : Listed threeListed ∧
    ∀ targetPerc : Int, 0 ≤ targetPerc → targetPerc ≤ 100 →
    Reaches (fun tx disk => disk ++ [tx]) targetPerc threeListed :=
  ⟨threeListed_listed,(startCheckpoint_reaches_iff _ threeListed threeListed_listed).mpr (by decide)⟩

/-! The transactions of the coalescing checkpoint. -/

section

variable (areas : Fin 2 → Logs)

def txEntry (dfId : Fin 2) (tx : Ckpt.Tx (areas dfId)) (ready : Bool) : CkptListEntry ((dfId : Fin 2) × Ckpt.Tx (areas dfId)) :=
  ⟨dfId,⟨tx.jStartBaddr,tx.totalTxSize⟩,tx.txId,⟨dfId,tx⟩,ready⟩

def copyTx (tx : (dfId : Fin 2) × Ckpt.Tx (areas dfId)) (disk : Ckpt.Blks) : Ckpt.Blks :=
  transfer disk (Ckpt.applyInodes disk disk (Ckpt.stageTxs tx.2.metaBlks))
    (Ckpt.stageWrites (Ckpt.stageTxs tx.2.metaBlks) ++ Ckpt.journalWrites tx.2)

theorem doCheckpointCoalesce_agrees (maxBufSize : Nat) (first : s.ckptList = txEntry areas dfId tx true :: rest) :
    doCheckpointCoalesce (copyTx areas) s =
      (Ckpt.doCheckpointCoalesce maxBufSize tx ⟨s.disk,s.sbTxId,s.log dfId⟩).map fun t =>
        ⟨Function.update s.log dfId t.jLog,t.sbTxId,rest,t.disk⟩ := by
  rw [doCheckpointCoalesce_cons (copyTx areas) first rfl,Ckpt.doCheckpointCoalesce_eq,Ckpt.release,Option.map_map]
  rfl

end

end Oxbow.DevFS.StartCkpt
