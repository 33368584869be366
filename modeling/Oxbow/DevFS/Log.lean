import Oxbow.Lib.Around
import Oxbow.Lib.Run
import Oxbow.DevFS.Bio
import Mathlib.Logic.Function.Basic

/-! The journal logs of DevFS. The log area is split into one ring for each data fetcher;
`head` and `n_free_blks` move when space is allocated, `tail` and `n_free_blks` when the
oldest space is freed. Callers hold the lock of the log, so each call is one step. -/
namespace Oxbow.DevFS

open Oxbow.Lib Option

structure JournalLog extends Ring where
  head : Nat
  tail : Nat
  nFreeBlks : Nat
  deriving DecidableEq

/-- `bytes_to_nblks` asserts whole blocks and returns a `uint32_t`. -/
def bytesToNblks (size : Nat) : Option Nat :=
  if size % blockSize = 0 then some (u32 (size / blockSize)) else none

def advance (r : Ring) (p n : Nat) : Nat :=
  if r.last < u64 (p + n) then
    let taken := sub64 (r.last + 1) p
    let remains := sub64 n taken
    u64 (r.first + remains)
  else u64 (p + n)

def updateLogState (log : JournalLog) (nBlkAdded : Nat) : JournalLog :=
  { log with
    head := advance log.toRing log.head nBlkAdded
    nFreeBlks := sub64 log.nFreeBlks nBlkAdded }

/-- The free count is read into a `uint32_t`. When it is too small the code stops at
`oxbow_assert(0)` before it can retry; otherwise `head` and the free count move as in
`update_log_state`. -/
def allocJournalSpace (log : JournalLog) (size : Nat) : Option (Nat × JournalLog) :=
  (bytesToNblks size).bind fun nBlkReq =>
    if u32 log.nFreeBlks < nBlkReq then none
    else some (log.head,updateLogState log nBlkReq)

/-- Only the oldest space can be freed; the code asserts that it starts at the tail. -/
def freeJournalSpace (log : JournalLog) (startBaddr size : Nat) : Option JournalLog :=
  (bytesToNblks size).bind fun nBlkReq =>
    if startBaddr ≠ log.tail then none
    else some { log with
      tail := advance log.toRing log.tail nBlkReq
      nFreeBlks := u64 (log.nFreeBlks + nBlkReq) }

structure JournalSb where
  first : Nat
  maxlen : Nat
  two : 2 ≤ maxlen
  addressable : first + maxlen ≤ 2^52

def initLog (first len : Nat) (positive : 0 < len) : JournalLog where
  first := first
  last := first + len - 1
  nonempty := by omega
  head := first
  tail := first
  nFreeBlks := first + len - 1 - first + 1

def initJournal (sb : JournalSb) (dfId : Fin 2) : JournalLog :=
  have positive : 0 < sb.maxlen / 2 := Nat.div_pos sb.two (by decide)
  let first := initLog sb.first (sb.maxlen / 2) positive
  match dfId with
  | 0 => first
  | 1 => initLog (first.last + 1) (sb.maxlen / 2) positive

structure LiveLog where
  log : JournalLog
  live : List Extent
  deriving DecidableEq

inductive LogOp
  | alloc (size : Nat)
  | update (nBlkAdded : Nat)
  | free (count : Nat)
  deriving DecidableEq

/-- `update_log_state` is called with amounts that are free; `free` passes the start of the
oldest segment and the size of the `count` oldest ones. -/
def LiveLog.step (s : LiveLog) : LogOp → Option LiveLog
  | .alloc size =>
    (allocJournalSpace s.log size).map fun out => ⟨out.2,s.live ++ [⟨out.1,size / blockSize⟩]⟩
  | .update n =>
    if n ≤ s.log.nFreeBlks then some ⟨updateLogState s.log n,s.live ++ [⟨s.log.head,n⟩]⟩ else none
  | .free count =>
    match s.live with
    | [] => none
    | oldest :: _ =>
      (freeJournalSpace s.log oldest.start (blocks (s.live.take count) * blockSize)).map fun log =>
        ⟨log,s.live.drop count⟩

abbrev Journal := Fin 2 → LiveLog

def Journal.init (sb : JournalSb) : Journal := fun dfId => ⟨initJournal sb dfId,[]⟩

def Journal.step (j : Journal) (act : Fin 2 × LogOp) : Option Journal :=
  ((j act.1).step act.2).map fun l => Function.update j act.1 l

structure LiveLog.Sound (s : LiveLog) : Prop where
  head : s.log.Holds s.log.head
  tail : s.log.Holds s.log.tail
  counted : s.log.nFreeBlks + blocks s.live = s.log.size
  laid : s.log.Around s.log.tail s.live s.log.head
  apart : s.live.Pairwise s.log.Apart

/-- Both logs are sound and share no block. -/
structure Journal.Sound (j : Journal) : Prop where
  each : ∀ dfId, (j dfId).Sound
  halves : ∀ a, ¬ ((j 0).log.Holds a ∧ (j 1).log.Holds a)

/-- Sizes that survive the `uint32_t` of `bytes_to_nblks`. -/
def LiveLog.Narrow (s : LiveLog) : LogOp → Prop
  | .alloc size => size / blockSize < 2^32
  | .update _ => True
  | .free count => blocks (s.live.take count) < 2^32

instance (s : LiveLog) : (op : LogOp) → Decidable (s.Narrow op)
  | .alloc _ => inferInstanceAs (Decidable (_ < _))
  | .update _ => inferInstanceAs (Decidable True)
  | .free _ => inferInstanceAs (Decidable (_ < _))

def Journal.Narrow (j : Journal) (act : Fin 2 × LogOp) : Prop := (j act.1).Narrow act.2

instance (j : Journal) (act : Fin 2 × LogOp) : Decidable (j.Narrow act) :=
  inferInstanceAs (Decidable ((j act.1).Narrow act.2))

theorem advance_eq (r : Ring) (addressable : r.last < 2^52) (holds : r.Holds p) (within : n ≤ r.size) :
    advance r p n = r.block p n := by
  simp only [Ring.Holds,Ring.size] at holds within
  simp only [advance,Ring.block,u64_of_lt (show p + n < 2^64 by omega)]
  by_cases beyond : r.last < p + n
  · have taken : sub64 (r.last + 1) p = r.last + 1 - p := sub64_of_le (by omega) (by omega)
    rw [if_pos beyond,if_neg (by omega),taken,sub64_of_le (by omega) (by omega),u64_of_lt (by omega)]
    omega
  · rw [if_neg beyond,if_pos (by omega)]

theorem bytesToNblks_whole (n : Nat) : bytesToNblks (n * blockSize) = some (u32 n) := by
  simp [bytesToNblks,blockSize]

structure LiveLog.Queue (r : Ring) (s : LiveLog) : Prop where
  ring : s.log.toRing = r
  addressable : r.last < 2^52
  tail : r.Holds s.log.tail
  counted : s.log.nFreeBlks + blocks s.live = r.size
  laid : r.Around s.log.tail s.live s.log.head

namespace LiveLog.Queue

variable {s : LiveLog}

section

variable (queue : s.Queue r)
include queue

theorem head : r.Holds s.log.head := by
  have within : blocks s.live ≤ r.size := by
    have := queue.counted
    omega
  rw [queue.laid.stop queue.tail within]
  exact r.block_wraps queue.tail within

theorem sound : s.Sound := by
  have within : blocks s.live ≤ r.size := by
    have := queue.counted
    omega
  have head := queue.head
  obtain ⟨rfl,_,tail,counted,laid⟩ := queue
  exact ⟨head,tail,counted,laid,laid.pairwise tail within⟩

theorem size_lt : r.size < 2^64 := by
  have := queue.addressable
  simp only [Ring.size]
  omega

theorem take (n : Nat) (free : n ≤ s.log.nFreeBlks) :
    LiveLog.Queue r ⟨updateLogState s.log n,s.live ++ [⟨s.log.head,n⟩]⟩ := by
  have counted := queue.counted
  have bounded := queue.size_lt
  have ring := queue.ring
  refine ⟨ring,queue.addressable,queue.tail,?_,?_⟩
  · simp only [updateLogState,blocks_append,blocks_cons,blocks_nil]
    rw [sub64_of_le free (by omega)]
    omega
  · have moved : (updateLogState s.log n).head = r.block s.log.head n := by
      simp only [updateLogState,ring]
      exact advance_eq r queue.addressable queue.head (by omega)
    rw [moved]
    exact queue.laid.snoc n

theorem release (count : Nat) (narrow : blocks (s.live.take count) < 2^32) (after : JournalLog)
    (freed : freeJournalSpace s.log start (blocks (s.live.take count) * blockSize) = some after) :
    LiveLog.Queue r ⟨after,s.live.drop count⟩ := by
  have counted := queue.counted
  have bounded := queue.size_lt
  have ring := queue.ring
  have whole := blocks_append (s.live.take count) (s.live.drop count)
  rw [List.take_append_drop] at whole
  rw [freeJournalSpace,bytesToNblks_whole,bind_some,u32_of_lt narrow] at freed
  obtain ⟨-,freed⟩ := ite_none_left_eq_some.mp freed
  have moved : advance s.log.toRing s.log.tail (blocks (s.live.take count)) =
      r.block s.log.tail (blocks (s.live.take count)) := by
    rw [ring]
    exact advance_eq r queue.addressable queue.tail (by omega)
  obtain rfl := some.inj freed
  refine ⟨ring,queue.addressable,?_,?_,?_⟩
  · simp only [moved]
    exact r.block_wraps queue.tail (by omega)
  · simp only
    rw [u64_of_lt (by omega)]
    omega
  · simp only [moved]
    exact queue.laid.drop queue.tail (by omega) count

/-- The free blocks are those from the head on; no live segment holds one. -/
theorem free_apart (free : k < s.log.nFreeBlks) : ∀ e ∈ s.live, r.block s.log.head k ∉ r.addresses e := by
  have counted := queue.counted
  intro e member inside
  obtain ⟨i,early,same⟩ := List.mem_map.mp inside
  obtain ⟨offset,start,short⟩ := queue.laid.offset queue.tail (by omega) e member
  rw [List.mem_range] at early
  rw [queue.laid.stop queue.tail (by omega),start,r.block_block queue.tail (by omega),
    r.block_block queue.tail (by omega)] at same
  have := r.block_injective (show offset + i < r.size by omega) (by omega) same
  omega

theorem inside : ∀ e ∈ s.live, ∀ a ∈ r.addresses e, r.Holds a := by
  have counted := queue.counted
  intro e member a address
  obtain ⟨i,early,rfl⟩ := List.mem_map.mp address
  obtain ⟨offset,start,short⟩ := queue.laid.offset queue.tail (by omega) e member
  rw [List.mem_range] at early
  rw [start,r.block_block queue.tail (by omega)]
  exact r.block_wraps queue.tail (by omega)

theorem step (op : LogOp) (narrow : s.Narrow op) (stepped : s.step op = some t) : t.Queue r := by
  cases op with
  | alloc size =>
    simp only [LiveLog.step,map_eq_some_iff] at stepped
    obtain ⟨⟨start,log⟩,allocated,rfl⟩ := stepped
    simp only [allocJournalSpace,bytesToNblks] at allocated
    split at allocated
    · rw [bind_some,u32_of_lt narrow] at allocated
      obtain ⟨enough,allocated⟩ := ite_none_left_eq_some.mp allocated
      obtain ⟨rfl,rfl⟩ := Prod.mk.inj (some.inj allocated)
      refine queue.take (size / blockSize) ?_
      exact Nat.le_trans (Nat.le_of_not_lt enough) (Nat.mod_le _ _)
    · cases allocated
  | update n =>
    simp only [LiveLog.step] at stepped
    obtain ⟨free,⟨⟩⟩ := ite_none_right_eq_some.mp stepped
    exact queue.take n free
  | free count =>
    simp only [LiveLog.step] at stepped
    split at stepped
    · cases stepped
    · obtain ⟨after,freed,rfl⟩ := map_eq_some_iff.mp stepped
      exact queue.release count narrow after freed

end

end LiveLog.Queue

theorem initLog_queue (first len : Nat) (positive : 0 < len) (addressable : first + len ≤ 2^52) :
    LiveLog.Queue (initLog first len positive).toRing ⟨initLog first len positive,[]⟩ := by
  refine ⟨rfl,?_,⟨Nat.le_refl _,(initLog first len positive).nonempty⟩,?_,rfl⟩
  · simp only [initLog]
    omega
  · simp [initLog,Ring.size]

theorem initJournal_queue (sb : JournalSb) (dfId : Fin 2) :
    (Journal.init sb dfId).Queue (initJournal sb dfId).toRing := by
  have addressable := sb.addressable
  have positive : 0 < sb.maxlen / 2 := Nat.div_pos sb.two (by decide)
  match dfId with
  | 0 => exact initLog_queue _ _ positive (by omega)
  | 1 =>
    refine initLog_queue _ _ positive ?_
    simp only [initLog]
    omega

theorem initJournal_halves (sb : JournalSb) (a : Nat) :
    ¬ ((initJournal sb 0).Holds a ∧ (initJournal sb 1).Holds a) := by
  simp only [initJournal,initLog,Ring.Holds]
  omega

theorem journal_step_queues (ring : Fin 2 → Ring) (j : Journal) (act : Fin 2 × LogOp) (k : Journal)
    (queues : ∀ dfId, (j dfId).Queue (ring dfId)) (narrow : j.Narrow act) (stepped : j.step act = some k) :
    ∀ dfId, (k dfId).Queue (ring dfId) := by
  obtain ⟨l,moved,rfl⟩ := map_eq_some_iff.mp stepped
  intro dfId
  by_cases same : dfId = act.1
  · subst same
    rw [Function.update_self]
    exact (queues act.1).step act.2 narrow moved
  · rw [Function.update_of_ne same]
    exact queues dfId

/-- Every run of allocations and frees keeps both logs sound, as long as no call passes
2^32 blocks or more through `bytes_to_nblks`. -/
theorem journal_sound (sb : JournalSb) (acts : List (Fin 2 × LogOp)) (j : Journal)
    (narrow : Along Journal.step Journal.Narrow (Journal.init sb) acts)
    (ran : run Journal.step (Journal.init sb) acts = some j) : j.Sound := by
  have queues := run_invariant Journal.step
    (fun j => ∀ dfId, (j dfId).Queue (initJournal sb dfId).toRing) Journal.Narrow
    (journal_step_queues _) (Journal.init sb) acts j (initJournal_queue sb) narrow ran
  refine ⟨fun dfId => (queues dfId).sound,?_⟩
  have halves := initJournal_halves sb
  intro a
  rw [(queues 0).ring,(queues 1).ring]
  exact halves a

def eightBlocks : JournalSb := ⟨1,8,by decide,by decide⟩

theorem journal_sound_wrapped : ∃ j,
    run Journal.step (Journal.init eightBlocks)
      [(0,.alloc 8192),(0,.update 2),(0,.free 1),(1,.alloc 4096),(0,.alloc 8192)] = some j ∧ j.Sound := by
  obtain ⟨j,ran⟩ := isSome_iff_exists.mp (show (run Journal.step (Journal.init eightBlocks)
    [(0,.alloc 8192),(0,.update 2),(0,.free 1),(1,.alloc 4096),(0,.alloc 8192)]).isSome by decide)
  exact ⟨j,ran,journal_sound eightBlocks _ j (by decide) ran⟩

end Oxbow.DevFS
