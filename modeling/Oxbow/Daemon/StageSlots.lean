import Oxbow.Lib.RingInterval

/-! The slot tracker of a stage transaction. The sequence buffers are issued as a prefix when the last one is full, and once more
at the end; they are given back in ring order while their completions arrive in any order, so the slots that are still busy from
one round can meet those of the next. -/
namespace Oxbow.Daemon.StageSlots

open Oxbow.Lib.RingInterval Function List

/-- `seq_max` buffers of `g_max_nvme_max_io_size`, given in blocks. The first write can leave out the first block of a buffer. -/
structure Buffers where
  seqMax : Nat
  perSeq : Nat
  sequences : 0 < seqMax
  blocks : 2 ≤ perSeq

structure Tracker where
  slotHead : Nat
  slotTail : Nat
  busySlots : Nat
  slotBusy : Nat → Bool
  slotDone : Nat → Bool
  reqIssuedTotal : Nat
  reqCompletedTotal : Nat
  ioError : Bool

inductive Write
  | slot (n : Nat)
  | own
  deriving DecidableEq, Repr

namespace Tracker

def trackReqIssue (reqNr : Nat) (t : Tracker) : Tracker := { t with reqIssuedTotal := t.reqIssuedTotal + reqNr }

/-- More completions than requests are an assertion failure. -/
def trackReqComplete (reqNr : Nat) (t : Tracker) : Option Tracker :=
  if t.reqIssuedTotal < t.reqCompletedTotal + reqNr then none
  else some { t with reqCompletedTotal := t.reqCompletedTotal + reqNr }

/-- A slot that is still busy is an assertion failure, and so are more busy slots than there are. -/
def markSlotsIssuedPrefix (c : Buffers) (issuedSlots : Nat) (t : Tracker) : Option Tracker :=
  if issuedSlots = 0 then some t
  else
    let issuedSlots := min issuedSlots c.seqMax
    if (List.range issuedSlots).any t.slotBusy then none
    else if c.seqMax < t.busySlots + issuedSlots then none
    else some { t with
      slotBusy := fun i => if i < issuedSlots then true else t.slotBusy i
      slotDone := fun i => if i < issuedSlots then false else t.slotDone i
      busySlots := t.busySlots + issuedSlots
      slotHead := issuedSlots % c.seqMax }

def reclaimTail (c : Buffers) (t : Tracker) : Tracker :=
  { t with
    slotBusy := update t.slotBusy t.slotTail false
    slotDone := update t.slotDone t.slotTail false
    slotTail := if t.slotTail + 1 = c.seqMax then 0 else t.slotTail + 1
    busySlots := t.busySlots - 1 }

def reclaimRounds (c : Buffers) : Nat → Tracker → Tracker
  | 0, t => t
  | rounds + 1, t => if t.slotBusy t.slotTail ∧ t.slotDone t.slotTail then reclaimRounds c rounds (t.reclaimTail c) else t

def reclaimDoneSlotsInorder (c : Buffers) (t : Tracker) : Tracker := reclaimRounds c t.busySlots t

def slotComplete (c : Buffers) (slotIdx : Nat) (t : Tracker) : Tracker :=
  if c.seqMax ≤ slotIdx then { t with ioError := true }
  else if t.slotBusy slotIdx = false then { t with ioError := true }
  else { t with slotDone := update t.slotDone slotIdx true }

end Tracker

inductive Pc
  | filling
  | waiting
  | draining
  | drained
  deriving DecidableEq, Repr

structure State where
  seqIdx : Nat
  nrBlocks : Nat
  nrPending : Nat
  stageAreaReserved : Bool
  descBlkSkipped : Bool
  slots : Tracker
  outstanding : List Write
  wrTrackCb : Nat → Bool
  pc : Pc

inductive Act
  | resvBlk
  | fixBlocks
  | poll (delivered : List Write)
  | slotFree
  | finish
  | allDone

def newStageTx (c : Buffers) : State where
  seqIdx := 0
  nrBlocks := c.perSeq
  nrPending := 0
  stageAreaReserved := false
  descBlkSkipped := false
  slots := ⟨0,0,0,fun _ => false,fun _ => false,0,0,false⟩
  outstanding := []
  wrTrackCb := fun _ => false
  pc := .filling

def directWriteSlots (perSeq : Nat) : (seqs n left : Nat) → List Nat
  | 0, _, _ => []
  | seqs + 1, n, left =>
    n :: if left - min left perSeq = 0 then [] else directWriteSlots perSeq seqs (n + 1) (left - min left perSeq)

def issuePending (c : Buffers) (seqNr : Nat) (s : State) : Option State :=
  let slots := directWriteSlots c.perSeq seqNr 0 s.nrPending
  (s.slots.markSlotsIssuedPrefix c slots.length).map fun t =>
    { s with
      slots := t.trackReqIssue slots.length
      outstanding := s.outstanding ++ slots.map .slot
      wrTrackCb := fun i => if i ∈ slots then true else s.wrTrackCb i
      seqIdx := 0
      nrPending := 0 }

def issueOwn (s : State) : State :=
  { s with slots := s.slots.trackReqIssue 1, outstanding := s.outstanding ++ [.own] }

def takeBlk (s : State) : State := { s with nrPending := s.nrPending + 1, nrBlocks := s.nrBlocks - 1 }

def resvBlk (c : Buffers) (s : State) : Option State :=
  if s.nrBlocks = 0 then
    if s.seqIdx + 1 = c.seqMax then
      if s.stageAreaReserved then
        (issuePending c c.seqMax s).map fun t => { t with descBlkSkipped := true, pc := .waiting }
      else none
    else some { s with seqIdx := s.seqIdx + 1, pc := .waiting }
  else some (takeBlk s)

def slotFree (c : Buffers) (s : State) : Option State :=
  if s.slots.slotBusy s.seqIdx then none
  else some (takeBlk { s with
    slots := { s.slots with slotHead := (s.seqIdx + 1) % c.seqMax }
    nrBlocks := c.perSeq
    pc := .filling })

/-- `wr_complete` of a write, as long as the sequence still has its callback. -/
def wrComplete (c : Buffers) (w : Write) (s : State) : State :=
  match w with
  | .slot n =>
    if s.wrTrackCb n then
      { s with slots := s.slots.slotComplete c n, wrTrackCb := update s.wrTrackCb n false }
    else s
  | .own => s

def processCompletions (c : Buffers) : List Write → State → Option State
  | [], s => some s
  | w :: ws, s =>
    if w ∈ s.outstanding then processCompletions c ws
      (wrComplete c w { s with outstanding := s.outstanding.erase w }) else none

/-- `stx_poll_completions` without a limit of its own. An I/O error stops the loop that polls. -/
def pollCompletions (c : Buffers) (delivered : List Write) (s : State) : Option State :=
  let outstanding := s.slots.reqIssuedTotal - s.slots.reqCompletedTotal
  if outstanding < delivered.length then none
  else if delivered = [] then some s
  else
    (processCompletions c delivered s).bind fun s =>
      (s.slots.trackReqComplete delivered.length).bind fun t =>
        if t.ioError then none else some { s with slots := t.reclaimDoneSlotsInorder c }

def flushTail (c : Buffers) (s : State) : Option State :=
  if s.nrPending = 0 then some s
  else (issuePending c (s.seqIdx + 1) s).map fun t => { t with nrBlocks := c.perSeq }

def finish (c : Buffers) (s : State) : Option State :=
  if s.stageAreaReserved then
    (flushTail c s).map fun t => { issueOwn (if t.descBlkSkipped then issueOwn t else t) with pc := .draining }
  else none

def step (c : Buffers) (s : State) : Act → Option State
  | .resvBlk => if s.pc = .filling then resvBlk c s else none
  | .fixBlocks => if s.pc = .filling then some { s with stageAreaReserved := true } else none
  | .poll delivered =>
    if s.pc = .waiting ∧ s.slots.slotBusy s.seqIdx ∨ s.pc = .draining ∧
      s.slots.reqCompletedTotal < s.slots.reqIssuedTotal then
      pollCompletions c delivered s
    else none
  | .slotFree => if s.pc = .waiting then slotFree c s else none
  | .finish => if s.pc = .filling then finish c s else none
  | .allDone =>
    if s.pc = .draining ∧ s.slots.reqIssuedTotal ≤ s.slots.reqCompletedTotal then some { s with pc := .drained } else none

/-- The slot whose buffer the step writes a block into. The descriptor goes into the first one if it is written with the tail. -/
def refills (s : State) : Act → Option Nat
  | .resvBlk => if s.nrBlocks = 0 then none else some s.seqIdx
  | .slotFree => some s.seqIdx
  | .finish => if s.nrPending ≠ 0 ∧ s.descBlkSkipped = false then some 0 else none
  | .fixBlocks | .poll _ | .allDone => none

/-! What the tracker and the device have in common. -/

/-- The busy slots make up an interval of the ring from the tail on, and those that are not done are the ones written;
`found` completions have not been counted yet. -/
structure Tracked (c : Buffers) (found : Nat) (s : State) : Prop where
  tail : s.slots.slotTail < c.seqMax
  few : s.slots.busySlots ≤ c.seqMax
  ring : ∀ i, s.slots.slotBusy i = true ↔ InRing c.seqMax s.slots.slotTail s.slots.busySlots i
  writes : ∀ i, s.outstanding.count (.slot i) = if s.slots.slotBusy i = true ∧ s.slots.slotDone i = false then 1 else 0
  calls : ∀ i, s.slots.slotBusy i = true → s.slots.slotDone i = false → s.wrTrackCb i = true
  total : s.slots.reqCompletedTotal + found + s.outstanding.length = s.slots.reqIssuedTotal
  error : s.slots.ioError = false

variable {c : Buffers}

section

variable (tracked : Tracked c found s)
include tracked

theorem Tracked.frame (seqIdx nrBlocks nrPending slotHead : Nat) (reserved skipped : Bool) (pc : Pc) :
    Tracked c found ⟨seqIdx,nrBlocks,nrPending,reserved,skipped,{ s.slots with slotHead := slotHead },
      s.outstanding,s.wrTrackCb,pc⟩ :=
  ⟨tracked.tail,tracked.few,tracked.ring,tracked.writes,tracked.calls,tracked.total,tracked.error⟩

theorem Tracked.busy_lt (busy : s.slots.slotBusy i = true) : i < c.seqMax :=
  ((tracked.ring i).mp busy).1

theorem Tracked.mem_iff (i : Nat) : .slot i ∈ s.outstanding ↔ s.slots.slotBusy i = true ∧ s.slots.slotDone i = false := by
  rw [← count_pos_iff,tracked.writes]
  split <;> simp_all

theorem Tracked.wrComplete (member : w ∈ s.outstanding) :
    Tracked c (found + 1) (wrComplete c w { s with outstanding := s.outstanding.erase w }) := by
  have total := tracked.total
  have some := length_pos_of_mem member
  have length := length_erase_of_mem member
  cases w with
  | own =>
    simp only [StageSlots.wrComplete]
    refine ⟨tracked.tail,tracked.few,tracked.ring,?_,tracked.calls,?_,tracked.error⟩
    · intro i
      rw [← tracked.writes i]
      exact count_erase_of_ne (by simp)
    · dsimp only
      omega
  | slot n =>
    obtain ⟨busy,undone⟩ := (tracked.mem_iff n).mp member
    have below := tracked.busy_lt busy
    have call := tracked.calls n busy undone
    have completed : s.slots.slotComplete c n = { s.slots with slotDone := update s.slots.slotDone n true } := by
      rw [Tracker.slotComplete,if_neg (by omega),if_neg (by simp [busy])]
    simp only [StageSlots.wrComplete,call,if_true,completed]
    refine ⟨tracked.tail,tracked.few,tracked.ring,?_,?_,?_,tracked.error⟩
    · intro i
      by_cases same : i = n
      · subst same
        simp only [update_self,count_erase_self,tracked.writes,busy,undone]
        simp
      · have other : Write.slot i ≠ .slot n := by simpa using same
        simp only [update_of_ne same,count_erase_of_ne other,tracked.writes]
    · intro i busy undone
      by_cases same : i = n
      · simp [same] at undone
      · simp only [update_of_ne same] at undone ⊢
        exact tracked.calls i busy undone
    · dsimp only
      omega

end

def Aligned (c : Buffers) (t : Tracker) : Prop := t.slotTail + t.busySlots = c.seqMax ∨ t.slotTail = 0 ∧ t.busySlots = 0

structure Polled (c : Buffers) (s t : State) : Prop where
  seqIdx : t.seqIdx = s.seqIdx
  nrBlocks : t.nrBlocks = s.nrBlocks
  nrPending : t.nrPending = s.nrPending
  stageAreaReserved : t.stageAreaReserved = s.stageAreaReserved
  descBlkSkipped : t.descBlkSkipped = s.descBlkSkipped
  pc : t.pc = s.pc
  slotBusy : ∀ i, s.slots.slotBusy i = false → t.slots.slotBusy i = false
  aligned : Aligned c s.slots → Aligned c t.slots
  none : s.outstanding = [] → t.outstanding = []

theorem Polled.refl (c : Buffers) (s : State) : Polled c s s := ⟨rfl,rfl,rfl,rfl,rfl,rfl,fun _ => id,id,id⟩

theorem Polled.trans (first : Polled c s t) (second : Polled c t u) : Polled c s u :=
  ⟨second.seqIdx.trans first.seqIdx,second.nrBlocks.trans first.nrBlocks,second.nrPending.trans first.nrPending,
    second.stageAreaReserved.trans first.stageAreaReserved,
      second.descBlkSkipped.trans first.descBlkSkipped,second.pc.trans first.pc,
    fun i free => second.slotBusy i (first.slotBusy i free),fun before => second.aligned (first.aligned before),fun before =>
      second.none (first.none before)⟩

theorem wrComplete_polled (c : Buffers) (s : State) (w : Write) :
    Polled c s (wrComplete c w { s with outstanding := s.outstanding.erase w }) := by
  have none : s.outstanding = [] → s.outstanding.erase w = [] := fun empty => by rw [empty,erase_nil]
  cases w with
  | own => exact ⟨rfl,rfl,rfl,rfl,rfl,rfl,fun _ => id,id,none⟩
  | slot n =>
    simp only [wrComplete,Tracker.slotComplete]
    split_ifs <;> exact ⟨rfl,rfl,rfl,rfl,rfl,rfl,fun _ => id,id,none⟩

theorem processCompletions_tracked (ws : List Write) (tracked : Tracked c found s)
    (processed : processCompletions c ws s = some t) :
    Tracked c (found + ws.length) t ∧ Polled c s t := by
  induction ws generalizing s found with
  | nil =>
    obtain rfl : s = t := Option.some.inj processed
    exact ⟨tracked,.refl c s⟩
  | cons w ws ih =>
    rw [processCompletions] at processed
    obtain ⟨member,processed⟩ := Option.ite_none_right_eq_some.mp processed
    obtain ⟨rest,polled⟩ := ih (tracked.wrComplete member) processed
    rw [Nat.add_assoc,Nat.add_comm 1] at rest
    exact ⟨rest,(wrComplete_polled c s w).trans polled⟩

theorem wrComplete_outstanding (c : Buffers) (w : Write) (s : State) : (wrComplete c w s).outstanding = s.outstanding := by
  cases w with
  | own => rfl
  | slot n =>
    rw [wrComplete]
    split <;> rfl

theorem processCompletions_length (ws : List Write) (processed : processCompletions c ws s = some t) :
    t.outstanding.length + ws.length = s.outstanding.length := by
  induction ws generalizing s with
  | nil =>
    obtain rfl : s = t := Option.some.inj processed
    rfl
  | cons w ws ih =>
    rw [processCompletions] at processed
    obtain ⟨member,processed⟩ := Option.ite_none_right_eq_some.mp processed
    have rest := ih processed
    have some := length_pos_of_mem member
    rw [wrComplete_outstanding,length_erase_of_mem member] at rest
    rw [length_cons]
    omega

theorem processCompletions_total (ws : List Write) (tracked : Tracked c found s) (among : ws.Subperm s.outstanding) :
    ∃ t, processCompletions c ws s = some t := by
  induction ws generalizing s found with
  | nil => exact ⟨s,rfl⟩
  | cons w ws ih =>
    have member : w ∈ s.outstanding := among.subset mem_cons_self
    have rest : ws.Subperm (s.outstanding.erase w) := by
      have erased := among.erase w
      rwa [erase_cons_head] at erased
    rw [processCompletions,if_pos member]
    refine ih (tracked.wrComplete member) ?_
    rw [wrComplete_outstanding]
    exact rest

theorem next_eq_advance (tail : Nat) (below : tail < c.seqMax) :
    (if tail + 1 = c.seqMax then 0 else tail + 1) = advance c.seqMax tail 1 := by
  unfold advance
  split <;> split <;> omega

theorem Tracked.reclaimTail (tracked : Tracked c found s) (busy : s.slots.slotBusy s.slots.slotTail = true)
    (done : s.slots.slotDone s.slots.slotTail = true) :
    0 < s.slots.busySlots ∧ Tracked c found { s with slots := s.slots.reclaimTail c } ∧
      Polled c s { s with slots := s.slots.reclaimTail c } := by
  have tail := tracked.tail
  have few := tracked.few
  have some : 0 < s.slots.busySlots := by
    by_contra none
    have inside := (tracked.ring _).mp busy
    rw [Nat.eq_zero_of_not_pos none] at inside
    exact not_inRing_zero tail inside
  refine ⟨some,⟨?_,?_,?_,?_,?_,tracked.total,tracked.error⟩,⟨rfl,rfl,rfl,rfl,rfl,rfl,?_,?_,id⟩⟩
  · simp only [Tracker.reclaimTail]
    split <;> omega
  · simp only [Tracker.reclaimTail]
    omega
  · intro i
    have last : s.slots.busySlots - 1 + 1 = s.slots.busySlots := by omega
    have shorter := inRing_advance (n := c.seqMax) (i := i) tail (show s.slots.busySlots - 1 < c.seqMax by omega)
    rw [last,← tracked.ring i] at shorter
    simp only [Tracker.reclaimTail,next_eq_advance _ tail]
    rw [shorter]
    by_cases same : i = s.slots.slotTail
    · simp [same]
    · simp [same]
  · intro i
    rw [tracked.writes]
    by_cases same : i = s.slots.slotTail
    · simp [Tracker.reclaimTail,same,done]
    · simp [Tracker.reclaimTail,same]
  · intro i busy' undone
    by_cases same : i = s.slots.slotTail
    · simp [Tracker.reclaimTail,same] at busy'
    · simp only [Tracker.reclaimTail,update_of_ne same] at busy' undone
      exact tracked.calls i busy' undone
  · intro i free
    by_cases same : i = s.slots.slotTail
    · simp [Tracker.reclaimTail,same]
    · simpa [Tracker.reclaimTail,same] using free
  · intro aligned
    simp only [Aligned,Tracker.reclaimTail] at aligned ⊢
    split <;> omega

def Settled (t : Tracker) : Prop := t.busySlots = 0 ∨ t.slotDone t.slotTail = false

theorem Tracked.reclaimRounds (rounds : Nat) (tracked : Tracked c found s) (all : rounds = s.slots.busySlots) :
    Tracked c found { s with slots := s.slots.reclaimRounds c rounds } ∧
      Polled c s { s with slots := s.slots.reclaimRounds c rounds } ∧ Settled (s.slots.reclaimRounds c rounds) := by
  induction rounds generalizing s with
  | zero => exact ⟨tracked,.refl c s,.inl all.symm⟩
  | succ rounds ih =>
    rw [Tracker.reclaimRounds]
    split
    next ready =>
      obtain ⟨some,kept,polled⟩ := tracked.reclaimTail ready.1 ready.2
      have fewer : (s.slots.reclaimTail c).busySlots = s.slots.busySlots - 1 := rfl
      obtain ⟨rest,after,settled⟩ := ih kept (by rw [fewer]; omega)
      exact ⟨rest,polled.trans after,settled⟩
    next stop =>
      refine ⟨tracked,.refl c s,.inr ?_⟩
      have busy : s.slots.slotBusy s.slots.slotTail = true := by
        rw [tracked.ring]
        exact ⟨tracked.tail,.inl ⟨Nat.le_refl _,by omega⟩⟩
      simpa [busy] using stop

theorem pollCompletions_tracked (tracked : Tracked c 0 s) (settled : Settled s.slots)
    (polled : pollCompletions c delivered s = some t) : Tracked c 0 t ∧ Polled c s t ∧ Settled t.slots := by
  rw [pollCompletions] at polled
  split_ifs at polled with idle none
  · obtain rfl : s = t := Option.some.inj polled
    exact ⟨tracked,.refl c s,settled⟩
  · obtain ⟨u,processed,counted⟩ := Option.bind_eq_some_iff.mp polled
    obtain ⟨found,before⟩ := processCompletions_tracked delivered tracked processed
    obtain ⟨slots,complete,reclaimed⟩ := Option.bind_eq_some_iff.mp counted
    rw [Tracker.trackReqComplete] at complete
    obtain ⟨-,⟨⟩⟩ := Option.ite_none_left_eq_some.mp complete
    have counted' :
        Tracked c 0 { u with slots := { u.slots with reqCompletedTotal := u.slots.reqCompletedTotal + delivered.length } } := by
      refine ⟨found.tail,found.few,found.ring,found.writes,found.calls,?_,found.error⟩
      have total := found.total
      dsimp only
      omega
    obtain ⟨-,⟨⟩⟩ := Option.ite_none_left_eq_some.mp reclaimed
    obtain ⟨after,polled',settled'⟩ := counted'.reclaimRounds _ rfl
    refine ⟨after,before.trans ?_,settled'⟩
    exact ⟨polled'.seqIdx,polled'.nrBlocks,polled'.nrPending,polled'.stageAreaReserved,polled'.descBlkSkipped,polled'.pc,
      polled'.slotBusy,polled'.aligned,polled'.none⟩

theorem directWriteSlots_eq (perSeq seqs n left : Nat) (positive : 0 < perSeq) :
    ∃ k, directWriteSlots perSeq seqs n left = List.range' n k ∧ k ≤ seqs ∧ (0 < seqs → 0 < k) ∧
      (left = seqs * perSeq → k = seqs) := by
  induction seqs generalizing n left with
  | zero => exact ⟨0,rfl,Nat.le_refl _,id,fun _ => rfl⟩
  | succ seqs ih =>
    rw [directWriteSlots]
    by_cases last : left - min left perSeq = 0
    · rw [if_pos last]
      refine ⟨1,rfl,by omega,by omega,?_⟩
      intro full
      rw [full,Nat.succ_mul] at last
      have none : seqs * perSeq = 0 := by omega
      rcases Nat.mul_eq_zero.mp none with zero | zero <;> omega
    · rw [if_neg last]
      obtain ⟨k,slots,bound,_,full⟩ := ih (n + 1) (left - min left perSeq)
      refine ⟨k + 1,by rw [slots,List.range'_succ],by omega,by omega,?_⟩
      intro whole
      rw [Nat.succ_mul] at whole
      rw [full (by omega)]

theorem count_slots (k i : Nat) : ((List.range' 0 k).map Write.slot).count (.slot i) = if i < k then 1 else 0 := by
  rw [count_map_of_injective _ Write.slot fun _ _ => Write.slot.inj]
  split
  next below => exact count_eq_one_of_mem nodup_range' (by simp [mem_range'_1,below])
  next above => exact count_eq_zero_of_not_mem (by simp [mem_range'_1,above])

theorem Tracked.room (tracked : Tracked c found s) (aligned : Aligned c s.slots) (most : k ≤ c.seqMax)
    (free : ∀ i < k, s.slots.slotBusy i = false) : s.slots.busySlots + k ≤ c.seqMax := by
  have tail := tracked.tail
  rcases aligned with ends | ⟨_,none⟩
  · have busy : s.slots.slotBusy s.slots.slotTail = true := by
      rw [tracked.ring]
      exact ⟨tail,.inl ⟨Nat.le_refl _,by omega⟩⟩
    have behind : k ≤ s.slots.slotTail := by
      by_contra before
      rw [free _ (by omega)] at busy
      cases busy
    omega
  · omega

theorem Tracker.markSlotsIssuedPrefix_free {t : Tracker} (nonempty : 0 < k) (room : t.busySlots + k ≤ c.seqMax)
    (free : ∀ i < k, t.slotBusy i = false) :
    t.markSlotsIssuedPrefix c k = some { t with
      slotBusy := fun i => if i < k then true else t.slotBusy i
      slotDone := fun i => if i < k then false else t.slotDone i
      busySlots := t.busySlots + k
      slotHead := k % c.seqMax } := by
  have unbusy : (List.range k).any t.slotBusy = false := by
    rw [any_eq_false]
    intro i below
    rw [free i (mem_range.mp below)]
    exact Bool.false_ne_true
  have fits : min k c.seqMax = k := by omega
  rw [Tracker.markSlotsIssuedPrefix,if_neg (by omega)]
  simp only [fits,unbusy]
  rw [if_neg Bool.false_ne_true,if_neg (by omega)]

/-- The slots of the sequences are free, so a prefix of them can be issued; the busy ones of the round before come first in the
ring. -/
theorem issuePending_tracked (tracked : Tracked c 0 s) (settled : Settled s.slots) (aligned : Aligned c s.slots)
    (nonempty : 0 < seqNr) (most : seqNr ≤ c.seqMax) (free : ∀ i < seqNr, s.slots.slotBusy i = false) :
    ∃ t, issuePending c seqNr s = some t ∧ Tracked c 0 t ∧ Settled t.slots ∧
      (s.nrPending = seqNr * c.perSeq → seqNr = c.seqMax → Aligned c t.slots) ∧
      t = { s with
        slots := t.slots, outstanding := t.outstanding, wrTrackCb := t.wrTrackCb, seqIdx := 0, nrPending := 0 } := by
  have blocks := c.blocks
  have tail := tracked.tail
  obtain ⟨k,slots,bound,positive,full⟩ := directWriteSlots_eq c.perSeq seqNr 0 s.nrPending (by omega)
  have first := positive nonempty
  have unbusy : ∀ i < k, s.slots.slotBusy i = false := fun i below => free i (by omega)
  have room := tracked.room aligned (by omega) unbusy
  have marked := Tracker.markSlotsIssuedPrefix_free first room unbusy
  rw [issuePending]
  simp only [slots,length_range',marked,Option.map_some]
  refine ⟨_,rfl,⟨tail,room,?_,?_,?_,?_,tracked.error⟩,?_,?_,rfl⟩
  · intro i
    simp only [Tracker.trackReqIssue]
    rw [inRing_goes_on aligned room,← tracked.ring]
    split <;> simp [*]
  · intro i
    simp only [Tracker.trackReqIssue,count_append,count_slots,tracked.writes]
    by_cases below : i < k
    · simp [below,free i (by omega)]
    · simp [below]
  · intro i busy undone
    simp only [Tracker.trackReqIssue] at busy undone ⊢
    by_cases below : i < k
    · simp [mem_range'_1,below]
    · rw [if_neg below] at busy undone
      simp [mem_range'_1,below,tracked.calls i busy undone]
  · have total := tracked.total
    simp only [Tracker.trackReqIssue,length_append,length_map,length_range']
    omega
  · right
    simp only [Tracker.trackReqIssue]
    split
    next => rfl
    next behind =>
      rcases settled with none | undone
      · rcases aligned with ends | ⟨zero,_⟩ <;> omega
      · exact undone
  · intro all whole
    simp only [Aligned,Tracker.trackReqIssue,full all]
    have busy : s.slots.busySlots = 0 := by
      have := full all
      omega
    rcases aligned with ends | ⟨zero,_⟩ <;> omega

theorem issueOwn_tracked (tracked : Tracked c 0 s) (settled : Settled s.slots) :
    Tracked c 0 (issueOwn s) ∧ Settled (issueOwn s).slots := by
  refine ⟨⟨tracked.tail,tracked.few,tracked.ring,?_,tracked.calls,?_,tracked.error⟩,settled⟩
  · intro i
    have none : [Write.own].count (.slot i) = 0 := count_eq_zero_of_not_mem (by simp)
    simp only [issueOwn,Tracker.trackReqIssue]
    rw [count_append,none]
    exact tracked.writes i
  · have total := tracked.total
    simp only [issueOwn,Tracker.trackReqIssue,length_append,length_singleton]
    omega

end Oxbow.Daemon.StageSlots
