import Oxbow.Lib.Run
import Oxbow.Daemon.StageSlots
import Oxbow.Daemon.StageTx

/-! The runs of a stage transaction over its slot tracker: any number of rounds through the sequence buffers, a tail, and polls
that find the completions in any order. -/
namespace Oxbow.Daemon.StageSlots

open Oxbow.Lib Oxbow.Lib.RingInterval Option

/-! Every run of a transaction. -/

structure Building (c : Buffers) (upto : Nat) (s : State) : Prop where
  inSeq : s.seqIdx < c.seqMax
  free : ∀ i < upto, s.slots.slotBusy i = false
  aligned : Aligned c s.slots
  unissued : s.descBlkSkipped = false → s.outstanding = []

def Control (c : Buffers) (s : State) : Prop :=
  match s.pc with
  | .filling => Building c (s.seqIdx + 1) s ∧ s.nrPending + s.nrBlocks = (s.seqIdx + 1) * c.perSeq
  | .waiting => Building c s.seqIdx s ∧ s.nrPending = s.seqIdx * c.perSeq
  | .draining => True
  | .drained => s.slots.reqCompletedTotal = s.slots.reqIssuedTotal

structure Inv (c : Buffers) (s : State) : Prop where
  tracked : Tracked c 0 s
  settled : Settled s.slots
  control : Control c s

theorem newStageTx_inv (c : Buffers) : Inv c (newStageTx c) := by
  have sequences := c.sequences
  have aligned : Aligned c (newStageTx c).slots := .inr ⟨rfl,rfl⟩
  refine ⟨⟨sequences,Nat.zero_le _,?_,by simp [newStageTx],by simp [newStageTx],rfl,rfl⟩,.inl rfl,?_⟩
  · intro i
    have none := not_inRing_zero (i := i) sequences
    simpa [newStageTx] using none
  · exact ⟨⟨sequences,fun _ _ => rfl,aligned,fun _ => rfl⟩,by simp [newStageTx]⟩

section

variable (inv : Inv c s)
include inv

theorem Inv.filling (filling : s.pc = .filling) :
    Building c (s.seqIdx + 1) s ∧ s.nrPending + s.nrBlocks = (s.seqIdx + 1) * c.perSeq := by
  have control := inv.control
  rwa [Control,filling] at control

theorem Inv.waiting (waiting : s.pc = .waiting) : Building c s.seqIdx s ∧ s.nrPending = s.seqIdx * c.perSeq := by
  have control := inv.control
  rwa [Control,waiting] at control

theorem resvBlk_inv (filling : s.pc = .filling) (reserved : resvBlk c s = some t) : Inv c t := by
  obtain ⟨building,pending⟩ := inv.filling filling
  rw [resvBlk] at reserved
  split_ifs at reserved with full last
  · rw [last,full,Nat.add_zero] at pending
    rw [last] at building
    obtain ⟨u,issued,tracked,settled,aligned,rest⟩ :=
      issuePending_tracked inv.tracked inv.settled building.aligned c.sequences (Nat.le_refl _) building.free
    rw [issued,map_some,some.injEq] at reserved
    subst reserved
    have first : u.seqIdx = 0 := by rw [rest]
    have none : u.nrPending = 0 := by rw [rest]
    refine ⟨tracked.frame _ _ _ _ _ _ _,settled,?_,?_⟩
    · exact ⟨by rw [first]; exact c.sequences,by simp [first],aligned pending rfl,by simp⟩
    · simp [first,none]
  · obtain rfl := some.inj reserved
    have inSeq := building.inSeq
    refine ⟨inv.tracked.frame _ _ _ _ _ _ _,inv.settled,⟨?_,building.free,building.aligned,building.unissued⟩,?_⟩
    · dsimp only
      omega
    · rwa [full,Nat.add_zero] at pending
  · obtain rfl := some.inj reserved
    refine ⟨inv.tracked.frame _ _ _ _ _ _ _,inv.settled,?_⟩
    rw [Control]
    simp only [takeBlk,filling]
    exact ⟨⟨building.inSeq,building.free,building.aligned,building.unissued⟩,by omega⟩

theorem slotFree_inv (waiting : s.pc = .waiting) (freed : slotFree c s = some t) : Inv c t := by
  obtain ⟨building,pending⟩ := inv.waiting waiting
  have blocks := c.blocks
  rw [slotFree] at freed
  split_ifs at freed with busy
  obtain rfl := some.inj freed
  refine ⟨inv.tracked.frame _ _ _ _ _ _ _,inv.settled,⟨building.inSeq,?_,building.aligned,building.unissued⟩,?_⟩
  · intro i below
    by_cases here : i = s.seqIdx
    · simpa [takeBlk,here] using busy
    · exact building.free i (by simp only [takeBlk] at below; omega)
  · simp only [takeBlk,pending,Nat.succ_mul]
    omega

theorem pollCompletions_inv (polled : pollCompletions c delivered s = some t)
    (polling : s.pc = .waiting ∨ s.pc = .draining) : Inv c t := by
  obtain ⟨tracked,same,settled⟩ := pollCompletions_tracked inv.tracked inv.settled polled
  refine ⟨tracked,settled,?_⟩
  rcases polling with waiting | draining
  · obtain ⟨building,pending⟩ := inv.waiting waiting
    rw [Control,same.pc,waiting]
    refine ⟨⟨?_,?_,same.aligned building.aligned,?_⟩,?_⟩
    · rw [same.seqIdx]
      exact building.inSeq
    · intro i below
      rw [same.seqIdx] at below
      exact same.slotBusy i (building.free i below)
    · intro unskipped
      rw [same.descBlkSkipped] at unskipped
      exact same.none (building.unissued unskipped)
    · rw [same.nrPending,same.seqIdx]
      exact pending
  · rw [Control,same.pc,draining]
    trivial

theorem finish_inv (filling : s.pc = .filling) (finished : finish c s = some t) : Inv c t := by
  obtain ⟨building,-⟩ := inv.filling filling
  rw [finish] at finished
  split_ifs at finished
  have flushed : ∀ u, flushTail c s = some u → Tracked c 0 u ∧ Settled u.slots := by
    intro u flushed
    rw [flushTail] at flushed
    split_ifs at flushed
    · obtain rfl := some.inj flushed
      exact ⟨inv.tracked,inv.settled⟩
    · obtain ⟨v,issued,tracked,settled,-⟩ := issuePending_tracked inv.tracked inv.settled building.aligned (Nat.succ_pos _)
        building.inSeq building.free
      rw [issued,map_some,some.injEq] at flushed
      subst flushed
      exact ⟨tracked.frame _ _ _ _ _ _ _,settled⟩
  obtain ⟨u,tail,rfl⟩ := map_eq_some_iff.mp finished
  obtain ⟨tracked,settled⟩ := flushed u tail
  have desc : Tracked c 0 (if u.descBlkSkipped then issueOwn u else u) ∧
      Settled (if u.descBlkSkipped then issueOwn u else u).slots := by
    split
    · exact issueOwn_tracked tracked settled
    · exact ⟨tracked,settled⟩
  obtain ⟨all,last⟩ := issueOwn_tracked desc.1 desc.2
  exact ⟨all.frame _ _ _ _ _ _ _,last,trivial⟩

theorem step_inv (stepped : step c s a = some t) : Inv c t := by
  cases a with
  | resvBlk =>
    simp only [step] at stepped
    split_ifs at stepped with filling
    exact resvBlk_inv inv filling stepped
  | fixBlocks =>
    simp only [step] at stepped
    split_ifs at stepped with filling
    obtain rfl := some.inj stepped
    obtain ⟨building,pending⟩ := inv.filling filling
    refine ⟨inv.tracked.frame _ _ _ _ _ _ _,inv.settled,?_⟩
    rw [Control]
    simp only [filling]
    exact ⟨⟨building.inSeq,building.free,building.aligned,building.unissued⟩,pending⟩
  | poll delivered =>
    simp only [step] at stepped
    split_ifs at stepped with polling
    exact pollCompletions_inv inv stepped (polling.imp And.left And.left)
  | slotFree =>
    simp only [step] at stepped
    split_ifs at stepped with waiting
    exact slotFree_inv inv waiting stepped
  | finish =>
    simp only [step] at stepped
    split_ifs at stepped with filling
    exact finish_inv inv filling stepped
  | allDone =>
    simp only [step] at stepped
    split_ifs at stepped with drained
    obtain rfl := some.inj stepped
    have total := inv.tracked.total
    refine ⟨inv.tracked.frame _ _ _ _ _ _ _,inv.settled,?_⟩
    change s.slots.reqCompletedTotal = s.slots.reqIssuedTotal
    omega

end

theorem run_inv (acts : List Act) (ran : run (step c) (newStageTx c) acts = some s) : Inv c s :=
  run_invariant_always (step c) (Inv c) (fun _ _ _ inv stepped => step_inv inv stepped) _ acts s (newStageTx_inv c) ran

theorem Inv.none_busy (inv : Inv c s) (none : s.outstanding = []) : s.slots.busySlots = 0 := by
  rcases inv.settled with zero | undone
  · exact zero
  · by_contra some
    have busy : s.slots.slotBusy s.slots.slotTail = true := by
      rw [inv.tracked.ring]
      exact ⟨inv.tracked.tail,.inl ⟨Nat.le_refl _,by omega⟩⟩
    have written := (inv.tracked.mem_iff _).mpr ⟨busy,undone⟩
    rw [none] at written
    cases written

theorem Inv.refill_free (inv : Inv c s) (stepped : step c s a = some t) (refill : refills s a = some k) :
    .slot k ∉ s.outstanding := by
  have unbusy : s.slots.slotBusy k = false → .slot k ∉ s.outstanding := by
    intro free written
    rw [((inv.tracked.mem_iff k).mp written).1] at free
    cases free
  cases a with
  | resvBlk =>
    simp only [step] at stepped
    split_ifs at stepped with filling
    simp only [refills] at refill
    split_ifs at refill
    obtain rfl := some.inj refill
    exact unbusy ((inv.filling filling).1.free _ (Nat.lt_succ_self _))
  | slotFree =>
    simp only [step,slotFree] at stepped
    split_ifs at stepped with _ busy
    obtain rfl := some.inj refill
    exact unbusy (by simpa using busy)
  | finish =>
    simp only [step] at stepped
    split_ifs at stepped with filling
    simp only [refills] at refill
    split_ifs at refill with first
    rw [(inv.filling filling).1.unissued first.2]
    simp
  | fixBlocks | poll delivered | allDone => cases refill

/-- In every run, with any number of blocks and any order of completions: a sequence is not written into while it is being
written out, the busy slots are counted and make up an interval of the ring from the tail on, and at the end everything has
completed and no slot is busy. -/
theorem slots_tracked (c : Buffers) (acts : List Act) (s : State) (ran : run (step c) (newStageTx c) acts = some s) :
    (∀ a t k, step c s a = some t → refills s a = some k → .slot k ∉ s.outstanding) ∧
      s.slots.busySlots = BitRun.count s.slots.slotBusy 0 c.seqMax ∧
      (s.slots.slotTail < c.seqMax ∧ s.slots.busySlots ≤ c.seqMax ∧
        ∀ i, s.slots.slotBusy i = true ↔ InRing c.seqMax s.slots.slotTail s.slots.busySlots i) ∧
      (s.pc = .drained → s.slots.busySlots = 0 ∧ s.slots.reqCompletedTotal = s.slots.reqIssuedTotal) := by
  have inv := run_inv acts ran
  have tracked := inv.tracked
  refine ⟨fun a t k stepped refill => inv.refill_free stepped refill,?_,⟨tracked.tail,tracked.few,tracked.ring⟩,?_⟩
  · exact (count_inRing tracked.tail tracked.few tracked.ring).symm
  · intro drained
    have control := inv.control
    rw [Control,drained] at control
    have total := tracked.total
    have none : s.outstanding = [] := List.length_eq_zero_iff.mp (by omega)
    exact ⟨inv.none_busy none,control⟩

def oneBuffer : Buffers := ⟨1,2,Nat.one_pos,Nat.le_refl 2⟩

def oneBufferActs : List Act :=
  [.resvBlk,.fixBlocks,.resvBlk,.resvBlk,.poll [],.poll [.slot 0],.slotFree,.resvBlk,.finish,.poll [.own,.slot 0],.poll [.own],
    .allDone]

theorem slots_tracked_oneBuffer :
    ∃ s, run (step oneBuffer) (newStageTx oneBuffer) oneBufferActs = some s ∧ s.pc = .drained ∧ s.slots.busySlots = 0 ∧
      s.slots.reqCompletedTotal = 4 :=
  ⟨_,rfl,rfl,((slots_tracked oneBuffer oneBufferActs _ rfl).2.2.2 rfl).1,rfl⟩

theorem Inv.polling (inv : Inv c s) (busy : s.slots.busySlots ≠ 0 ∨ s.slots.reqCompletedTotal < s.slots.reqIssuedTotal) :
    s.outstanding ≠ [] := by
  intro none
  have total := inv.tracked.total
  rw [none,List.length_nil] at total
  rcases busy with some | more
  · exact some (inv.none_busy none)
  · omega

theorem Inv.poll_total (inv : Inv c s) (among : delivered.Subperm s.outstanding) :
    ∃ t, pollCompletions c delivered s = some t := by
  have total := inv.tracked.total
  have most := among.length_le
  rw [pollCompletions,if_neg (by omega)]
  split
  next => exact ⟨s,rfl⟩
  next =>
    obtain ⟨u,processed⟩ := processCompletions_total delivered inv.tracked among
    have counted := (processCompletions_tracked delivered inv.tracked processed).1
    have within : ¬ u.slots.reqIssuedTotal < u.slots.reqCompletedTotal + delivered.length := by
      have total := counted.total
      omega
    simp only [processed,bind_some,Tracker.trackReqComplete,if_neg within,counted.error]
    exact ⟨_,rfl⟩

theorem pollCompletions_length (polled : pollCompletions c delivered s = some t) :
    t.outstanding.length + delivered.length = s.outstanding.length := by
  rw [pollCompletions] at polled
  split_ifs at polled with _ none
  · obtain rfl := some.inj polled
    rw [none]
    rfl
  · obtain ⟨u,processed,counted⟩ := bind_eq_some_iff.mp polled
    obtain ⟨slots,_,reclaimed⟩ := bind_eq_some_iff.mp counted
    split_ifs at reclaimed
    obtain rfl := some.inj reclaimed
    have length := processCompletions_length delivered processed
    exact length

/-- The loops that wait, with a completion in every poll. -/
def drainStep (c : Buffers) (s : State) : Act → Option State
  | .poll [] | .resvBlk | .fixBlocks | .finish => none
  | .poll (w :: ws) => step c s (.poll (w :: ws))
  | .slotFree => step c s .slotFree
  | .allDone => step c s .allDone

theorem drainStep_step (stepped : drainStep c s a = some t) :
    step c s a = some t ∧ (a = .slotFree ∨ a = .allDone ∨ ∃ w ws, a = .poll (w :: ws)) := by
  cases a with
  | poll delivered =>
    cases delivered with
    | nil => cases stepped
    | cons w ws => exact ⟨stepped,.inr (.inr ⟨w,ws,rfl⟩)⟩
  | slotFree => exact ⟨stepped,.inl rfl⟩
  | allDone => exact ⟨stepped,.inr (.inl rfl)⟩
  | resvBlk | fixBlocks | finish => cases stepped

def toWait (s : State) : Nat := s.outstanding.length + if s.pc = .waiting ∨ s.pc = .draining then 1 else 0

theorem Inv.drain_moves (inv : Inv c s) (polling : s.pc = .waiting ∨ s.pc = .draining) :
    ∃ a t, drainStep c s a = some t := by
  -- a poll can find everything that is at the device
  have poll : s.outstanding ≠ [] → (s.pc = .waiting ∧ s.slots.slotBusy s.seqIdx = true ∨
      s.pc = .draining ∧ s.slots.reqCompletedTotal < s.slots.reqIssuedTotal) → ∃ a t, drainStep c s a = some t := by
    intro some loop
    obtain ⟨t,polled⟩ := inv.poll_total (List.Subperm.refl s.outstanding)
    cases all : s.outstanding with
    | nil => exact absurd all some
    | cons w ws =>
      rw [all] at polled
      refine ⟨.poll (w :: ws),t,?_⟩
      simp only [drainStep,step,if_pos loop]
      exact polled
  rcases polling with waiting | draining
  · cases busy : s.slots.slotBusy s.seqIdx
    · exact ⟨.slotFree,_,by simp only [drainStep,step,waiting,if_true,slotFree,busy]; rfl⟩
    · have some : s.slots.busySlots ≠ 0 := by
        intro zero
        have inside := (inv.tracked.ring _).mp busy
        rw [zero] at inside
        exact not_inRing_zero inv.tracked.tail inside
      exact poll (inv.polling (.inl some)) (.inl ⟨waiting,busy⟩)
  · by_cases more : s.slots.reqCompletedTotal < s.slots.reqIssuedTotal
    · exact poll (inv.polling (.inr more)) (.inr ⟨draining,more⟩)
    · exact ⟨.allDone,_,by simp only [drainStep,step,draining,true_and,if_pos (Nat.not_lt.mp more)]; rfl⟩

theorem drainStep_toWait (inv : Inv c s) (stepped : drainStep c s a = some t) : Inv c t ∧ toWait t < toWait s := by
  obtain ⟨stepped,rfl | rfl | ⟨w,ws,rfl⟩⟩ := drainStep_step stepped
  · refine ⟨step_inv inv stepped,?_⟩
    simp only [step,slotFree] at stepped
    split_ifs at stepped with waiting
    obtain rfl := some.inj stepped
    simp [toWait,takeBlk,waiting]
  · refine ⟨step_inv inv stepped,?_⟩
    simp only [step] at stepped
    split_ifs at stepped with drained
    obtain rfl := some.inj stepped
    simp [toWait,drained.1]
  · refine ⟨step_inv inv stepped,?_⟩
    simp only [step] at stepped
    split_ifs at stepped
    have fewer := pollCompletions_length stepped
    have same := (pollCompletions_tracked inv.tracked inv.settled stepped).2.1.pc
    rw [List.length_cons] at fewer
    rw [toWait,toWait,same]
    omega

/-- From every reachable state in which it waits, for a slot or for everything, the thread gets on after finitely many polls that
find a completion. -/
theorem drain_ends (c : Buffers) (acts : List Act) (s : State) (ran : run (step c) (newStageTx c) acts = some s) :
    Inevitable (drainStep c) (fun t => t.pc = .filling ∨ t.pc = .drained) s := by
  refine inevitable_of_measure (Inv c) toWait ?_ (fun _ _ _ inv stepped => drainStep_toWait inv stepped) s (run_inv acts ran)
  intro t inv
  cases pc : t.pc with
  | filling => exact .inl (.inl rfl)
  | drained => exact .inl (.inr rfl)
  | waiting => exact .inr (inv.drain_moves (.inl pc))
  | draining => exact .inr (inv.drain_moves (.inr pc))

theorem drain_ends_oneBuffer : ∃ s, run (step oneBuffer) (newStageTx oneBuffer) (oneBufferActs.take 9) = some s ∧
    s.pc = .draining ∧
    Inevitable (drainStep oneBuffer) (fun t => t.pc = .filling ∨ t.pc = .drained) s :=
  ⟨_,rfl,rfl,drain_ends oneBuffer (oneBufferActs.take 9) _ rfl⟩

/-! The blocks are reserved as in the transaction that is built. -/

structure Agrees (x : Stage.StageTx) (s : State) : Prop where
  seqIdx : s.seqIdx = x.seqIdx
  nrBlocks : s.nrBlocks = x.nrBlocks
  nrPending : s.nrPending = x.nrPending
  reserved : s.stageAreaReserved = true ↔ x.start ≠ 0 ∧ x.stageAreaReserved = true
  descBlkSkipped : s.descBlkSkipped = x.descBlkSkipped

theorem slotFree_agrees (perSeq : b.perSeq = c.perSeq) (agrees : Agrees x t)
    (polled : Polled c t u) (freed : slotFree c u = some v) : Agrees (Stage.takeBlk (Stage.enterSeq b x)) v := by
  rw [slotFree] at freed
  split_ifs at freed
  obtain rfl := some.inj freed
  refine ⟨polled.seqIdx.trans agrees.seqIdx,by simp [takeBlk,Stage.takeBlk,Stage.enterSeq,perSeq],?_,?_,
    polled.descBlkSkipped.trans agrees.descBlkSkipped⟩
  · simp [takeBlk,Stage.takeBlk,Stage.enterSeq,polled.nrPending,agrees.nrPending]
  · have reserved := agrees.reserved
    rw [← polled.stageAreaReserved] at reserved
    exact reserved

/-- A block that the transaction reserves is reserved over the tracker as soon as its slot is free. -/
theorem resvBlk_agrees (seqMax : b.seqMax = c.seqMax) (perSeq : b.perSeq = c.perSeq)
    (inv : Inv c s) (filling : s.pc = .filling) (agrees : Agrees x s) (reserved : Stage.resvBlk b x = some (slot,y)) :
    ∃ t, step c s .resvBlk = some t ∧ (t.pc = .filling → Agrees y t) ∧
      (t.pc = .waiting → ∀ u v, Polled c t u → slotFree c u = some v → Agrees y v) := by
  obtain ⟨building,pending⟩ := inv.filling filling
  obtain ⟨z,ready,taken⟩ := map_eq_some_iff.mp reserved
  obtain rfl : Stage.takeBlk z = y := congrArg Prod.snd taken
  rw [step,if_pos filling,resvBlk,agrees.nrBlocks,agrees.seqIdx,← seqMax]
  rw [Stage.freeSeq] at ready
  by_cases full : x.nrBlocks = 0
  · rw [if_pos full] at ready ⊢
    obtain ⟨next,moved,rfl⟩ := map_eq_some_iff.mp ready
    rw [Stage.nextSeq] at moved
    by_cases last : x.seqIdx + 1 = b.seqMax
    · rw [if_pos last] at moved ⊢
      by_cases area : x.start ≠ 0 ∧ x.stageAreaReserved = true
      · rw [if_pos area] at moved
        obtain rfl := some.inj moved
        rw [agrees.seqIdx,last,seqMax] at building
        obtain ⟨u,issued,-,-,-,rest⟩ :=
          issuePending_tracked inv.tracked inv.settled building.aligned c.sequences (Nat.le_refl _) building.free
        rw [if_pos (agrees.reserved.mpr area),seqMax,issued]
        have same : Agrees (Stage.reclaim b x) { u with descBlkSkipped := true, pc := .waiting } := by
          rw [rest]
          exact ⟨rfl,agrees.nrBlocks,rfl,agrees.reserved,rfl⟩
        exact ⟨_,rfl,by simp,fun _ u v polled freed => slotFree_agrees perSeq same polled freed⟩
      · rw [if_neg area] at moved
        cases moved
    · rw [if_neg last] at moved ⊢
      obtain rfl := some.inj moved
      have same : Agrees { x with seqIdx := x.seqIdx + 1 }
          { s with seqIdx := x.seqIdx + 1, nrBlocks := x.nrBlocks, pc := .waiting } :=
        ⟨rfl,rfl,agrees.nrPending,agrees.reserved,agrees.descBlkSkipped⟩
      exact ⟨_,rfl,by simp,fun _ u v polled freed => slotFree_agrees perSeq same polled freed⟩
  · rw [if_neg full] at ready ⊢
    obtain rfl := some.inj ready
    refine ⟨_,rfl,?_,?_⟩
    · intro _
      exact ⟨agrees.seqIdx,by simp [takeBlk,Stage.takeBlk,agrees.nrBlocks],by simp [takeBlk,Stage.takeBlk,agrees.nrPending],
        agrees.reserved,agrees.descBlkSkipped⟩
    · simp [takeBlk,filling]

end Oxbow.Daemon.StageSlots
