import Oxbow.Daemon.InlineReadOnce
import Oxbow.Lib.Ring
import Oxbow.Lib.Tally

/-! The ring of read BIOs and the pump jobs that empty it. Producers put BIOs into the ring and
schedule pump jobs; a worker of the pool that takes a job submits commands and polls until its
budget is used up or nothing is left, and schedules again. Every access to a shared counter or
to the ring is a step of its own. -/
namespace Oxbow.Daemon.ReadPump

open Oxbow.Lib InlineRead Function List Option

def rdPumpMaxNormal : Int := 0

def rdPumpPctDuringFsync : Int := 25

def rdSubmitBudgetNormal : Int := 16

def rdSubmitBudgetDuringFsync : Int := 8

def rdMinQuotaDuringFsync : Int := 1

def nvmeRdBudgetForQos (fsyncActive : Bool) : Int :=
  let budget := if fsyncActive then rdSubmitBudgetDuringFsync else rdSubmitBudgetNormal
  if budget ≤ 0 then 1 else budget

def nvmeRdMaxPumpsForQos (numQpair : Int) (fsyncActive : Bool) : Int :=
  let hardMax := if 0 < numQpair then numQpair else 1
  let pct := max 0 (min 100 rdPumpPctDuringFsync)
  let cfgMax := if fsyncActive then (hardMax * pct + 99) / 100
    else if 0 < rdPumpMaxNormal then rdPumpMaxNormal else hardMax
  let cfgMax := if cfgMax ≤ 0 then 1 else cfgMax
  if hardMax < cfgMax then hardMax else cfgMax

def nvmeRdMinQuotaForQos (numQpair : Int) (fsyncActive : Bool) : Int :=
  if fsyncActive then min (max 0 rdMinQuotaDuringFsync) (nvmeRdMaxPumpsForQos numQpair fsyncActive) else 0

def nvmeRdDesiredPumps (numQpair : Int) (backlog : Nat) (fsyncActive : Bool) : Int :=
  let maxPumps := nvmeRdMaxPumpsForQos numQpair fsyncActive
  let desired := if maxPumps < backlog then maxPumps else backlog
  let desired := if desired < 1 then 1 else desired
  if desired < nvmeRdMinQuotaForQos numQpair fsyncActive then nvmeRdMinQuotaForQos numQpair fsyncActive else desired

def ringCapacity : Nat := 2^21

structure Shared where
  enqueuePos : Nat
  dequeuePos : Nat
  slot : Nat → Option Nat
  pumpActive : Int
  pumpScheduled : Int
  jobs : Nat

inductive Sched
  | start
  | loadedEnqueue (enqueue : Nat)
  | counted (backlog : Nat)
  | loadedActive (desired active : Int)
  | adding (needed : Int)
  | added (needed : Int)
  deriving DecidableEq, Repr

inductive PumpPc
  | top
  | topUp
  | poll
  deriving DecidableEq, Repr

structure Pump where
  pc : PumpPc
  submitBudget : Nat
  submittedTot : Nat
  reqTot : Nat
  deriving DecidableEq, Repr

def Pump.budgetReached (p : Pump) : Bool := p.submitBudget ≤ p.submittedTot

inductive Phase
  | idle
  | enqueuing (bio : Nat)
  | claimed (bio pos : Nat)
  | scheduling (sched : Sched)
  | taken
  | started
  | pumping (pump : Pump)
  | leaving (workDone : Nat)
  | checking (workDone : Nat)
  | checkingDequeue (workDone enqueue : Nat)
  deriving DecidableEq, Repr

def Phase.pump? : Phase → Option Pump
  | .pumping p => some p
  | _ => none

structure Settings extends Config where
  numQpair : Int
  noAsync : Bool

variable (cfg : Settings)

def ringCount (enqueue dequeue : Nat) : Nat := sub64 enqueue dequeue

def tryDequeue (sh : Shared) : Option (Nat × Shared) :=
  match sh.slot sh.dequeuePos with
  | none => none
  | some bio => some (bio,{sh with dequeuePos := sh.dequeuePos + 1})

def nvmeRdSubmitBio (sh : Shared) (io : InlineRead.State) : Nat × Shared × InlineRead.State :=
  if io.pending.isSome then
    let r := nvmeRdSubmitBioOne cfg.toConfig none io
    (r.1,sh,r.2)
  else
    match tryDequeue sh with
    | none => (0,sh,io)
    | some (bio,sh) =>
      let r := nvmeRdSubmitBioOne cfg.toConfig (some bio) io
      (r.1,sh,r.2)

structure Local where
  sh : Shared
  io : InlineRead.State
  phase : Phase

def submitRound (sh : Shared) (io : InlineRead.State) (p : Pump) (more : PumpPc) (none : Pump → Phase) : Local :=
  let r := nvmeRdSubmitBio cfg sh io
  if r.1 = 0 then ⟨r.2.1,r.2.2,none p⟩
  else ⟨r.2.1,{r.2.2 with inflight := r.2.2.inflight + r.1},
    .pumping {p with pc := more, submittedTot := p.submittedTot + r.1}⟩

def Pump.leave (p : Pump) : Phase := .leaving (u32 p.reqTot)

section

variable (sh : Shared) (io : InlineRead.State) (p : Pump) (slots : List Nat)

def pipelinedStep : Option Local :=
  match p.pc with
  | .top =>
    if io.inflight = 0 then
      if p.budgetReached then some ⟨sh,io,p.leave⟩
      else some (submitRound cfg sh io p .topUp Pump.leave)
    else some ⟨sh,io,.pumping {p with pc := .topUp}⟩
  | .topUp =>
    if ¬ p.budgetReached ∧ io.inflight < cfg.targetQd then
      some (submitRound cfg sh io p .topUp fun p => .pumping {p with pc := .poll})
    else some ⟨sh,io,.pumping {p with pc := .poll}⟩
  | .poll =>
    (readCompletes io slots).map fun io =>
      let io := {io with inflight := io.inflight - slots.length}
      let p := {p with reqTot := p.reqTot + slots.length}
      if p.budgetReached ∧ io.inflight = 0 then ⟨sh,io,p.leave⟩
      else ⟨sh,io,.pumping {p with pc := .top}⟩

/-- A round that polls until the commands of one batch are done; at its top nothing is in flight, so
adding what was submitted is setting it. -/
def batchStep : Option Local :=
  match p.pc with
  | .top | .topUp =>
    if ¬ p.budgetReached then
      some (submitRound cfg sh io p .poll fun p => if io.inflight = 0 then p.leave else .pumping {p with pc := .poll})
    else if io.inflight = 0 then some ⟨sh,io,p.leave⟩
    else some ⟨sh,io,.pumping {p with pc := .poll}⟩
  | .poll =>
    (readCompletes io slots).map fun io =>
      let io := {io with inflight := io.inflight - slots.length}
      let p := {p with reqTot := p.reqTot + slots.length}
      if 0 < io.inflight then ⟨sh,io,.pumping p⟩
      else if p.budgetReached then ⟨sh,io,p.leave⟩
      else ⟨sh,io,.pumping {p with pc := .top}⟩

def pumpStep : Option Local :=
  if cfg.noAsync then batchStep cfg sh io p slots else pipelinedStep cfg sh io p slots

end

def schedStep (sh : Shared) (fsyncActive : Bool) : Sched → Shared × Phase
  | .start => (sh,.scheduling (.loadedEnqueue sh.enqueuePos))
  | .loadedEnqueue enqueue =>
    if ringCount enqueue sh.dequeuePos = 0 then (sh,.idle)
    else (sh,.scheduling (.counted (ringCount enqueue sh.dequeuePos)))
  | .counted backlog =>
    (sh,.scheduling (.loadedActive (nvmeRdDesiredPumps cfg.numQpair backlog fsyncActive) sh.pumpActive))
  | .loadedActive desired active => (sh,.scheduling (.adding (desired - (active + sh.pumpScheduled))))
  | .adding needed =>
    if 0 < needed then ({sh with pumpScheduled := sh.pumpScheduled + 1},.scheduling (.added needed))
    else (sh,.idle)
  | .added needed => ({sh with jobs := sh.jobs + 1},.scheduling (.adding (needed - 1)))

inductive Act
  | submit (bio : Nat)
  | take
  | go (fsyncActive : Bool) (slots : List Nat)
  deriving DecidableEq, Repr

def threadStep (sh : Shared) (io : InlineRead.State) (phase : Phase) (act : Act) : Option Local :=
  match phase,act with
  | .idle,.submit bio => if bio < cfg.bios.length then some ⟨sh,io,.enqueuing bio⟩ else none
  | .idle,.take => if 0 < sh.jobs then some ⟨{sh with jobs := sh.jobs - 1},io,.taken⟩ else none
  | .enqueuing bio,.go _ _ =>
    -- A full ring is tried again.
    if sh.enqueuePos < sh.dequeuePos + ringCapacity then
      some ⟨{sh with enqueuePos := sh.enqueuePos + 1},io,.claimed bio sh.enqueuePos⟩
    else none
  | .claimed bio pos,.go _ _ =>
    some ⟨{sh with slot := update sh.slot pos (some bio)},io,.scheduling .start⟩
  | .scheduling sched,.go fsyncActive _ =>
    let r := schedStep cfg sh fsyncActive sched
    some ⟨r.1,io,r.2⟩
  | .taken,.go _ _ =>
    some ⟨{sh with pumpScheduled := if sh.pumpScheduled ≤ 0 then 0 else sh.pumpScheduled - 1},io,.started⟩
  | .started,.go fsyncActive _ =>
    some ⟨{sh with pumpActive := sh.pumpActive + 1},io,
      .pumping ⟨.top,(nvmeRdBudgetForQos fsyncActive).toNat,0,0⟩⟩
  | .pumping p,.go _ slots => pumpStep cfg sh io p slots
  | .leaving workDone,.go _ _ => some ⟨{sh with pumpActive := sh.pumpActive - 1},io,.checking workDone⟩
  | .checking workDone,.go _ _ => some ⟨sh,io,.checkingDequeue workDone sh.enqueuePos⟩
  | .checkingDequeue workDone enqueue,.go _ _ =>
    if 0 < ringCount enqueue sh.dequeuePos ∨ 0 < workDone then some ⟨sh,io,.scheduling .start⟩
    else some ⟨sh,io,.idle⟩
  | _,_ => none

structure State (n : Nat) where
  sh : Shared
  io : Fin n → InlineRead.State
  phase : Fin n → Phase

def step {n : Nat} (s : State n) (act : Fin n × Act) : Option (State n) :=
  (threadStep cfg s.sh (s.io act.1) (s.phase act.1) act.2).map fun l =>
    ⟨l.sh,update s.io act.1 l.io,update s.phase act.1 l.phase⟩

def init (n : Nat) (head : Fin cfg.capacity) : State n where
  sh := ⟨0,0,fun _ => none,0,0,0⟩
  io _ := InlineRead.start cfg.toConfig head
  phase _ := .idle

/-- No call of a producer is running, and no pump is scheduled or running. -/
def State.Quiet {n : Nat} (s : State n) : Prop := s.sh.jobs = 0 ∧ ∀ t, s.phase t = .idle

/-- The ring is empty and no worker has a BIO parked. -/
def State.Drained {n : Nat} (s : State n) : Prop :=
  s.sh.enqueuePos = s.sh.dequeuePos ∧ ∀ t, (s.io t).pending = none

def Pump.submits (p : Pump) (io : InlineRead.State) : Bool :=
  !p.budgetReached && match p.pc with
    | .top => cfg.noAsync || io.inflight = 0
    | .topUp => cfg.noAsync || io.inflight < cfg.targetQd
    | .poll => false

/-- The BIO that a call of the submit function works on, with the first page to submit: the parked one, or
else the one at the ring's head. -/
def nextWork (sh : Shared) (io : InlineRead.State) : Option (Nat × Nat) :=
  io.pending.or ((sh.slot sh.dequeuePos).map fun bio => (bio,0))

def commandsLeft (b : Bio) (off : Nat) : Nat := (b.vtotal - off + (cfg.pagesPerCommand - 1)) / cfg.pagesPerCommand

/-- The free slots at the head of the worker's pool suffice for what is left of the BIO, or they are
fewer than what is left of the budget. -/
def Fits (sh : Shared) (io : InlineRead.State) (budget : Nat) : Prop :=
  ∀ work ∈ nextWork sh io, ∀ b ∈ cfg.bios[work.1]?,
    Free cfg.toConfig io.seqs (commandsLeft cfg b work.2) ∨ ¬ Free cfg.toConfig io.seqs budget

def Pump.budgetLeft (p : Pump) : Nat := p.submitBudget - p.submittedTot

def Whole {n : Nat} (s : State n) (act : Fin n × Act) : Prop :=
  ∀ p ∈ (s.phase act.1).pump?, p.submits cfg (s.io act.1) → Fits cfg s.sh (s.io act.1) p.budgetLeft

instance (sh : Shared) (io : InlineRead.State) (budget : Nat) : Decidable (Fits cfg sh io budget) :=
  inferInstanceAs (Decidable (∀ work ∈ nextWork sh io, ∀ b ∈ cfg.bios[work.1]?, _ ∨ _))

instance {n : Nat} (s : State n) (act : Fin n × Act) : Decidable (Whole cfg s act) :=
  inferInstanceAs
    (Decidable (∀ p ∈ (s.phase act.1).pump?, p.submits cfg (s.io act.1) → Fits cfg s.sh (s.io act.1) p.budgetLeft))

structure Worker (io : InlineRead.State) : Prop where
  pool : Pool cfg.toConfig io.seqs io.outstanding
  inflight : io.inflight = io.outstanding.length
  parked : ∀ i off, io.pending = some (i,off) → ∃ b, cfg.bios[i]? = some b ∧ off < b.vtotal

structure Ring (sh : Shared) : Prop where
  order : sh.dequeuePos ≤ sh.enqueuePos
  room : sh.enqueuePos ≤ sh.dequeuePos + ringCapacity
  taken : ∀ pos bio, sh.slot pos = some bio → pos < sh.enqueuePos ∧ bio < cfg.bios.length

structure Submitted (sh : Shared) (io : InlineRead.State) (cs : List Command)
    (sh' : Shared) (io' : InlineRead.State) : Prop where
  shared : sh' = sh ∨ ∃ bio, sh.slot sh.dequeuePos = some bio ∧ sh' = {sh with dequeuePos := sh.dequeuePos + 1}
  outstanding : io'.outstanding = io.outstanding ++ cs
  pool : Pool cfg.toConfig io'.seqs io'.outstanding
  inflight : io'.inflight = io.inflight
  parked : ∀ i off, io'.pending = some (i,off) → ∃ b, cfg.bios[i]? = some b ∧ off < b.vtotal
  idle : io.outstanding = [] → cs = [] → io'.pending = none
  whole : ∀ budget, Fits cfg sh io budget → io'.pending = none ∨ cs.length < budget

/-- A submission that is interrupted has taken all free slots at the head of the pool, and they were too few. -/
theorem outcome_interrupted (pool : Pool cfg.toConfig q outstanding) (outcome : Outcome cfg.toConfig i b off q cs q' (some o)) :
    Free cfg.toConfig q cs.length ∧ ¬ Free cfg.toConfig q (commandsLeft cfg b off) := by
  refine ⟨outcome.acquired.free_before pool,?_⟩
  intro free
  obtain ⟨left,blocked⟩ := outcome.blocked o rfl
  have length := congrArg List.length outcome.segments
  rw [length_append,length_map,Option.elim_some,segments_of_left _ i b left,length_cons,segments_length _ i b off] at length
  rw [commandsLeft,← length] at free
  have after := outcome.acquired.pool pool
  exact (outcome.acquired.free pool free).not_blocked cfg.toConfig after.head blocked

theorem submitted_of_outcome (worker : Worker cfg io) (work : nextWork sh io = some (i,off)) (here : cfg.bios[i]? = some b)
    (outcome : Outcome cfg.toConfig i b off io.seqs cs q parked)
    (shared : sh' = sh ∨ ∃ bio, sh.slot sh.dequeuePos = some bio ∧ sh' = {sh with dequeuePos := sh.dequeuePos + 1}) :
    Submitted cfg sh io cs sh' (io.issued cs q (parked.map (Prod.mk i))) where
  shared := shared
  outstanding := rfl
  pool := outcome.acquired.pool worker.pool
  inflight := rfl
  parked j o pending := by
    obtain ⟨o',at',same⟩ := map_eq_some_iff.mp pending
    obtain ⟨rfl,rfl⟩ := Prod.mk.inj same
    exact ⟨b,here,(outcome.blocked _ at').1⟩
  idle free none := by
    cases parked with
    | none => rfl
    | some o =>
      subst none
      have blocked := (outcome.blocked o rfl).2
      obtain rfl : q = io.seqs := outcome.acquired
      have pool := worker.pool
      rw [free] at pool
      have free := free_of_idle cfg.toConfig pool cfg.hasSlot
      exact absurd blocked (free.not_blocked cfg.toConfig pool.head)
  whole budget fits := by
    cases parked with
    | none => exact .inl rfl
    | some o =>
      obtain ⟨taken,few⟩ := outcome_interrupted cfg worker.pool outcome
      have low := (fits _ work b here).resolve_left few
      exact .inr (Nat.lt_of_not_le fun enough => low (taken.mono cfg.toConfig enough))

theorem nvmeRdSubmitBio_submitted (ring : Ring cfg sh) (worker : Worker cfg io) :
    ∃ cs, (nvmeRdSubmitBio cfg sh io).1 = cs.length ∧
      Submitted cfg sh io cs (nvmeRdSubmitBio cfg sh io).2.1 (nvmeRdSubmitBio cfg sh io).2.2 := by
  unfold nvmeRdSubmitBio
  cases pending : io.pending with
  | some parked =>
    obtain ⟨i,off⟩ := parked
    obtain ⟨b,here,left⟩ := worker.parked i off pending
    obtain ⟨cs,q,parked,outcome,result⟩ := submitSegments_outcome cfg.toConfig i b (b.vtotal - off) off io left
      (Nat.le_refl _) pending
    have one : nvmeRdSubmitBioOne cfg.toConfig none io = (cs.length,io.issued cs q (parked.map (Prod.mk i))) := by
      simp only [nvmeRdSubmitBioOne,pending,resume,here]
      exact result
    simp only [isSome_some,if_true,one]
    exact ⟨cs,rfl,submitted_of_outcome cfg worker (by rw [nextWork,pending]; rfl) here outcome (.inl rfl)⟩
  | none =>
    simp only [isSome_none,Bool.false_eq_true,if_false,tryDequeue]
    cases slot : sh.slot sh.dequeuePos with
    | none =>
      refine ⟨[],rfl,.inl rfl,(append_nil _).symm,worker.pool,rfl,worker.parked,fun _ _ => pending,
        fun _ _ => .inl pending⟩
    | some bio =>
      have inside := (ring.taken _ _ slot).2
      obtain ⟨b,here⟩ : ∃ b, cfg.bios[bio]? = some b := ⟨_,getElem?_eq_getElem inside⟩
      obtain ⟨cs,q,parked,outcome,result⟩ := submitSegments_outcome cfg.toConfig bio b b.vtotal 0
        {io with pending := some (bio,0)} b.positive (Nat.sub_le _ _) rfl
      have one : nvmeRdSubmitBioOne cfg.toConfig (some bio) io = (cs.length,io.issued cs q (parked.map (Prod.mk bio))) := by
        simp only [nvmeRdSubmitBioOne,pending,resume,here,Nat.sub_zero]
        exact result
      simp only [one]
      have work : nextWork sh io = some (bio,0) := by rw [nextWork,pending,slot]; rfl
      exact ⟨cs,rfl,submitted_of_outcome cfg worker work here outcome (.inr ⟨bio,slot,rfl⟩)⟩

theorem readCompletes_worker (pool : Pool cfg.toConfig io.seqs io.outstanding) (done : readCompletes io slots = some io') :
    Pool cfg.toConfig io'.seqs io'.outstanding ∧ io'.outstanding.length + slots.length = io.outstanding.length ∧
      io'.pending = io.pending ∧ io'.inflight = io.inflight := by
  induction slots generalizing io with
  | nil =>
    obtain rfl := Option.some.inj done
    exact ⟨pool,rfl,rfl,rfl⟩
  | cons slot slots ih =>
    obtain ⟨mid,first,rest⟩ := bind_eq_some_iff.mp done
    obtain ⟨c,member,rfl,rfl⟩ := readComplete_some first
    obtain ⟨after,count,pending,inflight⟩ := ih (pool.release member) rest
    have shorter : (io.completed c).outstanding.length = io.outstanding.length - 1 := length_erase_of_mem member
    have some := length_pos_of_mem member
    refine ⟨after,?_,pending,inflight⟩
    rw [length_cons]
    omega

def Phase.Claims (sh : Shared) : Phase → Prop
  | .enqueuing bio => bio < cfg.bios.length
  | .claimed bio pos => bio < cfg.bios.length ∧ pos < sh.enqueuePos
  | _ => True

structure Thread (sh : Shared) (io : InlineRead.State) (phase : Phase) : Prop where
  worker : Worker cfg io
  claims : phase.Claims cfg sh
  outside : phase.pump? = none → io.inflight = 0 ∧ io.pending = none
  reached : ∀ p, phase.pump? = some p → p.budgetReached → io.pending = none

structure Pumped (sh : Shared) (l : Local) : Prop where
  ring : Ring cfg l.sh
  thread : Thread cfg l.sh l.io l.phase
  enqueuePos : l.sh.enqueuePos = sh.enqueuePos
  counters : l.sh.pumpActive = sh.pumpActive ∧ l.sh.pumpScheduled = sh.pumpScheduled ∧ l.sh.jobs = sh.jobs
  phase : (∃ p, l.phase = .pumping p) ∨ ∃ workDone, l.phase = .leaving workDone

theorem pumped_stay (ring : Ring cfg sh) (worker : Worker cfg io) (p : Pump)
    (reached : p.budgetReached → io.pending = none) : Pumped cfg sh ⟨sh,io,.pumping p⟩ where
  ring := ring
  thread := ⟨worker,trivial,fun outside => absurd outside (by simp [Phase.pump?]),fun q same => by
    obtain rfl := Option.some.inj same
    exact reached⟩
  enqueuePos := rfl
  counters := ⟨rfl,rfl,rfl⟩
  phase := .inl ⟨p,rfl⟩

theorem pumped_leave (ring : Ring cfg sh) (worker : Worker cfg io) (p : Pump)
    (done : io.inflight = 0) (unparked : io.pending = none) : Pumped cfg sh ⟨sh,io,p.leave⟩ where
  ring := ring
  thread := ⟨worker,trivial,fun _ => ⟨done,unparked⟩,fun q same => absurd same (by simp [Phase.pump?,Pump.leave])⟩
  enqueuePos := rfl
  counters := ⟨rfl,rfl,rfl⟩
  phase := .inr ⟨_,rfl⟩

theorem Ring.dequeued (ring : Ring cfg sh) (slot : sh.slot sh.dequeuePos = some bio) :
    Ring cfg {sh with dequeuePos := sh.dequeuePos + 1} := by
  have order := ring.order
  have room := ring.room
  have taken := (ring.taken _ _ slot).1
  exact ⟨taken,by simp only; omega,ring.taken⟩

theorem Pumped.shared (pumped : Pumped cfg sh' l)
    (shared : sh' = sh ∨ ∃ bio, sh.slot sh.dequeuePos = some bio ∧ sh' = {sh with dequeuePos := sh.dequeuePos + 1}) :
    Pumped cfg sh l := by
  rcases shared with rfl | ⟨bio,-,rfl⟩
  · exact pumped
  · exact ⟨pumped.ring,pumped.thread,pumped.enqueuePos,pumped.counters,pumped.phase⟩

/-- A call of the submit function in the loop. It parks nothing if it uses up the budget, and
without a command in flight it submits something unless the ring is empty. -/
theorem submitRound_pumped (ring : Ring cfg sh) (worker : Worker cfg io) (p : Pump) (more : PumpPc) (none : Pump → Phase)
    (whole : Fits cfg sh io p.budgetLeft)
    (stops : ∀ sh io', Ring cfg sh → Worker cfg io' → io'.inflight = io.inflight →
      (io.inflight = 0 → io'.pending = .none) → Pumped cfg sh ⟨sh,io',none p⟩) :
    Pumped cfg sh (submitRound cfg sh io p more none) := by
  obtain ⟨cs,count,submitted⟩ := nvmeRdSubmitBio_submitted cfg ring worker
  have ring' : Ring cfg (nvmeRdSubmitBio cfg sh io).2.1 := by
    rcases submitted.shared with same | ⟨bio,slot,same⟩
    · rw [same]
      exact ring
    · rw [same]
      exact ring.dequeued cfg slot
  have length := congrArg List.length submitted.outstanding
  rw [length_append] at length
  have inflight := worker.inflight
  unfold submitRound
  by_cases zero : (nvmeRdSubmitBio cfg sh io).1 = 0
  · have empty : cs = [] := length_eq_zero_iff.mp (count.symm.trans zero)
    have worker' : Worker cfg (nvmeRdSubmitBio cfg sh io).2.2 := by
      refine ⟨submitted.pool,?_,submitted.parked⟩
      rw [submitted.inflight,length,empty,length_nil]
      exact inflight
    simp only [if_pos zero]
    refine (stops _ _ ring' worker' submitted.inflight fun idle => submitted.idle ?_ empty).shared cfg submitted.shared
    exact length_eq_zero_iff.mp (inflight.symm.trans idle)
  · have worker' : Worker cfg {(nvmeRdSubmitBio cfg sh io).2.2 with
        inflight := (nvmeRdSubmitBio cfg sh io).2.2.inflight + (nvmeRdSubmitBio cfg sh io).1} := by
      refine ⟨submitted.pool,?_,submitted.parked⟩
      simp only
      rw [submitted.inflight,count]
      omega
    simp only [if_neg zero]
    refine (pumped_stay cfg ring' worker' _ fun reached => ?_).shared cfg submitted.shared
    rcases submitted.whole _ whole with unparked | low
    · exact unparked
    · simp only [Pump.budgetReached,Pump.budgetLeft,decide_eq_true_eq] at reached low
      omega

theorem pollRound_worker (worker : Worker cfg io) (done : readCompletes io slots = some io') :
    Worker cfg {io' with inflight := io'.inflight - slots.length} ∧ io'.pending = io.pending := by
  obtain ⟨pool,count,pending,inflight⟩ := readCompletes_worker cfg worker.pool done
  have before := worker.inflight
  refine ⟨⟨pool,?_,?_⟩,pending⟩
  · simp only
    omega
  · intro i off parked
    exact worker.parked i off (pending ▸ parked)

section Pump

variable {cfg} {p : Pump} (ring : Ring cfg sh) (worker : Worker cfg io)
  (reached : p.budgetReached → io.pending = none)

include ring worker reached

theorem pipelinedStep_pumped
    (whole : p.budgetReached = false → p.pc = .top ∧ io.inflight = 0 ∨ p.pc = .topUp ∧ io.inflight < cfg.targetQd →
      Fits cfg sh io p.budgetLeft) (ran : pipelinedStep cfg sh io p slots = some l) : Pumped cfg sh l := by
  unfold pipelinedStep at ran
  split at ran
  next pc =>
    split at ran
    next idle =>
      split at ran
      next budget =>
        obtain rfl := Option.some.inj ran
        exact pumped_leave cfg ring worker p idle (reached budget)
      next below =>
        obtain rfl := Option.some.inj ran
        refine submitRound_pumped cfg ring worker p .topUp Pump.leave
          (whole (Bool.eq_false_iff.mpr below) (.inl ⟨pc,idle⟩)) ?_
        intro sh io' ring worker same empty
        exact pumped_leave cfg ring worker p (same.trans idle) (empty idle)
    next =>
      obtain rfl := Option.some.inj ran
      exact pumped_stay cfg ring worker _ reached
  next pc =>
    split at ran
    next room =>
      obtain rfl := Option.some.inj ran
      have below : p.budgetReached = false := Bool.eq_false_iff.mpr room.1
      refine submitRound_pumped cfg ring worker p .topUp _ (whole below (.inr ⟨pc,room.2⟩)) ?_
      intro sh io' ring worker same empty
      exact pumped_stay cfg ring worker _ fun budget => absurd budget room.1
    next =>
      obtain rfl := Option.some.inj ran
      exact pumped_stay cfg ring worker _ reached
  next pc =>
    obtain ⟨io',done,rfl⟩ := map_eq_some_iff.mp ran
    obtain ⟨worker',pending⟩ := pollRound_worker cfg worker done
    dsimp only
    split
    next stop => exact pumped_leave cfg ring worker' _ stop.2 (pending.trans (reached stop.1))
    next => exact pumped_stay cfg ring worker' _ fun budget => pending.trans (reached budget)

theorem batchStep_pumped (whole : p.budgetReached = false → p.pc ≠ .poll → Fits cfg sh io p.budgetLeft)
    (ran : batchStep cfg sh io p slots = some l) : Pumped cfg sh l := by
  have batch : p.pc ≠ .poll → (if ¬ p.budgetReached then
      some (submitRound cfg sh io p .poll fun p => if io.inflight = 0 then p.leave else .pumping {p with pc := .poll})
      else if io.inflight = 0 then some ⟨sh,io,p.leave⟩ else some ⟨sh,io,.pumping {p with pc := .poll}⟩) = some l →
      Pumped cfg sh l := by
    intro pc ran
    split at ran
    next below =>
      obtain rfl := Option.some.inj ran
      refine submitRound_pumped cfg ring worker p .poll _ (whole (Bool.eq_false_iff.mpr below) pc) ?_
      intro sh io' ring worker same empty
      split
      next idle => exact pumped_leave cfg ring worker p (same.trans idle) (empty idle)
      next => exact pumped_stay cfg ring worker _ fun budget => absurd budget below
    next budget =>
      have budget : p.budgetReached = true := by simpa using budget
      split at ran
      next idle =>
        obtain rfl := Option.some.inj ran
        exact pumped_leave cfg ring worker p idle (reached budget)
      next =>
        obtain rfl := Option.some.inj ran
        exact pumped_stay cfg ring worker _ reached
  unfold batchStep at ran
  split at ran
  next pc => exact batch (by simp [pc]) ran
  next pc => exact batch (by simp [pc]) ran
  next pc =>
    obtain ⟨io',done,rfl⟩ := map_eq_some_iff.mp ran
    obtain ⟨worker',pending⟩ := pollRound_worker cfg worker done
    dsimp only
    split
    next => exact pumped_stay cfg ring worker' _ fun budget => pending.trans (reached budget)
    next idle =>
      split
      next budget => exact pumped_leave cfg ring worker' _ (Nat.eq_zero_of_not_pos idle) (pending.trans (reached budget))
      next => exact pumped_stay cfg ring worker' _ fun budget => pending.trans (reached budget)

theorem pumpStep_pumped (whole : p.submits cfg io → Fits cfg sh io p.budgetLeft)
    (ran : pumpStep cfg sh io p slots = some l) : Pumped cfg sh l := by
  unfold pumpStep at ran
  split at ran
  next noAsync =>
    refine batchStep_pumped ring worker reached (fun below pc => whole ?_) ran
    cases here : p.pc with
    | top => simp [Pump.submits,below,here,noAsync]
    | topUp => simp [Pump.submits,below,here,noAsync]
    | poll => exact absurd here pc
  next =>
    refine pipelinedStep_pumped ring worker reached (fun below submits => whole ?_) ran
    rcases submits with ⟨pc,idle⟩ | ⟨pc,room⟩
    · simp [Pump.submits,below,pc,idle]
    · simp [Pump.submits,below,pc,room]

end Pump

inductive Move (sh : Shared) (io : InlineRead.State) : Phase → Local → Prop
  | submits (bio : Nat) (inside : bio < cfg.bios.length) : Move sh io .idle ⟨sh,io,.enqueuing bio⟩
  | takes (some : 0 < sh.jobs) : Move sh io .idle ⟨{sh with jobs := sh.jobs - 1},io,.taken⟩
  | claims (bio : Nat) (room : sh.enqueuePos < sh.dequeuePos + ringCapacity) :
      Move sh io (.enqueuing bio) ⟨{sh with enqueuePos := sh.enqueuePos + 1},io,.claimed bio sh.enqueuePos⟩
  | publishes (bio pos : Nat) : Move sh io (.claimed bio pos)
      ⟨{sh with slot := update sh.slot pos (some bio)},io,.scheduling .start⟩
  | schedules (fsyncActive : Bool) (sched : Sched) : Move sh io (.scheduling sched)
      ⟨(schedStep cfg sh fsyncActive sched).1,io,(schedStep cfg sh fsyncActive sched).2⟩
  | begins : Move sh io .taken
      ⟨{sh with pumpScheduled := if sh.pumpScheduled ≤ 0 then 0 else sh.pumpScheduled - 1},io,.started⟩
  | enters (budget : Nat) (positive : 0 < budget) : Move sh io .started
      ⟨{sh with pumpActive := sh.pumpActive + 1},io,.pumping ⟨.top,budget,0,0⟩⟩
  | pumps (p : Pump) (slots : List Nat) (l : Local) (ran : pumpStep cfg sh io p slots = some l) :
      Move sh io (.pumping p) l
  | leaves (workDone : Nat) :
      Move sh io (.leaving workDone) ⟨{sh with pumpActive := sh.pumpActive - 1},io,.checking workDone⟩
  | checks (workDone : Nat) : Move sh io (.checking workDone) ⟨sh,io,.checkingDequeue workDone sh.enqueuePos⟩
  | again (workDone enqueue : Nat) : Move sh io (.checkingDequeue workDone enqueue) ⟨sh,io,.scheduling .start⟩
  | ends (workDone enqueue : Nat) (empty : ringCount enqueue sh.dequeuePos = 0) (nothing : workDone = 0) :
      Move sh io (.checkingDequeue workDone enqueue) ⟨sh,io,.idle⟩

theorem nvmeRdBudgetForQos_pos (fsyncActive : Bool) : 0 < (nvmeRdBudgetForQos fsyncActive).toNat := by
  cases fsyncActive <;> decide

theorem nvmeRdDesiredPumps_pos (numQpair : Int) (backlog : Nat) (fsyncActive : Bool) :
    1 ≤ nvmeRdDesiredPumps numQpair backlog fsyncActive := by
  simp only [nvmeRdDesiredPumps]
  split <;> split <;> split <;> omega

theorem threadStep_move (ran : threadStep cfg sh io phase act = some l) : Move cfg sh io phase l := by
  unfold threadStep at ran
  split at ran
  next bio =>
    obtain ⟨inside,⟨⟩⟩ := ite_none_right_eq_some.mp ran
    exact .submits bio inside
  next =>
    obtain ⟨some,⟨⟩⟩ := ite_none_right_eq_some.mp ran
    exact .takes some
  next bio _ _ =>
    obtain ⟨room,⟨⟩⟩ := ite_none_right_eq_some.mp ran
    exact .claims bio room
  next bio pos _ _ =>
    obtain rfl := Option.some.inj ran
    exact .publishes bio pos
  next sched fsyncActive _ =>
    obtain rfl := Option.some.inj ran
    exact .schedules fsyncActive sched
  next =>
    obtain rfl := Option.some.inj ran
    exact .begins
  next fsyncActive _ =>
    obtain rfl := Option.some.inj ran
    exact .enters _ (nvmeRdBudgetForQos_pos fsyncActive)
  next p _ slots => exact .pumps p slots l ran
  next workDone _ _ =>
    obtain rfl := Option.some.inj ran
    exact .leaves workDone
  next workDone _ _ =>
    obtain rfl := Option.some.inj ran
    exact .checks workDone
  next workDone enqueue _ _ =>
    split at ran
    next =>
      obtain rfl := Option.some.inj ran
      exact .again workDone enqueue
    next stop =>
      obtain rfl := Option.some.inj ran
      exact .ends workDone enqueue (by omega) (by omega)
  next => cases ran

theorem schedStep_frame (sh : Shared) (fsyncActive : Bool) (sched : Sched) :
    let r := schedStep cfg sh fsyncActive sched
    r.1.enqueuePos = sh.enqueuePos ∧ r.1.dequeuePos = sh.dequeuePos ∧ r.1.slot = sh.slot ∧
      r.1.pumpActive = sh.pumpActive ∧ sh.jobs ≤ r.1.jobs ∧ (r.2 = .idle ∨ ∃ next, r.2 = .scheduling next) := by
  cases sched with
  | start => exact ⟨rfl,rfl,rfl,rfl,Nat.le_refl _,.inr ⟨_,rfl⟩⟩
  | loadedEnqueue enqueue =>
    simp only [schedStep]
    split
    next => exact ⟨rfl,rfl,rfl,rfl,Nat.le_refl _,.inl rfl⟩
    next => exact ⟨rfl,rfl,rfl,rfl,Nat.le_refl _,.inr ⟨_,rfl⟩⟩
  | counted backlog => exact ⟨rfl,rfl,rfl,rfl,Nat.le_refl _,.inr ⟨_,rfl⟩⟩
  | loadedActive desired active => exact ⟨rfl,rfl,rfl,rfl,Nat.le_refl _,.inr ⟨_,rfl⟩⟩
  | adding needed =>
    simp only [schedStep]
    split
    next => exact ⟨rfl,rfl,rfl,rfl,Nat.le_refl _,.inr ⟨_,rfl⟩⟩
    next => exact ⟨rfl,rfl,rfl,rfl,Nat.le_refl _,.inl rfl⟩
  | added needed => exact ⟨rfl,rfl,rfl,rfl,Nat.le_succ _,.inr ⟨_,rfl⟩⟩

theorem Thread.of_outside (thread : Thread cfg sh io phase)
    (outside : phase.pump? = none) (after : phase'.pump? = none) (claims : phase'.Claims cfg sh') :
    Thread cfg sh' io phase' :=
  ⟨thread.worker,claims,fun _ => thread.outside outside,fun p same => absurd (after.symm.trans same) (by simp)⟩

/-- A step keeps the ring and the thread in order; positions only grow. -/
theorem Move.thread (move : Move cfg sh io phase l) (ring : Ring cfg sh) (thread : Thread cfg sh io phase)
    (whole : ∀ p, phase = .pumping p → p.submits cfg io → Fits cfg sh io p.budgetLeft) :
    Ring cfg l.sh ∧ Thread cfg l.sh l.io l.phase ∧ sh.enqueuePos ≤ l.sh.enqueuePos := by
  have order := ring.order
  have room := ring.room
  cases move with
  | submits bio inside => exact ⟨ring,thread.of_outside cfg rfl rfl inside,Nat.le_refl _⟩
  | takes some => exact ⟨⟨order,room,ring.taken⟩,thread.of_outside cfg rfl rfl trivial,Nat.le_refl _⟩
  | claims bio space =>
    refine ⟨⟨by simp only; omega,by simp only; omega,fun pos bio slot => ?_⟩,
      thread.of_outside cfg rfl rfl ⟨thread.claims,Nat.lt_succ_self _⟩,Nat.le_succ _⟩
    exact ⟨Nat.lt_succ_of_lt (ring.taken pos bio slot).1,(ring.taken pos bio slot).2⟩
  | publishes bio pos =>
    refine ⟨⟨order,room,fun at' bio' slot => ?_⟩,thread.of_outside cfg rfl rfl trivial,Nat.le_refl _⟩
    have found : update sh.slot pos (some bio) at' = some bio' := slot
    by_cases same : at' = pos
    · rw [same,update_self] at found
      obtain rfl := Option.some.inj found
      exact ⟨same ▸ thread.claims.2,thread.claims.1⟩
    · rw [update_of_ne same] at found
      exact ring.taken at' bio' found
  | schedules fsyncActive sched =>
    obtain ⟨enqueue,dequeue,slot,-,-,next⟩ := schedStep_frame cfg sh fsyncActive sched
    refine ⟨⟨by rw [enqueue,dequeue]; exact order,by rw [enqueue,dequeue]; exact room,?_⟩,?_,Nat.le_of_eq enqueue.symm⟩
    · intro pos bio found
      rw [slot] at found
      rw [enqueue]
      exact ring.taken pos bio found
    · rcases next with same | ⟨next,same⟩
      · exact thread.of_outside cfg rfl (by rw [same]; rfl) (by rw [same]; trivial)
      · exact thread.of_outside cfg rfl (by rw [same]; rfl) (by rw [same]; trivial)
  | begins => exact ⟨⟨order,room,ring.taken⟩,thread.of_outside cfg rfl rfl trivial,Nat.le_refl _⟩
  | enters budget positive =>
    refine ⟨⟨order,room,ring.taken⟩,⟨thread.worker,trivial,fun outside => absurd outside (by simp [Phase.pump?]),?_⟩,
      Nat.le_refl _⟩
    intro p same reached
    obtain rfl := Option.some.inj same
    exact (thread.outside rfl).2
  | pumps p slots l ran =>
    have pumped := pumpStep_pumped ring thread.worker (thread.reached p rfl) (whole p rfl) ran
    exact ⟨pumped.ring,pumped.thread,Nat.le_of_eq pumped.enqueuePos.symm⟩
  | leaves workDone => exact ⟨⟨order,room,ring.taken⟩,thread.of_outside cfg rfl rfl trivial,Nat.le_refl _⟩
  | checks workDone => exact ⟨ring,thread.of_outside cfg rfl rfl trivial,Nat.le_refl _⟩
  | again workDone enqueue => exact ⟨ring,thread.of_outside cfg rfl rfl trivial,Nat.le_refl _⟩
  | ends workDone enqueue => exact ⟨ring,thread.of_outside cfg rfl rfl trivial,Nat.le_refl _⟩

def Phase.active : Phase → Nat
  | .pumping _ | .leaving _ => 1
  | _ => 0

def Phase.scheduled : Phase → Nat
  | .taken | .scheduling (.added _) => 1
  | _ => 0

theorem Pumped.active (pumped : Pumped cfg sh l) : l.phase.active = 1 ∧ l.phase.scheduled = 0 := by
  rcases pumped.phase with ⟨p,same⟩ | ⟨workDone,same⟩
  · rw [same]
    exact ⟨rfl,rfl⟩
  · rw [same]
    exact ⟨rfl,rfl⟩

theorem Move.counters (move : Move cfg sh io phase l)
    (ring : Ring cfg sh) (thread : Thread cfg sh io phase) (counted : phase = .taken → 0 < sh.pumpScheduled)
    (whole : ∀ p, phase = .pumping p → p.submits cfg io → Fits cfg sh io p.budgetLeft) :
    l.sh.pumpActive + phase.active = sh.pumpActive + l.phase.active ∧
      l.sh.pumpScheduled - l.sh.jobs + phase.scheduled = sh.pumpScheduled - sh.jobs + l.phase.scheduled := by
  cases move with
  | pumps p slots l ran =>
    have pumped := pumpStep_pumped ring thread.worker (thread.reached p rfl) (whole p rfl) ran
    obtain ⟨active,scheduled,jobs⟩ := pumped.counters
    obtain ⟨one,zero⟩ := pumped.active
    rw [active,scheduled,jobs,one,zero]
    exact ⟨rfl,rfl⟩
  | schedules fsyncActive sched =>
    cases sched with
    | adding needed =>
      simp only [schedStep]
      split
      next => exact ⟨rfl,by simp only [Phase.scheduled]; omega⟩
      next => exact ⟨rfl,rfl⟩
    | added needed => exact ⟨rfl,by simp only [schedStep,Phase.scheduled]; omega⟩
    | loadedEnqueue enqueue =>
      simp only [schedStep]
      split
      next => exact ⟨rfl,rfl⟩
      next => exact ⟨rfl,rfl⟩
    | _ => exact ⟨rfl,rfl⟩
  | takes some => exact ⟨rfl,by simp only [Phase.scheduled]; omega⟩
  | begins =>
    have positive := counted rfl
    refine ⟨rfl,?_⟩
    simp only [Phase.scheduled,if_neg (Int.not_le.mpr positive)]
    omega
  | enters budget positive => exact ⟨by simp only [Phase.active]; omega,rfl⟩
  | leaves workDone => exact ⟨by simp only [Phase.active]; omega,rfl⟩
  | _ => exact ⟨rfl,rfl⟩

def Sched.Responsible (dequeuePos : Nat) : Sched → Prop
  | .start | .counted _ | .added _ => True
  | .loadedEnqueue enqueue => ringCount enqueue dequeuePos ≠ 0
  | .loadedActive desired active => active < desired
  | .adding needed => 0 < needed

/-- The thread will still look at the ring after anything that is in it now was put in. -/
def Phase.Responsible (dequeuePos : Nat) : Phase → Prop
  | .idle => False
  | .scheduling sched => sched.Responsible dequeuePos
  | .checkingDequeue workDone enqueue => 0 < workDone ∨ ringCount enqueue dequeuePos ≠ 0
  | _ => True

theorem Phase.responsible_of_active {phase : Phase} (active : 0 < phase.active) : phase.Responsible dequeuePos := by
  cases phase with
  | pumping p => trivial
  | leaving workDone => trivial
  | _ => exact absurd active (by simp [Phase.active])

theorem Phase.responsible_of_scheduled {phase : Phase} (scheduled : 0 < phase.scheduled) :
    phase.Responsible dequeuePos := by
  cases phase with
  | taken => trivial
  | scheduling sched =>
    cases sched with
    | added needed => trivial
    | _ => exact absurd scheduled (by simp [Phase.scheduled])
  | _ => exact absurd scheduled (by simp [Phase.scheduled])

theorem ringCount_ne_zero (ring : Ring cfg sh) (some : sh.enqueuePos ≠ sh.dequeuePos) :
    ringCount sh.enqueuePos sh.dequeuePos ≠ 0 := by
  have order := ring.order
  have room := ring.room
  simp only [ringCount,sub64,u64,ringCapacity] at *
  omega

def Handed (sh : Shared) (phase : Phase) (l : Local) : Prop :=
  l.phase.Responsible l.sh.dequeuePos ∨ 0 < l.sh.jobs ∨
    0 < l.sh.pumpActive ∧ l.phase.active = 0 ∨
    0 < l.sh.pumpScheduled ∧ l.phase.scheduled = 0 ∨
    ¬ phase.Responsible sh.dequeuePos ∧ l.sh.enqueuePos = sh.enqueuePos ∧ l.sh.dequeuePos = sh.dequeuePos ∧
      sh.jobs ≤ l.sh.jobs

theorem schedStep_handed (ring : Ring cfg sh) (some : sh.enqueuePos ≠ sh.dequeuePos) (fsyncActive : Bool)
    (sched : Sched) (io : InlineRead.State) :
    Handed sh (.scheduling sched) ⟨(schedStep cfg sh fsyncActive sched).1,io,(schedStep cfg sh fsyncActive sched).2⟩ := by
  cases sched with
  | start => exact .inl (ringCount_ne_zero cfg ring some)
  | loadedEnqueue enqueue =>
    simp only [schedStep]
    split
    next empty => exact .inr (.inr (.inr (.inr ⟨fun responsible => responsible empty,rfl,rfl,Nat.le_refl _⟩)))
    next => exact .inl trivial
  | counted backlog =>
    have desired := nvmeRdDesiredPumps_pos cfg.numQpair backlog fsyncActive
    by_cases low : sh.pumpActive < nvmeRdDesiredPumps cfg.numQpair backlog fsyncActive
    · exact .inl low
    · exact .inr (.inr (.inl ⟨by simp only [schedStep]; omega,rfl⟩))
  | loadedActive desired active =>
    by_cases low : active < desired
    · by_cases needed : 0 < desired - (active + sh.pumpScheduled)
      · exact .inl needed
      · exact .inr (.inr (.inr (.inl ⟨by simp only [schedStep]; omega,rfl⟩)))
    · exact .inr (.inr (.inr (.inr ⟨low,rfl,rfl,Nat.le_refl _⟩)))
  | adding needed =>
    simp only [schedStep]
    split
    next => exact .inl trivial
    next enough => exact .inr (.inr (.inr (.inr ⟨enough,rfl,rfl,Nat.le_refl _⟩)))
  | added needed => exact .inr (.inl (Nat.succ_pos _))

theorem Move.handed (move : Move cfg sh io phase l) (ring : Ring cfg sh) (thread : Thread cfg sh io phase)
    (whole : ∀ p, phase = .pumping p → p.submits cfg io → Fits cfg sh io p.budgetLeft)
    (some : l.sh.enqueuePos ≠ l.sh.dequeuePos) : Handed sh phase l := by
  cases move with
  | schedules fsyncActive sched =>
    obtain ⟨enqueue,dequeue,-⟩ := schedStep_frame cfg sh fsyncActive sched
    exact schedStep_handed cfg ring (by rwa [← enqueue,← dequeue]) fsyncActive sched io
  | pumps p slots l ran =>
    have pumped := pumpStep_pumped ring thread.worker (thread.reached p rfl) (whole p rfl) ran
    exact .inl (Phase.responsible_of_active (by rw [pumped.active.1]; exact Nat.one_pos))
  | checks workDone => exact .inl (.inr (ringCount_ne_zero cfg ring some))
  | ends workDone enqueue empty nothing =>
    refine .inr (.inr (.inr (.inr ⟨?_,rfl,rfl,Nat.le_refl _⟩)))
    rintro (work | count)
    · omega
    · exact count empty
  | _ => exact .inl trivial

/-- A ring that is not empty has a job in the queue or a thread that will look at it. -/
structure Invariant {n : Nat} (s : State n) : Prop where
  ring : Ring cfg s.sh
  thread : ∀ t, Thread cfg s.sh (s.io t) (s.phase t)
  active : s.sh.pumpActive = tally Phase.active s.phase
  scheduled : s.sh.pumpScheduled = s.sh.jobs + tally Phase.scheduled s.phase
  responsible : s.sh.enqueuePos ≠ s.sh.dequeuePos → 0 < s.sh.jobs ∨ ∃ t, (s.phase t).Responsible s.sh.dequeuePos

theorem invariant_init (n : Nat) (head : Fin cfg.capacity) : Invariant cfg (init cfg n head) where
  ring := ⟨Nat.le_refl _,Nat.zero_le _,fun pos bio slot => absurd slot (by simp [init])⟩
  thread t := by
    refine ⟨⟨⟨head.2,by simp [init,InlineRead.start],by simp [init,InlineRead.start],rfl,Nat.zero_le _⟩,rfl,?_⟩,
      trivial,fun _ => ⟨rfl,rfl⟩,fun p same => absurd same (by simp [init,Phase.pump?])⟩
    intro i off parked
    exact absurd parked (by simp [init,InlineRead.start])
  active := by simp [init,tally,Phase.active]
  scheduled := by simp [init,tally,Phase.scheduled]
  responsible some := absurd rfl some

theorem Thread.later (thread : Thread cfg sh io phase) (grows : sh.enqueuePos ≤ sh'.enqueuePos) : Thread cfg sh' io phase := by
  refine ⟨thread.worker,?_,thread.outside,thread.reached⟩
  have claims := thread.claims
  cases phase with
  | claimed bio pos => exact ⟨claims.1,Nat.lt_of_lt_of_le claims.2 grows⟩
  | enqueuing bio => exact claims
  | _ => trivial

/-- Whoever is responsible before a step, somebody is after it. -/
theorem Invariant.responsible_after (inv : Invariant cfg s)
    (handed : Handed s.sh (s.phase t) l) (activeEq : l.sh.pumpActive = tally Phase.active (update s.phase t l.phase))
    (scheduledEq : l.sh.pumpScheduled = l.sh.jobs + tally Phase.scheduled (update s.phase t l.phase))
    (some : l.sh.enqueuePos ≠ l.sh.dequeuePos) :
    0 < l.sh.jobs ∨ ∃ u, (update s.phase t l.phase u).Responsible l.sh.dequeuePos := by
  rcases handed with here | job | ⟨active,-⟩ | ⟨scheduled,-⟩ | ⟨notHere,enqueue,dequeue,jobs⟩
  · exact .inr ⟨t,by simpa using here⟩
  · exact .inl job
  · obtain ⟨u,positive⟩ := exists_of_tally_pos Phase.active (update s.phase t l.phase) (by omega)
    exact .inr ⟨u,Phase.responsible_of_active positive⟩
  · by_cases job : 0 < l.sh.jobs
    · exact .inl job
    · obtain ⟨u,positive⟩ := exists_of_tally_pos Phase.scheduled (update s.phase t l.phase) (by omega)
      exact .inr ⟨u,Phase.responsible_of_scheduled positive⟩
  · rw [enqueue,dequeue] at some
    rcases inv.responsible some with job | ⟨u,responsible⟩
    · exact .inl (Nat.lt_of_lt_of_le job jobs)
    · have other : u ≠ t := by
        rintro rfl
        exact notHere responsible
      refine .inr ⟨u,?_⟩
      rw [update_of_ne other,dequeue]
      exact responsible

theorem Invariant.step (inv : Invariant cfg s) (whole : Whole cfg s act) (ran : step cfg s act = some s') :
    Invariant cfg s' := by
  obtain ⟨l,local',rfl⟩ := map_eq_some_iff.mp ran
  have move := threadStep_move cfg local'
  have fits : ∀ p, s.phase act.1 = .pumping p → p.submits cfg (s.io act.1) → Fits cfg s.sh (s.io act.1) p.budgetLeft :=
    fun p same => whole p (by rw [same]; rfl)
  obtain ⟨ring,thread,grows⟩ := move.thread cfg inv.ring (inv.thread act.1) fits
  have counted : s.phase act.1 = .taken → 0 < s.sh.pumpScheduled := by
    intro taken
    have one := le_tally Phase.scheduled s.phase act.1
    rw [taken] at one
    have scheduled := inv.scheduled
    simp only [Phase.scheduled] at one
    omega
  obtain ⟨active,scheduled⟩ := move.counters cfg inv.ring (inv.thread act.1) counted fits
  have tallyActive := tally_update Phase.active s.phase act.1 l.phase
  have tallyScheduled := tally_update Phase.scheduled s.phase act.1 l.phase
  have activeEq : l.sh.pumpActive = tally Phase.active (update s.phase act.1 l.phase) := by
    have before := inv.active
    omega
  have scheduledEq : l.sh.pumpScheduled = l.sh.jobs + tally Phase.scheduled (update s.phase act.1 l.phase) := by
    have before := inv.scheduled
    omega
  refine ⟨ring,?_,activeEq,scheduledEq,?_⟩
  · intro t
    by_cases same : t = act.1
    · subst same
      simpa using thread
    · simpa [same] using (inv.thread t).later cfg grows
  · intro some
    exact inv.responsible_after cfg (move.handed cfg inv.ring (inv.thread act.1) fits some) activeEq scheduledEq some

/-- When every producer has returned and no pump is scheduled or running, the ring is empty and no
worker holds a BIO, if in each submission the free slots suffice for the BIO or are fewer than the budget. -/
theorem pump_drains (n : Nat) (head : Fin cfg.capacity) (acts : List (Fin n × Act)) (s : State n)
    (whole : Along (step cfg) (Whole cfg) (init cfg n head) acts)
    (ran : run (step cfg) (init cfg n head) acts = some s) (quiet : s.Quiet) : s.Drained := by
  have inv := run_invariant (step cfg) (Invariant cfg) (Whole cfg)
    (fun s act t inv whole ran => inv.step cfg whole ran) _ acts s (invariant_init cfg n head) whole ran
  refine ⟨?_,fun t => ?_⟩
  · by_contra some
    rcases inv.responsible some with job | ⟨t,responsible⟩
    · have none := quiet.1
      omega
    · rw [quiet.2 t] at responsible
      exact responsible
  · have outside := (inv.thread t).outside (by rw [quiet.2 t]; rfl)
    exact outside.2

def slots (spare : Bool) : Nat := if spare then 9 else 8

theorem slots_pos (spare : Bool) : 0 < slots spare := by
  cases spare <;> decide

theorem ninePages : 0 < 9 ∧ 9 < 2^16 := by decide

/-- A BIO of nine pages, one page per command. -/
def sample (spare : Bool) : Settings where
  capacity := slots spare
  hasSlot := slots_pos spare
  maxIo := pageSize
  pageFits := Nat.le_refl _
  nvmeTargetQd := 32
  bios := [⟨0,9,ninePages.1,ninePages.2⟩]
  numQpair := 1
  noAsync := false

def firstSlot (spare : Bool) : Fin (sample spare).capacity := ⟨0,slots_pos spare⟩

def produce (t : Fin 2) : List (Fin 2 × Act) := (t,.submit 0) :: replicate 9 (t,.go true [])

def pumpOnce (t : Fin 2) (submits : Nat) (slots : List Nat) (rest : Nat) : List (Fin 2 × Act) :=
  (t,.take) :: replicate submits (t,.go true []) ++ (t,.go true slots) :: replicate rest (t,.go true [])

/-- With nine slots the pump of an fsync submits all nine commands. -/
theorem pump_drains_nineSlots :
    ∃ s, run (step (sample true)) (init (sample true) 2 (firstSlot true)) (produce 0 ++ pumpOnce 1 4 (range 9) 5) = some s ∧
      s.Quiet ∧ s.Drained := by
  have ends : (run (step (sample true)) (init (sample true) 2 (firstSlot true)) (produce 0 ++ pumpOnce 1 4 (range 9) 5)).map
      (fun s => (s.sh.jobs,s.phase 0,s.phase 1)) = some (0,.idle,.idle) := by decide
  obtain ⟨s,ran,last⟩ := map_eq_some_iff.mp ends
  simp only [Prod.mk.injEq] at last
  have quiet : s.Quiet := ⟨last.1,fun t => by match t with | 0 => exact last.2.1 | 1 => exact last.2.2⟩
  exact ⟨s,ran,quiet,pump_drains (sample true) 2 (firstSlot true) (produce 0 ++ pumpOnce 1 4 (range 9) 5) s
    (by decide) ran quiet⟩

/-- With eight slots, which is the budget during an fsync, the ninth page stays parked. -/
theorem pump_strands_parked :
    ∃ s, run (step (sample false)) (init (sample false) 2 (firstSlot false))
    (produce 0 ++ pumpOnce 1 4 (range 8) 5) = some s ∧
      s.Quiet ∧ (s.io 1).pending = some (0,8) ∧ ¬ s.Drained := by
  have ends : (run (step (sample false)) (init (sample false) 2 (firstSlot false)) (produce 0 ++ pumpOnce 1 4 (range 8) 5)).map
      (fun s => (s.sh.jobs,s.phase 0,s.phase 1,(s.io 1).pending)) = some (0,.idle,.idle,some (0,8)) := by decide
  obtain ⟨s,ran,last⟩ := map_eq_some_iff.mp ends
  simp only [Prod.mk.injEq] at last
  have quiet : s.Quiet := ⟨last.1,fun t => by match t with | 0 => exact last.2.1 | 1 => exact last.2.2.1⟩
  refine ⟨s,ran,quiet,last.2.2.2,fun drained => ?_⟩
  have none := drained.2 1
  rw [last.2.2.2] at none
  exact absurd none (by simp)

end Oxbow.Daemon.ReadPump
