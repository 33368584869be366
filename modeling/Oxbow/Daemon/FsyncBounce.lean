import Oxbow.Lib.Run
import Oxbow.Lib.Tally

/-! The handler of messages from the library, `rpc_shmem_libfs_handler`, in a pool of threads. An fsync that finds
every thread working goes into the bounce queue, from which handlers that end move requests back to the job queue
while they see idle threads. -/
namespace Oxbow.Daemon.FsyncBounce

open Oxbow.Lib Option

inductive Op
  | init
  | exit
  | fsync
  | sync
  | falloc
  | ftrunc
  | addJournal
  | unknown (op : Nat)
  deriving DecidableEq, Repr

def Op.drains : Op → Bool
  | .init | .unknown _ => false
  | _ => true

structure Job where
  arg : Nat
  op : Op
  deriving DecidableEq, Repr

inductive Phase
  | idle
  | woken
  | started (job : Job)
  | bouncing (arg : Nat)
  | handling (op : Op)
  | draining (dispatched : Nat)
  | dequeuing (dispatched : Nat)
  | dispatching (dispatched : Nat) (arg : Nat)
  | returning
  deriving DecidableEq, Repr

structure State (n : Nat) where
  jobs : List Job
  bounce : List Nat
  phase : Fin n → Phase

def init (n : Nat) : State n := ⟨[],[],fun _ => .idle⟩

def Phase.works : Phase → Nat
  | .idle => 0
  | _ => 1

def State.alive (_ : State n) : Nat := n

def State.working (s : State n) : Nat := tally Phase.works s.phase

def State.move (s : State n) (t : Fin n) (p : Phase) : State n := {s with phase := Function.update s.phase t p}

def State.addWork (s : State n) (job : Job) : State n := {s with jobs := s.jobs ++ [job]}

def drainCap : Nat := 1

def fsyncBounceEnqueue (s : State n) (malloc : Bool) (arg : Nat) : State n :=
  if malloc then {s with bounce := s.bounce ++ [arg]} else s.addWork ⟨arg,.fsync⟩

def advance (s : State n) (t : Fin n) (malloc : Bool) : Option (State n) :=
  match s.phase t with
  | .idle => if s.jobs = [] then none else some (s.move t .woken)
  | .woken =>
    match s.jobs with
    | [] => some (s.move t .returning)
    | job :: rest => some {s.move t (.started job) with jobs := rest}
  | .started job =>
    if job.op = .fsync ∧ 1 < s.alive ∧ s.working = s.alive then some (s.move t (.bouncing job.arg))
    else some (s.move t (.handling job.op))
  | .bouncing arg => some ((fsyncBounceEnqueue s malloc arg).move t .returning)
  | .handling op => some (s.move t (if op.drains then .draining 0 else .returning))
  | .draining dispatched =>
    if dispatched < drainCap ∧ ¬ (s.alive ≤ 1 ∨ s.alive ≤ s.working) then some (s.move t (.dequeuing dispatched))
    else some (s.move t .returning)
  | .dequeuing dispatched =>
    match s.bounce with
    | [] => some (s.move t .returning)
    | arg :: rest => some {s.move t (.dispatching dispatched arg) with bounce := rest}
  | .dispatching dispatched arg => some ((s.addWork ⟨arg,.fsync⟩).move t (.draining (dispatched + 1)))
  | .returning => some (s.move t .idle)

inductive Act (n : Nat)
  | receive (job : Job)
  | go (t : Fin n) (malloc : Bool)
  deriving DecidableEq, Repr

def step (s : State n) : Act n → Option (State n)
  | .receive job => some (s.addWork job)
  | .go t malloc => advance s t malloc

def Phase.owes : Phase → Bool
  | .started job => job.op.drains
  | .bouncing _ | .dequeuing _ | .dispatching _ _ => true
  | .handling op => op.drains
  | .draining dispatched => decide (dispatched < drainCap)
  | .idle | .woken | .returning => false

def Others (s : State n) (t : Fin n) : Prop :=
  (∃ job ∈ s.jobs, job.op.drains) ∨ ∃ u, u ≠ t ∧ (s.phase u).owes

instance Others.decidable (s : State n) (t : Fin n) : Decidable (Others s t) :=
  inferInstanceAs (Decidable ((∃ job ∈ s.jobs, _) ∨ _))

/-- The step puts a request into the bounce queue, or ends a drain on the counts while requests wait there. -/
def givesUp (s : State n) (t : Fin n) (malloc : Bool) : Bool :=
  match s.phase t with
  | .bouncing _ => malloc
  | .draining dispatched => decide (dispatched < drainCap ∧ (s.alive ≤ 1 ∨ s.alive ≤ s.working) ∧ s.bounce ≠ [])
  | _ => false

/-- A thread that gives up is not the last one that would drain. -/
def Kept (s : State n) : Act n → Prop
  | .receive _ => True
  | .go t malloc => givesUp s t malloc → Others s t

instance Kept.decidable (s : State n) : (act : Act n) → Decidable (Kept s act)
  | .receive _ => .isTrue trivial
  | .go t malloc => inferInstanceAs (Decidable (givesUp s t malloc → Others s t))

def Carried (s : State n) : Prop := (∃ job ∈ s.jobs, job.op.drains) ∨ ∃ t, (s.phase t).owes

/-- Every thread is idle and no job is queued. -/
def Quiet (s : State n) : Prop := (∀ t, s.phase t = .idle) ∧ s.jobs = []

variable {s u : State n}

theorem carried_iff (s : State n) (t : Fin n) : Carried s ↔ Others s t ∨ (s.phase t).owes := by
  constructor
  · rintro (queued | ⟨v,owes⟩)
    · exact .inl (.inl queued)
    · by_cases same : v = t
      · exact .inr (same ▸ owes)
      · exact .inl (.inr ⟨v,same,owes⟩)
  · rintro ((queued | ⟨v,-,owes⟩) | owes)
    · exact .inl queued
    · exact .inr ⟨v,owes⟩
    · exact .inr ⟨t,owes⟩

inductive Moves (s u : State n) (t : Fin n) (malloc : Bool) : Prop
  | on (p : Phase) (same : p.owes = (s.phase t).owes) (after : u = s.move t p)
  | pulls (job : Job) (rest : List Job) (woken : s.phase t = .woken) (queue : s.jobs = job :: rest)
      (after : u = {s.move t (.started job) with jobs := rest})
  | bounces (arg : Nat) (found : s.phase t = .bouncing arg) (allocated : malloc = true)
      (after : u = {s.move t .returning with bounce := s.bounce ++ [arg]})
  | requeues (arg : Nat) (p : Phase) (owes : (s.phase t).owes) (after : u = (s.addWork ⟨arg,.fsync⟩).move t p)
  | givesUp (dispatched : Nat) (found : s.phase t = .draining dispatched) (below : dispatched < drainCap)
      (full : s.alive ≤ 1 ∨ s.alive ≤ s.working) (after : u = s.move t .returning)
  | misses (dispatched : Nat) (found : s.phase t = .dequeuing dispatched) (empty : s.bounce = [])
      (after : u = s.move t .returning)
  | takes (dispatched arg : Nat) (rest : List Nat) (found : s.phase t = .dequeuing dispatched)
      (queue : s.bounce = arg :: rest) (after : u = {s.move t (.dispatching dispatched arg) with bounce := rest})

theorem advance_moves (next : advance s t malloc = some u) : Moves s u t malloc := by
  unfold advance at next
  split at next
  next idle =>
    split at next
    · cases next
    · exact .on .woken (by rw [idle]; rfl) (some.inj next).symm
  next woken =>
    split at next
    · exact .on .returning (by rw [woken]; rfl) (some.inj next).symm
    next job rest queue => exact .pulls job rest woken queue (some.inj next).symm
  next job started =>
    split at next
    next bounces => exact .on (.bouncing job.arg) (by simp [started,Phase.owes,bounces.1,Op.drains]) (some.inj next).symm
    · exact .on (.handling job.op) (by rw [started]; rfl) (some.inj next).symm
  next arg found =>
    cases malloc with
    | true => exact .bounces arg found rfl (some.inj next).symm
    | false => exact .requeues arg .returning (by rw [found]; rfl) (some.inj next).symm
  next op handling =>
    refine .on _ ?_ (some.inj next).symm
    rw [handling]
    cases drains : op.drains <;> simp [Phase.owes,drains,drainCap]
  next dispatched found =>
    split at next
    next looks => exact .on (.dequeuing dispatched) (by simp [found,Phase.owes,looks.1]) (some.inj next).symm
    next ends =>
      by_cases below : dispatched < drainCap
      · have full : s.alive ≤ 1 ∨ s.alive ≤ s.working := by
          by_contra idle
          exact ends ⟨below,idle⟩
        exact .givesUp dispatched found below full (some.inj next).symm
      · exact .on .returning (by simp [found,Phase.owes,below]) (some.inj next).symm
  next dispatched found =>
    split at next
    next empty => exact .misses dispatched found empty (some.inj next).symm
    next arg rest queue => exact .takes dispatched arg rest found queue (some.inj next).symm
  next dispatched arg found => exact .requeues arg (.draining (dispatched + 1)) (by rw [found]; rfl) (some.inj next).symm
  next returning => exact .on .idle (by rw [returning]; rfl) (some.inj next).symm

theorem others_move (p : Phase) : Others (s.move t p) t ↔ Others s t := by
  have other : ∀ v, v ≠ t → (s.move t p).phase v = s.phase v := fun v ne => by simp [State.move,ne]
  refine or_congr_right (exists_congr fun v => and_congr_right fun ne => ?_)
  rw [other v ne]

theorem carried_move (p : Phase) : Carried (s.move t p) ↔ Others s t ∨ p.owes := by
  rw [carried_iff _ t,others_move]
  simp [State.move]

theorem carried_addWork (arg : Nat) (p : Phase) : Carried ((s.addWork ⟨arg,.fsync⟩).move t p) :=
  .inl ⟨⟨arg,.fsync⟩,by simp [State.move,State.addWork],rfl⟩

/-- Only a step that gives up can take the last one that would drain away from the requests that wait. -/
theorem carried_step (kept : s.bounce ≠ [] → Carried s) (condition : Kept s act) (next : step s act = some u)
    (waiting : u.bounce ≠ []) : Carried u := by
  cases act with
  | receive job =>
    obtain rfl := some.inj next
    rcases kept waiting with ⟨queued,member,drains⟩ | owes
    · exact .inl ⟨queued,List.mem_append_left _ member,drains⟩
    · exact .inr owes
  | go t malloc =>
    cases advance_moves next with
    | on p same after =>
      subst after
      rw [carried_move,same,← carried_iff]
      exact kept waiting
    | pulls job rest woken queue after =>
      subst after
      rcases kept waiting with ⟨queued,member,drains⟩ | ⟨v,owes⟩
      · rcases List.mem_cons.mp (queue ▸ member) with rfl | later
        · exact .inr ⟨t,by simpa [State.move,Phase.owes] using drains⟩
        · exact .inl ⟨queued,later,drains⟩
      · have other : v ≠ t := by
          rintro rfl
          simp [woken,Phase.owes] at owes
        exact .inr ⟨v,by simpa [State.move,other] using owes⟩
    | bounces arg found allocated after =>
      subst after
      have others := condition (by simpa [givesUp,found] using allocated)
      exact (carried_move .returning).mpr (.inl others)
    | requeues arg p _ after => exact after ▸ carried_addWork arg p
    | givesUp dispatched found below full after =>
      subst after
      have others := condition (by simpa [givesUp,found] using ⟨below,full,waiting⟩)
      exact (carried_move .returning).mpr (.inl others)
    | misses dispatched found empty after =>
      subst after
      exact absurd empty waiting
    | takes dispatched arg rest found queue after =>
      subst after
      exact .inr ⟨t,by simp [State.move,Phase.owes]⟩

def Stranded (s : State n) : Prop := s.bounce ≠ [] ∧ ¬ Carried s

theorem stranded_step (stranded : Stranded s) (next : step s (.go t malloc) = some u) : Stranded u := by
  obtain ⟨waiting,uncarried⟩ := stranded
  have alone := (carried_iff s t).not.mp uncarried
  rw [not_or] at alone
  cases advance_moves next with
  | on p same after =>
    subst after
    refine ⟨waiting,?_⟩
    rw [carried_move,same]
    exact not_or.mpr alone
  | pulls job rest woken queue after =>
    subst after
    refine ⟨waiting,?_⟩
    rintro (⟨queued,member,drains⟩ | ⟨v,owes⟩)
    · exact uncarried (.inl ⟨queued,by rw [queue]; exact List.mem_cons_of_mem job member,drains⟩)
    · by_cases same : v = t
      · subst same
        exact uncarried (.inl ⟨job,by simp [queue],by simpa [State.move,Phase.owes] using owes⟩)
      · exact uncarried (.inr ⟨v,by simpa [State.move,same] using owes⟩)
  | bounces arg found allocated after => simp [found,Phase.owes] at alone
  | requeues arg p owes after => exact absurd owes alone.2
  | givesUp dispatched found below full after => simp [found,Phase.owes,below] at alone
  | misses dispatched found empty after => simp [found,Phase.owes] at alone
  | takes dispatched arg rest found queue after => simp [found,Phase.owes] at alone

theorem givesUp_advance (gives : givesUp s t malloc) (next : advance s t malloc = some u) :
    u.bounce ≠ [] ∧ u = {s.move t .returning with bounce := u.bounce} := by
  unfold givesUp at gives
  split at gives
  next arg found =>
    simp only [advance,found,gives,fsyncBounceEnqueue,if_true] at next
    obtain rfl := some.inj next
    exact ⟨by simp [State.move],rfl⟩
  next dispatched found =>
    obtain ⟨below,full,waiting⟩ := of_decide_eq_true gives
    have ends : ¬ (dispatched < drainCap ∧ ¬ (s.alive ≤ 1 ∨ s.alive ≤ s.working)) := fun looks => looks.2 full
    simp only [advance,found,ends,if_false] at next
    obtain rfl := some.inj next
    exact ⟨waiting,rfl⟩
  · cases gives

theorem stranded_of_not_kept (unkept : ¬ Kept s act) (next : step s act = some u) : Stranded u := by
  cases act with
  | receive job => exact absurd trivial unkept
  | go t malloc =>
    obtain ⟨gives,alone⟩ := Classical.not_imp.mp unkept
    obtain ⟨waiting,after⟩ := givesUp_advance gives next
    refine ⟨waiting,?_⟩
    rw [after]
    intro carried
    rcases (carried_move (s := s) (t := t) .returning).mp carried with others | owes
    · exact alone others
    · cases owes

theorem stranded_run (stranded : Stranded s) (bs : List (Fin n × Bool))
    (ran : run step s (bs.map fun b => .go b.1 b.2) = some u) : Stranded u := by
  induction bs generalizing s with
  | nil =>
    obtain rfl := some.inj ran
    exact stranded
  | cons b bs ih =>
    obtain ⟨t,first,rest⟩ := bind_eq_some_iff.mp ran
    exact ih (stranded_step stranded first) rest

/-- While every thread that gives up leaves another one that would drain, no request is left behind in the bounce
queue when all threads are idle and the job queue is empty; once one does not, the requests stay there until a
message comes. -/
theorem bounced_fsync_not_stranded (as : List (Act n)) (s : State n) (ran : run step (init n) as = some s) :
    (Along step Kept (init n) as → Quiet s → s.bounce = []) ∧
    ∀ act t, step s act = some t → ¬ Kept s act →
      ∀ (bs : List (Fin n × Bool)) (u : State n), run step t (bs.map fun b => .go b.1 b.2) = some u → u.bounce ≠ [] := by
  constructor
  · rintro kept ⟨idle,empty⟩
    by_contra waiting
    have carried := run_invariant step (fun s : State n => s.bounce ≠ [] → Carried s) Kept
      (fun s act t inv condition next => carried_step inv condition next)
      (init n) as s (fun none => absurd rfl none) kept ran waiting
    rcases carried with ⟨job,member,-⟩ | ⟨t,owes⟩
    · simp [empty] at member
    · simp [idle,Phase.owes] at owes
  · intro act t next unkept bs u later
    exact (stranded_run (stranded_of_not_kept unkept next) bs later).1

def fsyncJob (arg : Nat) : Job := ⟨arg,.fsync⟩

def drained (a b : Fin n) : List (Act n) :=
  .receive (fsyncJob 0) :: List.replicate 3 (.go a true) ++ .receive (fsyncJob 1) :: List.replicate 5 (.go b true) ++
    List.replicate 13 (.go a true)

theorem bounced_fsync_not_stranded_drained : ∃ s, run step (init 2) (drained 0 1) = some s ∧ Quiet s ∧ s.bounce = [] := by
  have ends : (run step (init 2) (drained 0 1)).map (fun s => (s.jobs,s.phase 0,s.phase 1)) = some ([],.idle,.idle) := by
    decide
  obtain ⟨s,ran,same⟩ := map_eq_some_iff.mp ends
  simp only [Prod.mk.injEq] at same
  have quiet : Quiet s := ⟨Fin.forall_fin_two.mpr same.2,same.1⟩
  exact ⟨s,ran,quiet,(bounced_fsync_not_stranded (drained 0 1) s ran).1 (by decide) quiet⟩

def bothBounce (a b : Fin n) : List (Act n) :=
  [.receive (fsyncJob 0),.receive (fsyncJob 1),.go a true,.go b true,.go a true,.go b true,.go a true,.go b true,
    .go a true,.go b true,.go a true,.go b true]

/-- Both requests bounce, and both threads go idle without draining them. -/
theorem both_fsyncs_stranded : (run step (init 2) (bothBounce 0 1)).map (fun s => (s.bounce,s.jobs,s.phase 0,s.phase 1)) =
    some ([0,1],[],.idle,.idle) := by
  decide

end Oxbow.Daemon.FsyncBounce
