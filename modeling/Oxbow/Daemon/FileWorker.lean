import Oxbow.Lib.Run
import Oxbow.Lib.Tally

/-! The end of a file worker: `file_dispatcher_deregister` and the close path at the end of
`process_inode_events` decide under the inode lock, by the flags `I_CLOSING` and
`I_IO_ACTIVE`, who takes the inode out of the dispatcher and drops the reference. -/
namespace Oxbow.Daemon.FileWorker

open Oxbow.Lib Option

inductive Phase
  | idle
  | fetched
  | draining
  | deleting (exits : Bool)
  | exiting
  deriving DecidableEq, Repr

structure State (n : Nat) where
  closing : Bool
  ioActive : Bool
  hasWorker : Bool
  registered : Bool
  refs : Int
  phase : Fin n → Phase
  decided : Nat
  exits : Nat

inductive Act
  | fetch
  | deregister
  | go
  deriving DecidableEq, Repr

section

variable (s : State n) (t : Fin n)

def State.move (phase : Phase) : State n := {s with phase := Function.update s.phase t phase}

def deregisterMark : State n :=
  if s.closing then s
  else {s.move t (.deleting !s.ioActive) with closing := true, decided := if s.ioActive then s.decided else s.decided + 1}

def handlerEnd : State n :=
  if s.closing then {s.move t (.deleting true) with closing := false, ioActive := false, decided := s.decided + 1}
  else {s.move t .idle with ioActive := false}

def exitFileWorker : State n :=
  {s.move t .idle with hasWorker := false, refs := s.refs - 1, exits := s.exits + 1}

end

def step (s : State n) (act : Fin n × Act) : Option (State n) :=
  match s.phase act.1,act.2 with
  | .idle,.fetch => if s.registered then some (s.move act.1 .fetched) else none
  | .idle,.deregister => some (deregisterMark s act.1)
  | .fetched,.go => some {s.move act.1 .draining with ioActive := true}
  | .draining,.go => some (handlerEnd s act.1)
  | .deleting exits,.go => some {s.move act.1 (if exits then .exiting else .idle) with registered := false}
  | .exiting,.go => some (exitFileWorker s act.1)
  | _,_ => none

def init (n : Nat) (refs : Int) : State n := ⟨false,false,true,true,refs,fun _ => .idle,0,0⟩

def Phase.handles : Phase → Bool
  | .fetched | .draining => true
  | _ => false

/-- A deregister that marks the inode comes before any decision to end the worker, and one that finds
`I_IO_ACTIVE` clear finds no thread with an event of the inode in hand; no event is taken up between the
mark of such a one and its `epoll_ctl`. -/
def Clean (s : State n) (act : Fin n × Act) : Prop :=
  match act.2 with
  | .fetch => ¬ (s.closing ∧ 0 < s.decided)
  | .deregister => s.closing = false → s.decided = 0 ∧ (s.ioActive = false → ∀ t, (s.phase t).handles = false)
  | .go => True

instance Clean.decidable (s : State n) : (act : Fin n × Act) → Decidable (Clean s act)
  | (_,.fetch) => inferInstanceAs (Decidable (¬ (s.closing ∧ 0 < s.decided)))
  | (_,.deregister) => inferInstanceAs
    (Decidable (s.closing = false → s.decided = 0 ∧ (s.ioActive = false → ∀ t, (s.phase t).handles = false)))
  | (_,.go) => .isTrue trivial

def Phase.pending : Phase → Nat
  | .deleting true | .exiting => 1
  | _ => 0

structure Invariant (refs : Int) (s : State n) : Prop where
  once : s.decided ≤ 1
  unseen : s.closing = true → 0 < s.decided → ∀ t, (s.phase t).handles = false
  balance : s.exits + tally Phase.pending s.phase = s.decided
  dropped : s.refs = refs - s.exits

theorem init_invariant (n : Nat) (refs : Int) : Invariant refs (init n refs) where
  once := Nat.zero_le 1
  unseen closing := by cases closing
  balance := by simp [init,tally,Phase.pending]
  dropped := by simp [init]

@[simp] theorem move_exits (s : State n) (t : Fin n) (p : Phase) : (s.move t p).exits = s.exits := rfl

@[simp] theorem move_decided (s : State n) (t : Fin n) (p : Phase) : (s.move t p).decided = s.decided := rfl

theorem handles_move {s : State n} (others : ∀ t, (s.phase t).handles = false) (quiet : p.handles = false)
    (t u : Fin n) : ((s.move t p).phase u).handles = false := by
  by_cases same : u = t
  · subst same
    simpa [State.move] using quiet
  · simpa [State.move,same] using others u

variable {s : State n}

section

variable (inv : Invariant refs s)
include inv

theorem Invariant.undecided (handles : (s.phase t).handles = true) (closing : s.closing = true) : s.decided = 0 := by
  by_contra decided
  have unseen := inv.unseen closing (Nat.pos_of_ne_zero decided) t
  simp [handles] at unseen

theorem Invariant.balance_move (t : Fin n) (p : Phase) :
    s.exits + tally Phase.pending (s.move t p).phase + (s.phase t).pending = s.decided + p.pending := by
  have moved := tally_update Phase.pending s.phase t p
  have balance := inv.balance
  simp only [State.move]
  omega

theorem Invariant.fetch (idle : s.phase t = .idle) (clean : ¬ (s.closing ∧ 0 < s.decided)) :
    Invariant refs (s.move t .fetched) where
  once := inv.once
  unseen closing decided := absurd ⟨closing,decided⟩ clean
  balance := by simpa [idle,Phase.pending] using inv.balance_move t .fetched
  dropped := inv.dropped

theorem Invariant.deregisterMark (idle : s.phase t = .idle)
    (clean : s.closing = false → s.decided = 0 ∧ (s.ioActive = false → ∀ t, (s.phase t).handles = false)) :
    Invariant refs (deregisterMark s t) := by
  unfold FileWorker.deregisterMark
  split
  · exact inv
  next unmarked =>
    obtain ⟨first,quiet⟩ := clean (by simpa using unmarked)
    cases active : s.ioActive with
    | true =>
      refine ⟨by simpa using inv.once,?_,?_,inv.dropped⟩
      · intro _ decided
        simp [first] at decided
      · simpa [idle,Phase.pending] using inv.balance_move t (.deleting false)
    | false =>
      refine ⟨by simp [first],?_,?_,inv.dropped⟩
      · intro _ _
        exact handles_move (quiet active) rfl t
      · simpa [idle,Phase.pending] using inv.balance_move t (.deleting true)

theorem Invariant.activate (fetched : s.phase t = .fetched) : Invariant refs {s.move t .draining with ioActive := true} where
  once := inv.once
  unseen closing decided := absurd (inv.undecided (by rw [fetched]; rfl) closing) (Nat.pos_iff_ne_zero.mp decided)
  balance := by simpa [fetched,Phase.pending] using inv.balance_move t .draining
  dropped := inv.dropped

theorem Invariant.handlerEnd (draining : s.phase t = .draining) : Invariant refs (handlerEnd s t) := by
  unfold FileWorker.handlerEnd
  split
  next closing =>
    have first := inv.undecided (t := t) (by rw [draining]; rfl) closing
    refine ⟨by simp [first],by simp,?_,inv.dropped⟩
    simpa [draining,Phase.pending] using inv.balance_move t (.deleting true)
  next unmarked =>
    refine ⟨inv.once,fun closing => absurd closing unmarked,?_,inv.dropped⟩
    simpa [draining,Phase.pending] using inv.balance_move t .idle

theorem Invariant.epollDel (deleting : s.phase t = .deleting exits) :
    Invariant refs {s.move t (if exits then .exiting else .idle) with registered := false} where
  once := inv.once
  unseen closing decided := handles_move (inv.unseen closing decided) (by cases exits <;> rfl) t
  balance := by
    have same : (if exits then Phase.exiting else .idle).pending = (Phase.deleting exits).pending := by cases exits <;> rfl
    simpa [deleting,same] using inv.balance_move t (if exits then .exiting else .idle)
  dropped := inv.dropped

theorem Invariant.exitFileWorker (exiting : s.phase t = .exiting) : Invariant refs (exitFileWorker s t) where
  once := inv.once
  unseen closing decided := handles_move (inv.unseen closing decided) rfl t
  balance := by
    have moved := inv.balance_move t .idle
    simp only [exiting,Phase.pending] at moved
    simp only [FileWorker.exitFileWorker,move_decided]
    omega
  dropped := by
    have dropped := inv.dropped
    simp only [FileWorker.exitFileWorker,State.move]
    omega

theorem Invariant.step (clean : Clean s act) (next : step s act = some s') : Invariant refs s' := by
  obtain ⟨t,act⟩ := act
  unfold FileWorker.step at next
  split at next
  next idle fetch =>
    obtain ⟨-,⟨⟩⟩ := ite_none_right_eq_some.mp next
    subst fetch
    exact inv.fetch idle clean
  next idle deregister =>
    obtain rfl := some.inj next
    subst deregister
    exact inv.deregisterMark idle clean
  next fetched _ =>
    obtain rfl := some.inj next
    exact inv.activate fetched
  next draining _ =>
    obtain rfl := some.inj next
    exact inv.handlerEnd draining
  next deleting _ =>
    obtain rfl := some.inj next
    exact inv.epollDel deleting
  next exiting _ =>
    obtain rfl := some.inj next
    exact inv.exitFileWorker exiting
  next => cases next

end

/-- `exit_file_worker` is executed at most once, and the reference of the registration dropped with it. -/
theorem exit_at_most_once (n : Nat) (refs : Int) (acts : List (Fin n × Act)) (s : State n)
    (clean : Along step Clean (init n refs) acts) (ran : run step (init n refs) acts = some s) :
    s.exits ≤ 1 ∧ s.refs = refs - s.exits := by
  have inv := run_invariant step (Invariant refs) Clean (fun _ _ _ inv clean next => inv.step clean next)
    _ acts s (init_invariant n refs) clean ran
  have balance := inv.balance
  have once := inv.once
  exact ⟨by omega,inv.dropped⟩

def deferred : List (Fin 3 × Act) :=
  [(0,.fetch),(0,.go),(1,.deregister),(2,.deregister),(1,.go),(0,.go),(0,.go),(0,.go)]

theorem exit_at_most_once_deferred : ∃ s, run step (init 3 2) deferred = some s ∧ s.exits = 1 ∧ s.refs = 1 ∧
    s.exits ≤ 1 ∧ s.refs = 2 - s.exits := by
  have ends : (run step (init 3 2) deferred).map (fun s => (s.exits,s.refs)) = some (1,1) := by decide
  obtain ⟨s,ran,final⟩ := map_eq_some_iff.mp ends
  obtain ⟨exits,refs⟩ := Prod.mk.inj final
  exact ⟨s,ran,exits,refs,exit_at_most_once 3 2 deferred s (by decide) ran⟩

/-- The event is fetched before the deregister and handled after its mark: both end the worker, and the
second drops a reference that the registration did not take. -/
theorem deregister_and_handler_exit : ∃ s, run step (init 2 2)
    [(0,.fetch),(1,.deregister),(0,.go),(0,.go),(1,.go),(0,.go),(1,.go),(0,.go)] = some s ∧ s.exits = 2 ∧ s.refs = 0 := by
  have ends : (run step (init 2 2) [(0,.fetch),(1,.deregister),(0,.go),(0,.go),(1,.go),(0,.go),(1,.go),(0,.go)]).map
      (fun s => (s.exits,s.refs)) = some (2,0) := by decide
  obtain ⟨s,ran,final⟩ := map_eq_some_iff.mp ends
  obtain ⟨exits,refs⟩ := Prod.mk.inj final
  exact ⟨s,ran,exits,refs⟩

end Oxbow.Daemon.FileWorker
