import Mathlib.Logic.Function.Basic
import Mathlib.Data.Fintype.Basic
import Oxbow.Lib.Run

/-! A bounded first-in first-out queue that threads use atomically: a call takes effect in one step between its
call and its return, or is refused without effect. A push is refused only by a full queue or while a pop that has
taken effect has not returned, and the other way round. -/
namespace Oxbow.Lib.Fifo

open Option

inductive Op (α : Type)
  | push (v : α)
  | pop
  deriving DecidableEq, Repr

inductive Result (α : Type)
  | pushed
  | popped (v : α)
  | refused
  deriving DecidableEq, Repr

inductive Phase (α : Type)
  | idle
  | pending (op : Op α)
  | done (result : Result α)
  deriving DecidableEq, Repr

structure State (n : Nat) (α : Type) where
  queue : List α
  phase : Fin n → Phase α

inductive Act (n : Nat) (α : Type)
  | call (t : Fin n) (op : Op α)
  | effect (t : Fin n)
  | refuse (t : Fin n)
  | ret (t : Fin n)

inductive Event (n : Nat) (α : Type)
  | call (t : Fin n) (op : Op α)
  | pushes (t : Fin n) (v : α)
  | pops (t : Fin n) (v : α)
  | returns (t : Fin n) (result : Result α)
  deriving DecidableEq, Repr

variable {n : Nat} {α : Type}

def init (n : Nat) (α : Type) : State n α := ⟨[],fun _ => .idle⟩

def Phase.hasPushed : Phase α → Bool
  | .done .pushed => true
  | _ => false

def Phase.hasPopped : Phase α → Bool
  | .done (.popped _) => true
  | _ => false

def State.move (s : State n α) (t : Fin n) (p : Phase α) : State n α := {s with phase := Function.update s.phase t p}

section

variable (capacity : Nat) (s : State n α)

def effect (t : Fin n) : Option (State n α) :=
  match s.phase t with
  | .pending (.push v) => if s.queue.length < capacity then some {s.move t (.done .pushed) with
      queue := s.queue ++ [v]} else none
  | .pending .pop =>
    match s.queue with
    | [] => none
    | v :: rest => some {s.move t (.done (.popped v)) with queue := rest}
  | _ => none

def refuse (t : Fin n) : Option (State n α) :=
  match s.phase t with
  | .pending (.push _) =>
    if s.queue.length = capacity ∨ ∃ u, (s.phase u).hasPopped then some (s.move t (.done .refused)) else none
  | .pending .pop => if s.queue.length = 0 ∨ ∃ u, (s.phase u).hasPushed then some (s.move t (.done .refused)) else none
  | _ => none

def step : Act n α → Option (State n α)
  | .call t op =>
    match s.phase t with
    | .idle => some (s.move t (.pending op))
    | _ => none
  | .effect t => effect capacity s t
  | .refuse t => refuse capacity s t
  | .ret t =>
    match s.phase t with
    | .done _ => some (s.move t .idle)
    | _ => none

end

def event (s : State n α) : Act n α → Option (Event n α)
  | .call t op => some (.call t op)
  | .effect t =>
    match s.phase t,s.queue with
    | .pending (.push v),_ => some (.pushes t v)
    | .pending .pop,v :: _ => some (.pops t v)
    | _,_ => none
  | .refuse _ => none
  | .ret t =>
    match s.phase t with
    | .done result => some (.returns t result)
    | _ => none

def Event.pushed : Event n α → Option α
  | .pushes _ v => some v
  | _ => none

def Event.popped : Event n α → Option α
  | .pops _ v => some v
  | _ => none

variable {capacity : Nat} {s t : State n α}

/-- A step puts its push at the end and takes its pop from the front. -/
theorem step_queue (next : step capacity s act = some t) :
    s.queue ++ (event s act).toList.filterMap Event.pushed = (event s act).toList.filterMap Event.popped ++ t.queue ∧
    (s.queue.length ≤ capacity → t.queue.length ≤ capacity) := by
  cases act with
  | call u op =>
    simp only [step] at next
    split at next
    · obtain rfl := some.inj next
      simp [event,Event.pushed,Event.popped,State.move,List.filterMap_cons]
    · cases next
  | effect u =>
    simp only [step,effect] at next
    split at next
    next v pending =>
      obtain ⟨room,⟨⟩⟩ := ite_none_right_eq_some.mp next
      simpa [event,pending,Event.pushed,Event.popped] using fun _ => Nat.succ_le_of_lt room
    next pending =>
      split at next
      · cases next
      next v rest queue =>
        obtain rfl := some.inj next
        simpa [event,pending,queue,Event.pushed,Event.popped] using fun below => Nat.le_of_succ_le below
    · cases next
  | refuse u =>
    simp only [step,refuse] at next
    split at next
    · obtain ⟨-,⟨⟩⟩ := ite_none_right_eq_some.mp next
      simp [event,State.move]
    · obtain ⟨-,⟨⟩⟩ := ite_none_right_eq_some.mp next
      simp [event,State.move]
    · cases next
  | ret u =>
    simp only [step] at next
    split at next
    next result done =>
      obtain rfl := some.inj next
      simp [event,done,Event.pushed,Event.popped,State.move,List.filterMap_cons]
    · cases next

/-- In every run, what was pushed is what was popped and what is left, in that order. -/
theorem run_queue (as : List (Act n α)) (ran : run (step capacity) s as = some t) (bounded : s.queue.length ≤ capacity) :
    s.queue ++ (yields (step capacity) event s as).filterMap Event.pushed =
      (yields (step capacity) event s as).filterMap Event.popped ++ t.queue ∧
    t.queue.length ≤ capacity := by
  induction as generalizing s with
  | nil =>
    obtain rfl : s = t := by simpa [run] using ran
    exact ⟨by simp [yields],bounded⟩
  | cons act as ih =>
    obtain ⟨u,first,rest⟩ := bind_eq_some_iff.mp ran
    obtain ⟨here,room⟩ := step_queue first
    obtain ⟨later,kept⟩ := ih rest (room bounded)
    refine ⟨?_,kept⟩
    rw [yields,first,elim_some,List.filterMap_append,List.filterMap_append,← List.append_assoc,here,
      List.append_assoc,later,List.append_assoc]

end Oxbow.Lib.Fifo
