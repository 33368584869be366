import Mathlib.Data.List.Count
import Mathlib.Logic.Function.Basic
import Oxbow.Lib.Run

/-! Calls that take locks and give them back. What a call does to the locks is the list of its
acquisitions and releases; a lock that is held cannot be acquired, and one that is not held
cannot be released. -/
namespace Oxbow.Lib.Locks

open Function List Option

variable {κ α β : Type}

inductive Event (κ : Type)
  | acquire (lock : κ)
  | release (lock : κ)
  deriving DecidableEq, Repr

structure Call (κ α : Type) where
  events : List (Event κ)
  result : α

instance : Monad (Call κ) where
  pure a := ⟨[],a⟩
  bind call rest := ⟨call.events ++ (rest call.result).events,(rest call.result).result⟩

def acquire (lock : κ) : Call κ Unit := ⟨[.acquire lock],()⟩

def release (lock : κ) : Call κ Unit := ⟨[.release lock],()⟩

@[simp] theorem pure_result (a : α) : (pure a : Call κ α).result = a := rfl

@[simp] theorem bind_result (call : Call κ α) (rest : α → Call κ β) :
    (call >>= rest).result = (rest call.result).result := rfl

variable [DecidableEq κ] {call : Call κ α} {rest : α → Call κ β} {held mid after : κ → Bool} {lock : κ}

def step (held : κ → Bool) : Event κ → Option (κ → Bool)
  | .acquire lock => if held lock then none else some (update held lock true)
  | .release lock => if held lock then some (update held lock false) else none

/-- The call gets to its end, and the locks that are held change from the first to the second. -/
def Call.Takes (call : Call κ α) (held after : κ → Bool) : Prop := run step held call.events = some after

theorem takes_pure (a : α) : (pure a : Call κ α).Takes held held := rfl

theorem Call.Takes.bind (first : call.Takes held mid) (next : (rest call.result).Takes mid after) :
    (call >>= rest).Takes held after := by
  change run step held (call.events ++ (rest call.result).events) = some after
  rw [run_append,first]
  exact next

theorem Call.Takes.unique (one : call.Takes held mid) (other : call.Takes held after) : mid = after :=
  some.inj (one.symm.trans other)

theorem Call.Takes.locked (free : held lock = false) (next : call.Takes (update held lock true) after) :
    (acquire lock >>= fun _ => call).Takes held after := by
  have taken : step held (.acquire lock) = some (update held lock true) := by simp [step,free]
  exact (run_cons step taken call.events).trans next

theorem Call.Takes.unlocked (free : held lock = false) (next : call.Takes held after) :
    (release lock >>= fun _ => call).Takes (update held lock true) after := by
  have given : step (update held lock true) (.release lock) = some held := by
    rw [step,if_pos (update_self ..),update_idem,← free,update_eq_self]
  exact (run_cons step given call.events).trans next

theorem step_count (next : step held event = some after) (lock : κ) :
    (if event == .acquire lock then 1 else 0) + (held lock).toNat =
      (if event == .release lock then 1 else 0) + (after lock).toNat := by
  cases event with
  | acquire other =>
    obtain ⟨free,rfl⟩ : held other = false ∧ update held other true = after := by simpa [step] using next
    by_cases same : lock = other
    · subst same
      simp [free]
    · simp [update_of_ne same,Ne.symm same]
  | release other =>
    obtain ⟨owned,rfl⟩ : held other = true ∧ update held other false = after := by simpa [step] using next
    by_cases same : lock = other
    · subst same
      simp [owned]
    · simp [update_of_ne same,Ne.symm same]

/-- What was acquired and not released is held. -/
theorem Call.Takes.count (takes : call.Takes held after) (lock : κ) :
    count (.acquire lock) call.events + (held lock).toNat = count (.release lock) call.events + (after lock).toNat := by
  obtain ⟨events,result⟩ := call
  induction events generalizing held with
  | nil =>
    obtain rfl : held = after := some.inj takes
    rfl
  | cons event events ih =>
    obtain ⟨mid,first,rest⟩ := bind_eq_some_iff.mp takes
    have here := step_count first lock
    have later := ih rest
    simp only [count_cons] at later ⊢
    omega

end Oxbow.Lib.Locks
