import Mathlib.Algebra.Ring.Nat
import Oxbow.Lib.Fifo

/-! The ring buffer for several producers and consumers: every slot has a sequence number that says for which
position it is free or filled; positions are claimed by compare-and-swap, and each atomic access is one step. -/
namespace Oxbow.RingBufferMpmc

open Oxbow.Lib

variable {α : Type} {n : Nat}

structure Slot (α : Type) where
  sequence : Nat
  value : α
  deriving DecidableEq, Repr

structure Ring (α : Type) where
  slots : Nat → Slot α
  capacity : Nat
  mask : Nat
  enqueuePos : Nat
  dequeuePos : Nat

inductive Errno
  | einval
  | enomem
  deriving DecidableEq, Repr

def isPowerOfTwoSize (v : Nat) : Bool := decide (1 < v) && decide (v &&& (v - 1) = 0)

def ringBufferMpmcCreate (null : α) (memory : Bool) (capacity : Nat) : Except Errno (Ring α) :=
  if isPowerOfTwoSize capacity = false then .error .einval
  else if memory = false then .error .enomem
  else .ok ⟨fun i => ⟨i,null⟩,capacity,capacity - 1,0,0⟩

def Ring.slot (r : Ring α) (pos : Nat) : Slot α := r.slots (pos &&& r.mask)

def Ring.setSlot (r : Ring α) (pos : Nat) (slot : Slot α) : Ring α :=
  {r with slots := Function.update r.slots (pos &&& r.mask) slot}

inductive Phase (α : Type)
  | idle
  | enqueuing (elem : α)
  | enqLook (elem : α) (pos : Nat)
  | enqClaim (elem : α) (pos : Nat)
  | enqWrite (elem : α) (pos : Nat)
  | enqPublish (pos : Nat)
  | dequeuing
  | deqLook (pos : Nat)
  | deqClaim (pos : Nat)
  | deqRead (pos : Nat)
  | deqPublish (pos : Nat) (val : α)
  | returning (result : Fifo.Result α)
  deriving DecidableEq, Repr

structure State (n : Nat) (α : Type) where
  ring : Ring α
  phase : Fin n → Phase α

def State.set (s : State n α) (t : Fin n) (p : Phase α) (ring : Ring α) : State n α := ⟨ring,Function.update s.phase t p⟩

def State.move (s : State n α) (t : Fin n) (p : Phase α) : State n α := s.set t p s.ring

def diff (seq pos : Nat) : Int := seq - pos

/-- The next atomic access of a thread; `spurious` is a weak compare-and-swap that fails without reason. -/
def advance (s : State n α) (t : Fin n) (spurious : Bool) : Option (State n α) :=
  match s.phase t with
  | .idle => none
  | .enqueuing elem => some (s.move t (.enqLook elem s.ring.enqueuePos))
  | .enqLook elem pos =>
    if diff (s.ring.slot pos).sequence pos = 0 then some (s.move t (.enqClaim elem pos))
    else if diff (s.ring.slot pos).sequence pos < 0 then some (s.move t (.returning .refused))
    else some (s.move t (.enqueuing elem))
  | .enqClaim elem pos =>
    if spurious = false ∧ s.ring.enqueuePos = pos then
      some (s.set t (.enqWrite elem pos) {s.ring with enqueuePos := pos + 1})
    else some (s.move t (.enqueuing elem))
  | .enqWrite elem pos => some (s.set t (.enqPublish pos) (s.ring.setSlot pos {s.ring.slot pos with value := elem}))
  | .enqPublish pos =>
    some (s.set t (.returning .pushed) (s.ring.setSlot pos {s.ring.slot pos with sequence := pos + 1}))
  | .dequeuing => some (s.move t (.deqLook s.ring.dequeuePos))
  | .deqLook pos =>
    if diff (s.ring.slot pos).sequence (pos + 1) = 0 then some (s.move t (.deqClaim pos))
    else if diff (s.ring.slot pos).sequence (pos + 1) < 0 then some (s.move t (.returning .refused))
    else some (s.move t .dequeuing)
  | .deqClaim pos =>
    if spurious = false ∧ s.ring.dequeuePos = pos then
      some (s.set t (.deqRead pos) {s.ring with dequeuePos := pos + 1})
    else some (s.move t .dequeuing)
  | .deqRead pos => some (s.move t (.deqPublish pos (s.ring.slot pos).value))
  | .deqPublish pos val =>
    some (s.set t (.returning (.popped val)) (s.ring.setSlot pos {s.ring.slot pos with sequence := pos + s.ring.capacity}))
  | .returning _ => none

inductive Act (n : Nat) (α : Type)
  | call (t : Fin n) (op : Fifo.Op α)
  | go (t : Fin n) (spurious : Bool)
  | ret (t : Fin n)
  deriving DecidableEq, Repr

def step (s : State n α) : Act n α → Option (State n α)
  | .call t op =>
    match s.phase t,op with
    | .idle,.push elem => some (s.move t (.enqueuing elem))
    | .idle,.pop => some (s.move t .dequeuing)
    | _,_ => none
  | .go t spurious => advance s t spurious
  | .ret t =>
    match s.phase t with
    | .returning _ => some (s.move t .idle)
    | _ => none

def start (n : Nat) (ring : Ring α) : State n α := ⟨ring,fun _ => .idle⟩

def event (s : State n α) : Act n α → Option (Fifo.Event n α)
  | .call t op => some (.call t op)
  | .go t spurious =>
    match s.phase t with
    | .enqClaim elem pos => if spurious = false ∧ s.ring.enqueuePos = pos then some (.pushes t elem) else none
    | .deqClaim pos => if spurious = false ∧ s.ring.dequeuePos = pos then some (.pops t (s.ring.slot pos).value) else none
    | _ => none
  | .ret t =>
    match s.phase t with
    | .returning result => some (.returns t result)
    | _ => none

end Oxbow.RingBufferMpmc
