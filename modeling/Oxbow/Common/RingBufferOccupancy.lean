import Oxbow.Common.RingBufferMpmcFifo
import Oxbow.Lib.Ring

/-! How full the ring says it is: `ring_buffer_mpmc_count` and `ring_buffer_mpmc_space` after any calls that have returned, with
64-bit positions and sequence numbers that wrap. -/
namespace Oxbow.RingBufferMpmc.Calls

open Oxbow.Lib Option

variable {α : Type}

def diff64 (seq pos : Nat) : Int := int64 (int64 seq - int64 pos)

/-- The branch on `diff` in the loop of both calls, with the compare-and-swap and what follows it. Nothing is returned where the
call would wait for another party. -/
def look (diff : Int) (r : Ring α) (claim : Option (Fifo.Result α × Ring α)) : Option (Fifo.Result α × Ring α) :=
  if diff = 0 then claim
  else if diff < 0 then some (.refused,r)
  else none

/-- A call while no other is under way; its weak compare-and-swap fails so many times without reason. -/
def ringBufferMpmcTryEnqueue (elem : α) (r : Ring α) : (failures : Nat) → Option (Fifo.Result α × Ring α)
  | 0 =>
    let pos := r.enqueuePos
    look (diff64 (r.slot pos).sequence pos) r
      (some (.pushed,{ r with enqueuePos := u64 (pos + 1) }.setSlot pos ⟨u64 (pos + 1),elem⟩))
  | failures + 1 =>
    let pos := r.enqueuePos
    look (diff64 (r.slot pos).sequence pos) r (ringBufferMpmcTryEnqueue elem r failures)

def ringBufferMpmcTryDequeue (r : Ring α) : (failures : Nat) → Option (Fifo.Result α × Ring α)
  | 0 =>
    let pos := r.dequeuePos
    let val := (r.slot pos).value
    look (diff64 (r.slot pos).sequence (u64 (pos + 1))) r
      (some (.popped val,{ r with dequeuePos := u64 (pos + 1) }.setSlot pos ⟨u64 (pos + r.capacity),val⟩))
  | failures + 1 =>
    let pos := r.dequeuePos
    look (diff64 (r.slot pos).sequence (u64 (pos + 1))) r (ringBufferMpmcTryDequeue r failures)

def ringBufferMpmcCount (r : Ring α) : Nat := sub64 r.enqueuePos r.dequeuePos

def ringBufferMpmcSpace (r : Ring α) : Nat := sub64 (sub64 r.capacity 1) (ringBufferMpmcCount r)

def call (r : Ring α) : Fifo.Op α × Nat → Option (Fifo.Result α × Ring α)
  | (.push elem,failures) => ringBufferMpmcTryEnqueue elem r failures
  | (.pop,failures) => ringBufferMpmcTryDequeue r failures

def step (r : Ring α) (op : Fifo.Op α × Nat) : Option (Ring α) := (call r op).map Prod.snd

def pushes (r : Ring α) (op : Fifo.Op α × Nat) : Option Unit :=
  match call r op with
  | some (.pushed,_) => some ()
  | _ => none

def pops (r : Ring α) (op : Fifo.Op α × Nat) : Option Unit :=
  match call r op with
  | some (.popped _,_) => some ()
  | _ => none

def stored (ring : Ring α) (ops : List (Fifo.Op α × Nat)) : Nat :=
  (yields step pushes ring ops).count () - (yields step pops ring ops).count ()

/-- The answers are right for a ring that is said to hold so many items. -/
def Agrees (usable : Nat) (r : Ring α) (n : Nat) : Prop :=
  ringBufferMpmcCount r = n ∧ n ≤ usable ∧ ringBufferMpmcSpace r = usable - n ∧
    ∀ elem failures, (∃ t, ringBufferMpmcTryEnqueue elem r failures = some (.pushed,t)) ↔ 0 < ringBufferMpmcSpace r

theorem diff64_u64 (a b : Nat) : diff64 (u64 a) (u64 b) = int64 ((a : Int) - b) := by
  rw [diff64,int64_sub]
  apply int64_congr
  rw [u64,u64]
  omega

theorem diff64_self (a : Nat) : diff64 (u64 a) (u64 a) = 0 := by
  rw [diff64_u64]
  simp only [int64]
  omega

theorem diff64_neg (less : a < b) (near : b ≤ a + 2^63) : diff64 (u64 a) (u64 b) < 0 := by
  rw [diff64_u64]
  simp only [int64]
  omega

theorem u64_add (a c : Nat) : u64 (u64 a + c) = u64 (a + c) := by
  simp only [u64]
  omega

theorem look_zero {diff : Int} (zero : diff = 0) (r : Ring α) (claim : Option (Fifo.Result α × Ring α)) :
    look diff r claim = claim := if_pos zero

theorem look_neg {diff : Int} (negative : diff < 0) (r : Ring α) (claim : Option (Fifo.Result α × Ring α)) :
    look diff r claim = some (.refused,r) := by
  rw [look,if_neg (Int.ne_of_lt negative),if_pos negative]

/-! The slots between two calls. -/

/-- `d` items have been taken out and `n` are in the ring, counted without bound. -/
structure Stands (r : Ring α) (d n : Nat) : Prop where
  size : 1 < r.capacity
  half : r.capacity ≤ 2^63
  word : r.capacity ∣ 2^64
  index : ∀ pos, pos &&& r.mask = pos % r.capacity
  dequeuePos : r.dequeuePos = u64 d
  enqueuePos : r.enqueuePos = u64 (d + n)
  few : n ≤ r.capacity
  filled : ∀ i < n, (r.slot (d + i)).sequence = u64 (d + i + 1)
  free : ∀ i, n ≤ i → i < r.capacity → (r.slot (d + i)).sequence = u64 (d + i)

variable {r : Ring α} {d n : Nat}

namespace Stands

section

variable (stands : Stands r d n)
include stands

theorem slot_u64 (pos : Nat) : r.slot (u64 pos) = r.slot pos := by
  rw [Ring.slot,Ring.slot,stands.index,stands.index,u64,Nat.mod_mod_of_dvd _ stands.word]

theorem setSlot_other (inside : i < r.capacity) (inside' : j < r.capacity) (other : j ≠ i)
    (slot : Slot α) : (r.setSlot (u64 (d + i)) slot).slot (d + j) = r.slot (d + j) := by
  rw [setSlot_slot,if_neg]
  rw [stands.index,stands.index,u64,Nat.mod_mod_of_dvd _ stands.word]
  intro same
  have equal := eq_of_mod_eq (c := r.capacity) (d := d) (by omega) (by omega) (by omega) (by omega) same
  omega

theorem setSlot_here (i : Nat) (slot : Slot α) : (r.setSlot (u64 (d + i)) slot).slot (d + i) = slot := by
  rw [setSlot_slot,if_pos]
  rw [stands.index,stands.index,u64,Nat.mod_mod_of_dvd _ stands.word]

theorem enqueued (room : n < r.capacity) (elem : α) :
    Stands ({ r with enqueuePos := u64 (d + n + 1) }.setSlot (u64 (d + n)) ⟨u64 (d + n + 1),elem⟩) d (n + 1) := by
  refine ⟨stands.size,stands.half,stands.word,stands.index,stands.dequeuePos,rfl,room,?_,?_⟩
  · intro i below
    by_cases last : i = n
    · subst last
      exact congrArg Slot.sequence (stands.setSlot_here i _)
    · have same := congrArg Slot.sequence (stands.setSlot_other room (by omega) last ⟨u64 (d + n + 1),elem⟩)
      exact same.trans (stands.filled i (by omega))
  · intro i past inside
    have same := congrArg Slot.sequence (stands.setSlot_other room inside (by omega) ⟨u64 (d + n + 1),elem⟩)
    exact same.trans (stands.free i (by omega) inside)

end

theorem dequeued (stands : Stands r d (n + 1)) (value : α) :
    Stands ({ r with dequeuePos := u64 (d + 1) }.setSlot (u64 d) ⟨u64 (d + r.capacity),value⟩) (d + 1) n := by
  have size := stands.size
  have few := stands.few
  have here := stands.setSlot_here 0 ⟨u64 (d + r.capacity),value⟩
  have other : ∀ j, j ≠ 0 → j < r.capacity →
      ((r.setSlot (u64 d) ⟨u64 (d + r.capacity),value⟩).slot (d + j)).sequence = (r.slot (d + j)).sequence :=
        fun j away inside =>
    congrArg Slot.sequence (stands.setSlot_other (i := 0) (by omega) inside away _)
  refine ⟨size,stands.half,stands.word,stands.index,rfl,?_,Nat.le_of_succ_le few,?_,?_⟩
  · exact stands.enqueuePos.trans (congrArg u64 (by omega))
  · intro i below
    rw [Nat.add_assoc d 1 i]
    exact (other (1 + i) (by omega) (by omega)).trans (stands.filled (1 + i) (by omega))
  · intro i past inside
    change i < r.capacity at inside
    rw [Nat.add_assoc d 1 i]
    by_cases last : 1 + i = r.capacity
    · rw [last]
      have around := slot_add (r := r.setSlot (u64 d) ⟨u64 (d + r.capacity),value⟩) stands.index d
      exact congrArg Slot.sequence (around.trans here)
    · exact (other (1 + i) (by omega) (by omega)).trans (stands.free (1 + i) (by omega) (by omega))

theorem tryEnqueue (stands : Stands r d n) (elem : α) (failures : Nat) :
    ringBufferMpmcTryEnqueue elem r failures =
      some (if n < r.capacity then
        (.pushed,{ r with enqueuePos := u64 (d + n + 1) }.setSlot (u64 (d + n)) ⟨u64 (d + n + 1),elem⟩) else
          (.refused,r)) := by
  have size := stands.size
  have half := stands.half
  have few := stands.few
  by_cases room : n < r.capacity
  · have mine : diff64 (r.slot r.enqueuePos).sequence r.enqueuePos = 0 := by
      rw [stands.enqueuePos,stands.slot_u64,stands.free n (Nat.le_refl n) room,diff64_self]
    rw [if_pos room]
    induction failures with
    | zero => rw [ringBufferMpmcTryEnqueue,look_zero mine,stands.enqueuePos,u64_add]
    | succ failures ih => rw [ringBufferMpmcTryEnqueue,look_zero mine,ih]
  · obtain rfl : n = r.capacity := by omega
    have first : (r.slot d).sequence = u64 (d + 1) := stands.filled 0 (by omega)
    have late : diff64 (r.slot r.enqueuePos).sequence r.enqueuePos < 0 := by
      rw [stands.enqueuePos,stands.slot_u64,slot_add stands.index,first]
      exact diff64_neg (by omega) (by omega)
    rw [if_neg room]
    cases failures <;> rw [ringBufferMpmcTryEnqueue,look_neg late]

theorem tryDequeue_some (stands : Stands r d (n + 1)) (failures : Nat) :
    ringBufferMpmcTryDequeue r failures =
      some (.popped (r.slot d).value,
        { r with dequeuePos := u64 (d + 1) }.setSlot (u64 d) ⟨u64 (d + r.capacity),(r.slot d).value⟩) := by
  have mine : diff64 (r.slot r.dequeuePos).sequence (u64 (r.dequeuePos + 1)) = 0 := by
    have first : (r.slot d).sequence = u64 (d + 1) := stands.filled 0 (Nat.succ_pos n)
    rw [stands.dequeuePos,stands.slot_u64,u64_add,first,diff64_self]
  induction failures with
  | zero => rw [ringBufferMpmcTryDequeue,look_zero mine,stands.dequeuePos,stands.slot_u64,u64_add,u64_add]
  | succ failures ih => rw [ringBufferMpmcTryDequeue,look_zero mine,ih]

theorem tryDequeue_none (stands : Stands r d 0) (failures : Nat) : ringBufferMpmcTryDequeue r failures = some (.refused,r) := by
  have late : diff64 (r.slot r.dequeuePos).sequence (u64 (r.dequeuePos + 1)) < 0 := by
    have first : (r.slot d).sequence = u64 d := stands.free 0 (Nat.le_refl 0) (Nat.zero_lt_of_lt stands.size)
    rw [stands.dequeuePos,stands.slot_u64,u64_add,first]
    exact diff64_neg (by omega) (by omega)
  cases failures <;> rw [ringBufferMpmcTryDequeue,look_neg late]

section

variable (stands : Stands r d n)
include stands

theorem count : ringBufferMpmcCount r = n := by
  have half := stands.half
  have few := stands.few
  rw [ringBufferMpmcCount,stands.enqueuePos,stands.dequeuePos]
  simp only [sub64,u64]
  omega

theorem space : ringBufferMpmcSpace r = if n < r.capacity then r.capacity - 1 - n else 2^64 - 1 := by
  have size := stands.size
  have half := stands.half
  have few := stands.few
  have last : sub64 r.capacity 1 = r.capacity - 1 := sub64_of_le (by omega) (by omega)
  rw [ringBufferMpmcSpace,stands.count,last]
  split
  next room => exact sub64_of_le (by omega) (by omega)
  next full =>
    simp only [sub64,u64]
    omega

/-- A call puts an item in, takes one out, or is refused and changes nothing. -/
theorem call_cases (op : Fifo.Op α × Nat) :
    (∃ t, call r op = some (.pushed,t) ∧ t.capacity = r.capacity ∧ Stands t d (n + 1)) ∨
    (∃ k v t, call r op = some (.popped v,t) ∧ n = k + 1 ∧ t.capacity = r.capacity ∧ Stands t (d + 1) k) ∨
    call r op = some (.refused,r) := by
  obtain ⟨elem | _,failures⟩ := op
  · have called := stands.tryEnqueue elem failures
    by_cases room : n < r.capacity
    · rw [if_pos room] at called
      exact .inl ⟨_,called,rfl,stands.enqueued room elem⟩
    · rw [if_neg room] at called
      exact .inr (.inr called)
  · cases n with
    | zero => exact .inr (.inr (stands.tryDequeue_none failures))
    | succ k => exact .inr (.inl ⟨k,_,_,stands.tryDequeue_some failures,rfl,rfl,stands.dequeued _⟩)

theorem agrees_iff (elem : α) (usable : Nat) : Agrees usable r n ↔ usable + 1 = r.capacity ∧ n < usable := by
  have size := stands.size
  have half := stands.half
  have few := stands.few
  have space := stands.space
  have pushed : ∀ elem failures,
      (∃ t, ringBufferMpmcTryEnqueue elem r failures = some (.pushed,t)) ↔ n < r.capacity := by
    intro elem failures
    rw [stands.tryEnqueue]
    split
    next room => simp [room]
    next full => simp [full]
  constructor
  · rintro ⟨-,within,left,succeeds⟩
    have positive := (pushed elem 0).symm.trans (succeeds elem 0)
    split at space
    · omega
    · omega
  · rintro ⟨tight,below⟩
    rw [if_pos (by omega)] at space
    refine ⟨stands.count,by omega,by omega,fun elem failures => (pushed elem failures).trans ?_⟩
    omega

end

end Stands

theorem capacity_word (size : 1 < c) (typed : c < 2^64) (index : ∀ pos, pos &&& mask = pos % c) : c ≤ 2^63 ∧
    c ∣ 2^64 := by
  have below : mask < 2^64 := by
    have self := index mask
    rw [Nat.and_self] at self
    have less := Nat.mod_lt mask (Nat.zero_lt_of_lt size)
    omega
  have word : c ∣ 2^64 := by
    apply Nat.dvd_of_mod_eq_zero
    rw [← index]
    apply Nat.eq_of_testBit_eq
    intro i
    rw [Nat.testBit_and,Nat.testBit_two_pow,Nat.zero_testBit]
    by_cases high : 64 = i
    · rw [← high,Nat.testBit_lt_two_pow below,Bool.and_false]
    · simp [high]
  refine ⟨?_,word⟩
  obtain ⟨k,product⟩ := word
  have many : k ≠ 0 ∧ k ≠ 1 := by
    constructor <;> rintro rfl <;> omega
  have twice : c * 2 ≤ c * k := Nat.mul_le_mul_left c (by omega)
  omega

theorem create_stands (typed : capacity < 2^64)
    (made : ringBufferMpmcCreate null memory capacity = .ok ring) : ring.capacity = capacity ∧ Stands ring 0 0 := by
  obtain ⟨size,index,rfl⟩ := create_some made
  obtain ⟨half,word⟩ := capacity_word size typed index
  refine ⟨rfl,size,half,word,index,rfl,rfl,Nat.zero_le _,by simp,?_⟩
  intro i _ inside
  simp only [Nat.zero_add,Ring.slot,index]
  rw [Nat.mod_eq_of_lt inside,u64_of_lt (Nat.lt_trans inside typed)]

def Quiet (capacity : Nat) (r : Ring α) : Prop := r.capacity = capacity ∧ ∃ d n, Stands r d n

variable {capacity : Nat}

theorem step_quiet (quiet : Quiet capacity r) (next : step r op = some t) :
    Quiet capacity t ∧
      (pushes r op).toList.count () + ringBufferMpmcCount r = (pops r op).toList.count () + ringBufferMpmcCount t := by
  obtain ⟨size,d,n,stands⟩ := quiet
  rcases stands.call_cases op with ⟨u,called,kept,after⟩ | ⟨k,v,u,called,rfl,kept,after⟩ | called
  · obtain rfl : u = t := by simpa [step,called] using next
    refine ⟨⟨kept.trans size,d,n + 1,after⟩,?_⟩
    simp [pushes,pops,called,stands.count,after.count,Nat.add_comm]
  · obtain rfl : u = t := by simpa [step,called] using next
    refine ⟨⟨kept.trans size,d + 1,k,after⟩,?_⟩
    simp [pushes,pops,called,stands.count,after.count,Nat.add_comm]
  · obtain rfl : r = t := by simpa [step,called] using next
    refine ⟨⟨size,d,n,stands⟩,?_⟩
    simp [pushes,pops,called]

theorem step_some (quiet : Quiet capacity r) (op : Fifo.Op α × Nat) : ∃ t, step r op = some t ∧ Quiet capacity t := by
  obtain ⟨t,next⟩ : ∃ t, step r op = some t := by
    obtain ⟨-,d,n,stands⟩ := quiet
    rcases stands.call_cases op with ⟨t,called,-⟩ | ⟨k,v,t,called,-⟩ | called
    · exact ⟨t,by simp [step,called]⟩
    · exact ⟨t,by simp [step,called]⟩
    · exact ⟨r,by simp [step,called]⟩
  exact ⟨t,next,(step_quiet quiet next).1⟩

/-- The calls return, and what is in the ring is what they put in and did not take out. -/
theorem run_quiet (quiet : Quiet capacity ring) (ops : List (Fifo.Op α × Nat)) :
    ∃ r, run step ring ops = some r ∧ Quiet capacity r ∧
      (yields step pushes ring ops).count () + ringBufferMpmcCount ring =
        (yields step pops ring ops).count () + ringBufferMpmcCount r := by
  have always := Along.always step ring ops
  obtain ⟨r,ran,after⟩ := run_reaches step (Quiet capacity) _ (fun s op quiet _ => step_some quiet op) ring ops quiet always
  exact ⟨r,ran,after,yields_balance step pushes pops ringBufferMpmcCount () (Quiet capacity) _
    (fun s a t quiet _ next => (step_quiet quiet next).1) (fun s a t quiet _ next => (step_quiet quiet next).2)
    ring ops r quiet always ran⟩

/-! The ring of several threads, by atomic accesses, as long as no position wraps. -/

section Threads

variable {m : Nat} {s : State m α}

/-- Once every call of every thread has returned, the ring stands as after calls one by one. -/
theorem stands_of_idle (sim : Simulates s a) (idle : ∀ t, s.phase t = .idle)
    (small : s.ring.dequeuePos + s.ring.capacity < 2^64) :
    Stands s.ring s.ring.dequeuePos (s.ring.enqueuePos - s.ring.dequeuePos) := by
  have order := sim.order
  have bound := sim.bound
  obtain ⟨half,word⟩ := capacity_word sim.size (by omega) sim.index
  have free : ∀ pos, ¬ Busy s pos := by
    rintro pos ⟨t,own⟩
    simp [idle t,Phase.window] at own
  refine ⟨sim.size,half,word,sim.index,(u64_of_lt (by omega)).symm,?_,by omega,?_,?_⟩
  · rw [Nat.add_sub_cancel' order,u64_of_lt (by omega)]
  · intro i below
    rcases sim.claimed (s.ring.dequeuePos + i) (by omega) (by omega) with ⟨-,busy⟩ | ⟨published,-⟩
    · exact absurd busy (free _)
    · rw [published,u64_of_lt (by omega)]
  · intro i past inside
    rcases sim.unclaimed (s.ring.dequeuePos + i) (by omega) (by omega) with given | busy
    · rw [given,u64_of_lt (by omega)]
    · exact absurd busy (free _)

/-- So what holds of the ring between calls holds after the calls of any threads at once. -/
theorem idle_occupancy (null : α) (made : ringBufferMpmcCreate null memory capacity = .ok ring)
    (ran : run RingBufferMpmc.step (start m ring) as = some s) (idle : ∀ t, s.phase t = .idle)
    (small : s.ring.dequeuePos + capacity < 2^64) :
    ((history ring as).filterMap Fifo.Event.pushed).length =
      ((history ring as).filterMap Fifo.Event.popped).length + ringBufferMpmcCount s.ring ∧
    ∀ usable, Agrees usable s.ring (ringBufferMpmcCount s.ring) ↔ usable + 1 = capacity ∧
      ringBufferMpmcCount s.ring < usable := by
  obtain ⟨bs,a,matched,⟨size,sim⟩,same⟩ := run_simulated RingBufferMpmc.step (Fifo.step capacity) event Fifo.event
    (fun s a => s.ring.capacity = capacity ∧ Simulates s a)
    (fun s a act s' both next => both.2.step_matched both.1 next) (start m ring) (Fifo.init m α) as s
      (create_simulates made) ran
  obtain ⟨conserved,-⟩ := Fifo.run_queue bs matched (Nat.zero_le capacity)
  rw [same] at conserved
  have stands := stands_of_idle sim idle (by rw [size]; exact small)
  rw [stands.count,← size]
  refine ⟨?_,stands.agrees_iff null⟩
  rw [← sim.length,← List.length_append]
  exact congrArg List.length conserved

theorem idle_occupancy_crossing : ∃ s : State 3 Nat, run RingBufferMpmc.step (start 3 ⟨fun i => ⟨i,0⟩,2,1,0,0⟩)
    (crossing 0 1 2) = some s ∧
    ringBufferMpmcCount s.ring = 1 := by
  have ends : (run RingBufferMpmc.step (start 3 ⟨fun i => ⟨i,0⟩,2,1,0,0⟩) (crossing 0 1 2)).map (fun s =>
      (s.phase 0,s.phase 1,s.phase 2,s.ring.dequeuePos)) = some (.idle,.idle,.idle,1) := rfl
  obtain ⟨s,ran,seen⟩ := map_eq_some_iff.mp ends
  simp only [Prod.mk.injEq] at seen
  have idle : ∀ t, s.phase t = .idle := fun | 0 => seen.1 | 1 => seen.2.1 | 2 => seen.2.2.1
  have counted := (idle_occupancy 0 (show ringBufferMpmcCreate 0 true 2 = .ok ⟨fun i => ⟨i,0⟩,2,1,0,0⟩ from rfl) ran idle
    (by rw [seen.2.2.2]; decide)).1
  have pushed :
      ((history ⟨fun i => ⟨i,0⟩,2,1,0,0⟩ (crossing (0 : Fin 3) 1 2)).filterMap Fifo.Event.pushed).length = 2 := by decide
  have popped :
      ((history ⟨fun i => ⟨i,0⟩,2,1,0,0⟩ (crossing (0 : Fin 3) 1 2)).filterMap Fifo.Event.popped).length = 1 := by decide
  exact ⟨s,ran,by omega⟩

end Threads

/-- After any calls `ring_buffer_mpmc_count` tells the items in the ring. `ring_buffer_mpmc_space` is the rest of the slots, and
tells whether an enqueue succeeds, for a ring with one slot less, and only before the last of them is taken. -/
theorem occupancy_agrees_iff (null : α) (memory : Bool) (capacity : Nat) (typed : capacity < 2^64) (ring : Ring α)
    (made : ringBufferMpmcCreate null memory capacity = .ok ring) (ops : List (Fifo.Op α × Nat)) :
    ∃ r, run step ring ops = some r ∧ ringBufferMpmcCount r = stored ring ops ∧
      ∀ usable, Agrees usable r (stored ring ops) ↔ usable + 1 = capacity ∧ stored ring ops < usable := by
  obtain ⟨size,stands⟩ := create_stands typed made
  obtain ⟨r,ran,⟨same,d,n,after⟩,balance⟩ := run_quiet ⟨size,0,0,stands⟩ ops
  rw [stands.count,after.count] at balance
  have held : stored ring ops = n := by
    rw [stored]
    omega
  rw [held,← same]
  exact ⟨r,ran,after.count,after.agrees_iff null⟩

def four : Ring Nat := ⟨fun i => ⟨i,0⟩,4,3,0,0⟩

/-- Two items are put into four slots and one is taken out. -/
theorem occupancy_agrees_pair : ringBufferMpmcCreate 0 true 4 = .ok four ∧ ∃ r,
    run step four [(.push 7,0),(.push 8,0),(.pop,0)] = some r ∧ ringBufferMpmcCount r = 1 ∧ Agrees 3 r 1 := by
  have one : stored four [(.push 7,0),(.push 8,0),(.pop,0)] = 1 := by decide
  obtain ⟨r,ran,count,agrees⟩ := occupancy_agrees_iff 0 true 4 (by decide) four rfl [(.push 7,0),(.push 8,0),(.pop,0)]
  rw [one] at count agrees
  exact ⟨rfl,r,ran,count,(agrees 3).mpr (by decide)⟩

def pair : Ring Nat := ⟨fun i => ⟨i,0⟩,2,1,0,0⟩

def answers (ring : Ring α) (ops : List (Fifo.Op α × Nat)) (op : Fifo.Op α × Nat) : Option (Fifo.Result α × Nat × Nat) :=
  (run step ring ops).bind fun r => (call r op).map fun p => (p.1,ringBufferMpmcCount p.2,ringBufferMpmcSpace p.2)

/-- Two slots are said to have room for one item. With one item in the ring no room is left, and a second is taken; with two
there is room for more items than the ring has slots, and none is taken. -/
theorem space_disagrees : ringBufferMpmcCreate 0 true 2 = .ok pair ∧ ringBufferMpmcCount pair = 0 ∧
    ringBufferMpmcSpace pair = 1 ∧
    answers pair [] (.push 7,0) = some (.pushed,1,0) ∧
    answers pair [(.push 7,0)] (.push 8,0) = some (.pushed,2,2^64 - 1) ∧
    answers pair [(.push 7,0),(.push 8,0)] (.push 9,0) = some (.refused,2,2^64 - 1) :=
  ⟨rfl,by decide,by decide,by decide,by decide,by decide⟩

end Oxbow.RingBufferMpmc.Calls
