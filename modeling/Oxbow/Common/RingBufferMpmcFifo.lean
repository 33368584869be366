import Oxbow.Common.RingBufferMpmc

/-! The ring buffer as a bounded queue: the positions from `dequeuePos` to `enqueuePos` are its items, and the
claim of a position is the step in which a call takes effect. -/
namespace Oxbow.RingBufferMpmc

open Oxbow.Lib Option

variable {α : Type} {n : Nat}

def Holds (r : Ring α) (queue : List α) (pos : Nat) (elem : α) : Prop :=
  r.dequeuePos ≤ pos ∧ pos < r.enqueuePos ∧ (r.slot pos).sequence = pos ∧ queue[pos - r.dequeuePos]? = some elem

def Leaves (r : Ring α) (pos : Nat) : Prop :=
  pos < r.dequeuePos ∧ r.enqueuePos ≤ pos + r.capacity ∧ (r.slot pos).sequence = pos + 1

def Matches (r : Ring α) (queue : List α) : Phase α → Fifo.Phase α → Prop
  | .idle,a => a = .idle
  | .enqueuing elem,a => a = .pending (.push elem)
  | .enqLook elem pos,a => a = .pending (.push elem) ∧ pos ≤ r.enqueuePos
  | .enqClaim elem pos,a => a = .pending (.push elem) ∧ pos ≤ r.enqueuePos ∧
    (pos = r.enqueuePos → (r.slot pos).sequence = pos ∧ pos < r.dequeuePos + r.capacity)
  | .enqWrite elem pos,a => a = .done .pushed ∧ Holds r queue pos elem
  | .enqPublish pos,a => a = .done .pushed ∧ Holds r queue pos (r.slot pos).value
  | .dequeuing,a => a = .pending .pop
  | .deqLook pos,a => a = .pending .pop ∧ pos ≤ r.dequeuePos
  | .deqClaim pos,a => a = .pending .pop ∧ pos ≤ r.dequeuePos ∧
    (pos = r.dequeuePos → pos < r.enqueuePos ∧ (r.slot pos).sequence = pos + 1)
  | .deqRead pos,a => a = .done (.popped (r.slot pos).value) ∧ Leaves r pos
  | .deqPublish pos val,a => a = .done (.popped val) ∧ Leaves r pos
  | .returning result,a => a = .done result

def Phase.window (capacity : Nat) : Phase α → Option Nat
  | .enqWrite _ pos | .enqPublish pos => some pos
  | .deqRead pos | .deqPublish pos _ => some (pos + capacity)
  | _ => none

def Busy (s : State n α) (pos : Nat) : Prop := ∃ t, (s.phase t).window s.ring.capacity = some pos

structure Simulates (s : State n α) (a : Fifo.State n α) : Prop where
  size : 1 < s.ring.capacity
  index : ∀ pos, pos &&& s.ring.mask = pos % s.ring.capacity
  order : s.ring.dequeuePos ≤ s.ring.enqueuePos
  bound : s.ring.enqueuePos ≤ s.ring.dequeuePos + s.ring.capacity
  length : a.queue.length = s.ring.enqueuePos - s.ring.dequeuePos
  past : ∀ pos, pos < s.ring.dequeuePos → pos < (s.ring.slot pos).sequence
  claimed : ∀ pos, s.ring.dequeuePos ≤ pos → pos < s.ring.enqueuePos →
    ((s.ring.slot pos).sequence = pos ∧ Busy s pos) ∨
    ((s.ring.slot pos).sequence = pos + 1 ∧ a.queue[pos - s.ring.dequeuePos]? = some (s.ring.slot pos).value)
  unclaimed : ∀ pos, s.ring.enqueuePos ≤ pos → pos < s.ring.dequeuePos + s.ring.capacity →
    (s.ring.slot pos).sequence = pos ∨ Busy s pos
  threads : ∀ t, Matches s.ring a.queue (s.phase t) (a.phase t)
  alone : ∀ t u pos, (s.phase t).window s.ring.capacity = some pos → (s.phase u).window s.ring.capacity = some pos → t = u

variable {s : State n α} {a : Fifo.State n α} {r r' : Ring α} {t u : Fin n} {pos q w : Nat}

/-- Positions of one window have slots of their own. -/
theorem eq_of_mod_eq (lower : d ≤ p) (upper : p < d + c) (lower' : d ≤ q) (upper' : q < d + c)
    (same : p % c = q % c) : p = q := by
  wlog ordered : p ≤ q generalizing p q with other
  · exact (other lower' upper' lower upper same.symm (Nat.le_of_not_le ordered)).symm
  have divides : c ∣ q - p := Nat.dvd_of_mod_eq_zero (Nat.sub_mod_eq_zero_of_mod_eq same.symm)
  have zero := Nat.eq_zero_of_dvd_of_lt divides (by omega)
  omega

theorem setSlot_slot (r : Ring α) (pos q : Nat) (slot : Slot α) :
    (r.setSlot pos slot).slot q = if q &&& r.mask = pos &&& r.mask then slot else r.slot q := by
  simp [Ring.slot,Ring.setSlot,Function.update_apply]

theorem setSlot_self (slot : Slot α) : (r.setSlot pos slot).slot pos = slot := by
  rw [setSlot_slot,if_pos rfl]

theorem slot_add (index : ∀ pos, pos &&& r.mask = pos % c) (pos : Nat) : r.slot (pos + c) = r.slot pos := by
  rw [Ring.slot,Ring.slot,index,index,Nat.add_mod_right]

theorem Simulates.knows (sim : Simulates s a) (here : s.phase t = p) :
    Matches s.ring a.queue p (a.phase t) := here ▸ sim.threads t

theorem Simulates.busy (sim : Simulates s a) (own : (s.phase t).window s.ring.capacity = some w) :
    (s.ring.dequeuePos ≤ w ∧ w < s.ring.enqueuePos ∧ (s.ring.slot w).sequence = w ∧ (a.phase t).hasPushed) ∨
    ∃ pos, w = pos + s.ring.capacity ∧ Leaves s.ring pos ∧ (a.phase t).hasPopped := by
  cases here : s.phase t with
  | enqWrite elem p | enqPublish p =>
    rw [here] at own
    obtain rfl := some.inj own
    obtain ⟨done,lower,upper,free,-⟩ := sim.knows here
    exact .inl ⟨lower,upper,free,by rw [done]; rfl⟩
  | deqRead p | deqPublish p val =>
    rw [here] at own
    obtain ⟨done,leaves⟩ := sim.knows here
    exact .inr ⟨p,(some.inj own).symm,leaves,by rw [done]; rfl⟩
  | _ => simp [here,Phase.window] at own

theorem Simulates.window (sim : Simulates s a) (own : (s.phase t).window s.ring.capacity = some w) :
    s.ring.dequeuePos ≤ w ∧ w < s.ring.dequeuePos + s.ring.capacity := by
  have order := sim.order
  have bound := sim.bound
  rcases sim.busy own with ⟨lower,upper,-⟩ | ⟨pos,rfl,⟨before,room,-⟩,-⟩
  · omega
  · omega

/-- What a thread knows survives a change of the ring that leaves its slot and its claim alone. -/
theorem Matches.frame (known : Matches r queue p b)
    (enqueuePos : r.enqueuePos ≤ r'.enqueuePos) (dequeuePos : r.dequeuePos ≤ r'.dequeuePos)
    (enqClaim : ∀ pos, pos ≤ r.enqueuePos →
      (pos = r.enqueuePos → (r.slot pos).sequence = pos ∧ pos < r.dequeuePos + r.capacity) →
      pos = r'.enqueuePos → (r'.slot pos).sequence = pos ∧ pos < r'.dequeuePos + r'.capacity)
    (deqClaim : ∀ pos, pos ≤ r.dequeuePos →
      (pos = r.dequeuePos → pos < r.enqueuePos ∧ (r.slot pos).sequence = pos + 1) →
      pos = r'.dequeuePos → pos < r'.enqueuePos ∧ (r'.slot pos).sequence = pos + 1)
    (fills : ∀ pos elem, p.window r.capacity = some pos → Holds r queue pos elem →
      Holds r' queue' pos elem ∧ (r'.slot pos).value = (r.slot pos).value)
    (empties : ∀ pos, p.window r.capacity = some (pos + r.capacity) → Leaves r pos →
      Leaves r' pos ∧ (r'.slot pos).value = (r.slot pos).value) :
    Matches r' queue' p b := by
  cases p with
  | idle | enqueuing | dequeuing | returning => exact known
  | enqLook elem pos => exact ⟨known.1,known.2.trans enqueuePos⟩
  | enqClaim elem pos => exact ⟨known.1,known.2.1.trans enqueuePos,enqClaim pos known.2.1 known.2.2⟩
  | enqWrite elem pos => exact ⟨known.1,(fills pos elem rfl known.2).1⟩
  | enqPublish pos =>
    obtain ⟨holds,same⟩ := fills pos _ rfl known.2
    exact ⟨known.1,same ▸ holds⟩
  | deqLook pos => exact ⟨known.1,known.2.trans dequeuePos⟩
  | deqClaim pos => exact ⟨known.1,known.2.1.trans dequeuePos,deqClaim pos known.2.1 known.2.2⟩
  | deqRead pos =>
    obtain ⟨leaves,same⟩ := empties pos rfl known.2
    exact ⟨same ▸ known.1,leaves⟩
  | deqPublish pos val => exact ⟨known.1,(empties pos rfl known.2).1⟩

theorem set_other (other : u ≠ t) (p : Phase α) : (s.set t p r).phase u = s.phase u := by simp [State.set,other]

theorem set_self (p : Phase α) : (s.set t p r).phase t = p := by simp [State.set]

section

variable (sim : Simulates s a)
include sim

theorem Simulates.move (here : s.phase t = p') (own : p.window s.ring.capacity = p'.window s.ring.capacity)
    (known : Matches s.ring a.queue p b) : Simulates (s.move t p) (a.move t b) := by
  have windows : ∀ u, ((s.move t p).phase u).window s.ring.capacity = (s.phase u).window s.ring.capacity := fun u => by
    by_cases same : u = t
    · rw [same,State.move,set_self,own,here]
    · rw [State.move,set_other same]
  have busy : ∀ pos, Busy (s.move t p) pos ↔ Busy s pos := fun pos => exists_congr fun u => by rw [← windows u]; rfl
  refine ⟨sim.size,sim.index,sim.order,sim.bound,sim.length,sim.past,?_,?_,fun u => ?_,fun u v pos => ?_⟩
  · simp only [busy]
    exact sim.claimed
  · simp only [busy]
    exact sim.unclaimed
  · by_cases same : u = t
    · simpa [State.move,State.set,Fifo.State.move,same] using known
    · simpa [State.move,State.set,Fifo.State.move,same] using sim.threads u
  · change ((s.move t p).phase u).window s.ring.capacity = _ → ((s.move t p).phase v).window s.ring.capacity = _ → _
    rw [windows,windows]
    exact sim.alone u v pos

theorem Simulates.setSlot_other (slot : Slot α) (own : (s.phase t).window s.ring.capacity = some w)
    (same : pos % s.ring.capacity = w % s.ring.capacity) (lower : s.ring.dequeuePos ≤ q)
    (upper : q < s.ring.dequeuePos + s.ring.capacity) (other : q ≠ w) : (s.ring.setSlot pos slot).slot q = s.ring.slot q := by
  obtain ⟨lower',upper'⟩ := sim.window own
  rw [setSlot_slot,if_neg]
  rw [sim.index,sim.index,same]
  exact fun equal => other (eq_of_mod_eq lower upper lower' upper' equal)

/-- A thread sets the slot it is at work on, and gives it up or goes on. -/
theorem Simulates.setSlot (own : (s.phase t).window s.ring.capacity = some w)
    (same : pos % s.ring.capacity = w % s.ring.capacity) (grows : (s.ring.slot w).sequence ≤ slot.sequence)
    (free : w = s.ring.enqueuePos → (s.ring.slot w).sequence ≠ w)
    (full : w = s.ring.dequeuePos → w < s.ring.enqueuePos → (s.ring.slot w).sequence ≠ w + 1)
    (next : p.window s.ring.capacity = some w ∨ p.window s.ring.capacity = none)
    (claimed : w < s.ring.enqueuePos → (slot.sequence = w ∧ p.window s.ring.capacity = some w) ∨
      (slot.sequence = w + 1 ∧ a.queue[w - s.ring.dequeuePos]? = some slot.value))
    (unclaimed : s.ring.enqueuePos ≤ w → slot.sequence = w ∨ p.window s.ring.capacity = some w)
    (known : Matches (s.ring.setSlot pos slot) a.queue p (a.phase t)) : Simulates (s.set t p (s.ring.setSlot pos slot)) a := by
  have set : (s.ring.setSlot pos slot).slot w = slot := by rw [setSlot_slot,if_pos (by rw [sim.index,sim.index,same])]
  have busy : ∀ q, q ≠ w → Busy s q → Busy (s.set t p (s.ring.setSlot pos slot)) q := by
    rintro q other ⟨u,own'⟩
    have apart : u ≠ t := by
      rintro rfl
      exact other (some.inj (own'.symm.trans own))
    exact ⟨u,by rw [set_other apart]; exact own'⟩
  have mine : p.window s.ring.capacity = some w → Busy (s.set t p (s.ring.setSlot pos slot)) w := fun still =>
    ⟨t,by rw [set_self]; exact still⟩
  have apart : ∀ u q, u ≠ t → (s.phase u).window s.ring.capacity = some q → q ≠ w := by
    rintro u q other own' rfl
    exact other (sim.alone u t q own' own)
  refine ⟨sim.size,sim.index,sim.order,sim.bound,sim.length,fun q past => ?_,fun q lower upper => ?_,fun q lower upper => ?_,
    fun u => ?_,fun u v q => ?_⟩
  · have before := sim.past q past
    change q < ((s.ring.setSlot pos slot).slot q).sequence
    rw [setSlot_slot]
    split
    next equal =>
      have slots : s.ring.slot q = s.ring.slot w := by
        rw [Ring.slot,Ring.slot,equal,sim.index,sim.index,same]
      rw [slots] at before
      omega
    · exact before
  · by_cases here : q = w
    · subst here
      rcases claimed upper with ⟨seq,still⟩ | ⟨seq,item⟩
      · exact .inl ⟨by rw [State.set,set,seq],mine still⟩
      · exact .inr ⟨by rw [State.set,set,seq],by rw [State.set,set]; exact item⟩
    · have kept := sim.setSlot_other slot own same lower (upper.trans_le sim.bound) here
      rcases sim.claimed q lower upper with ⟨seq,at_⟩ | ⟨seq,item⟩
      · exact .inl ⟨by rw [State.set,kept,seq],busy q here at_⟩
      · exact .inr ⟨by rw [State.set,kept,seq],by rw [State.set,kept]; exact item⟩
  · by_cases here : q = w
    · subst here
      rcases unclaimed lower with seq | still
      · exact .inl (by rw [State.set,set,seq])
      · exact .inr (mine still)
    · have kept := sim.setSlot_other slot own same (sim.order.trans lower) upper here
      rcases sim.unclaimed q lower upper with seq | at_
      · exact .inl (by rw [State.set,kept,seq])
      · exact .inr (busy q here at_)
  · by_cases mineToo : u = t
    · subst mineToo
      rw [set_self]
      exact known
    · rw [set_other mineToo]
      refine (sim.threads u).frame (Nat.le_refl _) (Nat.le_refl _) ?_ ?_ ?_ ?_
      · rintro q - claim rfl
        obtain ⟨seq,room⟩ := claim rfl
        have kept := sim.setSlot_other slot own same sim.order room fun here => free here.symm (here ▸ seq)
        exact ⟨(congrArg Slot.sequence kept).trans seq,room⟩
      · rintro q - claim rfl
        obtain ⟨items,seq⟩ := claim rfl
        have kept := sim.setSlot_other slot own same (Nat.le_refl _) (items.trans_le sim.bound)
          fun here => full here.symm (here ▸ items) (here ▸ seq)
        exact ⟨items,(congrArg Slot.sequence kept).trans seq⟩
      · rintro q elem own' ⟨lower,upper,seq,item⟩
        have kept := sim.setSlot_other slot own same lower (upper.trans_le sim.bound) (apart u q mineToo own')
        exact ⟨⟨lower,upper,(congrArg Slot.sequence kept).trans seq,item⟩,congrArg Slot.value kept⟩
      · rintro q own' ⟨before,room,seq⟩
        obtain ⟨lower,upper⟩ := sim.window own'
        have kept := sim.setSlot_other slot own same lower upper (apart u _ mineToo own')
        have index : ∀ p, p &&& (s.ring.setSlot pos slot).mask = p % s.ring.capacity := sim.index
        rw [slot_add index,slot_add sim.index] at kept
        exact ⟨⟨before,room,(congrArg Slot.sequence kept).trans seq⟩,congrArg Slot.value kept⟩
  · have owner : ∀ u, ((s.set t p (s.ring.setSlot pos slot)).phase u).window s.ring.capacity = some q →
        (s.phase u).window s.ring.capacity = some q := fun u own' => by
      by_cases mineToo : u = t
      · subst mineToo
        rw [set_self] at own'
        rcases next with still | gone
        · rw [own,← still,own']
        · rw [gone] at own'
          cases own'
      · rwa [set_other mineToo] at own'
    exact fun one other => sim.alone u v q (owner u one) (owner v other)

theorem Simulates.write (here : s.phase t = .enqWrite elem pos) :
    Simulates (s.set t (.enqPublish pos) (s.ring.setSlot pos {s.ring.slot pos with value := elem})) a := by
  obtain ⟨done,lower,upper,seq,item⟩ := sim.knows here
  have own : (s.phase t).window s.ring.capacity = some pos := by rw [here]; rfl
  refine sim.setSlot own rfl (Nat.le_refl _) ?_ ?_ (.inl rfl) (fun _ => .inl ⟨seq,rfl⟩)
    (fun above => ?_) ⟨done,lower,upper,?_,?_⟩
  · omega
  · omega
  · omega
  · rw [setSlot_self]
    exact seq
  · rw [setSlot_self]
    exact item

theorem Simulates.publish (here : s.phase t = .enqPublish pos) :
    Simulates (s.set t (.returning .pushed) (s.ring.setSlot pos {s.ring.slot pos with sequence := pos + 1})) a := by
  obtain ⟨done,lower,upper,seq,item⟩ := sim.knows here
  have own : (s.phase t).window s.ring.capacity = some pos := by rw [here]; rfl
  refine sim.setSlot own rfl ?_ ?_ ?_ (.inr rfl) (fun _ => .inr ⟨rfl,item⟩) (fun above => ?_) done
  · simp only [seq]
    omega
  · omega
  · omega
  · omega

theorem Simulates.release (here : s.phase t = .deqPublish pos val) :
    Simulates
    (s.set t (.returning (.popped val)) (s.ring.setSlot pos {s.ring.slot pos with sequence := pos + s.ring.capacity})) a := by
  obtain ⟨done,before,room,seq⟩ := sim.knows here
  have own : (s.phase t).window s.ring.capacity = some (pos + s.ring.capacity) := by rw [here]; rfl
  have size := sim.size
  refine sim.setSlot own (Nat.add_mod_right _ _).symm ?_ ?_ ?_ (.inr rfl) (fun below => ?_) (fun _ => .inl rfl) done
  · rw [slot_add sim.index,seq]
    simp only
    omega
  · rw [slot_add sim.index,seq]
    omega
  · rw [slot_add sim.index,seq]
    omega
  · omega

theorem Simulates.alone_claim (here : (s.phase t).window s.ring.capacity = none)
    (own : p.window s.ring.capacity = some w) (nobody : ¬ Busy s w) (capacity : r.capacity = s.ring.capacity) :
    (∀ q, Busy s q → Busy (s.set t p r) q) ∧ Busy (s.set t p r) w ∧
    ∀ u v q, ((s.set t p r).phase u).window r.capacity = some q →
      ((s.set t p r).phase v).window r.capacity = some q → u = v := by
  have other : ∀ u q, (s.phase u).window s.ring.capacity = some q → u ≠ t := by
    rintro u q own' rfl
    rw [here] at own'
    cases own'
  refine ⟨?_,⟨t,by rw [set_self]; exact (congrArg p.window capacity).trans own⟩,fun u v q => ?_⟩
  · rintro q ⟨u,own'⟩
    exact ⟨u,by rw [set_other (other u q own')]; exact (congrArg (s.phase u).window capacity).trans own'⟩
  · have owner : ∀ u, ((s.set t p r).phase u).window r.capacity = some q →
        u = t ∧ q = w ∨ u ≠ t ∧ (s.phase u).window s.ring.capacity = some q := fun u own' => by
      rw [capacity] at own'
      by_cases mine : u = t
      · subst mine
        rw [set_self,own] at own'
        exact .inl ⟨rfl,(some.inj own').symm⟩
      · rw [set_other mine] at own'
        exact .inr ⟨mine,own'⟩
    intro one two
    rcases owner u one with ⟨rfl,rfl⟩ | ⟨-,before⟩ <;> rcases owner v two with ⟨rfl,same⟩ | ⟨-,before'⟩
    · rfl
    · exact absurd ⟨v,before'⟩ nobody
    · exact absurd ⟨u,same ▸ before⟩ nobody
    · exact sim.alone u v q before before'

/-- The claim of a position by an enqueue is its push. -/
theorem Simulates.enqClaim (here : s.phase t = .enqClaim elem pos) (won : s.ring.enqueuePos = pos) :
    ∃ b, Fifo.step s.ring.capacity a (.effect t) = some b ∧ Fifo.event a (.effect t) = some (.pushes t elem) ∧
      Simulates (s.set t (.enqWrite elem pos) {s.ring with enqueuePos := pos + 1}) b := by
  subst won
  obtain ⟨pending,-,claim⟩ := sim.knows here
  obtain ⟨seq,room⟩ := claim rfl
  have length := sim.length
  have order := sim.order
  have free : a.queue.length < s.ring.capacity := by omega
  refine ⟨{a.move t (.done .pushed) with queue := a.queue ++ [elem]},?_,?_,?_⟩
  · simp [Fifo.step,Fifo.effect,pending,free]
  · simp [Fifo.event,pending]
  have nobody : ¬ Busy s s.ring.enqueuePos := by
    rintro ⟨u,own⟩
    have size := sim.size
    rcases sim.busy own with ⟨-,upper,-⟩ | ⟨q,equal,⟨-,-,seq'⟩,-⟩
    · omega
    · rw [equal,slot_add sim.index,seq'] at seq
      omega
  have items : ∀ q, q < s.ring.enqueuePos → s.ring.dequeuePos ≤ q →
      (a.queue ++ [elem])[q - s.ring.dequeuePos]? = a.queue[q - s.ring.dequeuePos]? := fun q below above =>
    List.getElem?_append_left (by omega)
  obtain ⟨busy,mine,alone⟩ := sim.alone_claim (p := .enqWrite elem s.ring.enqueuePos)
    (r := {s.ring with enqueuePos := s.ring.enqueuePos + 1}) (by rw [here]; rfl) rfl nobody rfl
  refine ⟨sim.size,sim.index,order.trans (Nat.le_succ _),room,?_,sim.past,fun q lower upper => ?_,fun q lower upper => ?_,
    fun u => ?_,alone⟩
  · simp only [List.length_append,List.length_singleton,State.set]
    omega
  · rcases Nat.lt_succ_iff_lt_or_eq.mp upper with below | rfl
    · rcases sim.claimed q lower below with ⟨seq,at_⟩ | ⟨seq,item⟩
      · exact .inl ⟨seq,busy q at_⟩
      · exact .inr ⟨seq,(items q below lower).trans item⟩
    · exact .inl ⟨seq,mine⟩
  · rcases sim.unclaimed q (Nat.le_of_succ_le lower) upper with seq | at_
    · exact .inl seq
    · exact .inr (busy q at_)
  · by_cases mineToo : u = t
    · subst mineToo
      rw [set_self]
      refine ⟨by simp [Fifo.State.move],order,Nat.lt_succ_self _,seq,?_⟩
      have last : s.ring.enqueuePos - s.ring.dequeuePos = a.queue.length := length.symm
      simp [State.set,last]
    · rw [set_other mineToo]
      have same : ({a.move t (.done .pushed) with queue := a.queue ++ [elem]} : Fifo.State n α).phase u = a.phase u := by
        simp [Fifo.State.move,mineToo]
      rw [same]
      refine (sim.threads u).frame (Nat.le_succ _) (Nat.le_refl _) ?_ ?_ ?_ ?_
      · intro q below _ equal
        simp only [State.set] at equal
        omega
      · rintro q - claim rfl
        obtain ⟨below,filled⟩ := claim rfl
        exact ⟨Nat.lt_succ_of_lt below,filled⟩
      · rintro q item _ ⟨lower,upper,seq',there⟩
        exact ⟨⟨lower,Nat.lt_succ_of_lt upper,seq',(items q upper lower).trans there⟩,rfl⟩
      · rintro q own ⟨before,enough,seq'⟩
        have other : s.ring.enqueuePos ≠ q + s.ring.capacity := fun equal => nobody ⟨u,equal ▸ own⟩
        exact ⟨⟨before,by simp only [State.set]; omega,seq'⟩,rfl⟩

/-- The claim of a position by a dequeue is its pop. -/
theorem Simulates.deqClaim (here : s.phase t = .deqClaim pos) (won : s.ring.dequeuePos = pos) :
    ∃ b, Fifo.step s.ring.capacity a (.effect t) = some b ∧
      Fifo.event a (.effect t) = some (.pops t (s.ring.slot pos).value) ∧
      Simulates (s.set t (.deqRead pos) {s.ring with dequeuePos := pos + 1}) b := by
  subst won
  obtain ⟨pending,-,claim⟩ := sim.knows here
  obtain ⟨below,seq⟩ := claim rfl
  have length := sim.length
  have bound := sim.bound
  have first : a.queue[0]? = some (s.ring.slot s.ring.dequeuePos).value := by
    rcases sim.claimed s.ring.dequeuePos (Nat.le_refl _) below with ⟨free,-⟩ | ⟨-,item⟩
    · omega
    · simpa using item
  obtain ⟨rest,queue⟩ : ∃ rest, a.queue = (s.ring.slot s.ring.dequeuePos).value :: rest := by
    cases queue : a.queue with
    | nil => simp [queue] at first
    | cons v rest =>
      rw [queue] at first
      obtain rfl := some.inj first
      exact ⟨rest,rfl⟩
  have nobody : ¬ Busy s (s.ring.dequeuePos + s.ring.capacity) := by
    rintro ⟨u,own⟩
    obtain ⟨-,upper⟩ := sim.window own
    omega
  have items : ∀ q, s.ring.dequeuePos < q → a.queue[q - s.ring.dequeuePos]? = rest[q - (s.ring.dequeuePos + 1)]? :=
    fun q above => by
    have shift : q - s.ring.dequeuePos = q - (s.ring.dequeuePos + 1) + 1 := by omega
    rw [queue,shift,List.getElem?_cons_succ]
  obtain ⟨busy,mine,alone⟩ := sim.alone_claim (p := .deqRead s.ring.dequeuePos)
    (r := {s.ring with dequeuePos := s.ring.dequeuePos + 1}) (by rw [here]; rfl) rfl nobody rfl
  refine ⟨{a.move t (.done (.popped (s.ring.slot s.ring.dequeuePos).value)) with queue := rest},?_,?_,?_⟩
  · simp [Fifo.step,Fifo.effect,pending,queue]
  · simp [Fifo.event,pending,queue]
  refine ⟨sim.size,sim.index,below,bound.trans (by simp only [State.set]; omega),?_,fun q past => ?_,fun q lower upper => ?_,
    fun q lower upper => ?_,fun u => ?_,alone⟩
  · rw [queue,List.length_cons] at length
    simp only [State.set]
    omega
  · rcases Nat.lt_succ_iff_lt_or_eq.mp past with before | rfl
    · exact sim.past q before
    · change s.ring.dequeuePos < (s.ring.slot s.ring.dequeuePos).sequence
      omega
  · rcases sim.claimed q (Nat.le_of_succ_le lower) upper with ⟨seq',at_⟩ | ⟨seq',item⟩
    · exact .inl ⟨seq',busy q at_⟩
    · exact .inr ⟨seq',(items q lower).symm.trans item⟩
  · by_cases last : q = s.ring.dequeuePos + s.ring.capacity
    · exact .inr (last ▸ mine)
    · have inside : q < s.ring.dequeuePos + s.ring.capacity := by
        simp only [State.set] at upper
        omega
      rcases sim.unclaimed q lower inside with seq' | at_
      · exact .inl seq'
      · exact .inr (busy q at_)
  · by_cases mineToo : u = t
    · subst mineToo
      rw [set_self]
      exact ⟨by simp [Fifo.State.move,State.set,Ring.slot],Nat.lt_succ_self _,bound,seq⟩
    · rw [set_other mineToo]
      have same :
          ({a.move t (.done (.popped (s.ring.slot s.ring.dequeuePos).value)) with queue := rest} : Fifo.State n α).phase u =
          a.phase u := by
        simp [Fifo.State.move,mineToo]
      rw [same]
      refine (sim.threads u).frame (Nat.le_refl _) (Nat.le_succ _) ?_ ?_ ?_ ?_
      · rintro q - claim rfl
        obtain ⟨free,room⟩ := claim rfl
        exact ⟨free,room.trans_le (by simp only [State.set]; omega)⟩
      · intro q before _ equal
        simp only [State.set] at equal
        omega
      · rintro q item own ⟨lower,upper,seq',there⟩
        have above : s.ring.dequeuePos < q := by
          rcases Nat.lt_or_eq_of_le lower with above | rfl
          · exact above
          · omega
        exact ⟨⟨above,upper,seq',(items q above).symm.trans there⟩,rfl⟩
      · rintro q own ⟨before,enough,seq'⟩
        exact ⟨⟨Nat.lt_succ_of_lt before,enough,seq'⟩,rfl⟩

theorem Simulates.goes (here : s.phase t = p') (own : p.window s.ring.capacity = p'.window s.ring.capacity)
    (known : Matches s.ring a.queue p (a.phase t)) : Simulates (s.move t p) a := by
  have same : a.move t (a.phase t) = a := by simp [Fifo.State.move]
  exact same ▸ sim.move here own known

theorem Simulates.enq_free (free : (s.ring.slot pos).sequence = pos)
    (last : pos = s.ring.enqueuePos) : (s.ring.slot pos).sequence = pos ∧ pos < s.ring.dequeuePos + s.ring.capacity := by
  refine ⟨free,?_⟩
  have bound := sim.bound
  have size := sim.size
  -- in a full ring the slot belongs to the oldest item
  by_contra full
  have equal : pos = s.ring.dequeuePos + s.ring.capacity := by omega
  have shared : (s.ring.slot pos).sequence = (s.ring.slot s.ring.dequeuePos).sequence := by rw [equal,slot_add sim.index]
  rcases sim.claimed s.ring.dequeuePos (Nat.le_refl _) (by omega) with ⟨seq,-⟩ | ⟨seq,-⟩ <;> omega

theorem Simulates.deq_filled (filled : (s.ring.slot pos).sequence = pos + 1)
    (first : pos = s.ring.dequeuePos) : pos < s.ring.enqueuePos ∧ (s.ring.slot pos).sequence = pos + 1 := by
  refine ⟨?_,filled⟩
  have order := sim.order
  have size := sim.size
  by_contra empty
  rcases sim.unclaimed pos (by omega) (by omega) with seq | ⟨u,own⟩
  · omega
  · rcases sim.busy own with ⟨-,upper,-⟩ | ⟨q,equal,⟨-,-,seq⟩,-⟩
    · omega
    · rw [equal,slot_add sim.index,seq] at filled
      omega

/-- An enqueue that finds an older number in the slot: the ring is full, or a dequeue has not given the slot back. -/
theorem Simulates.enq_refused (below : pos ≤ s.ring.enqueuePos) (older : (s.ring.slot pos).sequence < pos) :
    a.queue.length = s.ring.capacity ∨ ∃ u, (a.phase u).hasPopped := by
  have bound := sim.bound
  have order := sim.order
  have length := sim.length
  have last : pos = s.ring.enqueuePos := by
    by_contra claimed
    by_cases past : pos < s.ring.dequeuePos
    · have newer := sim.past pos past
      omega
    · rcases sim.claimed pos (by omega) (by omega) with ⟨seq,-⟩ | ⟨seq,-⟩ <;> omega
  by_cases full : pos = s.ring.dequeuePos + s.ring.capacity
  · exact .inl (by omega)
  · rcases sim.unclaimed pos (by omega) (by omega) with seq | ⟨u,own⟩
    · omega
    · rcases sim.busy own with ⟨-,upper,-⟩ | ⟨q,-,-,popped⟩
      · omega
      · exact .inr ⟨u,popped⟩

/-- A dequeue that finds an older number in the slot: the ring is empty, or an enqueue has not published the slot. -/
theorem Simulates.deq_refused (below : pos ≤ s.ring.dequeuePos) (older : (s.ring.slot pos).sequence < pos + 1) :
    a.queue.length = 0 ∨ ∃ u, (a.phase u).hasPushed := by
  have order := sim.order
  have length := sim.length
  have first : pos = s.ring.dequeuePos := by
    by_contra past
    have newer := sim.past pos (by omega)
    omega
  by_cases empty : pos = s.ring.enqueuePos
  · exact .inl (by omega)
  · rcases sim.claimed pos (by omega) (by omega) with ⟨-,u,own⟩ | ⟨seq,-⟩
    · rcases sim.busy own with ⟨-,-,-,pushed⟩ | ⟨q,equal,⟨-,room,-⟩,-⟩
      · exact .inr ⟨u,pushed⟩
      · omega
    · omega

end

def Matched (capacity : Nat) (a : Fifo.State n α) (s' : State n α) (seen : Option (Fifo.Event n α)) : Prop :=
  ∃ ks b, run (Fifo.step capacity) a ks = some b ∧ (s'.ring.capacity = capacity ∧ Simulates s' b) ∧
    yields (Fifo.step capacity) Fifo.event a ks = seen.toList

variable {s' : State n α} {b : Fifo.State n α} {k : Fifo.Act n α} {capacity : Nat}

theorem matched_stutter (size : s'.ring.capacity = capacity) (sim : Simulates s' a) : Matched capacity a s' none :=
  ⟨[],a,rfl,⟨size,sim⟩,rfl⟩

theorem matched_by (next : Fifo.step capacity a k = some b) (size : s'.ring.capacity = capacity) (sim : Simulates s' b) :
    Matched capacity a s' (Fifo.event a k) :=
  ⟨[k],b,by simp [run,next],⟨size,sim⟩,by simp [yields,next]⟩

theorem diff_eq_zero : diff seq pos = 0 ↔ seq = pos := by
  unfold diff
  omega

theorem diff_neg : diff seq pos < 0 ↔ seq < pos := by
  unfold diff
  omega

section

variable (sim : Simulates s a) (size : s.ring.capacity = capacity)
include sim size

theorem Simulates.enqLook_matched
    (here : s.phase t = .enqLook elem pos) (next : advance s t spurious = some s') : Matched capacity a s' none := by
  obtain ⟨pending,below⟩ := sim.knows here
  simp only [advance,here,diff_eq_zero,diff_neg] at next
  split at next
  next free =>
    obtain rfl := some.inj next
    exact matched_stutter size (sim.goes here rfl ⟨pending,below,sim.enq_free free⟩)
  next taken =>
    split at next
    next older =>
      obtain rfl := some.inj next
      have refused : Fifo.step capacity a (.refuse t) = some (a.move t (.done .refused)) := by
        have allowed := sim.enq_refused below older
        rw [size] at allowed
        simp only [Fifo.step,Fifo.refuse,pending,if_pos allowed]
      exact matched_by refused size (sim.move here rfl rfl)
    · obtain rfl := some.inj next
      exact matched_stutter size (sim.goes here rfl pending)

theorem Simulates.deqLook_matched
    (here : s.phase t = .deqLook pos) (next : advance s t spurious = some s') : Matched capacity a s' none := by
  obtain ⟨pending,below⟩ := sim.knows here
  simp only [advance,here,diff_eq_zero,diff_neg] at next
  split at next
  next filled =>
    obtain rfl := some.inj next
    exact matched_stutter size (sim.goes here rfl ⟨pending,below,sim.deq_filled filled⟩)
  next unfilled =>
    split at next
    next older =>
      obtain rfl := some.inj next
      have refused : Fifo.step capacity a (.refuse t) = some (a.move t (.done .refused)) := by
        have allowed := sim.deq_refused below older
        simp only [Fifo.step,Fifo.refuse,pending,if_pos allowed]
      exact matched_by refused size (sim.move here rfl rfl)
    · obtain rfl := some.inj next
      exact matched_stutter size (sim.goes here rfl pending)

theorem Simulates.advance_matched
    (next : advance s t spurious = some s') : Matched capacity a s' (event s (.go t spurious)) := by
  cases here : s.phase t with
  | idle | returning result => simp [advance,here] at next
  | enqueuing elem | dequeuing =>
    simp only [advance,here,some.injEq] at next
    subst next
    simp only [event,here]
    exact matched_stutter size (sim.goes here rfl ⟨sim.knows here,Nat.le_refl _⟩)
  | enqLook elem pos =>
    simp only [event,here]
    exact sim.enqLook_matched size here next
  | enqClaim elem pos =>
    simp only [advance,here] at next
    simp only [event,here]
    split at next
    next won =>
      obtain rfl := some.inj next
      obtain ⟨b,effect,shown,after⟩ := sim.enqClaim here won.2
      rw [if_pos won,← shown]
      exact matched_by (size ▸ effect) size after
    next lost =>
      obtain rfl := some.inj next
      rw [if_neg lost]
      exact matched_stutter size (sim.goes here rfl (sim.knows here).1)
  | enqWrite elem pos =>
    simp only [advance,here,some.injEq] at next
    subst next
    simp only [event,here]
    exact matched_stutter size (sim.write here)
  | enqPublish pos =>
    simp only [advance,here,some.injEq] at next
    subst next
    simp only [event,here]
    exact matched_stutter size (sim.publish here)
  | deqLook pos =>
    simp only [event,here]
    exact sim.deqLook_matched size here next
  | deqClaim pos =>
    simp only [advance,here] at next
    simp only [event,here]
    split at next
    next won =>
      obtain rfl := some.inj next
      obtain ⟨b,effect,shown,after⟩ := sim.deqClaim here won.2
      rw [if_pos won,← shown]
      exact matched_by (size ▸ effect) size after
    next lost =>
      obtain rfl := some.inj next
      rw [if_neg lost]
      exact matched_stutter size (sim.goes here rfl (sim.knows here).1)
  | deqRead pos =>
    simp only [advance,here,some.injEq] at next
    subst next
    simp only [event,here]
    have known := sim.knows here
    exact matched_stutter size (sim.goes here rfl known)
  | deqPublish pos val =>
    simp only [advance,here,some.injEq] at next
    subst next
    simp only [event,here]
    exact matched_stutter size (sim.release here)

theorem Simulates.step_matched (next : step s act = some s') : Matched capacity a s' (event s act) := by
  cases act with
  | go t spurious => exact sim.advance_matched size next
  | call t op =>
    have called : ∀ op, s.phase t = .idle → Fifo.step capacity a (.call t op) = some (a.move t (.pending op)) := by
      intro op here
      simp [Fifo.step,show a.phase t = .idle from sim.knows here]
    simp only [step] at next
    split at next
    next elem here =>
      obtain rfl := some.inj next
      exact matched_by (called _ here) size (sim.move here rfl rfl)
    next here =>
      obtain rfl := some.inj next
      exact matched_by (called _ here) size (sim.move here rfl rfl)
    · cases next
  | ret t =>
    simp only [step] at next
    split at next
    next result here =>
      obtain rfl := some.inj next
      have done : a.phase t = .done result := sim.knows here
      have returned : Fifo.step capacity a (.ret t) = some (a.move t .idle) := by simp [Fifo.step,done]
      have shown : Fifo.event a (.ret t) = event s (.ret t) := by simp [Fifo.event,event,done,here]
      exact shown ▸ matched_by returned size (sim.move here rfl rfl)
    · cases next

end

theorem create_some (made : ringBufferMpmcCreate null memory capacity = .ok ring) :
    1 < capacity ∧ (∀ pos, pos &&& (capacity - 1) = pos % capacity) ∧
      ring = ⟨fun i => ⟨i,null⟩,capacity,capacity - 1,0,0⟩ := by
  unfold ringBufferMpmcCreate at made
  split at made
  · cases made
  next accepted =>
    split at made
    · cases made
    · simp only [isPowerOfTwoSize,Bool.not_eq_false,Bool.and_eq_true,decide_eq_true_eq] at accepted
      obtain ⟨size,bits⟩ := accepted
      refine ⟨size,fun pos => ?_,(Except.ok.inj made).symm⟩
      obtain ⟨k,rfl⟩ := (Nat.and_sub_one_eq_zero_iff_isPowerOfTwo (by omega)).mp bits
      exact Nat.and_two_pow_sub_one_eq_mod pos k

theorem create_simulates (made : ringBufferMpmcCreate null memory capacity = .ok ring) :
    (start n ring).ring.capacity = capacity ∧ Simulates (start n ring) (Fifo.init n α) := by
  obtain ⟨size,index,rfl⟩ := create_some made
  refine ⟨rfl,size,index,Nat.le_refl 0,Nat.zero_le _,rfl,?_,?_,fun pos _ below => .inl ?_,fun t => rfl,?_⟩
  · exact fun pos past => absurd past (Nat.not_lt_zero pos)
  · exact fun pos _ past => absurd past (Nat.not_lt_zero pos)
  · have inside : pos % capacity = pos := Nat.mod_eq_of_lt (by simpa [start] using below)
    simp [start,Ring.slot,index,inside]
  · exact fun t u pos own => by cases own

def history (ring : Ring α) (as : List (Act n α)) : List (Fifo.Event n α) := yields step event (start n ring) as

/-- Every run of the ring is one of the bounded queue with the same calls and returns, in which a call takes effect
when it claims its position: what was claimed for enqueues, in this order, is what was claimed by dequeues and then
what the queue holds, never more than `capacity` items. -/
theorem ring_linearizable_fifo (null : α) (memory : Bool) (capacity : Nat) (ring : Ring α)
    (made : ringBufferMpmcCreate null memory capacity = .ok ring) (as : List (Act n α)) (t : State n α)
    (ran : run step (start n ring) as = some t) :
    ∃ bs a, run (Fifo.step capacity) (Fifo.init n α) bs = some a ∧
      yields (Fifo.step capacity) Fifo.event (Fifo.init n α) bs = history ring as ∧
      (history ring as).filterMap Fifo.Event.pushed = (history ring as).filterMap Fifo.Event.popped ++ a.queue ∧
      a.queue.length = t.ring.enqueuePos - t.ring.dequeuePos ∧ a.queue.length ≤ capacity := by
  obtain ⟨bs,a,matched,⟨-,sim⟩,same⟩ := run_simulated step (Fifo.step capacity) event Fifo.event
    (fun s a => s.ring.capacity = capacity ∧ Simulates s a)
    (fun s a act s' both next => both.2.step_matched both.1 next) (start n ring) (Fifo.init n α) as t
      (create_simulates made) ran
  obtain ⟨conserved,bounded⟩ := Fifo.run_queue bs matched (Nat.zero_le capacity)
  rw [same] at conserved
  exact ⟨bs,a,matched,same,conserved,sim.length,bounded⟩

def crossing (a b c : Fin n) : List (Act n Nat) :=
  [.call a (.push 7),.call b (.push 8),.go a false,.go a false,.go a false,.go b false,.go b false,.go b false,.go b false,
    .go b false,.ret b,.call c .pop,.go c false,.go c false,.ret c,.go a false,.go a false,.ret a,.call c .pop,.go c false,
    .go c false,.go c false,.go c false,.go c false,.ret c]

theorem ring_linearizable_fifo_crossing : ∃ ring t bs a, ringBufferMpmcCreate 0 true 2 = .ok ring ∧
    run step (start 3 ring) (crossing 0 1 2) = some t ∧ run (Fifo.step 2) (Fifo.init 3 Nat) bs = some a ∧ a.queue = [8] := by
  have defined : (run step (start 3 ⟨fun i => ⟨i,0⟩,2,1,0,0⟩) (crossing 0 1 2)).isSome := by decide
  obtain ⟨t,ran⟩ := isSome_iff_exists.mp defined
  obtain ⟨bs,a,matched,-,conserved,-⟩ := ring_linearizable_fifo 0 true 2 ⟨fun i => ⟨i,0⟩,2,1,0,0⟩ rfl
    (crossing 0 1 2) t ran
  refine ⟨_,t,bs,a,rfl,ran,matched,?_⟩
  have pushed :
      (history ⟨fun i => ⟨i,0⟩,2,1,0,0⟩ (crossing (0 : Fin 3) 1 2)).filterMap Fifo.Event.pushed = [7,8] := by decide
  have popped :
      (history ⟨fun i => ⟨i,0⟩,2,1,0,0⟩ (crossing (0 : Fin 3) 1 2)).filterMap Fifo.Event.popped = [7] := by decide
  rw [pushed,popped] at conserved
  exact (List.cons.inj conserved).2.symm

end Oxbow.RingBufferMpmc
