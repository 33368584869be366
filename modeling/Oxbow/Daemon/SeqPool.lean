import Oxbow.Lib.Loop
import Oxbow.Lib.RingInterval
import Oxbow.Lib.Run
import Oxbow.Daemon.InlineRead

/-! The ring of NVMe sequence slots of a worker. Slots are acquired from the head on in one piece and released in any pieces; a
release takes what it frees off the count at once and moves the tail to the next slot that is still held. -/
namespace Oxbow.Daemon.SeqPool

open Oxbow.Lib Oxbow.Lib.RingInterval List

/-- The fields of `struct io_thread`. The capacity is a positive `int`, so that no sum of two places wraps. -/
structure Pool where
  seqsHead : Nat
  seqsTail : Nat
  seqsUsed : Nat
  seqsBusy : Nat → Bool

inductive Errno
  | einval
  | eagain
  deriving DecidableEq, Repr

section

variable (cap : Nat)

def contigFree (q : Pool) : (left i : Nat) → Nat
  | 0, i => i
  | left + 1, i => if q.seqsBusy (advance cap q.seqsHead i) then i else contigFree q left (i + 1)

def seqsContigFreeFromHead (q : Pool) (needed : Nat) : Nat :=
  let freeTotal := cap - q.seqsUsed
  if freeTotal = 0 then 0 else contigFree cap q (min freeTotal needed) 0

def markBusy (q : Pool) (busy : Nat → Bool) (i : Nat) : Nat → Bool := Function.update busy (advance cap q.seqsHead i) true

def nvmeSeqsTryAcquire (needed : Nat) (q : Pool) : Except Errno (Nat × Pool) :=
  if needed = 0 then .error .einval
  else if cap < needed then .error .einval
  else if cap - q.seqsUsed < needed then .error .eagain
  else if needed = 1 ∧ q.seqsBusy q.seqsHead then .error .eagain
  else if needed ≠ 1 ∧ seqsContigFreeFromHead cap q needed < needed then .error .eagain
  else
    .ok (q.seqsHead,{ q with
      seqsBusy := (List.range needed).foldl (markBusy cap q) q.seqsBusy
      seqsHead := advance cap q.seqsHead needed
      seqsUsed := q.seqsUsed + needed })

/-- A slot that is already free is only warned about. -/
def clearBusy (start : Nat) (busy : Nat → Bool) (k : Nat) : Nat → Bool :=
  if busy (advance cap start k) then Function.update busy (advance cap start k) false else busy

/-- The loop that moves the tail; `none` when it is not done after so many rounds. -/
def advanceTail (used : Nat) (busy : Nat → Bool) : (rounds tail : Nat) → Option Nat
  | 0, _ => none
  | rounds + 1, tail => if 0 < used ∧ busy tail = false then advanceTail used busy rounds (advance cap tail 1) else some tail

def nvmeSeqsRelease (rounds start count : Nat) (q : Pool) : Option Pool :=
  if count = 0 ∨ q.seqsUsed < count then some q
  else
    let busy := (List.range count).foldl (clearBusy cap start) q.seqsBusy
    let used := if count ≤ q.seqsUsed then q.seqsUsed - count else 0
    (advanceTail cap used busy rounds q.seqsTail).map fun tail => { q with seqsBusy := busy, seqsUsed := used, seqsTail := tail }

end

/-! Callers that release what they hold. -/

structure State where
  pool : Pool
  held : List Nat

inductive Act
  | acquire (needed : Nat)
  | release (start count : Nat)

def slots (cap start count : Nat) : List Nat := (List.range count).map (advance cap start)

/-- The slots of the release are held, and no slot is among them twice. -/
def Owned (cap : Nat) (held : List Nat) (start count : Nat) : Prop :=
  start < cap ∧ count ≤ cap ∧ ∀ i ∈ slots cap start count, i ∈ held

instance Owned.decidable (cap : Nat) (held : List Nat) (start count : Nat) : Decidable (Owned cap held start count) :=
  inferInstanceAs (Decidable (_ ∧ _ ∧ _))

def step (cap : Nat) (s : State) : Act → Option State
  | .acquire needed =>
    match nvmeSeqsTryAcquire cap needed s.pool with
    | .error _ => some s
    | .ok (start,pool) => some ⟨pool,s.held ++ slots cap start needed⟩
  | .release start count =>
    if Owned cap s.held start count then
      (nvmeSeqsRelease cap (cap + 1) start count s.pool).map fun pool =>
        ⟨pool,s.held.filter fun i => i ∉ slots cap start count⟩
    else none

def fresh : State := ⟨⟨0,0,0,fun _ => false⟩,[]⟩

theorem contigFree_free (left i : Nat) : ∀ j, i ≤ j → j < contigFree cap q left i →
    q.seqsBusy (advance cap q.seqsHead j) = false := by
  induction left generalizing i with
  | zero =>
    intro j low high
    rw [contigFree] at high
    omega
  | succ left ih =>
    intro j low high
    rw [contigFree] at high
    split at high
    next => omega
    next free =>
      by_cases first : j = i
      · rw [first]
        simpa using free
      · exact ih (i + 1) j (by omega) high

theorem contigFree_all (left i : Nat)
    (free : ∀ j, i ≤ j → j < i + left → q.seqsBusy (advance cap q.seqsHead j) = false) :
    contigFree cap q left i = i + left := by
  induction left generalizing i with
  | zero => rfl
  | succ left ih =>
    rw [contigFree,free i (Nat.le_refl i) (by omega),if_neg Bool.false_ne_true,ih (i + 1) fun j low high => free j (by omega)
      (by omega)]
    omega

theorem markBusy_foldl (head : q.seqsHead < cap) (most : needed ≤ cap)
    (free : ∀ i, InRing cap q.seqsHead needed i → q.seqsBusy i = false) :
    (∀ i, (List.range needed).foldl (markBusy cap q) q.seqsBusy i = true ↔ q.seqsBusy i = true ∨
      InRing cap q.seqsHead needed i) ∧
      BitRun.count ((List.range needed).foldl (markBusy cap q) q.seqsBusy) 0 cap = BitRun.count q.seqsBusy 0 cap + needed := by
  -- after `n` rounds the first `n` slots have been added
  refine Loop.foldl_range (n := needed)
    (fun n busy => (∀ i, busy i = true ↔ q.seqsBusy i = true ∨ InRing cap q.seqsHead n i) ∧
    BitRun.count busy 0 cap = BitRun.count q.seqsBusy 0 cap + n) ⟨?_,rfl⟩ ?_
  · intro i
    simp [not_inRing_zero head]
  · rintro n busy below ⟨set,count⟩
    have here : InRing cap q.seqsHead needed (advance cap q.seqsHead n) := (inRing_iff head most).mpr ⟨n,below,rfl⟩
    have clear : busy (advance cap q.seqsHead n) = false := by
      rw [← Bool.not_eq_true,set]
      rintro (busy | earlier)
      · rw [free _ here] at busy
        cases busy
      · exact not_inRing_advance _ (by omega) earlier
    constructor
    · intro i
      rw [inRing_succ head (by omega),markBusy]
      by_cases last : i = advance cap q.seqsHead n
      · simp [last]
      · simp [last,set]
    · rw [markBusy,BitRun.count_update_true (Nat.zero_le _) (advance_lt head (by omega)) clear,count]
      omega

theorem clearBusy_foldl (inside : start < cap) (most : n ≤ cap) (held : ∀ i, InRing cap start n i → busy i = true) :
    (∀ i, (List.range n).foldl (clearBusy cap start) busy i = true ↔ busy i = true ∧ ¬ InRing cap start n i) ∧
      BitRun.count ((List.range n).foldl (clearBusy cap start) busy) 0 cap + n = BitRun.count busy 0 cap := by
  refine Loop.foldl_range (n := n) (fun k b => (∀ i, b i = true ↔ busy i = true ∧ ¬ InRing cap start k i) ∧
    BitRun.count b 0 cap + k = BitRun.count busy 0 cap) ⟨?_,rfl⟩ ?_
  · intro i
    simp [not_inRing_zero inside]
  · rintro k b below ⟨set,count⟩
    have here : InRing cap start n (advance cap start k) := (inRing_iff inside most).mpr ⟨k,below,rfl⟩
    have busy' : b (advance cap start k) = true := (set _).mpr ⟨held _ here,not_inRing_advance _ (by omega)⟩
    rw [clearBusy,if_pos busy']
    constructor
    · intro i
      rw [inRing_succ inside (by omega)]
      by_cases last : i = advance cap start k
      · simp [last]
      · simp [last,set]
    · have fewer := BitRun.count_update_false (Nat.zero_le _) (advance_lt inside (by omega)) busy'
      omega

theorem advanceTail_busy (used : Nat) (k : Nat) (near : k < cap) {tail : Nat} (inside : tail < cap)
    (set : busy (advance cap tail k) = true) :
    ∃ tail', tail' < cap ∧ (0 < used → busy tail' = true) ∧
      ∀ rounds, k < rounds → advanceTail cap used busy rounds tail = some tail' := by
  induction k generalizing tail with
  | zero =>
    have here : busy tail = true := by rwa [advance_zero inside] at set
    refine ⟨tail,inside,fun _ => here,?_⟩
    intro rounds more
    cases rounds with
    | zero => omega
    | succ rounds => rw [advanceTail,here,if_neg (by simp)]
  | succ k ih =>
    by_cases stop : 0 < used ∧ busy tail = false
    · have next : advance cap tail 1 < cap := advance_lt inside (by omega)
      rw [← advance_advance inside (by omega)] at set
      obtain ⟨tail',below,busy',ends⟩ := ih (by omega) next set
      refine ⟨tail',below,busy',?_⟩
      intro rounds more
      cases rounds with
      | zero => omega
      | succ rounds =>
        rw [advanceTail,if_pos stop]
        exact ends rounds (by omega)
    · refine ⟨tail,inside,fun some => by simpa [some] using stop,?_⟩
      intro rounds more
      cases rounds with
      | zero => omega
      | succ rounds => rw [advanceTail,if_neg stop]

structure Inv (cap : Nat) (s : State) : Prop where
  head : s.pool.seqsHead < cap
  tail : s.pool.seqsTail < cap
  used : s.pool.seqsUsed = BitRun.count s.pool.seqsBusy 0 cap
  busy : ∀ i, i ∈ s.held ↔ s.pool.seqsBusy i = true
  within : ∀ i ∈ s.held, i < cap
  once : s.held.Nodup

theorem mem_slots (inside : start < cap) (most : n ≤ cap) : i ∈ slots cap start n ↔ InRing cap start n i := by
  rw [inRing_iff inside most,slots]
  simp

theorem slots_nodup (most : n ≤ cap) : (slots cap start n).Nodup := by
  refine List.Nodup.map_on ?_ nodup_range
  intro i first j second same
  exact advance_injOn cap start most (by simpa using first) (by simpa using second) same

theorem nvmeSeqsTryAcquire_ok (head : q.seqsHead < cap) (acquired : nvmeSeqsTryAcquire cap needed q = .ok (start,q')) :
    start = q.seqsHead ∧ 0 < needed ∧ needed ≤ cap ∧ (∀ i, InRing cap start needed i → q.seqsBusy i = false) ∧
      (∀ i, q'.seqsBusy i = true ↔ q.seqsBusy i = true ∨ InRing cap start needed i) ∧
      BitRun.count q'.seqsBusy 0 cap = BitRun.count q.seqsBusy 0 cap + needed ∧
      q'.seqsHead = advance cap q.seqsHead needed ∧ q'.seqsTail = q.seqsTail ∧ q'.seqsUsed = q.seqsUsed + needed := by
  rw [nvmeSeqsTryAcquire] at acquired
  split_ifs at acquired with zero large few taken blocked
  obtain ⟨rfl,rfl⟩ := Prod.mk.inj (Except.ok.inj acquired)
  have free : ∀ i, InRing cap q.seqsHead needed i → q.seqsBusy i = false := by
    intro i inside
    obtain ⟨k,below,rfl⟩ := (inRing_iff head (by omega)).mp inside
    by_cases one : needed = 1
    · obtain rfl : k = 0 := by omega
      rw [advance_zero head]
      simpa [one] using taken
    · have reached : needed ≤ seqsContigFreeFromHead cap q needed := by
        by_contra short
        exact blocked ⟨one,by omega⟩
      rw [seqsContigFreeFromHead] at reached
      split at reached
      next => omega
      next => exact contigFree_free _ 0 k (Nat.zero_le k) (Nat.lt_of_lt_of_le below reached)
  obtain ⟨set,count⟩ := markBusy_foldl head (Nat.not_lt.mp large) free
  exact ⟨rfl,by omega,by omega,free,set,count,rfl,rfl,rfl⟩

theorem acquire_inv (inv : Inv cap s) (acquired : nvmeSeqsTryAcquire cap needed s.pool = .ok (start,q')) :
    Inv cap ⟨q',s.held ++ slots cap start needed⟩ := by
  obtain ⟨rfl,-,most,free,set,count,head,tail,used⟩ := nvmeSeqsTryAcquire_ok inv.head acquired
  refine ⟨?_,?_,?_,?_,?_,?_⟩
  · rw [head]
    exact advance_lt inv.head most
  · rw [tail]
    exact inv.tail
  · rw [used,count,inv.used]
  · intro i
    rw [mem_append,mem_slots inv.head most,inv.busy,set]
  · intro i member
    rw [mem_append,mem_slots inv.head most] at member
    exact member.elim (inv.within i) And.left
  · refine inv.once.append (slots_nodup most) ?_
    intro i held new
    rw [mem_slots inv.head most] at new
    rw [inv.busy,free i new] at held
    cases held

/-- The tail ends at a busy slot, if the count says that there is one. -/
theorem advanceTail_ends {tail : Nat} (used : Nat) (inside : tail < cap) (counted : used = BitRun.count busy 0 cap) :
    ∃ tail', tail' < cap ∧ (0 < used → busy tail' = true) ∧
      ∀ rounds, cap ≤ rounds → advanceTail cap used busy rounds tail = some tail' := by
  by_cases some : 0 < used
  · have more : 0 < BitRun.count busy 0 cap := by omega
    obtain ⟨i,⟨_,below⟩,last⟩ := BitRun.count_pos_iff.mp more
    obtain ⟨k,near,rfl⟩ := (inRing_iff inside (Nat.le_refl cap)).mp (inRing_all tail below)
    obtain ⟨tail',below,busy',ends⟩ := advanceTail_busy used k near inside last
    exact ⟨tail',below,busy',fun rounds enough => ends rounds (by omega)⟩
  · refine ⟨tail,inside,fun more => absurd more some,?_⟩
    intro rounds enough
    cases rounds with
    | zero => omega
    | succ rounds => rw [advanceTail,if_neg (by simp [some])]

/-- What the release of held slots does, however many rounds its loop is given. -/
theorem nvmeSeqsRelease_owned (inv : Inv cap s) (owned : Owned cap s.held start n) :
    ∃ q', (∀ rounds, cap ≤ rounds → nvmeSeqsRelease cap rounds start n s.pool = some q') ∧
      Inv cap ⟨q',s.held.filter fun i => i ∉ slots cap start n⟩ ∧
      (0 < n → (∃ i, q'.seqsBusy i = true) → q'.seqsBusy q'.seqsTail = true) := by
  obtain ⟨inside,most,held⟩ := owned
  have busy : ∀ i, InRing cap start n i → s.pool.seqsBusy i = true := by
    intro i member
    rw [← inv.busy]
    exact held i ((mem_slots inside most).mpr member)
  obtain ⟨set,count⟩ := clearBusy_foldl inside most busy
  have used := inv.used
  have kept : ∀ i, i ∈ s.held.filter (fun i => i ∉ slots cap start n) ↔
      (List.range n).foldl (clearBusy cap start) s.pool.seqsBusy i = true := by
    intro i
    rw [mem_filter,set,inv.busy,decide_eq_true_eq,mem_slots inside most]
  have within : ∀ i ∈ s.held.filter (fun i => i ∉ slots cap start n), i < cap :=
    fun i member => inv.within i (mem_of_mem_filter member)
  by_cases none : n = 0
  · refine ⟨s.pool,?_,⟨inv.head,inv.tail,used,?_,within,inv.once.filter _⟩,by omega⟩
    · intro rounds _
      rw [nvmeSeqsRelease,if_pos (.inl none)]
    · intro i
      rw [kept,none]
      rfl
  · obtain ⟨tail,below,at',ends⟩ :=
      advanceTail_ends (s.pool.seqsUsed - n) inv.tail
      (show _ = BitRun.count ((List.range n).foldl (clearBusy cap start) s.pool.seqsBusy) 0 cap by omega)
    refine ⟨⟨s.pool.seqsHead,tail,s.pool.seqsUsed - n,(List.range n).foldl (clearBusy cap start) s.pool.seqsBusy⟩,?_,
      ⟨inv.head,below,?_,kept,within,inv.once.filter _⟩,?_⟩
    · intro rounds enough
      rw [nvmeSeqsRelease,if_neg (by omega)]
      simp only [if_pos (show n ≤ s.pool.seqsUsed by omega),ends rounds enough,Option.map_some]
    · dsimp only
      omega
    · rintro - ⟨i,(last : (List.range n).foldl (clearBusy cap start) s.pool.seqsBusy i = true)⟩
      have below := within i ((kept i).mpr last)
      have more := BitRun.count_pos_iff.mpr ⟨i,⟨Nat.zero_le i,below⟩,last⟩
      exact at' (by omega)

theorem fresh_inv (positive : 0 < cap) : Inv cap fresh := by
  refine ⟨positive,positive,?_,by simp [fresh],by simp [fresh],nodup_nil⟩
  exact (count_inRing positive (Nat.zero_le cap) (by simp [fresh,not_inRing_zero positive])).symm

theorem step_inv (inv : Inv cap s) (stepped : step cap s a = some t) : Inv cap t := by
  cases a with
  | acquire needed =>
    simp only [step] at stepped
    split at stepped
    next =>
      obtain rfl := Option.some.inj stepped
      exact inv
    next acquired =>
      obtain rfl := Option.some.inj stepped
      exact acquire_inv inv acquired
  | release start n =>
    simp only [step] at stepped
    split at stepped
    next owned =>
      obtain ⟨q',released,after,-⟩ := nvmeSeqsRelease_owned inv owned
      rw [released (cap + 1) (Nat.le_succ cap),Option.map_some,Option.some.injEq] at stepped
      exact stepped ▸ after
    next => cases stepped

theorem Inv.acquires (inv : Inv cap s) (none : s.held = []) (some : 0 < needed) (most : needed ≤ cap) :
    ∃ r, nvmeSeqsTryAcquire cap needed s.pool = .ok r := by
  have free : ∀ i, s.pool.seqsBusy i = false := by
    intro i
    rw [← Bool.not_eq_true,← inv.busy,none]
    simp
  have unused : s.pool.seqsUsed = 0 := by
    rw [inv.used]
    by_contra count
    obtain ⟨i,-,busy⟩ := BitRun.count_pos_iff.mp (Nat.pos_of_ne_zero count)
    rw [free] at busy
    cases busy
  have contig : seqsContigFreeFromHead cap s.pool needed = needed := by
    rw [seqsContigFreeFromHead,unused]
    simp only [Nat.sub_zero]
    rw [if_neg (by omega),Nat.min_eq_right most,contigFree_all needed 0 fun j _ _ => free _]
    omega
  rw [nvmeSeqsTryAcquire,if_neg (by omega),if_neg (by omega),if_neg (by omega),if_neg (by simp [free]),if_neg (by simp [contig])]
  exact ⟨_,rfl⟩

/-- After every run: an acquire takes free slots, the count is that of the busy ones, which are those held, and the
tail comes to rest on a busy slot. -/
theorem pool_exact (cap : Nat) (positive : 0 < cap) (acts : List Act) (s : State) (ran : run (step cap) fresh acts = some s) :
    (∀ needed start q', nvmeSeqsTryAcquire cap needed s.pool = .ok (start,q') →
        start < cap ∧ 0 < needed ∧ needed ≤ cap ∧ (∀ i, InRing cap start needed i → s.pool.seqsBusy i = false) ∧
          ∀ i, q'.seqsBusy i = true ↔ s.pool.seqsBusy i = true ∨ InRing cap start needed i) ∧
      s.pool.seqsUsed = BitRun.count s.pool.seqsBusy 0 cap ∧
      (s.held.Nodup ∧ ∀ i, i ∈ s.held ↔ s.pool.seqsBusy i = true) ∧
      (∀ start n, Owned cap s.held start n → 0 < n →
        ∃ q', (∀ rounds, cap ≤ rounds → nvmeSeqsRelease cap rounds start n s.pool = some q') ∧
        ((∃ i, q'.seqsBusy i = true) → q'.seqsBusy q'.seqsTail = true)) ∧
      (s.held = [] → ∀ needed, 0 < needed → needed ≤ cap → ∃ r, nvmeSeqsTryAcquire cap needed s.pool = .ok r) := by
  have inv : Inv cap s := run_invariant_always (step cap) (Inv cap) (fun _ _ _ inv stepped => step_inv inv stepped) _ acts s
    (fresh_inv positive) ran
  refine ⟨?_,inv.used,⟨inv.once,inv.busy⟩,?_,fun none needed some most => inv.acquires none some most⟩
  · intro needed start q' acquired
    obtain ⟨rfl,some,most,free,set,-⟩ := nvmeSeqsTryAcquire_ok inv.head acquired
    exact ⟨inv.head,some,most,free,set⟩
  · intro start n owned some
    obtain ⟨q',released,-,tail⟩ := nvmeSeqsRelease_owned inv owned
    exact ⟨q',released,tail some⟩

/-- Three slots, of which the second and the third are released together; the head is then at the one that is still held. -/
theorem pool_exact_threeSlots :
    ∃ s, run (step 3) fresh [.acquire 2,.acquire 1,.acquire 1,.release 1 2,.acquire 1] = some s ∧ s.held = [0] ∧
      s.pool.seqsUsed = BitRun.count s.pool.seqsBusy 0 3 := by
  obtain ⟨s,ran,held⟩ : ∃ s, run (step 3) fresh [.acquire 2,.acquire 1,.acquire 1,.release 1 2,.acquire 1] = some s ∧
      s.held = [0] :=
    ⟨_,rfl,rfl⟩
  exact ⟨s,ran,held,(pool_exact 3 (Nat.succ_pos 2) _ s ran).2.1⟩

/-! The slots that a read takes one by one. -/

def Pool.seqs (q : Pool) : InlineRead.Seqs := ⟨q.seqsHead,q.seqsUsed,q.seqsBusy⟩

/-- Acquiring one slot is what the submission of a read does. -/
theorem nvmeSeqsTryAcquire_one (cfg : InlineRead.Config) (q : Pool) (head : q.seqsHead < cfg.capacity) :
    (nvmeSeqsTryAcquire cfg.capacity 1 q).toOption.map (fun r => (r.1,r.2.seqs)) =
      InlineRead.nvmeSeqsTryAcquireOne cfg q.seqs := by
  have large : ¬ cfg.capacity < 1 := by omega
  rw [nvmeSeqsTryAcquire,InlineRead.nvmeSeqsTryAcquireOne,if_neg Nat.one_ne_zero,if_neg large]
  change _ = if cfg.capacity - q.seqsUsed < 1 then none else if q.seqsBusy q.seqsHead = true then none else _
  by_cases full : cfg.capacity - q.seqsUsed < 1
  · simp [full,Except.toOption]
  · by_cases taken : q.seqsBusy q.seqsHead = true
    · simp [full,taken,Except.toOption]
    · have marked : (List.range 1).foldl (markBusy cfg.capacity q) q.seqsBusy = Function.update q.seqsBusy q.seqsHead true := by
        rw [range_one,foldl_cons,foldl_nil,markBusy,advance_zero head]
      simp only [full,taken,marked,if_false,ne_eq,not_true,false_and]
      rfl

end Oxbow.Daemon.SeqPool
