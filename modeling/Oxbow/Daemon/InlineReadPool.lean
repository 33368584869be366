import Mathlib.Data.List.Nodup
import Mathlib.Tactic.Ring
import Oxbow.Daemon.InlineRead

/-! What one filling of the queue submits: the commands of a BIO in order, each in the slot
at the head of the pool, until the BIO is done or the head is not free. -/
namespace Oxbow.Daemon.InlineRead

open Oxbow.Lib List

def Config.pagesPerCommand (cfg : Config) : Nat := cfg.maxIo / pageSize

def Config.nCommands (cfg : Config) (b : Bio) : Nat :=
  (b.vtotal + (cfg.pagesPerCommand - 1)) / cfg.pagesPerCommand

theorem pageSize_pos : 0 < pageSize := by decide

theorem packed_eq (maxIo left k : Nat) :
    packed maxIo left (pageSize * k) = min left (maxIo / pageSize - k) := by
  induction left generalizing k with
  | zero => simp [packed]
  | succ left ih =>
    have more : pageSize * k + pageSize ≤ maxIo ↔ k + 1 ≤ maxIo / pageSize := by
      rw [Nat.le_div_iff_mul_le pageSize_pos,Nat.add_mul,Nat.one_mul,Nat.mul_comm]
    rw [packed,← Nat.mul_succ,ih]
    by_cases room : k + 1 ≤ maxIo / pageSize
    · rw [if_pos (by rw [Nat.mul_succ]; exact more.mpr room)]
      omega
    · rw [if_neg (by rw [Nat.mul_succ]; exact mt more.mp room)]
      omega

variable (cfg : Config)

theorem pagesPerCommand_pos : 0 < cfg.pagesPerCommand :=
  Nat.div_pos cfg.pageFits pageSize_pos

theorem nextSegment_nr (i : Nat) (b : Bio) (off : Nat) :
    (cfg.nextSegment i b off).nr = min (b.vtotal - off) cfg.pagesPerCommand := by
  have := packed_eq cfg.maxIo (b.vtotal - off) 0
  simpa [Config.nextSegment,Config.pagesPerCommand] using this

theorem nextSegment_nr_pos (i : Nat) (b : Bio) (left : off < b.vtotal) :
    0 < (cfg.nextSegment i b off).nr := by
  have := pagesPerCommand_pos cfg
  rw [nextSegment_nr]
  omega

def Config.segments (i : Nat) (b : Bio) (off : Nat) : List Segment :=
  if off < b.vtotal then
    cfg.nextSegment i b off :: Config.segments i b (off + (cfg.nextSegment i b off).nr)
  else []
termination_by b.vtotal - off
decreasing_by
  have := nextSegment_nr_pos cfg i b ‹_›
  omega

section

variable (i : Nat) (b : Bio)

theorem segments_of_left (left : off < b.vtotal) : cfg.segments i b off =
      cfg.nextSegment i b off :: cfg.segments i b (off + (cfg.nextSegment i b off).nr) := by
  rw [Config.segments,if_pos left]

theorem segments_done (done : b.vtotal ≤ off) : cfg.segments i b off = [] := by
  rw [Config.segments,if_neg (Nat.not_lt.mpr done)]

theorem segments_induction {P : Nat → Prop} (done : ∀ off, b.vtotal ≤ off → P off)
    (next : ∀ off, off < b.vtotal → P (off + (cfg.nextSegment i b off).nr) → P off) (off : Nat) :
    P off := by
  induction size : b.vtotal - off using Nat.strongRecOn generalizing off with
  | ind n ih =>
    by_cases left : off < b.vtotal
    · have := nextSegment_nr_pos cfg i b left
      exact next off left (ih _ (by omega) _ rfl)
    · exact done off (Nat.not_lt.mp left)

theorem segments_bio (off : Nat) : ∀ g ∈ cfg.segments i b off, g.bio = i ∧ 0 < g.nr := by
  induction off using segments_induction cfg i b with
  | done off done => simp [segments_done cfg i b done]
  | next off left ih =>
    rw [segments_of_left cfg i b left]
    intro g member
    rcases mem_cons.mp member with rfl | member
    · exact ⟨rfl,nextSegment_nr_pos cfg i b left⟩
    · exact ih g member

theorem segments_sum (off : Nat) : ((cfg.segments i b off).map Segment.nr).sum = b.vtotal - off := by
  induction off using segments_induction cfg i b with
  | done off done => simp [segments_done cfg i b done,Nat.sub_eq_zero_of_le done]
  | next off left ih =>
    rw [segments_of_left cfg i b left,map_cons,sum_cons,ih,nextSegment_nr]
    omega

theorem segments_length (off : Nat) : (cfg.segments i b off).length =
      (b.vtotal - off + (cfg.pagesPerCommand - 1)) / cfg.pagesPerCommand := by
  have positive := pagesPerCommand_pos cfg
  induction off using segments_induction cfg i b with
  | done off done =>
    rw [segments_done cfg i b done,Nat.sub_eq_zero_of_le done,Nat.div_eq_of_lt (by omega)]
    rfl
  | next off left ih =>
    rw [segments_of_left cfg i b left,length_cons,ih,nextSegment_nr]
    by_cases last : b.vtotal - off ≤ cfg.pagesPerCommand
    · rw [Nat.min_eq_left last,Nat.div_eq_of_lt (by omega)]
      exact (Nat.div_eq_of_lt_le (by omega) (by omega)).symm
    · rw [Nat.min_eq_right (by omega),← Nat.add_div_right _ positive]
      congr 1
      omega

theorem nCommands_eq : cfg.nCommands b = (cfg.segments i b 0).length := by
  rw [segments_length]
  rfl

end

/-- A page is covered by exactly one of the segments from `off` on if it is not before
`off`, and by none of them otherwise. -/
theorem segments_cover (i j : Nat) (b : Bio) (off page : Nat) :
    (cfg.segments i b off).countP (Segment.covers j (b.start + page)) =
      if i = j ∧ off ≤ page ∧ page < b.vtotal then 1 else 0 := by
  induction off using segments_induction cfg i b with
  | done off done =>
    rw [segments_done cfg i b done,if_neg (by omega)]
    rfl
  | next off left ih =>
    have size := nextSegment_nr cfg i b off
    have covers : (cfg.nextSegment i b off).covers j (b.start + page) = true ↔
        i = j ∧ off ≤ page ∧ page < off + (cfg.nextSegment i b off).nr := by
      rw [Segment.covers,decide_eq_true_iff]
      simp only [Config.nextSegment]
      omega
    rw [segments_of_left cfg i b left,countP_cons,ih]
    simp only [covers]
    split <;> split <;> split <;> omega

structure Pool (q : Seqs) (outstanding : List Command) : Prop where
  head : q.head < cfg.capacity
  busy : ∀ slot, q.busy slot = true ↔ slot ∈ outstanding.map Command.slot
  distinct : (outstanding.map Command.slot).Nodup
  used : q.used = outstanding.length
  fits : outstanding.length ≤ cfg.capacity

structure Free (q : Seqs) (k : Nat) : Prop where
  fits : q.used + k ≤ cfg.capacity
  free : ∀ j, j < k → q.busy ((q.head + j) % cfg.capacity) = false

theorem Free.mono (free : Free cfg q k) (fewer : m ≤ k) : Free cfg q m where
  fits := by have := free.fits; omega
  free j within := free.free j (by omega)

instance (q : Seqs) (k : Nat) : Decidable (Free cfg q k) :=
  decidable_of_iff (q.used + k ≤ cfg.capacity ∧ ∀ j, j < k → q.busy ((q.head + j) % cfg.capacity) = false)
    ⟨fun free => ⟨free.1,free.2⟩,fun free => ⟨free.fits,free.free⟩⟩

theorem free_of_idle (pool : Pool cfg q []) (fewer : k ≤ cfg.capacity) :
    Free cfg q k where
  fits := by have := pool.used; simp at this; omega
  free j _ := by
    have := pool.busy ((q.head + j) % cfg.capacity)
    simpa using this

theorem seqsIdxAdvance_eq (inside : idx < cfg.capacity) :
    seqsIdxAdvance cfg idx = (idx + 1) % cfg.capacity := by
  unfold seqsIdxAdvance
  split
  · have last : idx + 1 = cfg.capacity := by omega
    rw [last,Nat.sub_self,Nat.mod_self]
  · rw [Nat.mod_eq_of_lt (by omega)]

theorem acquire_cases (q : Seqs) :
    (nvmeSeqsTryAcquireOne cfg q = none ∧ (cfg.capacity ≤ q.used ∨ q.busy q.head = true)) ∨
    (q.used < cfg.capacity ∧ q.busy q.head = false ∧
      nvmeSeqsTryAcquireOne cfg q = some (q.head,
        ⟨seqsIdxAdvance cfg q.head,q.used + 1,Function.update q.busy q.head true⟩)) := by
  unfold nvmeSeqsTryAcquireOne
  by_cases full : cfg.capacity - q.used < 1
  · exact .inl ⟨if_pos full,.inl (by omega)⟩
  · rw [if_neg full]
    cases taken : q.busy q.head with
    | true => exact .inl ⟨if_pos rfl,.inr rfl⟩
    | false => exact .inr ⟨by omega,rfl,if_neg Bool.false_ne_true⟩

theorem acquire_some (acquired : nvmeSeqsTryAcquireOne cfg q = some (slot,q')) :
    q.used < cfg.capacity ∧ q.busy q.head = false ∧ slot = q.head ∧
      q' = ⟨seqsIdxAdvance cfg q.head,q.used + 1,Function.update q.busy q.head true⟩ := by
  rcases acquire_cases cfg q with ⟨none,_⟩ | ⟨room,free,got⟩
  · rw [none] at acquired
    cases acquired
  · rw [got] at acquired
    cases acquired
    exact ⟨room,free,rfl,rfl⟩

theorem Pool.acquire (pool : Pool cfg q outstanding) (acquired : nvmeSeqsTryAcquireOne cfg q = some (c.slot,q')) :
    Pool cfg q' (outstanding ++ [c]) := by
  obtain ⟨room,free,slot,rfl⟩ := acquire_some cfg acquired
  have fresh : c.slot ∉ outstanding.map Command.slot := by
    rw [← pool.busy,slot,free]
    exact Bool.false_ne_true
  have used := pool.used
  refine ⟨?_,?_,?_,?_,?_⟩
  · rw [seqsIdxAdvance_eq cfg pool.head]
    exact Nat.mod_lt _ cfg.hasSlot
  · intro k
    by_cases same : k = q.head
    · simp [same,slot]
    · simp [pool.busy,slot,same]
  · rw [map_append]
    exact nodup_append.mpr ⟨pool.distinct,by simp,by
      intro a member b last
      obtain rfl : b = c.slot := by simpa using last
      rintro rfl
      exact fresh member⟩
  · simp [used]
  · simp
    omega

theorem Free.acquire (head : q.head < cfg.capacity) (free : Free cfg q (k + 1))
    (acquired : nvmeSeqsTryAcquireOne cfg q = some (slot,q')) : Free cfg q' k := by
  obtain ⟨_,_,_,rfl⟩ := acquire_some cfg acquired
  have fits := free.fits
  refine ⟨by simp only; omega,?_⟩
  intro j within
  simp only [seqsIdxAdvance_eq cfg head,Nat.mod_add_mod]
  have later := free.free (j + 1) (by omega)
  rw [show q.head + 1 + j = q.head + (j + 1) by ring]
  have other : (q.head + (j + 1)) % cfg.capacity ≠ q.head := by
    intro same
    rcases Nat.lt_or_ge (q.head + (j + 1)) cfg.capacity with inside | wrapped
    · rw [Nat.mod_eq_of_lt inside] at same
      omega
    · rw [Nat.mod_eq_sub_mod wrapped,Nat.mod_eq_of_lt (by omega)] at same
      omega
  rw [Function.update_of_ne other]
  exact later

theorem Free.not_blocked (head : q.head < cfg.capacity) (free : Free cfg q (k + 1)) : nvmeSeqsTryAcquireOne cfg q ≠ none := by
  have fits := free.fits
  have here := free.free 0 (by omega)
  rw [Nat.add_zero,Nat.mod_eq_of_lt head] at here
  rcases acquire_cases cfg q with ⟨_,full | taken⟩ | ⟨_,_,got⟩
  · omega
  · rw [here] at taken
    cases taken
  · rw [got]
    exact Option.some_ne_none _

theorem Free.before (head : q.head < cfg.capacity) (acquired : nvmeSeqsTryAcquireOne cfg q = some (slot,q'))
    (free : Free cfg q' k) : Free cfg q (k + 1) := by
  obtain ⟨_,here,_,rfl⟩ := acquire_some cfg acquired
  have fits := free.fits
  refine ⟨by simp only at fits; omega,?_⟩
  intro j within
  cases j with
  | zero => rwa [Nat.add_zero,Nat.mod_eq_of_lt head]
  | succ j =>
    have later := free.free j (by omega)
    simp only [seqsIdxAdvance_eq cfg head,Nat.mod_add_mod] at later
    rw [show q.head + 1 + j = q.head + (j + 1) by ring] at later
    have other : (q.head + (j + 1)) % cfg.capacity ≠ q.head := fun same => by simp [same] at later
    rwa [Function.update_of_ne other] at later

def Acquired (q : Seqs) : List Command → Seqs → Prop
  | [], q' => q' = q
  | c :: cs, q' => ∃ q₁, nvmeSeqsTryAcquireOne cfg q = some (c.slot,q₁) ∧ Acquired q₁ cs q'

variable {cfg}

theorem Acquired.pool (acquired : Acquired cfg q cs q') (pool : Pool cfg q outstanding) : Pool cfg q' (outstanding ++ cs) := by
  induction cs generalizing q outstanding with
  | nil =>
    obtain rfl : q' = q := acquired
    simpa using pool
  | cons c cs ih =>
    obtain ⟨q₁,first,rest⟩ := acquired
    have := ih rest (pool.acquire cfg first)
    simpa using this

theorem Acquired.free (acquired : Acquired cfg q cs q')
    (pool : Pool cfg q outstanding) (free : Free cfg q (cs.length + k)) : Free cfg q' k := by
  induction cs generalizing q outstanding with
  | nil =>
    obtain rfl : q' = q := acquired
    simpa using free
  | cons c cs ih =>
    obtain ⟨q₁,first,rest⟩ := acquired
    rw [length_cons,show cs.length + 1 + k = cs.length + k + 1 by ring] at free
    exact ih rest (pool.acquire cfg first) (free.acquire cfg pool.head first)

theorem Acquired.free_before (acquired : Acquired cfg q cs q') (pool : Pool cfg q outstanding) : Free cfg q cs.length := by
  induction cs generalizing q outstanding with
  | nil => exact ⟨pool.used ▸ pool.fits,nofun⟩
  | cons c cs ih =>
    obtain ⟨q₁,first,rest⟩ := acquired
    exact (ih rest (pool.acquire cfg first)).before cfg pool.head first

theorem Pool.release (pool : Pool cfg q outstanding)
    (member : c ∈ outstanding) : Pool cfg (nvmeSeqsRelease q c.slot) (outstanding.erase c) := by
  have used := pool.used
  have nonempty := length_pos_of_mem member
  have length := length_erase_of_mem member
  have nodup : outstanding.Nodup := pool.distinct.of_map _
  have slots : ∀ slot, slot ∈ (outstanding.erase c).map Command.slot ↔
      slot ≠ c.slot ∧ slot ∈ outstanding.map Command.slot := by
    intro slot
    simp only [mem_map,nodup.mem_erase_iff]
    constructor
    · rintro ⟨d,⟨different,inside⟩,rfl⟩
      refine ⟨fun same => different ?_,d,inside,rfl⟩
      exact inj_on_of_nodup_map pool.distinct inside member same
    · rintro ⟨different,d,inside,rfl⟩
      exact ⟨d,⟨fun same => different (congrArg _ same),inside⟩,rfl⟩
  rw [nvmeSeqsRelease,if_neg (by omega)]
  refine ⟨pool.head,?_,?_,?_,?_⟩
  · intro slot
    rw [slots]
    by_cases same : slot = c.slot
    · simp [same]
    · simp [pool.busy,same]
  · exact pool.distinct.sublist ((erase_sublist).map _)
  · simp only
    omega
  · have := pool.fits
    omega

theorem Free.release (free : Free cfg q k) (slot : Nat) : Free cfg (nvmeSeqsRelease q slot) k := by
  have fits := free.fits
  unfold nvmeSeqsRelease
  split
  · exact free
  · refine ⟨by simp only; omega,?_⟩
    intro j within
    by_cases same : (q.head + j) % cfg.capacity = slot
    · simp [same]
    · simp [Function.update_of_ne same,free.free j within]

def State.issued (s : State) (cs : List Command) (q : Seqs) (pending : Option (Nat × Nat)) : State :=
  { s with
    seqs := q
    outstanding := s.outstanding ++ cs
    submitted := s.submitted ++ cs
    pending := pending }

theorem State.issued_issued (s : State) (cs ds : List Command) (q q' : Seqs)
    (p p' : Option (Nat × Nat)) :
    (s.issued cs q p).issued ds q' p' = s.issued (cs ++ ds) q' p' := by
  simp [State.issued]

variable (cfg)

structure Outcome (i : Nat) (b : Bio) (off : Nat) (q : Seqs) (cs : List Command) (q' : Seqs)
    (parked : Option Nat) : Prop where
  acquired : Acquired cfg q cs q'
  segments : cs.map Command.toSegment ++ parked.elim [] (cfg.segments i b) = cfg.segments i b off
  blocked : ∀ o, parked = some o → o < b.vtotal ∧ nvmeSeqsTryAcquireOne cfg q' = none

theorem submitSegments_outcome (i : Nat) (b : Bio) (rounds off : Nat) (s : State)
    (left : off < b.vtotal) (enough : b.vtotal - off ≤ rounds) (pending : s.pending = some (i,off)) :
    ∃ cs q parked, Outcome cfg i b off s.seqs cs q parked ∧
      submitSegments cfg i b rounds off s = (cs.length,s.issued cs q (parked.map (Prod.mk i))) := by
  induction rounds generalizing off s with
  | zero => omega
  | succ rounds ih =>
    rw [submitSegments,submitSegment]
    cases acquired : nvmeSeqsTryAcquireOne cfg s.seqs with
    | none =>
      refine ⟨[],s.seqs,some off,⟨rfl,by simp,?_⟩,?_⟩
      · intro o here
        exact ⟨Option.some.inj here ▸ left,acquired⟩
      · simp [State.issued,← pending]
    | some got =>
      obtain ⟨slot,q₁⟩ := got
      have positive := nextSegment_nr_pos cfg i b left
      have split := segments_of_left cfg i b left
      by_cases more : off + (cfg.nextSegment i b off).nr < b.vtotal
      · obtain ⟨cs,q,parked,outcome,result⟩ := ih (off + (cfg.nextSegment i b off).nr)
          (s.issued [⟨cfg.nextSegment i b off,slot⟩] q₁
            (some (i,off + (cfg.nextSegment i b off).nr))) more (by omega) rfl
        refine ⟨⟨cfg.nextSegment i b off,slot⟩ :: cs,q,parked,⟨⟨q₁,acquired,outcome.acquired⟩,?_,
          outcome.blocked⟩,?_⟩
        · rw [split,← outcome.segments]
          rfl
        · rw [State.issued_issued] at result
          simp only [more,if_true]
          exact congrArg (fun r : Nat × State => (r.1 + 1,r.2)) result
      · refine ⟨[⟨cfg.nextSegment i b off,slot⟩],q₁,none,⟨⟨q₁,acquired,rfl⟩,?_,by simp⟩,?_⟩
        · rw [split,segments_done cfg i b (Nat.not_lt.mp more)]
          rfl
        · simp only [more,if_false]
          rfl

theorem submitNext_fresh (s : State) (none : s.pending = none) (here : cfg.bios[s.idx]? = some b) :
    ∃ cs q parked, Outcome cfg s.idx b 0 s.seqs cs q parked ∧
      submitNext cfg s = (cs.length,{ s.issued cs q (parked.map (Prod.mk s.idx)) with
        idx := if parked = .none then s.idx + 1 else s.idx }) := by
  obtain ⟨cs,q,parked,outcome,result⟩ := submitSegments_outcome cfg s.idx b b.vtotal 0
    { s with pending := some (s.idx,0) } b.positive (Nat.sub_le _ _) rfl
  refine ⟨cs,q,parked,outcome,?_⟩
  have inside : s.idx < cfg.bios.length := (List.getElem?_eq_some_iff.mp here).1
  have one : nvmeRdSubmitBioOne cfg (some s.idx) s =
      (cs.length,s.issued cs q (parked.map (Prod.mk s.idx))) := by
    simp only [nvmeRdSubmitBioOne,none,resume,here,Nat.sub_zero]
    exact result
  rw [submitNext,if_neg (by simp [none]),if_pos inside,one]
  cases parked with
  | none => simp [State.issued]
  | some off => simp [State.issued]

theorem submitNext_resume (s : State) (pending : s.pending = some (i,off))
    (here : cfg.bios[i]? = some b) (left : off < b.vtotal) :
    ∃ cs q parked, Outcome cfg i b off s.seqs cs q parked ∧
      submitNext cfg s = (cs.length,s.issued cs q (parked.map (Prod.mk i))) := by
  obtain ⟨cs,q,parked,outcome,result⟩ := submitSegments_outcome cfg i b (b.vtotal - off) off s left
    (Nat.le_refl _) pending
  refine ⟨cs,q,parked,outcome,?_⟩
  rw [submitNext,if_pos (by simp [pending]),nvmeRdSubmitBioOne]
  simp only [pending,resume,here]
  exact result

theorem submitNext_done (s : State) (none : s.pending = none) (done : cfg.bios.length ≤ s.idx) :
    submitNext cfg s = (0,s) := by
  rw [submitNext,if_neg (by simp [none]),if_neg (Nat.not_lt.mpr done)]

def advance (s : State) : State :=
  { (submitNext cfg s).2 with inflight := (submitNext cfg s).2.inflight + (submitNext cfg s).1 }

theorem topUp_rule {P : State → Prop}
    (keeps : ∀ s, P s → s.inflight < cfg.targetQd → P (advance cfg s)) (rounds : Nat) (s : State)
    (start : P s) : P (topUp cfg rounds s) := by
  induction rounds generalizing s with
  | zero => exact start
  | succ rounds ih =>
    rw [topUp]
    split
    · rename_i room
      have next := keeps s start room
      dsimp only
      split
      · rename_i zero
        simpa [advance,zero] using next
      · exact ih _ next
    · exact start

theorem submitSegments_same (i : Nat) (b : Bio) (rounds off : Nat) (s : State) :
    (submitSegments cfg i b rounds off s).2.inflight = s.inflight ∧
    ((submitSegments cfg i b rounds off s).1 = 0 → (submitSegments cfg i b rounds off s).2 = s) := by
  induction rounds generalizing off s with
  | zero => exact ⟨rfl,fun _ => rfl⟩
  | succ rounds ih =>
    rw [submitSegments,submitSegment]
    cases acquired : nvmeSeqsTryAcquireOne cfg s.seqs with
    | none => exact ⟨rfl,fun _ => rfl⟩
    | some got =>
      by_cases more : off + (cfg.nextSegment i b off).nr < b.vtotal
      · simp only [more,if_true]
        exact ⟨(ih _ _).1,by simp⟩
      · simp [more]

theorem resume_same (i off : Nat) (s : State) :
    (resume cfg i off s).2.inflight = s.inflight ∧
    ((resume cfg i off s).1 = 0 → (resume cfg i off s).2 = s) := by
  unfold resume
  cases cfg.bios[i]? with
  | none => exact ⟨rfl,fun _ => rfl⟩
  | some b => exact submitSegments_same cfg i b (b.vtotal - off) off s

theorem submitNext_inflight (s : State) : (submitNext cfg s).2.inflight = s.inflight := by
  unfold submitNext nvmeRdSubmitBioOne
  cases s.pending with
  | some parked => exact (resume_same cfg _ _ s).1
  | none =>
    have fresh := resume_same cfg s.idx 0 { s with pending := some (s.idx,0) }
    simp only [Option.isSome_none,Bool.false_eq_true,if_false]
    split
    · dsimp only
      split <;> exact fresh.1
    · rfl

theorem submitNext_zero (s : State) (zero : (submitNext cfg s).1 = 0)
    (none : (submitNext cfg s).2.pending = .none) : cfg.bios.length ≤ (submitNext cfg s).2.idx := by
  cases pending : s.pending with
  | some parked =>
    have same := resume_same cfg parked.1 parked.2 s
    have round : submitNext cfg s = resume cfg parked.1 parked.2 s := by
      simp [submitNext,nvmeRdSubmitBioOne,pending]
    rw [round] at zero none
    rw [same.2 zero,pending] at none
    cases none
  | none =>
    by_cases inside : s.idx < cfg.bios.length
    · obtain ⟨cs,q,parked,outcome,round⟩ := submitNext_fresh cfg s pending
        (List.getElem?_eq_getElem inside)
      rw [round] at zero none
      have empty : cs = [] := length_eq_zero_iff.mp zero
      have whole : parked = .none := by simpa [State.issued] using none
      have := outcome.segments
      rw [empty,whole,segments_of_left cfg _ _ (cfg.bios[s.idx]).positive] at this
      cases this
    · rw [submitNext_done cfg s pending (Nat.not_lt.mp inside)]
      exact Nat.not_lt.mp inside

theorem topUp_exit (rounds : Nat) (s : State) (enough : cfg.targetQd ≤ s.inflight + rounds) :
    cfg.targetQd ≤ (topUp cfg rounds s).inflight ∨
    ((topUp cfg rounds s).pending = none → cfg.bios.length ≤ (topUp cfg rounds s).idx) := by
  induction rounds generalizing s with
  | zero => exact .inl enough
  | succ rounds ih =>
    have inflight := submitNext_inflight cfg s
    rw [topUp]
    by_cases room : s.inflight < cfg.targetQd
    · rw [if_pos room]
      by_cases zero : (submitNext cfg s).1 = 0
      · rw [if_pos zero]
        exact .inr (submitNext_zero cfg s zero)
      · rw [if_neg zero]
        exact ih _ (by simp only; omega)
    · rw [if_neg room]
      exact .inl (Nat.not_lt.mp room)

end Oxbow.Daemon.InlineRead
