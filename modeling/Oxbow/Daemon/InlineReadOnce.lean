import Oxbow.Daemon.InlineReadPool

/-! When an inline read submits every page exactly once. A BIO whose submission is
interrupted by the pool is submitted again from its first page, so the answer is: exactly
when no order of completions can make the pool interrupt a BIO. -/
namespace Oxbow.Daemon.InlineRead

open Oxbow.Lib Function List Option

variable (cfg : Config)

def Config.segmentsTo (k : Nat) : List Segment :=
  (List.range k).flatMap fun i => (cfg.bios[i]?).elim [] fun b => cfg.segments i b 0

theorem segmentsTo_succ (here : cfg.bios[k]? = some b) :
    cfg.segmentsTo (k + 1) = cfg.segmentsTo k ++ cfg.segments k b 0 := by
  simp [Config.segmentsTo,range_succ,here]

theorem segmentsTo_length (within : k ≤ cfg.bios.length) :
    (cfg.segmentsTo k).length = ((cfg.bios.take k).map cfg.nCommands).sum := by
  induction k with
  | zero => rfl
  | succ k ih =>
    have here := List.getElem?_eq_getElem (show k < cfg.bios.length by omega)
    rw [segmentsTo_succ cfg here,length_append,ih (by omega),← nCommands_eq,take_add_one,here,
      map_append,sum_append]
    simp only [toList_some,map_cons,map_nil,sum_cons,sum_nil,Nat.add_zero]

theorem segmentsTo_cover (here : cfg.bios[j]? = some b) (page : Nat) (inside : page < b.vtotal)
    (within : k ≤ cfg.bios.length) :
    (cfg.segmentsTo k).countP (Segment.covers j (b.start + page)) = if j < k then 1 else 0 := by
  induction k with
  | zero => rfl
  | succ k ih =>
    have there := List.getElem?_eq_getElem (show k < cfg.bios.length by omega)
    rw [segmentsTo_succ cfg there,countP_append,ih (by omega)]
    by_cases same : k = j
    · subst same
      obtain rfl : b = cfg.bios[k] := some.inj (here.symm.trans there)
      rw [segments_cover]
      simp [inside]
    · have none : (cfg.segments k cfg.bios[k] 0).countP (Segment.covers j (b.start + page)) = 0 := by
        rw [countP_eq_zero]
        intro g member covered
        have bio := (segments_bio cfg k cfg.bios[k] 0 g member).1
        rw [Segment.covers,decide_eq_true_iff] at covered
        omega
      rw [none]
      have : j < k + 1 ↔ j < k := by omega
      simp only [this,Nat.add_zero]

structure Orderly (s : State) : Prop where
  pending : s.pending = none
  within : s.idx ≤ cfg.bios.length
  submitted : s.submitted.map Command.toSegment = cfg.segmentsTo s.idx
  pool : Pool cfg s.seqs s.outstanding

theorem Orderly.length (orderly : Orderly cfg s) : s.submitted.length = ((cfg.bios.take s.idx).map cfg.nCommands).sum := by
  rw [← segmentsTo_length cfg orderly.within,← orderly.submitted,length_map]

def State.submittedBio (s : State) (cs : List Command) (q : Seqs) : State :=
  { s.issued cs q none with idx := s.idx + 1, inflight := s.inflight + cs.length }

def State.parkedBio (s : State) (cs : List Command) (q : Seqs) (off : Nat) : State :=
  { s.issued cs q (some (s.idx,off)) with inflight := s.inflight + cs.length }

theorem advance_cases (orderly : Orderly cfg s) : (s.idx = cfg.bios.length ∧ advance cfg s = s) ∨
    ∃ b cs q parked, cfg.bios[s.idx]? = some b ∧ Outcome cfg s.idx b 0 s.seqs cs q parked ∧
      advance cfg s = parked.elim (s.submittedBio cs q) (s.parkedBio cs q) := by
  by_cases inside : s.idx < cfg.bios.length
  · have here := List.getElem?_eq_getElem inside
    obtain ⟨cs,q,parked,outcome,round⟩ := submitNext_fresh cfg s orderly.pending here
    refine .inr ⟨_,cs,q,parked,here,outcome,?_⟩
    rw [advance,round]
    cases parked <;> simp [State.issued,State.submittedBio,State.parkedBio]
  · have done := Nat.not_lt.mp inside
    refine .inl ⟨Nat.le_antisymm orderly.within done,?_⟩
    rw [advance,submitNext_done cfg s orderly.pending done]
    simp

theorem Orderly.submittedBio (orderly : Orderly cfg s)
    (here : cfg.bios[s.idx]? = some b) (outcome : Outcome cfg s.idx b 0 s.seqs cs q none) :
    Orderly cfg (s.submittedBio cs q) where
  pending := rfl
  within := (List.getElem?_eq_some_iff.mp here).1
  submitted := by
    have segments : cs.map Command.toSegment = cfg.segments s.idx b 0 := by
      simpa using outcome.segments
    change (s.submitted ++ cs).map _ = cfg.segmentsTo (s.idx + 1)
    rw [map_append,orderly.submitted,segmentsTo_succ cfg here,segments]
  pool := outcome.acquired.pool orderly.pool

theorem Outcome.length (outcome : Outcome cfg i b 0 q cs q' none) : cs.length = cfg.nCommands b := by
  rw [nCommands_eq cfg i b,← outcome.segments]
  simp

def State.completed (s : State) (c : Command) : State :=
  { s with
    outstanding := s.outstanding.erase c
    seqs := nvmeSeqsRelease s.seqs c.slot
    vcnt := update s.vcnt c.bio (s.vcnt c.bio - UInt16.ofNat c.nr)
    ended := if s.vcnt c.bio - UInt16.ofNat c.nr = 0 then s.ended ++ [c.bio] else s.ended }

theorem readComplete_some (done : readComplete s slot = some t) : ∃ c ∈ s.outstanding,
    c.slot = slot ∧ t = s.completed c := by
  unfold readComplete at done
  cases found : s.outstanding.find? fun c => c.slot = slot with
  | none =>
    rw [found] at done
    cases done
  | some c =>
    rw [found] at done
    have here : c.slot = slot := by simpa using List.find?_some found
    refine ⟨c,mem_of_find?_eq_some found,here,?_⟩
    rw [← some.inj done,← here]
    rfl

theorem readComplete_of_mem (pool : Pool cfg s.seqs s.outstanding)
    (member : c ∈ s.outstanding) : readComplete s c.slot = some (s.completed c) := by
  unfold readComplete
  cases found : s.outstanding.find? fun d => d.slot = c.slot with
  | none =>
    have := List.find?_eq_none.mp found c member
    simp at this
  | some d =>
    have same : d.slot = c.slot := by simpa using List.find?_some found
    obtain rfl := inj_on_of_nodup_map pool.distinct (mem_of_find?_eq_some found) member same
    rfl

theorem Orderly.completed (orderly : Orderly cfg s) (member : c ∈ s.outstanding) : Orderly cfg (s.completed c) :=
  ⟨orderly.pending,orderly.within,orderly.submitted,orderly.pool.release member⟩

def load (i : Nat) (outstanding : List Command) : Nat :=
  ((outstanding.filter fun c => c.bio = i).map fun c => c.nr).sum

theorem load_append (i : Nat) (cs ds : List Command) : load i (cs ++ ds) = load i cs + load i ds := by
  simp [load]

theorem load_other (others : ∀ c ∈ cs, c.bio ≠ i) : load i cs = 0 := by
  have none : cs.filter (fun c => c.bio = i) = [] := by
    rw [filter_eq_nil_iff]
    intro c member
    simpa using others c member
  rw [load,none]
  rfl

theorem load_same (all : ∀ c ∈ cs, c.bio = i) : load i cs = (cs.map fun c => c.nr).sum := by
  have whole : cs.filter (fun c => c.bio = i) = cs := by
    rw [filter_eq_self]
    intro c member
    simpa using all c member
  rw [load,whole]

theorem load_erase (member : c ∈ cs) : load i cs = (if c.bio = i then c.nr else 0) + load i (cs.erase c) := by
  have split := ((perm_cons_erase member).filter (fun d => d.bio = i)).map (fun d => d.nr)
  rw [load,split.sum_nat,filter_cons]
  by_cases here : c.bio = i
  · simp [here,load]
  · simp [here,load]

structure Counted (s : State) : Prop where
  issued : ∀ c ∈ s.outstanding, 0 < c.nr ∧ c.bio < s.idx
  fits : ∀ i b, cfg.bios[i]? = some b → load i s.outstanding ≤ b.vtotal
  vcnt : ∀ i b, cfg.bios[i]? = some b →
    s.vcnt i = UInt16.ofNat (if i < s.idx then load i s.outstanding else b.vtotal)
  ended : ∀ i b, cfg.bios[i]? = some b →
    s.ended.count i = if i < s.idx ∧ load i s.outstanding = 0 then 1 else 0

theorem Outcome.commands (outcome : Outcome cfg i b 0 q cs q' none) :
    (∀ c ∈ cs, 0 < c.nr ∧ c.bio = i) ∧ load i cs = b.vtotal := by
  have segments : cs.map Command.toSegment = cfg.segments i b 0 := by
    simpa using outcome.segments
  have each : ∀ c ∈ cs, 0 < c.nr ∧ c.bio = i := by
    intro c member
    have := segments_bio cfg i b 0 c.toSegment (segments ▸ mem_map_of_mem member)
    exact ⟨this.2,this.1⟩
  refine ⟨each,?_⟩
  have sum := segments_sum cfg i b 0
  rw [← segments,List.map_map] at sum
  rw [load_same fun c member => (each c member).2]
  exact sum

theorem Counted.submittedBio (counted : Counted cfg s)
    (here : cfg.bios[s.idx]? = some b) (outcome : Outcome cfg s.idx b 0 s.seqs cs q none) :
    Counted cfg (s.submittedBio cs q) := by
  obtain ⟨each,whole⟩ := outcome.commands
  -- What is added belongs to BIO `idx`, of which nothing was outstanding.
  have before : load s.idx s.outstanding = 0 := load_other fun c member => by
    have := (counted.issued c member).2
    omega
  have loads : ∀ i, load i (s.outstanding ++ cs) =
      if i = s.idx then b.vtotal else load i s.outstanding := by
    intro i
    rw [load_append]
    by_cases same : i = s.idx
    · rw [same,before,whole,if_pos rfl,Nat.zero_add]
    · have none : load i cs = 0 := load_other fun c member => by
        have := (each c member).2
        omega
      rw [if_neg same,none,Nat.add_zero]
  have positive := b.positive
  refine ⟨?_,?_,?_,?_⟩
  · intro c member
    change c.nr > 0 ∧ c.bio < s.idx + 1
    rcases mem_append.mp member with old | new
    · have := counted.issued c old
      omega
    · have := each c new
      omega
  · intro i b' there
    change load i (s.outstanding ++ cs) ≤ _
    rw [loads]
    split
    · rename_i same
      obtain rfl : b = b' := some.inj (here.symm.trans (same ▸ there))
      exact Nat.le_refl _
    · exact counted.fits i b' there
  · intro i b' there
    change s.vcnt i = UInt16.ofNat (if i < s.idx + 1 then load i (s.outstanding ++ cs) else _)
    rw [counted.vcnt i b' there,loads]
    by_cases same : i = s.idx
    · obtain rfl : b = b' := some.inj (here.symm.trans (same ▸ there))
      simp [same]
    · have : i < s.idx + 1 ↔ i < s.idx := by omega
      simp only [this,same,if_false]
  · intro i b' there
    change s.ended.count i = if i < s.idx + 1 ∧ load i (s.outstanding ++ cs) = 0 then 1 else 0
    rw [counted.ended i b' there,loads]
    by_cases same : i = s.idx
    · rw [if_pos same,if_neg (by omega),if_neg (by omega)]
    · have : i < s.idx + 1 ↔ i < s.idx := by omega
      simp only [this,same,if_false]

theorem Counted.completed (counted : Counted cfg s) (within : s.idx ≤ cfg.bios.length)
    (member : c ∈ s.outstanding) : Counted cfg (s.completed c) := by
  obtain ⟨positive,before⟩ := counted.issued c member
  have loads : ∀ i, load i s.outstanding =
      (if c.bio = i then c.nr else 0) + load i (s.outstanding.erase c) := fun i => load_erase member
  have at_bio := loads c.bio
  rw [if_pos rfl] at at_bio
  have here := List.getElem?_eq_getElem (show c.bio < cfg.bios.length by omega)
  have fits := counted.fits _ _ here
  have short := (cfg.bios[c.bio]).short
  have left : s.vcnt c.bio - UInt16.ofNat c.nr =
      UInt16.ofNat (load c.bio (s.outstanding.erase c)) := by
    rw [counted.vcnt _ _ here,if_pos before,at_bio,← UInt16.ofNat_sub (by omega)]
    simp
  have zero : s.vcnt c.bio - UInt16.ofNat c.nr = 0 ↔ load c.bio (s.outstanding.erase c) = 0 := by
    rw [left,← UInt16.toNat_inj]
    simp
    omega
  refine ⟨?_,?_,?_,?_⟩
  · intro d inside
    exact counted.issued d (mem_of_mem_erase inside)
  · intro i b there
    have := counted.fits i b there
    have := loads i
    change load i (s.outstanding.erase c) ≤ _
    omega
  · intro i b there
    by_cases same : i = c.bio
    · subst same
      change update s.vcnt c.bio _ c.bio = UInt16.ofNat (if c.bio < s.idx then _ else _)
      rw [update_self,left,if_pos before]
      rfl
    · change update s.vcnt c.bio _ i = UInt16.ofNat (if i < s.idx then _ else _)
      rw [update_of_ne same,counted.vcnt i b there,loads i,if_neg (Ne.symm same),Nat.zero_add]
      rfl
  · intro i b there
    have ended := counted.ended i b there
    change (if _ then s.ended ++ [c.bio] else s.ended).count i =
      if i < s.idx ∧ load i (s.outstanding.erase c) = 0 then 1 else 0
    by_cases same : i = c.bio
    · subst same
      rw [if_neg (by omega)] at ended
      by_cases last : load c.bio (s.outstanding.erase c) = 0
      · rw [if_pos (zero.mpr last),if_pos ⟨before,last⟩,count_append,ended]
        simp
      · rw [if_neg (mt zero.mp last),if_neg fun h => last h.2,ended]
    · rw [loads i,if_neg (Ne.symm same),Nat.zero_add] at ended
      split
      · have other : (c.bio == i) = false := by simpa using Ne.symm same
        simp only [count_append,ended,count_singleton,other,Bool.false_eq_true,if_false,Nat.add_zero]
      · exact ended

/-- The pool can take all the commands of every BIO, or those of one BIO at a time with
only one BIO in flight. -/
def NeverInterrupted : Prop :=
  (cfg.targetQd = 1 ∧ ∀ b ∈ cfg.bios, cfg.nCommands b ≤ cfg.capacity) ∨
  (cfg.bios.map cfg.nCommands).sum ≤ cfg.capacity

instance : Decidable (NeverInterrupted cfg) := inferInstanceAs (Decidable (_ ∨ _))

def Config.remaining (idx : Nat) : Nat := ((cfg.bios.drop idx).map cfg.nCommands).sum

theorem remaining_succ (here : cfg.bios[idx]? = some b) :
    cfg.remaining idx = cfg.nCommands b + cfg.remaining (idx + 1) := by
  obtain ⟨inside,same⟩ := List.getElem?_eq_some_iff.mp here
  rw [Config.remaining,drop_eq_getElem_cons inside,same]
  simp [Config.remaining]

structure Steady (s : State) : Prop where
  orderly : Orderly cfg s
  counted : Counted cfg s
  roomy : (cfg.targetQd = 1 ∧ ∀ b ∈ cfg.bios, cfg.nCommands b ≤ cfg.capacity) ∨
    Free cfg s.seqs (cfg.remaining s.idx)

theorem targetQd_pos : 0 < cfg.targetQd := by
  have := cfg.hasSlot
  unfold Config.targetQd
  split <;> omega

section

variable (steady : Steady cfg s)
include steady

theorem Steady.free (inflight : s.inflight = s.outstanding.length)
    (room : s.inflight < cfg.targetQd) (here : cfg.bios[s.idx]? = some b) :
    Free cfg s.seqs (cfg.nCommands b) := by
  rcases steady.roomy with ⟨one,fits⟩ | free
  · have empty : s.outstanding = [] := length_eq_zero_iff.mp (by omega)
    exact free_of_idle cfg (empty ▸ steady.orderly.pool) (fits b (mem_of_getElem? here))
  · rw [remaining_succ cfg here] at free
    exact free.mono cfg (Nat.le_add_right _ _)

theorem Steady.advance (inflight : s.inflight = s.outstanding.length) (room : s.inflight < cfg.targetQd) :
    Steady cfg (advance cfg s) ∧ (advance cfg s).inflight = (advance cfg s).outstanding.length := by
  rcases advance_cases cfg steady.orderly with ⟨_,same⟩ | ⟨b,cs,q,parked,here,outcome,next⟩
  · rw [same]
    exact ⟨steady,inflight⟩
  · have pool := steady.orderly.pool
    have free := steady.free cfg inflight room here
    cases parked with
    | some off =>
      -- A parked BIO still has a command for which the head was free.
      obtain ⟨left,blocked⟩ := outcome.blocked off rfl
      have length := congrArg List.length outcome.segments
      rw [← nCommands_eq,length_append,length_map,elim_some,
        segments_of_left cfg _ _ left,length_cons] at length
      rw [← length] at free
      exact absurd blocked ((outcome.acquired.free pool free).not_blocked cfg
        (outcome.acquired.pool pool).head)
    | none =>
      rw [next]
      refine ⟨⟨steady.orderly.submittedBio cfg here outcome,
        steady.counted.submittedBio cfg here outcome,?_⟩,?_⟩
      · rcases steady.roomy with one | free
        · exact .inl one
        · rw [remaining_succ cfg here,← outcome.length] at free
          exact .inr (outcome.acquired.free pool free)
      · simp [State.submittedBio,State.issued,inflight]

theorem Steady.completed (member : c ∈ s.outstanding) : Steady cfg (s.completed c) where
  orderly := steady.orderly.completed cfg member
  counted := steady.counted.completed cfg steady.orderly.within member
  roomy := by
    rcases steady.roomy with one | free
    · exact .inl one
    · exact .inr (free.release c.slot)

theorem Steady.control (pc : Pc) (inflight : Nat) : Steady cfg { s with pc := pc, inflight := inflight } :=
  ⟨⟨steady.orderly.pending,steady.orderly.within,steady.orderly.submitted,steady.orderly.pool⟩,
    ⟨steady.counted.issued,steady.counted.fits,steady.counted.vcnt,steady.counted.ended⟩,steady.roomy⟩

end

structure Running (s : State) : Prop where
  steady : Steady cfg s
  inflight : s.inflight = s.outstanding.length
  busy : s.pc = .polling → s.outstanding ≠ []
  done : s.pc = .returned → ReadOnce cfg s

theorem Steady.readOnce (steady : Steady cfg s) (empty : s.outstanding = [])
    (all : s.idx = cfg.bios.length) (returned : s.pc = .returned) : ReadOnce cfg s where
  returned := returned
  nothingPending := steady.orderly.pending
  slotsFree := by
    have pool := steady.orderly.pool
    rw [empty] at pool
    exact ⟨pool.used,fun slot => by simpa using pool.busy slot⟩
  once i b here := by
    have inside : i < s.idx := all ▸ (List.getElem?_eq_some_iff.mp here).1
    constructor
    · intro page within
      have := segmentsTo_cover cfg here page within steady.orderly.within
      rw [if_pos inside,← steady.orderly.submitted,countP_map] at this
      exact this
    · rw [steady.counted.ended i b here,empty]
      simp [inside,load]

def Balanced (s t : State) : Prop :=
  s.submitted.length + t.outstanding.length = t.submitted.length + s.outstanding.length

theorem Balanced.trans (first : Balanced s t) (second : Balanced t u) : Balanced s u := by
  unfold Balanced at *
  omega

theorem advance_balanced (orderly : Orderly cfg s) : Balanced s (advance cfg s) := by
  rcases advance_cases cfg orderly with ⟨_,same⟩ | ⟨b,cs,q,parked,_,_,next⟩
  · rw [same]
    rfl
  · rw [next]
    cases parked <;>
      simp only [Balanced,elim_none,elim_some,State.submittedBio,State.parkedBio,
        State.issued,length_append] <;> omega

theorem Running.fill (running : Running cfg s) :
    Running cfg (fill cfg s) ∧ (fill cfg s).pc ≠ .submitting ∧ Balanced s (fill cfg s) := by
  have steady := topUp_rule cfg
    (P := fun t => Steady cfg t ∧ t.inflight = t.outstanding.length ∧ Balanced s t)
    (fun t held room => by
      obtain ⟨steady,inflight⟩ := held.1.advance cfg held.2.1 room
      exact ⟨steady,inflight,held.2.2.trans (advance_balanced cfg held.1.orderly)⟩)
    (cfg.targetQd - s.inflight) s ⟨running.steady,running.inflight,rfl⟩
  have exit := topUp_exit cfg (cfg.targetQd - s.inflight) s (by omega)
  have positive := targetQd_pos cfg
  unfold InlineRead.fill settle
  generalize topUp cfg (cfg.targetQd - s.inflight) s = t at steady exit
  obtain ⟨steady,inflight,balance⟩ := steady
  by_cases idle : t.inflight = 0
  · have all : t.idx = cfg.bios.length := by
      rcases exit with full | done
      · omega
      · exact Nat.le_antisymm steady.orderly.within (done steady.orderly.pending)
    have empty : t.outstanding = [] := length_eq_zero_iff.mp (inflight ▸ idle)
    rw [if_pos ⟨idle,all,steady.orderly.pending⟩]
    refine ⟨⟨steady.control cfg .returned t.inflight,inflight,?_,?_⟩,by simp,balance⟩
    · simp
    · intro _
      exact (steady.control cfg .returned t.inflight).readOnce cfg empty all rfl
  · rw [if_neg (fun h => idle h.1),if_pos (Nat.pos_of_ne_zero idle)]
    refine ⟨⟨steady.control cfg .polling t.inflight,inflight,?_,by simp⟩,by simp,balance⟩
    intro _ empty
    rw [inflight] at idle
    simp only at empty
    simp [empty] at idle

theorem Steady.readCompletes (steady : Steady cfg s) (done : readCompletes s slots = some t) :
    Steady cfg t ∧ t.inflight = s.inflight ∧ t.submitted = s.submitted ∧
      t.outstanding.length + slots.length = s.outstanding.length := by
  induction slots generalizing s with
  | nil =>
    obtain rfl : s = t := some.inj done
    exact ⟨steady,rfl,rfl,rfl⟩
  | cons slot slots ih =>
    obtain ⟨u,first,rest⟩ := bind_eq_some_iff.mp done
    obtain ⟨c,member,_,rfl⟩ := readComplete_some first
    have length := length_erase_of_mem member
    have positive := length_pos_of_mem member
    obtain ⟨kept,inflight,submitted,count⟩ := ih (steady.completed cfg member) rest
    refine ⟨kept,inflight,submitted,?_⟩
    simp only [State.completed] at count
    rw [length_cons]
    omega

theorem Running.poll (running : Running cfg s) (polled : poll cfg s slots = some t) :
    Running cfg t ∧ t.submitted = s.submitted ∧ t.pc ≠ .returned ∧
      t.outstanding.length < s.outstanding.length := by
  unfold InlineRead.poll at polled
  split at polled
  · cases polled
  rename_i some
  obtain ⟨u,done,rfl⟩ := map_eq_some_iff.mp polled
  obtain ⟨steady,inflight,submitted,count⟩ := running.steady.readCompletes cfg done
  have positive := length_pos_of_ne_nil some
  have left : u.inflight - slots.length = u.outstanding.length := by
    have := running.inflight
    omega
  refine ⟨⟨steady.control cfg _ _,left,?_,?_⟩,submitted,?_,?_⟩
  · intro polling empty
    simp only at polling empty
    split at polling
    · cases polling
    · rename_i fills
      refine fills ((State.fills_iff cfg _).mpr (.inl ?_))
      simp [left,empty]
  · simp only
    split <;> simp
  · simp only
    split <;> simp
  · simp only
    omega

theorem start_steady (head : Fin cfg.capacity) (fits : NeverInterrupted cfg) :
    Steady cfg (start cfg head) where
  orderly :=
    ⟨rfl,Nat.zero_le _,rfl,⟨head.isLt,by simp [start],nodup_nil,rfl,Nat.zero_le _⟩⟩
  counted :=
    ⟨by simp [start],by simp [start,load],by intro i b here; simp [start,here],by simp [start]⟩
  roomy := by
    rcases fits with one | fits
    · exact .inl one
    · exact .inr ⟨by simpa [start,Config.remaining] using fits,by simp [start]⟩

theorem start_running (head : Fin cfg.capacity) (fits : NeverInterrupted cfg) :
    Running cfg (start cfg head) :=
  ⟨start_steady cfg head fits,rfl,by simp [start],by simp [start]⟩

theorem Orderly.submitted_le (orderly : Orderly cfg s) : s.submitted.length ≤ (cfg.bios.map cfg.nCommands).sum := by
  have split := congrArg (fun bios => (bios.map cfg.nCommands).sum) (take_append_drop s.idx cfg.bios)
  simp only [map_append,sum_append] at split
  have := orderly.length
  omega

def Config.toDo (s : State) : Nat :=
  2 * ((cfg.bios.map cfg.nCommands).sum + s.outstanding.length - s.submitted.length) +
    if s.pc = .submitting then 1 else 0

theorem Running.moves (running : Running cfg s) : ReadOnce cfg s ∨ ∃ a t, step cfg s a = some t := by
  cases pc : s.pc with
  | submitting => exact .inr ⟨.fill,InlineRead.fill cfg s,by simp [InlineRead.step,pc]⟩
  | returned => exact .inl (running.done pc)
  | polling =>
    obtain ⟨c,member⟩ := exists_mem_of_ne_nil _ (running.busy pc)
    have completes := readComplete_of_mem cfg running.steady.orderly.pool member
    refine .inr ⟨.poll [c.slot],?_⟩
    simp [InlineRead.step,pc,InlineRead.poll,InlineRead.readCompletes,completes]

theorem Running.step (running : Running cfg s) (next : step cfg s a = some t) : Running cfg t ∧ cfg.toDo t < cfg.toDo s := by
  have total := running.steady.orderly.submitted_le
  cases a with
  | fill =>
    simp only [InlineRead.step] at next
    split at next
    · rename_i submitting
      cases next
      obtain ⟨kept,left,balanced⟩ := running.fill
      have total' := kept.steady.orderly.submitted_le
      refine ⟨kept,?_⟩
      unfold Balanced at balanced
      rw [Config.toDo,Config.toDo,if_neg left,if_pos submitting]
      omega
    · cases next
  | poll slots =>
    simp only [InlineRead.step] at next
    split at next
    · obtain ⟨kept,submitted,_,fewer⟩ := running.poll cfg next
      refine ⟨kept,?_⟩
      rw [Config.toDo,Config.toDo,submitted]
      split <;> split <;> omega
    · cases next

/-- If the pool never interrupts a BIO, every order of completions reads every page once. -/
theorem readOnce_inevitable (head : Fin cfg.capacity) (fits : NeverInterrupted cfg) :
    Inevitable (step cfg) (ReadOnce cfg) (start cfg head) :=
  inevitable_of_measure (Running cfg) cfg.toDo (fun _ running => running.moves)
    (fun _ _ _ running next => running.step cfg next) _ (start_running cfg head fits)

end Oxbow.Daemon.InlineRead
