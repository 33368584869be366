import Oxbow.Daemon.InlineReadOnce

/-! The other half: a BIO that the pool interrupts is read twice if the call returns at
all, and unless the pool can take every command some order of completions interrupts one.
That order keeps the very first command outstanding for as long as it can. -/
namespace Oxbow.Daemon.InlineRead

open Oxbow.Lib List Option

variable (cfg : Config)

theorem submitSegments_grows (i : Nat) (b : Bio) (rounds off : Nat) (s : State) :
    s.submitted.Sublist (submitSegments cfg i b rounds off s).2.submitted := by
  induction rounds generalizing off s with
  | zero => exact .refl _
  | succ rounds ih =>
    rw [submitSegments,submitSegment]
    cases acquired : nvmeSeqsTryAcquireOne cfg s.seqs with
    | none => exact .refl _
    | some got =>
      have grown : s.submitted.Sublist (s.submitted ++ [⟨cfg.nextSegment i b off,got.1⟩]) :=
        sublist_append_left _ _
      by_cases more : off + (cfg.nextSegment i b off).nr < b.vtotal
      · have later := ih (off + (cfg.nextSegment i b off).nr)
          (s.issued [⟨cfg.nextSegment i b off,got.1⟩] got.2 (some (i,off + (cfg.nextSegment i b off).nr)))
        simp only [more,if_true]
        exact grown.trans later
      · simp only [more,if_false]
        exact grown

theorem resume_grows (i off : Nat) (s : State) :
    s.submitted.Sublist (resume cfg i off s).2.submitted := by
  unfold resume
  cases cfg.bios[i]? with
  | none => exact .refl _
  | some b => exact submitSegments_grows cfg i b _ off s

theorem advance_grows (s : State) : s.submitted.Sublist (advance cfg s).submitted := by
  change s.submitted.Sublist (submitNext cfg s).2.submitted
  unfold submitNext nvmeRdSubmitBioOne
  cases s.pending with
  | some parked => exact resume_grows cfg _ _ s
  | none =>
    have fresh := resume_grows cfg s.idx 0 { s with pending := some (s.idx,0) }
    simp only [isSome_none,Bool.false_eq_true,if_false]
    split
    · dsimp only
      split <;> exact fresh
    · exact .refl _

theorem pageReads_mono (grows : s.submitted.Sublist t.submitted) (i address : Nat) :
    pageReads i address s ≤ pageReads i address t :=
  grows.countP_le

theorem Outcome.first_page (outcome : Outcome cfg i b 0 q cs q' parked) :
    (cs = [] ∧ parked = some 0) ∨ 1 ≤ cs.countP fun c => c.toSegment.covers i b.start := by
  have segments := outcome.segments
  rw [segments_of_left cfg i b b.positive] at segments
  cases cs with
  | nil =>
    cases parked with
    | none => cases segments
    | some off =>
      have left := (outcome.blocked off rfl).1
      rw [map_nil,nil_append,elim_some,segments_of_left cfg i b left] at segments
      have same := congrArg Segment.start (cons.inj segments).1
      simp only [Config.nextSegment] at same
      exact .inl ⟨rfl,congrArg some (by omega)⟩
  | cons c cs =>
    have first : c.toSegment = cfg.nextSegment i b 0 := (cons.inj segments).1
    have positive := nextSegment_nr_pos cfg i b b.positive
    refine .inr (countP_pos_iff.mpr ⟨c,mem_cons_self,?_⟩)
    rw [first,Segment.covers,decide_eq_true_iff]
    exact ⟨rfl,by simp [Config.nextSegment],by simp only [Config.nextSegment] at positive ⊢; omega⟩

def ReadTwice (i : Nat) (b : Bio) (s : State) : Prop :=
  2 ≤ pageReads i b.start s ∨
  (s.pc ≠ .returned ∧ s.idx = i ∧ (1 ≤ pageReads i b.start s ∨ s.pending = some (i,0)) ∧
    ∀ j off, s.pending = some (j,off) → j = i ∧ off < b.vtotal)

theorem pageReads_issued (i address : Nat) (s : State) (cs : List Command) :
    (s.submitted ++ cs).countP (fun c => c.toSegment.covers i address) =
      pageReads i address s + cs.countP fun c => c.toSegment.covers i address := by
  simp [pageReads]

theorem ReadTwice.advance (here : cfg.bios[i]? = some b) (twice : ReadTwice i b s) : ReadTwice i b (advance cfg s) := by
  rcases twice with twice | ⟨pc,idx,once,parkedAt⟩
  · exact .inl (twice.trans (pageReads_mono (advance_grows cfg s) i b.start))
  cases pending : s.pending with
  | some at_ =>
    obtain ⟨j,off⟩ := at_
    obtain ⟨rfl,left⟩ := parkedAt j off pending
    obtain ⟨cs,q,parked,outcome,round⟩ := submitNext_resume cfg s pending here left
    have next : InlineRead.advance cfg s =
        { s.issued cs q (parked.map (Prod.mk j)) with inflight := s.inflight + cs.length } := by
      rw [InlineRead.advance,round]
      rfl
    rw [next]
    refine .inr ⟨pc,idx,?_,?_⟩
    · change 1 ≤ countP _ (s.submitted ++ cs) ∨ parked.map (Prod.mk j) = _
      rw [pageReads_issued]
      rcases once with once | start
      · exact .inl (by omega)
      · obtain rfl : off = 0 := by simpa [pending] using start
        rcases outcome.first_page with ⟨_,stays⟩ | first
        · exact .inr (by rw [stays]; rfl)
        · exact .inl (by omega)
    · intro k o parkedThere
      cases parked with
      | none => cases parkedThere
      | some off' =>
        cases parkedThere
        exact ⟨rfl,(outcome.blocked o rfl).1⟩
  | none =>
    subst idx
    obtain ⟨cs,q,parked,outcome,round⟩ := submitNext_fresh cfg s pending here
    have once : 1 ≤ pageReads s.idx b.start s := by simpa [pending] using once
    rcases outcome.first_page with ⟨rfl,rfl⟩ | first
    · rw [InlineRead.advance,round]
      refine .inr ⟨pc,rfl,.inr rfl,?_⟩
      intro k o parkedThere
      cases parkedThere
      exact ⟨rfl,b.positive⟩
    · rw [InlineRead.advance,round]
      refine .inl ?_
      change 2 ≤ countP _ (s.submitted ++ cs)
      rw [pageReads_issued]
      omega

theorem ReadTwice.settle (here : cfg.bios[i]? = some b) (twice : ReadTwice i b s) : ReadTwice i b (settle cfg s) := by
  have inside := (List.getElem?_eq_some_iff.mp here).1
  unfold InlineRead.settle
  rcases twice with twice | ⟨pc,idx,rest⟩
  · split
    · exact .inl twice
    · split <;> exact .inl twice
  · rw [if_neg (by omega)]
    split
    · exact .inr ⟨by simp,idx,rest⟩
    · exact .inr ⟨pc,idx,rest⟩

theorem readCompletes_same (done : readCompletes s slots = some t) :
    t.pc = s.pc ∧ t.idx = s.idx ∧ t.pending = s.pending ∧ t.submitted = s.submitted := by
  induction slots generalizing s with
  | nil =>
    obtain rfl : s = t := some.inj done
    exact ⟨rfl,rfl,rfl,rfl⟩
  | cons slot slots ih =>
    obtain ⟨u,first,rest⟩ := bind_eq_some_iff.mp done
    obtain ⟨c,_,_,rfl⟩ := readComplete_some first
    have same := ih rest
    exact same

theorem ReadTwice.step (here : cfg.bios[i]? = some b)
    (twice : ReadTwice i b s) (next : step cfg s a = some t) : ReadTwice i b t := by
  cases a with
  | fill =>
    simp only [InlineRead.step] at next
    split at next
    · cases next
      exact (topUp_rule cfg (fun _ twice _ => twice.advance cfg here) _ s twice).settle cfg here
    · cases next
  | poll slots =>
    simp only [InlineRead.step,poll] at next
    split at next
    · split at next
      · cases next
      · obtain ⟨u,done,rfl⟩ := map_eq_some_iff.mp next
        obtain ⟨_,idx,pending,submitted⟩ := readCompletes_same done
        rcases twice with twice | ⟨_,at_,once,parkedAt⟩
        · exact .inl (by simpa [pageReads,submitted] using twice)
        · refine .inr ⟨?_,idx.trans at_,?_,?_⟩
          · simp only
            split <;> simp
          · simpa [pageReads,submitted,pending] using once
          · simpa [pending] using parkedAt
    · cases next

theorem ReadTwice.not_readOnce (here : cfg.bios[i]? = some b) (twice : ReadTwice i b s) : ¬ ReadOnce cfg s := by
  intro once
  rcases twice with twice | ⟨pc,_⟩
  · have := (once.once i b here).1 0 b.positive
    rw [Nat.add_zero] at this
    omega
  · exact pc once.returned

theorem Acquired.before (acquired : Acquired cfg q cs q') (pool : Pool cfg q outstanding) (held : first ∈ outstanding)
    (head : q.head = (first.slot + m) % cfg.capacity) (inside : first.slot < cfg.capacity)
    (within : m ≤ cfg.capacity) :
    m + cs.length ≤ cfg.capacity ∧ q'.head = (first.slot + (m + cs.length)) % cfg.capacity := by
  induction cs generalizing q outstanding m with
  | nil =>
    obtain rfl : q' = q := acquired
    exact ⟨within,head⟩
  | cons c cs ih =>
    obtain ⟨q₁,got,rest⟩ := acquired
    obtain ⟨_,free,_,rfl⟩ := acquire_some cfg got
    have apart : m ≠ cfg.capacity := by
      rintro rfl
      rw [Nat.add_mod_right,Nat.mod_eq_of_lt inside] at head
      rw [head,(pool.busy first.slot).mpr (mem_map_of_mem held)] at free
      cases free
    have next : seqsIdxAdvance cfg q.head = (first.slot + (m + 1)) % cfg.capacity := by
      rw [seqsIdxAdvance_eq cfg pool.head,head,Nat.mod_add_mod,Nat.add_assoc]
    have := ih rest (pool.acquire cfg got) (mem_append_left _ held) next (by omega)
    rw [length_cons]
    exact ⟨by omega,by rw [this.2]; congr 2; omega⟩

structure Held (s : State) (first : Command) : Prop where
  outstanding : first ∈ s.outstanding
  inside : first.slot < cfg.capacity
  head : s.seqs.head = (first.slot + s.submitted.length) % cfg.capacity
  within : s.submitted.length ≤ cfg.capacity

theorem Held.issued (held : Held cfg s first) (pool : Pool cfg s.seqs s.outstanding) (acquired : Acquired cfg s.seqs cs q)
    (pending : Option (Nat × Nat)) : Held cfg (s.issued cs q pending) first := by
  obtain ⟨within,head⟩ := acquired.before cfg pool held.outstanding held.head held.inside held.within
  refine ⟨mem_append_left _ held.outstanding,held.inside,?_,?_⟩
  · simpa [State.issued] using head
  · simpa [State.issued] using within

theorem held_first {s : State} (empty : s.submitted = []) (pool : Pool cfg s.seqs s.outstanding)
    (acquired : Acquired cfg s.seqs (c :: cs) q) (pending : Option (Nat × Nat)) :
    Held cfg (s.issued (c :: cs) q pending) c := by
  obtain ⟨q₁,got,rest⟩ := acquired
  obtain ⟨_,_,slot,same⟩ := acquire_some cfg got
  have inside : c.slot < cfg.capacity := slot ▸ pool.head
  have one : Held cfg (s.issued [c] q₁ none) c := by
    refine ⟨mem_append_right _ mem_cons_self,inside,?_,?_⟩
    · simp [State.issued,empty,same,seqsIdxAdvance_eq cfg pool.head,slot]
    · simp [State.issued,empty]
      omega
  have := one.issued cfg (pool.acquire cfg got) rest pending
  rwa [State.issued_issued] at this

structure Chased (s : State) : Prop where
  orderly : Orderly cfg s
  inflight : s.inflight = s.outstanding.length
  fits : ∀ b ∈ cfg.bios.take s.idx, cfg.nCommands b ≤ cfg.capacity
  held : 2 ≤ cfg.targetQd → s.submitted = [] ∨ ∃ first, Held cfg s first

theorem Chased.submittedBio (chased : Chased cfg s) (here : cfg.bios[s.idx]? = some b)
    (outcome : Outcome cfg s.idx b 0 s.seqs cs q none) : Chased cfg (s.submittedBio cs q) := by
  have pool := chased.orderly.pool
  have orderly := chased.orderly.submittedBio cfg here outcome
  refine ⟨orderly,by simp [State.submittedBio,State.issued,chased.inflight],?_,?_⟩
  · intro b' member
    change b' ∈ cfg.bios.take (s.idx + 1) at member
    rw [take_add_one,here,toList_some,mem_append,mem_singleton] at member
    rcases member with earlier | rfl
    · exact chased.fits b' earlier
    · have fits := (outcome.acquired.pool pool).fits
      rw [length_append,outcome.length] at fits
      omega
  · intro two
    right
    rcases chased.held two with empty | ⟨first,held⟩
    · cases cs with
      | nil => exact absurd outcome.segments (by simp [segments_of_left cfg _ _ b.positive])
      | cons c cs =>
        have held := held_first cfg empty pool outcome.acquired none
        exact ⟨c,held.outstanding,held.inside,held.head,held.within⟩
    · have held := held.issued cfg pool outcome.acquired none
      exact ⟨first,held.outstanding,held.inside,held.head,held.within⟩

section

variable (chased : Chased cfg s)
include chased

theorem Chased.advance (running : s.pc ≠ .returned) : (Chased cfg (advance cfg s) ∧ (advance cfg s).pc ≠ .returned) ∨
    ∃ i b, cfg.bios[i]? = some b ∧ ReadTwice i b (advance cfg s) := by
  rcases advance_cases cfg chased.orderly with ⟨_,same⟩ | ⟨b,cs,q,parked,here,outcome,next⟩
  · rw [same]
    exact .inl ⟨chased,running⟩
  · rw [next]
    cases parked with
    | none => exact .inl ⟨chased.submittedBio cfg here outcome,running⟩
    | some off =>
      refine .inr ⟨s.idx,b,here,.inr ⟨running,rfl,?_,?_⟩⟩
      · change 1 ≤ countP _ (s.submitted ++ cs) ∨ some (s.idx,off) = _
        rw [pageReads_issued]
        rcases outcome.first_page with ⟨_,start⟩ | first
        · exact .inr (by rw [some.inj start])
        · exact .inl (by omega)
      · intro j o parkedThere
        cases parkedThere
        exact ⟨rfl,(outcome.blocked off rfl).1⟩

theorem Chased.control (pc : Pc) : Chased cfg { s with pc := pc } :=
  ⟨⟨chased.orderly.pending,chased.orderly.within,chased.orderly.submitted,chased.orderly.pool⟩,
    chased.inflight,chased.fits,fun two => (chased.held two).imp_right fun ⟨first,held⟩ =>
      ⟨first,held.outstanding,held.inside,held.head,held.within⟩⟩

theorem Chased.all (all : s.idx = cfg.bios.length) : (∀ b ∈ cfg.bios, cfg.nCommands b ≤ cfg.capacity) ∧
    (2 ≤ cfg.targetQd → (cfg.bios.map cfg.nCommands).sum ≤ cfg.capacity) := by
  have length := chased.orderly.length
  rw [all,take_length] at length
  constructor
  · intro b member
    exact chased.fits b (by rwa [all,take_length])
  · intro two
    rw [← length]
    rcases chased.held two with empty | ⟨first,held⟩
    · simp [empty]
    · exact held.within

theorem Chased.spare (full : cfg.targetQd ≤ s.inflight) :
    ∃ c ∈ s.outstanding, 2 ≤ cfg.targetQd → s.submitted = [] ∨ ∃ first, first ≠ c ∧ Held cfg s first := by
  have positive := targetQd_pos cfg
  have inflight := chased.inflight
  by_cases two : 2 ≤ cfg.targetQd
  · rcases chased.held two with empty | ⟨first,held⟩
    · obtain ⟨c,member⟩ := exists_mem_of_length_pos (l := s.outstanding) (by omega)
      exact ⟨c,member,fun _ => .inl empty⟩
    · have length := length_erase_of_mem held.outstanding
      obtain ⟨c,member⟩ := exists_mem_of_length_pos (l := s.outstanding.erase first) (by omega)
      have nodup : s.outstanding.Nodup := chased.orderly.pool.distinct.of_map _
      obtain ⟨other,outstanding⟩ := nodup.mem_erase_iff.mp member
      exact ⟨c,outstanding,fun _ => .inr ⟨first,Ne.symm other,held⟩⟩
  · obtain ⟨c,member⟩ := exists_mem_of_length_pos (l := s.outstanding) (by omega)
    exact ⟨c,member,fun h => absurd h two⟩

theorem Chased.poll (full : cfg.targetQd ≤ s.inflight) (more : s.idx < cfg.bios.length) :
    ∃ slots t, poll cfg s slots = some t ∧ Chased cfg t ∧ t.idx = s.idx ∧ t.pc ≠ .returned ∧
      (t.pc = .polling → cfg.targetQd ≤ t.inflight) := by
  obtain ⟨c,member,held⟩ := chased.spare cfg full
  have completes := readComplete_of_mem cfg chased.orderly.pool member
  have length := length_erase_of_mem member
  have inflight := chased.inflight
  have after : Chased cfg { s.completed c with inflight := s.inflight - 1 } := by
    have orderly := chased.orderly.completed cfg member
    refine ⟨⟨orderly.pending,orderly.within,orderly.submitted,orderly.pool⟩,?_,chased.fits,?_⟩
    · simp only [State.completed]
      omega
    · intro two
      refine (held two).imp_right ?_
      rintro ⟨first,other,held⟩
      refine ⟨first,(mem_erase_of_ne other).mpr held.outstanding,held.inside,?_,held.within⟩
      have same : (nvmeSeqsRelease s.seqs c.slot).head = s.seqs.head := by
        unfold nvmeSeqsRelease
        split <;> rfl
      exact same.trans held.head
  refine ⟨[c.slot],{ s.completed c with
    inflight := s.inflight - 1
    pc := if State.fills cfg { s.completed c with inflight := s.inflight - 1 } then .submitting
      else .polling },?_,after.control cfg _,rfl,?_,?_⟩
  · rw [InlineRead.poll,if_neg (cons_ne_nil _ _),readCompletes,completes]
    rfl
  · simp only
    split <;> simp
  · intro polling
    split at polling
    · cases polling
    · rename_i fills
      rw [State.fills_iff] at fills
      simp only [State.completed] at fills
      simp only
      omega

theorem Chased.fill (submitting : s.pc = .submitting) : (∃ i b, cfg.bios[i]? = some b ∧ ReadTwice i b (fill cfg s)) ∨
    (Chased cfg (fill cfg s) ∧
      ((fill cfg s).pc = .returned → (fill cfg s).idx = cfg.bios.length) ∧
      ((fill cfg s).pc = .polling → (fill cfg s).idx < cfg.bios.length →
        cfg.targetQd ≤ (fill cfg s).inflight)) := by
  have after := topUp_rule cfg
    (P := fun t => (Chased cfg t ∧ t.pc ≠ .returned) ∨ ∃ i b, cfg.bios[i]? = some b ∧ ReadTwice i b t)
    (fun t held _ => by
      rcases held with ⟨chased,running⟩ | ⟨i,b,here,twice⟩
      · exact chased.advance cfg running
      · exact .inr ⟨i,b,here,twice.advance cfg here⟩)
    (cfg.targetQd - s.inflight) s (.inl ⟨chased,by simp [submitting]⟩)
  have exit := topUp_exit cfg (cfg.targetQd - s.inflight) s (by omega)
  unfold InlineRead.fill
  generalize topUp cfg (cfg.targetQd - s.inflight) s = t at after exit
  rcases after with ⟨chased,running⟩ | ⟨i,b,here,twice⟩
  · right
    have full : t.idx < cfg.bios.length → cfg.targetQd ≤ t.inflight := by
      intro more
      rcases exit with full | done
      · exact full
      · have := done chased.orderly.pending
        omega
    unfold settle
    split
    · rename_i done
      exact ⟨chased.control cfg _,fun _ => done.2.1,by simp⟩
    · split
      · exact ⟨chased.control cfg _,by simp,fun _ => full⟩
      · exact ⟨chased,fun returned => absurd returned running,fun _ => full⟩
  · exact .inl ⟨i,b,here,twice.settle cfg here⟩

end

/-- If every order of completions reads every page once, so does the one that holds the
first command back, and then the pool has taken all it had to. -/
theorem Chased.conclude (inevitable : Inevitable (step cfg) (ReadOnce cfg) s) :
    Chased cfg s → (s.pc = .returned → s.idx = cfg.bios.length) →
    (s.pc = .polling → s.idx < cfg.bios.length → cfg.targetQd ≤ s.inflight) →
    (∀ b ∈ cfg.bios, cfg.nCommands b ≤ cfg.capacity) ∧
    (2 ≤ cfg.targetQd → (cfg.bios.map cfg.nCommands).sum ≤ cfg.capacity) := by
  induction inevitable with
  | now s reached =>
    intro chased returned _
    exact chased.all cfg (returned reached.returned)
  | later s moves rest ih =>
    intro chased returned polling
    by_cases all : s.idx = cfg.bios.length
    · exact chased.all cfg all
    have more : s.idx < cfg.bios.length := Nat.lt_of_le_of_ne chased.orderly.within all
    cases pc : s.pc with
    | returned => exact absurd (returned pc) all
    | submitting =>
      have next : step cfg s .fill = some (InlineRead.fill cfg s) := by simp [step,pc]
      rcases chased.fill cfg pc with ⟨i,b,here,twice⟩ | ⟨kept,returned,polling⟩
      · exact absurd twice ((rest _ _ next).not_trapped (ReadTwice i b)
          (fun _ _ _ twice next => twice.step cfg here next) fun _ twice => twice.not_readOnce cfg here)
      · exact ih _ _ next kept returned polling
    | polling =>
      obtain ⟨slots,t,polled,kept,idx,running,full⟩ := chased.poll cfg (polling pc more) more
      have next : step cfg s (.poll slots) = some t := by simp [step,pc,polled]
      exact ih _ _ next kept (fun returned => absurd returned running) fun polling _ => full polling

theorem start_chased (head : Fin cfg.capacity) : Chased cfg (start cfg head) where
  orderly := ⟨rfl,Nat.zero_le _,rfl,⟨head.isLt,by simp [start],nodup_nil,rfl,Nat.zero_le _⟩⟩
  inflight := rfl
  fits := by simp [start]
  held _ := .inl rfl

/-- Whatever the BIOs, the pool, the size of a command and the queue depth, an inline read
submits every page once and returns with a clean pool for every order of completions
exactly when no order can make the pool interrupt a BIO. -/
theorem nvmeSubmitBioInline_readOnce_iff (head : Fin cfg.capacity) :
    Inevitable (step cfg) (ReadOnce cfg) (start cfg head) ↔ NeverInterrupted cfg := by
  constructor
  · intro inevitable
    obtain ⟨each,all⟩ := Chased.conclude cfg inevitable (start_chased cfg head) (by simp [start])
      (by simp [start])
    have positive := targetQd_pos cfg
    by_cases one : cfg.targetQd = 1
    · exact .inl ⟨one,each⟩
    · exact .inr (all (by omega))
  · exact readOnce_inevitable cfg head

def twoSlots : Config where
  capacity := 2
  hasSlot := Nat.two_pos
  maxIo := pageSize
  pageFits := Nat.le_refl _
  nvmeTargetQd := 2
  bios := [⟨100,1,Nat.one_pos,by decide⟩,⟨200,2,Nat.two_pos,by decide⟩]

/-- Both pages of the second BIO are read twice. -/
theorem nvmeSubmitBioInline_reads_twice :
    ∃ s, run (step twoSlots) (start twoSlots ⟨0,by decide⟩)
        [.fill,.poll [0],.fill,.poll [0,1],.fill,.poll [0,1],.fill] = some s ∧
      s.pc = .returned ∧ pageReads 1 200 s = 2 ∧ pageReads 1 201 s = 2 :=
  ⟨_,rfl,rfl,by decide,by decide⟩

end Oxbow.Daemon.InlineRead
