import Oxbow.Lib.Run
import Oxbow.Daemon.StageRoundTrip

/-! What `stage_file` writes against the device: requests complete in any order, the thread
waits for a sequence buffer before it fills it again, and for everything at the very end. The
commit block is issued before that, right behind the last blocks. -/
namespace Oxbow.Daemon.Stage

open Oxbow.Lib Oxbow.Sjd Oxbow.DevFS Function List Option

/-- The thread and its requests. `slotBusy`, `slotDone` and `slotTail` track the sequence
buffers, which are given back in order. -/
structure Io where
  todo : List Event
  outstanding : List Request
  slotBusy : Nat → Bool
  slotDone : Nat → Bool
  slotTail : Nat
  disk : Disk

inductive IoAct
  | thread
  | complete (i : Nat)

def reclaimDoneSlotsInorder (slotCapacity : Nat) : Nat → Io → Io
  | 0, io => io
  | rounds + 1, io =>
    if io.slotBusy io.slotTail ∧ io.slotDone io.slotTail then
      reclaimDoneSlotsInorder slotCapacity rounds
        { io with
          slotBusy := update io.slotBusy io.slotTail false
          slotDone := update io.slotDone io.slotTail false
          slotTail := if io.slotTail + 1 = slotCapacity then 0 else io.slotTail + 1 }
    else io

/-- A sequence buffer must not be issued again before it is free. -/
def Io.issue (io : Io) (r : Request) (todo : List Event) : Option Io :=
  match r.origin with
  | .seq n =>
    if io.slotBusy n then none
    else some { io with
      todo := todo
      outstanding := io.outstanding ++ [r]
      slotBusy := update io.slotBusy n true
      slotDone := update io.slotDone n false }
  | .desc | .commit => some { io with todo := todo, outstanding := io.outstanding ++ [r] }

def Io.slotComplete (io : Io) (r : Request) : Io :=
  match r.origin with
  | .seq n => { io with slotDone := update io.slotDone n true }
  | .desc | .commit => io

def Io.step (c : SeqBufs) (io : Io) : IoAct → Option Io
  | .thread =>
    match io.todo with
    | [] => none
    | .issue r :: todo => io.issue r todo
    | .drainUntilSlotFree slot :: todo => if io.slotBusy slot then none else some { io with todo := todo }
    | .drainAllOutstanding :: todo => if io.outstanding.isEmpty then some { io with todo := todo } else none
  | .complete i =>
    (io.outstanding[i]?).map fun r =>
      reclaimDoneSlotsInorder c.seqMax c.seqMax
        (({ io with outstanding := io.outstanding.eraseIdx i, disk := r.apply io.disk } : Io).slotComplete r)

def Io.idle (todo : List Event) (disk : Disk) (slotTail : Nat) : Io :=
  ⟨todo,[],fun _ => false,fun _ => false,slotTail,disk⟩

/-- Whenever the commit block may be issued, every write before it has completed. -/
def WriteAhead (c : SeqBufs) (trace : List Event) : Prop :=
  ∀ (disk : Disk) (acts : List IoAct) (io : Io) (r : Request) (todo : List Event),
    run (Io.step c) (.idle trace disk 0) acts = some io → io.todo = .issue r :: todo → r.origin = .commit →
      io.outstanding = []

theorem directWriteLoop_origins (c : SeqBufs) (buf : Nat → Page) (start nrBlks : Nat) (skip : Bool)
    (seqs n left : Nat) : ∃ k, (directWriteLoop c buf start nrBlks skip seqs n left).map Request.origin =
      (List.range' n k).map .seq ∧ k ≤ seqs ∧ (0 < seqs → 0 < k) ∧ (left = seqs * c.perSeq → k = seqs) := by
  have positive := c.blocks
  induction seqs generalizing n left with
  | zero => exact ⟨0,rfl,Nat.le_refl _,id,fun _ => rfl⟩
  | succ seqs ih =>
    rw [directWriteLoop]
    by_cases last : left - min left c.perSeq = 0
    · rw [if_pos last]
      refine ⟨1,by simp,by omega,by omega,fun full => ?_⟩
      rw [full,Nat.succ_mul] at last
      have none : seqs * c.perSeq = 0 := by omega
      rcases Nat.mul_eq_zero.mp none with zero | zero
      · simp [zero]
      · omega
    · rw [if_neg last]
      obtain ⟨k,origins,bound,_,full⟩ := ih (n + 1) (left - min left c.perSeq)
      refine ⟨k + 1,by simp [origins,List.range'_succ],by omega,by omega,fun whole => ?_⟩
      rw [Nat.succ_mul] at whole
      rw [full (by omega)]

inductive Flushes (c : SeqBufs) : List Event → Prop
  | nil : Flushes c []
  | drain (trace : List Event) (slot : Nat) (before : Flushes c trace) :
      Flushes c (trace ++ [.drainUntilSlotFree slot])
  | flush (trace : List Event) (rs : List Request) (slots : rs.map Request.origin = (List.range' 0 c.seqMax).map .seq)
      (before : Flushes c trace) : Flushes c (trace ++ rs.map .issue)

structure Filling (c : SeqBufs) (s : StageTx) : Prop where
  buffered : Buffered c s
  flushes : Flushes c s.trace
  some : 0 < s.nrPending

theorem freeSeq_room (buffered : Buffered c s) (ready : freeSeq c s = some t) : Room c s := by
  have positive := c.blocks
  have left := buffered.left
  have pending := buffered.pending
  have whole := Nat.mul_le_mul_right c.perSeq buffered.inSeq
  rw [Nat.succ_mul] at whole
  by_cases free : s.nrBlocks = 0
  · rw [freeSeq,if_pos free,nextSeq] at ready
    by_cases last : s.seqIdx + 1 = c.seqMax
    · rw [if_pos last] at ready
      by_cases reserved : s.start ≠ 0 ∧ s.stageAreaReserved = true
      · exact .inr reserved
      · simp [reserved] at ready
    · have more : s.seqIdx + 1 + 1 ≤ c.seqMax := Nat.lt_of_le_of_ne buffered.inSeq last
      have behind := Nat.mul_le_mul_right c.perSeq more
      rw [Nat.succ_mul,Nat.succ_mul] at behind
      left
      rw [SeqBufs.capacity]
      omega
  · left
    rw [SeqBufs.capacity]
    omega

theorem freeSeq_flushes (buffered : Buffered c s) (flushes : Flushes c s.trace) (ready : freeSeq c s = some t) :
    Flushes c t.trace := by
  by_cases free : s.nrBlocks = 0
  · rw [freeSeq,if_pos free,nextSeq] at ready
    by_cases last : s.seqIdx + 1 = c.seqMax
    · rw [if_pos last] at ready
      split at ready
      next =>
        obtain rfl := some.inj ready
        obtain ⟨k,origins,_,_,all⟩ := directWriteLoop_origins c s.buf (s.start + s.nrIssued) s.nrPending
          (!s.descBlkSkipped) c.seqMax 0 s.nrPending
        have pending := buffered.pending
        rw [free,Nat.sub_zero,← Nat.succ_mul,Nat.succ_eq_add_one,last] at pending
        rw [all pending] at origins
        exact .drain _ _ (.flush _ _ origins flushes)
      next => simp at ready
    · rw [if_neg last] at ready
      obtain rfl := some.inj ready
      exact .drain _ _ flushes
  · rw [freeSeq,if_neg free] at ready
    obtain rfl := some.inj ready
    exact flushes

theorem resvBlk_filling (buffered : Buffered c s) (flushes : Flushes c s.trace)
    (taken : resvBlk c s = some (slot,t)) : Filling c t := by
  obtain ⟨u,ready,same⟩ := map_eq_some_iff.mp taken
  obtain ⟨_,t',taken',buffered',_⟩ := resvBlk_keeps c (fun _ _ => 0) s buffered (freeSeq_room buffered ready)
  rw [taken,some.injEq,Prod.mk.injEq] at taken'
  obtain ⟨_,rfl⟩ := taken'
  simp only [Prod.mk.injEq] at same
  obtain ⟨_,rfl⟩ := same
  have flushes' : Flushes c u.trace := freeSeq_flushes buffered flushes ready
  exact ⟨buffered',flushes',Nat.succ_pos _⟩

section

variable (filling : Filling c s)
include filling

theorem Filling.update (descBlkCopy : Page) (extBlk : Option Nat) (buf : Nat → Page) :
    Filling c { s with descBlkCopy := descBlkCopy, extBlk := extBlk, buf := buf } :=
  ⟨⟨filling.buffered.left,filling.buffered.inSeq,filling.buffered.pending,filling.buffered.skipped⟩,
    filling.flushes,filling.some⟩

theorem copyBlk_filling (copied : copyBlk c s p = some t) : Filling c t := by
  obtain ⟨⟨slot,u⟩,taken,rfl⟩ := map_eq_some_iff.mp copied
  exact (resvBlk_filling filling.buffered filling.flushes taken).update _ _ _

theorem openExtBlk_filling (opened : openExtBlk c s = some t) : Filling c t := by
  obtain ⟨⟨slot,u⟩,taken,rfl⟩ := map_eq_some_iff.mp opened
  exact (resvBlk_filling filling.buffered filling.flushes taken).update _ _ _

theorem stxWrtag_filling (tagged : stxWrtag c s tag = some t) : Filling c t := by
  rw [stxWrtag] at tagged
  split at tagged
  all_goals
    obtain ⟨w,_,tagged⟩ := bind_eq_some_iff.mp tagged
    split at tagged
  · exact openExtBlk_filling (filling.update _ _ _) tagged
  · obtain rfl := some.inj tagged
    exact filling.update _ _ _
  · exact openExtBlk_filling (filling.update _ _ _) tagged
  · obtain rfl := some.inj tagged
    exact filling.update _ _ _

end

theorem wrtags_filling (tags : List Extent) (filling : Filling c s) (tagged : wrtags c tags s = some t) :
    Filling c t := by
  induction tags generalizing s with
  | nil =>
    obtain rfl := some.inj tagged
    exact filling
  | cons tag tags ih =>
    obtain ⟨u,first,rest⟩ := bind_eq_some_iff.mp tagged
    exact ih (stxWrtag_filling filling first) rest

theorem copyAll_filling (ps : List Page) (filling : Filling c s) (copied : copyAll c ps s = some t) : Filling c t := by
  induction ps generalizing s with
  | nil =>
    obtain rfl := some.inj copied
    exact filling
  | cons p ps ih =>
    obtain ⟨u,first,rest⟩ := bind_eq_some_iff.mp copied
    exact ih (copyBlk_filling filling first) rest

theorem stageFillIndexBlk_filling (data : Nat → Page) (bhs : List BufferHead) (filling : Filling c s)
    (filled : stageFillIndexBlk c data bhs s = some t) : Filling c t := by
  induction bhs generalizing s with
  | nil =>
    obtain rfl := some.inj filled
    exact filling
  | cons bh bhs ih =>
    rw [stageFillIndexBlk] at filled
    split at filled
    · obtain ⟨u,copied,filled⟩ := bind_eq_some_iff.mp filled
      obtain ⟨v,tagged,filled⟩ := bind_eq_some_iff.mp filled
      exact ih (stxWrtag_filling (copyBlk_filling filling copied) tagged) filled
    · exact ih filling filled

theorem stageFixBlocks_filling (filling : Filling c s)
    (reserved : stageFixBlocks j nrDirty nrWaiting s = some t) : Filling c t := by
  rw [stageFixBlocks] at reserved
  obtain ⟨-,reserved⟩ := ite_none_right_eq_some.mp reserved
  split at reserved
  next =>
    obtain rfl := some.inj reserved
    exact ⟨⟨filling.buffered.left,filling.buffered.inSeq,filling.buffered.pending,filling.buffered.skipped⟩,
      filling.flushes,filling.some⟩
  all_goals simp at reserved

theorem stageFileData_filling (filling : Filling c s) (filled : stageFileData c j f x s = some t) : Filling c t := by
  rw [stageFileData_eq] at filled
  obtain ⟨u,indexed,filled⟩ := bind_eq_some_iff.mp filled
  obtain ⟨v,tagged,filled⟩ := bind_eq_some_iff.mp filled
  obtain ⟨w,reserved,copied⟩ := bind_eq_some_iff.mp filled
  have index := stageFillIndexBlk_filling x.block f.privateList filling indexed
  have tags := wrtags_filling f.tags index tagged
  exact copyAll_filling _ (stageFixBlocks_filling tags reserved) copied

theorem run_seq (r : Request) (todo : List Event) (disk : Disk) (n : Nat) (origin : r.origin = .seq n) :
    run (Io.step c) (.idle (.issue r :: todo) disk n) [.thread,.complete 0] =
      some (.idle todo (r.apply disk) (if n + 1 = c.seqMax then 0 else n + 1)) := by
  obtain ⟨rounds,positive⟩ := Nat.exists_eq_succ_of_ne_zero (Nat.ne_of_gt c.sequences)
  have freed : update (update (fun _ => false) n true) n false = fun _ : Nat => false := by
    simp
  have still : ∀ io : Io, io.slotBusy = (fun _ => false) → ∀ k, reclaimDoneSlotsInorder c.seqMax k io = io := by
    intro io none k
    cases k <;> simp [reclaimDoneSlotsInorder,none]
  simp only [run,Io.step,Io.idle,Io.issue,origin,Bool.false_eq_true,if_false,bind_some,nil_append,
    getElem?_cons_zero,map_some,eraseIdx_cons_zero,Io.slotComplete]
  nth_rewrite 2 [positive]
  rw [reclaimDoneSlotsInorder]
  simp only [update_self,and_self,if_true,freed]
  rw [still _ rfl]
  simp

theorem run_drain (c : SeqBufs) (todo : List Event) (disk : Disk) (slot tail : Nat) :
    run (Io.step c) (.idle (.drainUntilSlotFree slot :: todo) disk tail) [.thread] = some (.idle todo disk tail) := by
  simp [run,Io.step,Io.idle]

theorem run_flush (rs : List Request) (todo : List Event) (disk : Disk) (n k : Nat)
    (slots : rs.map Request.origin = (List.range' n k).map .seq) (fits : n + k = c.seqMax) (positive : 0 < k) :
    ∃ acts disk', run (Io.step c) (.idle (rs.map .issue ++ todo) disk n) acts = some (.idle todo disk' 0) := by
  induction k generalizing n rs disk with
  | zero => omega
  | succ k ih =>
    cases rs with
    | nil => simp [List.range'_succ] at slots
    | cons r rs =>
      simp only [map_cons,List.range'_succ,cons.injEq] at slots
      have first := run_seq (c := c) r (rs.map .issue ++ todo) disk n slots.1
      cases k with
      | zero =>
        obtain rfl : rs = [] := by simpa using slots.2
        rw [if_pos fits] at first
        exact ⟨_,_,first⟩
      | succ k =>
        rw [if_neg (by omega)] at first
        obtain ⟨acts,disk',later⟩ := ih rs (r.apply disk) (n + 1) slots.2 (by omega) (by omega)
        refine ⟨[.thread,.complete 0] ++ acts,disk',?_⟩
        rw [map_cons,cons_append,run_append,first]
        exact later

theorem run_flushes (trace todo : List Event) (disk : Disk) (flushes : Flushes c trace) :
    ∃ acts disk', run (Io.step c) (.idle (trace ++ todo) disk 0) acts = some (.idle todo disk' 0) := by
  induction flushes generalizing todo with
  | nil => exact ⟨[],disk,rfl⟩
  | drain trace slot _ ih =>
    obtain ⟨acts,disk',ran⟩ := ih (.drainUntilSlotFree slot :: todo)
    refine ⟨acts ++ [.thread],disk',?_⟩
    rw [append_assoc,singleton_append,run_append,ran]
    exact run_drain c todo disk' slot 0
  | flush trace rs slots _ ih =>
    obtain ⟨acts,disk',ran⟩ := ih (rs.map .issue ++ todo)
    obtain ⟨acts',disk'',ran'⟩ := run_flush rs todo disk' 0 c.seqMax slots (Nat.zero_add _) c.sequences
    refine ⟨acts ++ acts',disk'',?_⟩
    rw [append_assoc,run_append,ran]
    exact ran'

theorem run_issue_seqs (rs : List Request) (todo : List Event) (n k : Nat)
    (slots : rs.map Request.origin = (List.range' n k).map .seq) (io : Io) (next : io.todo = rs.map .issue ++ todo)
    (free : ∀ m, n ≤ m → io.slotBusy m = false) :
    ∃ acts io', run (Io.step c) io acts = some io' ∧ io'.todo = todo ∧ io'.outstanding = io.outstanding ++ rs := by
  induction k generalizing n rs io with
  | zero =>
    obtain rfl : rs = [] := by simpa using slots
    exact ⟨[],io,rfl,next,by simp⟩
  | succ k ih =>
    cases rs with
    | nil => simp [List.range'_succ] at slots
    | cons r rs =>
      simp only [map_cons,List.range'_succ,cons.injEq,cons_append] at slots next
      have first : ∃ io', Io.step c io .thread = some io' ∧ io'.todo = rs.map .issue ++ todo ∧
          io'.outstanding = io.outstanding ++ [r] ∧ ∀ m, n + 1 ≤ m → io'.slotBusy m = false := by
        simp only [Io.step,next,Io.issue,slots.1,free n (Nat.le_refl _),Bool.false_eq_true,if_false]
        refine ⟨_,rfl,rfl,rfl,fun m later => ?_⟩
        exact (update_of_ne (by omega) _ _).trans (free m (by omega))
      obtain ⟨io',issued,next',out,free'⟩ := first
      obtain ⟨acts,io'',ran,done,out'⟩ := ih rs (n + 1) slots.2 io' next' free'
      exact ⟨.thread :: acts,io'',by simp [run,issued,ran],done,by simp [out',out]⟩

theorem step_issue_own (r : Request) (todo : List Event) (io : Io) (own : ∀ n, r.origin ≠ .seq n)
    (next : io.todo = .issue r :: todo) :
    Io.step c io .thread = some { io with todo := todo, outstanding := io.outstanding ++ [r] } := by
  simp only [Io.step,next,Io.issue]
  split
  next n seq => exact absurd seq (own n)
  all_goals rfl

theorem run_issue_own (rs : List Request) (todo : List Event) (io : Io) (own : ∀ r ∈ rs, r.origin = .desc)
    (next : io.todo = rs.map .issue ++ todo) :
    ∃ acts io', run (Io.step c) io acts = some io' ∧ io'.todo = todo ∧ io'.outstanding = io.outstanding ++ rs := by
  induction rs generalizing io with
  | nil => exact ⟨[],io,rfl,next,by simp⟩
  | cons r rs ih =>
    rw [forall_mem_cons] at own
    have first := step_issue_own (c := c) r (rs.map Event.issue ++ todo) io (by simp [own.1]) next
    obtain ⟨acts,io',ran,done,out⟩ := ih { io with
      todo := rs.map Event.issue ++ todo, outstanding := io.outstanding ++ [r] } own.2 rfl
    exact ⟨.thread :: acts,io',by rw [run,first]; exact ran,done,by simp [out]⟩

theorem reclaimDoneSlotsInorder_frame (slotCapacity rounds : Nat) (io : Io) :
    (reclaimDoneSlotsInorder slotCapacity rounds io).todo = io.todo ∧
      (reclaimDoneSlotsInorder slotCapacity rounds io).outstanding = io.outstanding ∧
      (reclaimDoneSlotsInorder slotCapacity rounds io).disk = io.disk := by
  induction rounds generalizing io with
  | zero => exact ⟨rfl,rfl,rfl⟩
  | succ rounds ih =>
    rw [reclaimDoneSlotsInorder]
    split
    · exact ih _
    · exact ⟨rfl,rfl,rfl⟩

theorem step_complete (stepped : Io.step c io (.complete i) = some io') :
    ∃ r, io.outstanding[i]? = some r ∧ io'.todo = io.todo ∧ io'.outstanding = io.outstanding.eraseIdx i ∧
      io'.disk = r.apply io.disk := by
  obtain ⟨r,found,rfl⟩ := map_eq_some_iff.mp stepped
  obtain ⟨todo,out,disk⟩ := reclaimDoneSlotsInorder_frame c.seqMax c.seqMax
    (({ io with outstanding := io.outstanding.eraseIdx i, disk := r.apply io.disk } : Io).slotComplete r)
  refine ⟨r,found,todo.trans ?_,out.trans ?_,disk.trans ?_⟩
  all_goals
    rw [Io.slotComplete]
    split <;> rfl

theorem step_complete_last (c : SeqBufs) (io : Io) (rs : List Request) (r : Request) (out : io.outstanding = rs ++ [r]) :
    ∃ io', Io.step c io (.complete rs.length) = some io' ∧ io'.outstanding = rs ∧ io'.disk = r.apply io.disk := by
  have last : io.outstanding[rs.length]? = some r := by simp [out]
  have rest : io.outstanding.eraseIdx rs.length = rs := by simp [out,eraseIdx_append_of_length_le]
  obtain ⟨io',stepped⟩ : ∃ io', Io.step c io (.complete rs.length) = some io' := by simp [Io.step,last]
  obtain ⟨r',found,_,left,durable⟩ := step_complete stepped
  obtain rfl : r = r' := some.inj (last.symm.trans found)
  exact ⟨io',stepped,left.trans rest,durable⟩

/-- The end of a stage transaction: at least one request, perhaps the descriptor, and the
commit block, with no wait in between. -/
theorem stageIo_tail (filling : Filling c u) (made : stageIo c commitBlk u = some s) :
    ∃ (trace : List Event) (rs desc : List Request) (k : Nat), Flushes c trace ∧
      rs.map Request.origin = (List.range' 0 k).map .seq ∧ 0 < k ∧ (∀ r ∈ desc, r.origin = .desc) ∧
      s.trace = trace ++ (rs.map .issue ++ (desc.map .issue ++
        [.issue ⟨.commit,s.commitBaddr,[commitBlk]⟩,.drainAllOutstanding])) := by
  simp only [stageIo] at made
  obtain ⟨-,⟨⟩⟩ := ite_none_right_eq_some.mp made
  obtain ⟨k,origins,_,positive,_⟩ := directWriteLoop_origins c
    (if u.descBlkSkipped then u.buf else update u.buf 0 u.descBlkCopy) (u.start + u.nrIssued) u.nrPending
    false (u.seqIdx + 1) 0 u.nrPending
  refine ⟨u.trace,_,if u.descBlkSkipped then [⟨.desc,u.start,[u.descBlkCopy]⟩] else [],k,filling.flushes,origins,
    positive (Nat.succ_pos _),?_,?_⟩
  · intro r member
    split at member
    · rw [mem_singleton.mp member]
    · simp at member
  · rw [if_neg (Nat.ne_of_gt filling.some)]
    simp only [nvmeDirectWriteAsync,append_assoc]
    split <;> rfl

theorem stageIo_outstanding (filling : Filling c u) (made : stageIo c commitBlk u = some s)
    (disk : Disk) : ∃ acts io r n, run (Io.step c) (.idle s.trace disk 0) acts = some io ∧
      io.todo = [.issue ⟨.commit,s.commitBaddr,[commitBlk]⟩,.drainAllOutstanding] ∧
      r ∈ io.outstanding ∧ r.origin = .seq n := by
  obtain ⟨trace,rs,desc,k,flushes,slots,positive,own,shape⟩ := stageIo_tail filling made
  obtain ⟨acts,disk',flushed⟩ := run_flushes trace (rs.map .issue ++ (desc.map .issue ++
    [.issue ⟨.commit,s.commitBaddr,[commitBlk]⟩,.drainAllOutstanding])) disk flushes
  obtain ⟨acts',io,issued,next,out⟩ := run_issue_seqs rs _ 0 k slots (.idle _ disk' 0) rfl fun _ _ => rfl
  obtain ⟨acts'',io',described,next',out'⟩ := run_issue_own desc _ io own next
  cases rs with
  | nil =>
    obtain ⟨k,rfl⟩ := Nat.exists_eq_succ_of_ne_zero (Nat.ne_of_gt positive)
    simp [List.range'_succ] at slots
  | cons r rs =>
    obtain ⟨k,rfl⟩ := Nat.exists_eq_succ_of_ne_zero (Nat.ne_of_gt positive)
    simp only [map_cons,List.range'_succ,cons.injEq] at slots
    refine ⟨acts ++ (acts' ++ acts''),io',r,0,?_,next',by simp [out',out],slots.1⟩
    rw [shape,run_append,flushed,bind_some,run_append,issued,bind_some,described]

/-- The commit block can be issued, and be on the disk, while blocks of the transaction are outstanding. -/
def Unwaited (c : SeqBufs) (commitBlk : Page) (s : StageTx) : Prop :=
  ¬ WriteAhead c s.trace ∧ ∀ disk, ∃ acts io r n, run (Io.step c) (.idle s.trace disk 0) acts = some io ∧
    io.disk s.commitBaddr = commitBlk ∧ r ∈ io.outstanding ∧ r.origin = .seq n

theorem unwaited_of_filling (filling : Filling c u) (made : stageIo c commitBlk u = some s) : Unwaited c commitBlk s := by
  refine ⟨fun ahead => ?_,fun disk => ?_⟩
  · obtain ⟨acts,io,r,n,ran,next,member,_⟩ := stageIo_outstanding filling made fun _ _ => 0
    have none := ahead _ acts io _ _ ran next rfl
    simp [none] at member
  · obtain ⟨acts,io,r,n,ran,next,member,seq⟩ := stageIo_outstanding filling made disk
    have issued := step_issue_own (c := c) _ _ io (by simp) next
    obtain ⟨io',completed,out,durable⟩ := step_complete_last c { io with
      todo := [.drainAllOutstanding]
      outstanding := io.outstanding ++ [⟨.commit,s.commitBaddr,[commitBlk]⟩] } io.outstanding _ rfl
    refine ⟨acts ++ [.thread,.complete io.outstanding.length],io',r,n,?_,?_,out ▸ member,seq⟩
    · rw [run_append,ran,bind_some,run,issued,bind_some,run,completed]
      rfl
    · simp [durable,Request.apply]

theorem newStageTx_filling (taken : resvBlk c (newStageTx c x) = some (slot,t)) : Filling c t :=
  resvBlk_filling ⟨Nat.le_refl _,c.sequences,by simp [newStageTx],rfl⟩ .nil taken

theorem stageFile_filling (made : stageFile c j f x = some s) : ∃ u, Filling c u ∧ stageIo c x.commitBlk u = some s := by
  obtain ⟨⟨slot,t⟩,taken,made⟩ := bind_eq_some_iff.mp made
  obtain ⟨u,filled,made⟩ := bind_eq_some_iff.mp made
  exact ⟨u,stageFileData_filling (newStageTx_filling taken) filled,made⟩

end Oxbow.Daemon.Stage
