import Oxbow.Daemon.StageLife

/-! When a checkpoint applies a stage transaction. DevFS does not look at the commit block of
the transaction, so what it applies is committed only if the call that wrote it has returned. -/
namespace Oxbow.Daemon.Stage.Life

open Oxbow.Lib Oxbow.Sjd Oxbow.DevFS Option

def issuesCommit : Event → Bool
  | .issue r => r.origin = .commit
  | .drainUntilSlotFree _ | .drainAllOutstanding => false

/-- The commit block has been issued and has completed. -/
def Call.CommitDurable (call : Call) : Prop :=
  ∃ io ∈ call.io, (∀ e ∈ io.todo, issuesCommit e = false) ∧ ∀ r ∈ io.outstanding, r.origin ≠ .commit

/-- `stage_file` has nothing left to issue. -/
def Call.Returned (call : Call) : Prop := ∃ io ∈ call.io, io.todo.isEmpty = true

instance (call : Call) : Decidable call.CommitDurable :=
  inferInstanceAs
    (Decidable (∃ io ∈ call.io, (∀ e ∈ io.todo, issuesCommit e = false) ∧
    ∀ r ∈ io.outstanding, r.origin ≠ .commit))

instance (call : Call) : Decidable call.Returned := inferInstanceAs (Decidable (∃ io ∈ call.io, io.todo.isEmpty = true))

def Names (e : Entry) (id : Nat) (call : Call) : Prop :=
  id = e.call ∨ call.stx.stageAreaReserved = true ∧ call.stx.start = e.address

instance (e : Entry) (id : Nat) (call : Call) : Decidable (Names e id call) := inferInstanceAs (Decidable (_ ∨ _))

/-- The calls of `stage_file` that the journal transaction to be checkpointed next lists. -/
def EachListed (meets : Call → Prop) (s : System) : Act → Prop
  | .checkpoint => ∀ tx ∈ s.committed.head?, ∀ e ∈ tx, ∀ id ∈ s.ids, ∀ call ∈ s.calls id,
    Names e id call → meets call
  | _ => True

instance (meets : Call → Prop) [DecidablePred meets] (s : System) (act : Act) : Decidable (EachListed meets s act) :=
  match act with
  | .checkpoint =>
    inferInstanceAs (Decidable (∀ tx ∈ s.committed.head?, ∀ e ∈ tx, ∀ id ∈ s.ids, ∀ call ∈ s.calls id,
      Names e id call → meets call))
  | .stageFile .. | .buildStageTx _ | .stageFixBlocks _ | .stageIo _ | .io .. | .buildJtx _ | .journalStageTrace
  | .requestCommit | .commit | .stageFreeBlks _ => .isTrue trivial

def Drains (io : Io) : Prop :=
  (∃ before, io.todo = before ++ [.drainAllOutstanding]) ∨ io.todo = [] ∧ io.outstanding = []

variable {io io' : Io}

theorem Drains.next (drains : Drains io) (next : io.todo = e :: todo) :
    (∃ before, todo = before ++ [.drainAllOutstanding]) ∨ todo = [] ∧ e = .drainAllOutstanding := by
  rcases drains with ⟨before,shape⟩ | ⟨none,_⟩
  · rw [next] at shape
    cases before with
    | nil =>
      rw [List.nil_append,List.cons.injEq] at shape
      exact .inr shape.symm
    | cons e before =>
      rw [List.cons_append,List.cons.injEq] at shape
      exact .inl ⟨before,shape.2⟩
  · simp [next] at none

theorem Drains.issue (drains : Drains io) (next : io.todo = .issue r :: todo)
    (stepped : io.issue r todo = some io') : Drains io' := by
  have later := (drains.next next).resolve_right (by simp)
  rw [Io.issue] at stepped
  split at stepped
  · obtain ⟨-,⟨⟩⟩ := ite_none_left_eq_some.mp stepped
    exact .inl later
  all_goals
    obtain rfl := some.inj stepped
    exact .inl later

theorem Drains.step (drains : Drains io) (stepped : Io.step c io act = some io') : Drains io' := by
  cases act with
  | complete i =>
    obtain ⟨r,found,todo,out,_⟩ := step_complete stepped
    rcases drains with ⟨before,shape⟩ | ⟨_,none⟩
    · exact .inl ⟨before,todo.trans shape⟩
    · simp [none] at found
  | thread =>
    simp only [Io.step] at stepped
    split at stepped
    next => simp at stepped
    next r todo next => exact drains.issue next stepped
    next slot todo next =>
      obtain ⟨-,⟨⟩⟩ := ite_none_left_eq_some.mp stepped
      exact .inl ((drains.next next).resolve_right (by simp))
    next todo next =>
      obtain ⟨empty,⟨⟩⟩ := ite_none_right_eq_some.mp stepped
      rcases drains.next next with later | ⟨none,_⟩
      · exact .inl later
      · exact .inr ⟨none,List.isEmpty_iff.mp empty⟩

theorem Drains.start (issued : Stage.stageIo c commitBlk stx = some stx') : Drains (.idle stx'.trace disk 0) := by
  simp only [Stage.stageIo] at issued
  obtain ⟨-,⟨⟩⟩ := ite_none_right_eq_some.mp issued
  exact .inl ⟨_,List.append_cons _ _ _⟩

def Waits (s : System) : Prop := ∀ id call io, s.calls id = some call → call.io = some io → Drains io

theorem Waits.setCall (waits : Waits s) (calls : t.calls = Function.update s.calls n (some next))
    (drains : ∀ io, next.io = some io → Drains io) : Waits t := by
  intro id call io there running
  rw [calls] at there
  by_cases same : id = n
  · subst same
    obtain rfl : next = call := by simpa using there
    exact drains io running
  · rw [Function.update_of_ne same] at there
    exact waits id call io there running

theorem step_waits (stage : LogRing) (act : Act) (waits : Waits s) (stepped : step c stage s act = some t) : Waits t := by
  have framed : act.background = true → Waits t := by
    intro background id call io there
    rw [(step_background background stepped).2.1] at there
    exact waits id call io there
  cases act with
  | stageFile id ino f x =>
    simp only [Life.step,stageFile] at stepped
    split at stepped
    · simp at stepped
    · obtain ⟨r,_,rfl⟩ := map_eq_some_iff.mp stepped
      exact waits.setCall rfl (by simp)
  | buildStageTx id =>
    obtain ⟨call,here,stepped⟩ := bind_eq_some_iff.mp stepped
    obtain ⟨-,⟨⟩⟩ := ite_none_left_eq_some.mp stepped
    exact waits.setCall rfl fun io running => waits id call io here running
  | stageFixBlocks id =>
    obtain ⟨call,here,stepped⟩ := bind_eq_some_iff.mp stepped
    obtain ⟨-,stepped⟩ := ite_none_right_eq_some.mp stepped
    obtain ⟨_,_,stepped⟩ := bind_eq_some_iff.mp stepped
    obtain ⟨_,_,stepped⟩ := bind_eq_some_iff.mp stepped
    split at stepped
    · obtain ⟨stx,_,rfl⟩ := map_eq_some_iff.mp stepped
      exact waits.setCall rfl fun io running => waits id call io here running
    all_goals simp at stepped
  | stageIo id =>
    obtain ⟨call,here,stepped⟩ := bind_eq_some_iff.mp stepped
    obtain ⟨-,stepped⟩ := ite_none_right_eq_some.mp stepped
    obtain ⟨_,_,stepped⟩ := bind_eq_some_iff.mp stepped
    obtain ⟨_,_,stepped⟩ := bind_eq_some_iff.mp stepped
    obtain ⟨stx,issued,rfl⟩ := map_eq_some_iff.mp stepped
    refine waits.setCall rfl fun io running => ?_
    obtain rfl := some.inj running
    exact .start issued
  | io id act =>
    obtain ⟨call,here,stepped⟩ := bind_eq_some_iff.mp stepped
    obtain ⟨before,running,stepped⟩ := bind_eq_some_iff.mp stepped
    obtain ⟨after,moved,rfl⟩ := map_eq_some_iff.mp stepped
    refine waits.setCall rfl fun io now => ?_
    obtain rfl := some.inj now
    have drains : Drains { before with disk := s.disk } := waits id call before here running
    exact drains.step moved
  | buildJtx ino =>
    simp only [Life.step,buildJtx] at stepped
    obtain ⟨-,⟨⟩⟩ := ite_none_right_eq_some.mp stepped
    exact waits
  | journalStageTrace =>
    simp only [Life.step,journalStageTrace] at stepped
    split at stepped
    · simp at stepped
    · obtain ⟨call,_,rfl⟩ := map_eq_some_iff.mp stepped
      exact waits
  | requestCommit | commit | checkpoint | stageFreeBlks => exact framed rfl

theorem Waits.durable {id : Nat} (waits : Waits s) (here : s.calls id = some call) (returned : call.Returned) :
    call.CommitDurable := by
  obtain ⟨io,running,ended⟩ := returned
  rw [List.isEmpty_iff] at ended
  rcases waits id call io here running with ⟨before,shape⟩ | ⟨_,none⟩
  · simp [ended] at shape
  · exact ⟨io,running,by simp [ended],by simp [none]⟩

/-- A checkpoint applies only stage transactions whose commit block is durable, in every run
in which it starts after the calls that wrote what it lists have returned. -/
theorem checkpoint_appliesCommitted (c : SeqBufs) (stage : LogRing) (disk : Disk) (area : StageArea.Journal)
    (acts : List Act) (returned : Along (step c stage) (EachListed Call.Returned) (start disk area) acts) :
    Along (step c stage) (EachListed Call.CommitDurable) (start disk area) acts := by
  refine Along.of_invariant (step c stage) Waits (EachListed Call.Returned) _
    (fun _ act _ waits _ stepped => step_waits stage act waits stepped) ?_ _ acts (by simp [Waits,start]) returned
  intro s act waits returned
  cases act with
  | checkpoint =>
    intro tx first e member id begun call here names
    exact waits.durable here (returned tx first e member id begun call here names)
  | _ => trivial

def sampleRun (done : List IoAct) : List Act :=
  [sampleCall,.buildStageTx 0,.stageFixBlocks 0,.stageIo 0] ++
    done.map (.io 0) ++ [.buildJtx 5,.journalStageTrace,.requestCommit,.commit,.checkpoint]

theorem checkpoint_appliesCommitted_returned :
    (run (step sampleBufs sampleStageLog) (start (fun _ _ => 0) sampleArea)
        (sampleRun [.thread,.thread,.complete 1,.complete 0,.thread])).isSome ∧
      Along (step sampleBufs sampleStageLog) (EachListed Call.CommitDurable) (start (fun _ _ => 0) sampleArea)
        (sampleRun [.thread,.thread,.complete 1,.complete 0,.thread]) :=
  ⟨by decide +kernel,checkpoint_appliesCommitted sampleBufs sampleStageLog _ sampleArea _ (by decide +kernel)⟩

/-- The commit block has not even been issued, and block 500 is written from the stage area. -/
theorem checkpoint_applies_uncommitted :
    (run (step sampleBufs sampleStageLog) (start (fun _ _ => 0) sampleArea) (sampleRun [.thread,.complete 0])).map
      (fun s => (etagBlk.nr (s.disk 500),decide (∀ call ∈ s.calls 0, call.CommitDurable))) = some (2^32 - 1,false) := by
  decide +kernel

end Oxbow.Daemon.Stage.Life
