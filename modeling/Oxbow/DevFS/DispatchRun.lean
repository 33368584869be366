import Mathlib.Data.List.Nodup
import Oxbow.DevFS.Dispatch
import Oxbow.DevFS.PersistData

/-! The runs of a dispatch and of the poll behind it. -/
namespace Oxbow.DevFS.Dispatch

open Oxbow.Lib Function List Option

variable {c : Config} {r : Request} {s t : State}

structure Tasks (s : State) : Prop where
  counted : ∀ j, (s.tasks j).bioCmplCnt + s.outstanding.count (some j) = (s.submitted.map Command.task).count j
  within : ∀ j, (s.submitted.map Command.task).count j ≤ (s.tasks j).bioSubmitCnt
  freed : ∀ j, j ∈ s.freed ↔ 0 < (s.tasks j).bioCmplCnt ∧ (s.tasks j).bioCmplCnt = (s.tasks j).bioSubmitCnt
  once : s.freed.Nodup

structure Found (n : Nat) (s t : State) : Prop where
  frame : t = { s with
    qpairInflight := t.qpairInflight, qpairCompletionCount := t.qpairCompletionCount
    outstanding := t.outstanding, tasks := t.tasks, freed := t.freed }
  outstanding : t.outstanding.length + n = s.outstanding.length
  completions : t.qpairCompletionCount = s.qpairCompletionCount + n
  inflight : s.qpairInflight = s.outstanding.length → t.qpairInflight = t.outstanding.length
  submitCnt : ∀ j, (t.tasks j).bioSubmitCnt = (s.tasks j).bioSubmitCnt
  tasks : Tasks s → Tasks t

theorem Found.trans (first : Found m s t) (second : Found n t u) : Found (m + n) s u := by
  have fewer := first.outstanding
  have more := second.outstanding
  have counted := first.completions
  have also := second.completions
  refine ⟨?_,by omega,by omega,fun known => second.inflight (first.inflight known),?_,fun before =>
    second.tasks (first.tasks before)⟩
  · rw [second.frame,first.frame]
  · intro j
    rw [second.submitCnt,first.submitCnt]

theorem handleComplete_freed (i : Nat) (s : State) : (handleComplete i (countComplete (some i) s)).freed =
    if (s.tasks i).bioSubmitCnt = (s.tasks i).bioCmplCnt + 1 then s.freed ++ [i] else s.freed := rfl

theorem handleComplete_tasks (tasks : Tasks s) (member : some i ∈ s.outstanding) :
    Tasks (handleComplete i (countComplete (some i) s)) := by
  have here := tasks.counted i
  have within := tasks.within i
  have positive := count_pos_iff.mpr member
  have unfreed : i ∉ s.freed := by
    rw [tasks.freed]
    omega
  refine ⟨?_,?_,?_,?_⟩
  · intro j
    by_cases same : j = i
    · subst same
      simp only [handleComplete,countComplete,update_self,count_erase_self]
      omega
    · have other := tasks.counted j
      simpa [handleComplete,countComplete,update_of_ne same,count_erase,Ne.symm same] using other
  · intro j
    by_cases same : j = i
    · subst same
      simpa [handleComplete,countComplete] using within
    · simpa [handleComplete,countComplete,update_of_ne same] using tasks.within j
  · intro j
    by_cases same : j = i
    · subst same
      rw [handleComplete_freed]
      split
      next last => simp [handleComplete,countComplete,last]
      next more =>
        simp only [unfreed,false_iff,not_and,handleComplete,countComplete,update_self]
        omega
    · have other := tasks.freed j
      rw [handleComplete_freed]
      split
      next => simpa [handleComplete,countComplete,same] using other
      next => simpa [handleComplete,countComplete,same] using other
  · rw [handleComplete_freed]
    split
    next =>
      rw [← concat_eq_append]
      exact tasks.once.concat unfreed
    next => exact tasks.once

theorem ioCompleteCb_found (completed : ioCompleteCb s done = some t) : Found 1 s t := by
  rw [ioCompleteCb] at completed
  obtain ⟨member,completed⟩ := ite_none_right_eq_some.mp completed
  have length := length_erase_of_mem member
  have positive := length_pos_of_mem member
  have inflight : s.qpairInflight = s.outstanding.length →
      (if s.qpairInflight = 0 then 0 else s.qpairInflight - 1) = (s.outstanding.erase done).length := by
    intro known
    rw [if_neg (by omega)]
    omega
  obtain rfl := Option.some.inj completed
  cases done with
  | none =>
    refine ⟨rfl,by simp only [elim_none,countComplete]; omega,rfl,inflight,fun _ => rfl,?_⟩
    intro tasks
    refine ⟨?_,tasks.within,tasks.freed,tasks.once⟩
    intro j
    simpa [countComplete,count_erase] using tasks.counted j
  | some i =>
    refine ⟨rfl,by simp only [elim_some,handleComplete,countComplete]; omega,rfl,inflight,?_,?_⟩
    · intro j
      by_cases same : j = i
      · subst same
        simp [handleComplete,countComplete]
      · simp [handleComplete,countComplete,update_of_ne same]
    · exact fun tasks => handleComplete_tasks tasks member

theorem processCompletions_found (polled : processCompletions found s = some t) : Found found.length s t := by
  induction found generalizing s with
  | nil =>
    obtain rfl : s = t := Option.some.inj polled
    exact ⟨rfl,rfl,rfl,fun known => known,fun _ => rfl,fun tasks => tasks⟩
  | cons done found ih =>
    rw [processCompletions,foldlM_cons] at polled
    obtain ⟨u,first,rest⟩ := bind_eq_some_iff.mp polled
    rw [length_cons,Nat.add_comm]
    exact (ioCompleteCb_found first).trans (ih rest)

structure Counts (c : Config) (base : Nat) (s : State) : Prop where
  inflight : s.qpairInflight = s.outstanding.length
  cap : s.outstanding.length ≤ c.inflightCap
  total : s.totalReqCnt = s.submitted.length
  balance : s.qpairCompletionCount + s.reqDone + s.outstanding.length = base + s.submitted.length

structure Sending (c : Config) (r : Request) (b : Bio) (k : Nat) (s : State) : Prop where
  here : r.bl[s.i]? = some b
  sent : s.submitted = sentBios c r.bl s.i ++ (List.range k).map (bioCommand c s.i b)
  most : k ≤ bioReqCnt c b
  left : s.leftBytes = bvLen b - k * c.maxIoSize
  place : 0 < s.leftBytes → s.payloadBuf = k * c.maxIoSize ∧ s.baddr = b.blkNo + k * (c.maxIoSize / blockSize)
  task : (s.tasks s.i).bioSubmitCnt = bioReqCnt c b
  idle : s.reqDone = 0

structure Sent (c : Config) (r : Request) (s : State) : Prop where
  past : r.bl[s.i]? = none
  sent : s.submitted = sentBios c r.bl s.i
  tot : s.reqTot = s.submitted.length
  done : s.reqDone ≤ s.reqTot

def Control (c : Config) (r : Request) (s : State) : Prop :=
  match s.pc with
  | .bios => s.submitted = sentBios c r.bl s.i ∧ (s.i = 0 → s.payloadBuf = 0) ∧ s.reqDone = 0
  | .filling => ∃ b k, Sending c r b k s
  | .full => (∃ b k, Sending c r b k s) ∧ 0 < s.leftBytes ∧ c.inflightCap ≤ s.outstanding.length
  | .retry | .refused => (∃ b k, Sending c r b k s) ∧ 0 < s.leftBytes ∧ s.outstanding.length < c.inflightCap
  | .polling => Sent c r s
  | .pollingOnce => Sent c r s ∧ s.reqTot = 0
  | .returned => Sent c r s ∧ s.reqDone = s.reqTot
  | .aborted => False

structure Inv (c : Config) (r : Request) (base : Nat) (s : State) : Prop where
  counts : Counts c base s
  tasks : Tasks s
  allocated : ∀ j b, j < s.i → r.bl[j]? = some b → (s.tasks j).bioSubmitCnt = bioReqCnt c b
  control : Control c r s

theorem sentBios_task (member : d ∈ sentBios c bl i) : d.task < i := by
  induction i with
  | zero => simp [sentBios] at member
  | succ i ih =>
    cases here : bl[i]? with
    | none =>
      rw [sentBios,take_past here] at member
      exact Nat.lt_succ_of_lt (ih member)
    | some b =>
      rw [sentBios_succ here,mem_append,bioCommands] at member
      rcases member with before | here
      · exact Nat.lt_succ_of_lt (ih before)
      · obtain ⟨k,-,rfl⟩ := mem_map.mp here
        exact Nat.lt_succ_self i

theorem sentBios_count (later : i ≤ j) : ((sentBios c bl i).map Command.task).count j = 0 := by
  rw [count_eq_zero]
  intro member
  obtain ⟨d,sent,rfl⟩ := mem_map.mp member
  exact absurd (sentBios_task sent) (by omega)

theorem Sending.count (sending : Sending c r b k s) : (s.submitted.map Command.task).count s.i = k := by
  rw [sending.sent,map_append,count_append,sentBios_count (Nat.le_refl _),bioCommand_tasks,count_replicate_self,
    Nat.zero_add]

theorem Sending.below (sending : Sending c r b k s) (more : 0 < s.leftBytes) : k < bioReqCnt c b := by
  rw [lt_bioReqCnt]
  have left := sending.left
  omega

theorem Inv.found (inv : Inv c r base s) (found : Found n s t) (control : Control c r { t with pc := pc }) :
    Inv c r base { t with pc := pc } := by
  have fewer := found.outstanding
  have completions := found.completions
  have counts := inv.counts
  have same : t.submitted = s.submitted ∧ t.totalReqCnt = s.totalReqCnt ∧ t.reqDone = s.reqDone ∧ t.i = s.i := by
    rw [found.frame]
    exact ⟨rfl,rfl,rfl,rfl⟩
  obtain ⟨submitted,total,done,i⟩ := same
  refine ⟨⟨found.inflight counts.inflight,?_,?_,?_⟩,?_,?_,control⟩
  · exact Nat.le_trans (by dsimp only; omega) counts.cap
  · dsimp only
    rw [submitted,total,counts.total]
  · have balance := counts.balance
    dsimp only
    rw [submitted,done]
    omega
  · have after := found.tasks inv.tasks
    exact ⟨after.counted,after.within,after.freed,after.once⟩
  · intro j b before here
    dsimp only at before ⊢
    rw [found.submitCnt]
    exact inv.allocated j b (i ▸ before) here

theorem Sending.found (sending : Sending c r b k s) (found : Found n s t) : Sending c r b k { t with pc := pc } := by
  have submitCnt := found.submitCnt
  rw [found.frame]
  exact ⟨sending.here,sending.sent,sending.most,sending.left,sending.place,(submitCnt _).trans sending.task,sending.idle⟩

theorem Sent.found (sent : Sent c r s) (found : Found n s t) : Sent c r { t with pc := pc } := by
  rw [found.frame]
  exact ⟨sent.past,sent.sent,sent.tot,sent.done⟩

variable {base : Nat}

theorem Sending.goTo (sending : Sending c r b k s) (pc : Pc) : Sending c r b k { s with pc := pc } :=
  ⟨sending.here,sending.sent,sending.most,sending.left,sending.place,sending.task,sending.idle⟩

theorem Inv.goTo (inv : Inv c r base s) (control : Control c r { s with pc := pc }) : Inv c r base { s with pc := pc } := by
  obtain ⟨inflight,cap,total,balance⟩ := inv.counts
  obtain ⟨counted,within,freed,once⟩ := inv.tasks
  exact ⟨⟨inflight,cap,total,balance⟩,⟨counted,within,freed,once⟩,inv.allocated,control⟩

theorem nextBio_inv (inv : Inv c r base s) (bios : s.pc = .bios) (here : r.bl[s.i]? = some b)
    (first : ¬ (r.customBuf = true ∧ s.i ≠ 0)) : Inv c r base (nextBio c r b s) := by
  have control := inv.control
  rw [Control,bios] at control
  obtain ⟨sent,start,idle⟩ := control
  obtain ⟨counted,within,freed,once⟩ := inv.tasks
  have none : (s.submitted.map Command.task).count s.i = 0 := by
    rw [sent]
    exact sentBios_count (Nat.le_refl _)
  have fresh := counted s.i
  have unfreed : s.i ∉ s.freed := by
    rw [freed]
    omega
  obtain ⟨inflight,cap,total,balance⟩ := inv.counts
  refine ⟨⟨inflight,cap,total,balance⟩,⟨?_,?_,?_,once⟩,?_,?_⟩
  · intro j
    by_cases same : j = s.i
    · subst same
      simp only [nextBio,update_self]
      omega
    · simpa [nextBio,same] using counted j
  · intro j
    by_cases same : j = s.i
    · subst same
      simp only [nextBio,none]
      exact Nat.zero_le _
    · simpa [nextBio,same] using within j
  · intro j
    by_cases same : j = s.i
    · subst same
      simp [nextBio,unfreed]
    · simpa [nextBio,same] using freed j
  · intro j b' before at'
    have other : j ≠ s.i := Nat.ne_of_lt before
    simpa [nextBio,other] using inv.allocated j b' before at'
  · refine ⟨b,0,here,by simpa [nextBio] using sent,Nat.zero_le _,by simp [nextBio],?_,by simp [nextBio],idle⟩
    intro _
    by_cases custom : r.customBuf = true
    · have zero : s.i = 0 := by
        by_contra later
        exact first ⟨custom,later⟩
      simp [nextBio,custom,start zero]
    · simp [nextBio,custom]

theorem singleIoSize_eq (c : Config) (s : State) : singleIoSize c s = min c.maxIoSize s.leftBytes := by
  rw [singleIoSize]
  split <;> omega

theorem submitCmd_sending (sending : Sending c r b k s) (more : 0 < s.leftBytes) : Sending c r b (k + 1) (submitCmd c s) := by
  obtain ⟨payload,baddr⟩ := sending.place more
  have left := sending.left
  have below := sending.below more
  have size := singleIoSize_eq c s
  have next : (k + 1) * c.maxIoSize = k * c.maxIoSize + c.maxIoSize := Nat.succ_mul k c.maxIoSize
  refine ⟨sending.here,?_,below,?_,?_,sending.task,sending.idle⟩
  · simp only [submitCmd,sending.sent,range_succ,map_append,append_assoc,map_cons,map_nil,bioCommand]
    rw [payload,baddr,size,left]
  · simp only [submitCmd]
    omega
  · simp only [submitCmd]
    intro again
    have whole : singleIoSize c s = c.maxIoSize := by omega
    rw [whole,payload,baddr,next,Nat.succ_mul]
    exact ⟨rfl,Nat.add_assoc _ _ _⟩

section

variable (inv : Inv c r base s)
include inv

theorem submitCmd_inv (retry : s.pc = .retry) : Inv c r base (submitCmd c s) := by
  have control := inv.control
  rw [Control,retry] at control
  obtain ⟨⟨b,k,sending⟩,more,room⟩ := control
  have below := sending.below more
  have task := sending.task
  have after := submitCmd_sending sending more
  have counted' := after.count
  obtain ⟨inflight,-,total,balance⟩ := inv.counts
  obtain ⟨counted,within,freed,once⟩ := inv.tasks
  refine ⟨⟨?_,?_,?_,?_⟩,⟨?_,?_,freed,once⟩,inv.allocated,⟨b,k + 1,after⟩⟩
  · simp [submitCmd,inflight]
  · simp only [submitCmd,length_append,length_cons,length_nil]
    omega
  · simp [submitCmd,total]
  · simp only [submitCmd,length_append,length_cons,length_nil]
    omega
  · intro j
    have before := counted j
    simp only [submitCmd,map_append,map_cons,map_nil,count_append,count_singleton]
    by_cases same : s.i = j
    · simp only [same,beq_self_eq_true,if_true]
      omega
    · simpa [same] using before
  · intro j
    by_cases same : j = s.i
    · subst same
      rw [show (submitCmd c s).i = s.i from rfl] at counted'
      rw [counted']
      exact Nat.le_trans below (Nat.le_of_eq task.symm)
    · simpa [submitCmd,Ne.symm same] using within j

theorem poll_inv (bios : s.pc = .bios) (past : r.bl[s.i]? = none) : Inv c r base (poll s) := by
  have control := inv.control
  rw [Control,bios] at control
  obtain ⟨inflight,cap,total,balance⟩ := inv.counts
  obtain ⟨counted,within,freed,once⟩ := inv.tasks
  have sent : Sent c r (poll s) := ⟨past,control.1,total,Nat.zero_le _⟩
  have idle : s.reqDone = (poll s).reqDone := control.2.2
  refine ⟨⟨inflight,cap,total,idle ▸ balance⟩,⟨counted,within,freed,once⟩,inv.allocated,?_⟩
  rw [Control]
  by_cases none : s.totalReqCnt = 0
  · simpa [poll,none] using sent
  · simpa [poll,none] using sent

theorem bioSent_inv (sending : Sending c r b k s) (none : s.leftBytes = 0) :
    Inv c r base { s with pc := .bios, i := s.i + 1 } := by
  have left := sending.left
  have all : k = bioReqCnt c b := by
    have most := sending.most
    have least := (lt_bioReqCnt (c := c) (b := b) (k := k)).not.mpr (by omega)
    omega
  have sent := sending.sent
  rw [all,← bioCommands,← sentBios_succ sending.here] at sent
  obtain ⟨inflight,cap,total,balance⟩ := inv.counts
  obtain ⟨counted,within,freed,once⟩ := inv.tasks
  refine ⟨⟨inflight,cap,total,balance⟩,⟨counted,within,freed,once⟩,?_,⟨sent,by simp,sending.idle⟩⟩
  intro j b' before at'
  by_cases last : j = s.i
  · subst last
    obtain rfl : b = b' := Option.some.inj (sending.here.symm.trans at')
    exact sending.task
  · have earlier : j < s.i := by
      dsimp only at before
      omega
    exact inv.allocated j b' earlier at'

theorem consume_inv (polling : s.pc = .polling) :
    Inv c r base { s with qpairCompletionCount := s.qpairCompletionCount - consumed s, reqDone := s.reqDone + consumed s } := by
  have control := inv.control
  rw [Control,polling] at control
  obtain ⟨past,sent,tot,done⟩ := control
  obtain ⟨inflight,cap,total,balance⟩ := inv.counts
  obtain ⟨counted,within,freed,once⟩ := inv.tasks
  have size : consumed s = min (s.reqTot - s.reqDone) s.qpairCompletionCount := by
    rw [consumed]
    split <;> omega
  refine ⟨⟨inflight,cap,total,?_⟩,⟨counted,within,freed,once⟩,inv.allocated,?_⟩
  · dsimp only
    omega
  · simp only [Control,polling]
    exact ⟨past,sent,tot,by dsimp only; omega⟩

theorem advance_inv (advanced : advance c r s = some t) : Inv c r base t := by
  have control := inv.control
  rw [advance] at advanced
  rw [Control] at control
  cases pc : s.pc with
  | bios =>
    simp only [pc] at advanced
    cases here : r.bl[s.i]? with
    | none =>
      simp only [here] at advanced
      obtain rfl := Option.some.inj advanced
      exact poll_inv inv pc here
    | some b =>
      simp only [here] at advanced
      split at advanced
      next second =>
        have length := r.single second.1
        obtain ⟨below,-⟩ := List.getElem?_eq_some_iff.mp here
        omega
      next first =>
        obtain rfl := Option.some.inj advanced
        exact nextBio_inv inv pc here first
  | filling =>
    simp only [pc] at advanced control
    obtain ⟨b,k,sending⟩ := control
    split at advanced
    next more =>
      obtain rfl := Option.some.inj advanced
      refine inv.goTo ?_
      rw [Control]
      have inflight := inv.counts.inflight
      by_cases full : c.inflightCap ≤ s.qpairInflight
      · simp only [full,if_true]
        exact ⟨⟨b,k,sending.goTo _⟩,more,inflight ▸ full⟩
      · simp only [full,if_false]
        exact ⟨⟨b,k,sending.goTo _⟩,more,by omega⟩
    next none =>
      obtain rfl := Option.some.inj advanced
      exact bioSent_inv inv sending (Nat.eq_zero_of_not_pos none)
  | polling =>
    simp only [pc] at advanced control
    have done := control.done
    split_ifs at advanced with waiting found
    · obtain rfl := Option.some.inj advanced
      simpa only [pc] using consume_inv inv pc
    · obtain rfl := Option.some.inj advanced
      exact inv.goTo ⟨⟨control.past,control.sent,control.tot,done⟩,by dsimp only; omega⟩
  | _ => simp [pc] at advanced

theorem polled_inv (after : polled found s = some pc)
    (processed : processCompletions found s = some t) : Inv c r base { t with pc := pc } := by
  have effect := processCompletions_found processed
  have fewer := effect.outstanding
  have cap := inv.counts.cap
  have control := inv.control
  have same : t.leftBytes = s.leftBytes ∧ t.reqTot = s.reqTot ∧ t.reqDone = s.reqDone := by
    rw [effect.frame]
    exact ⟨rfl,rfl,rfl⟩
  obtain ⟨left,tot,done⟩ := same
  refine inv.found effect ?_
  rw [polled] at after
  rw [Control] at control
  cases place : s.pc with
  | full =>
    simp only [place] at after control
    obtain ⟨⟨b,k,sending⟩,more,room⟩ := control
    obtain rfl := Option.some.inj after
    cases found with
    | nil => exact ⟨⟨b,k,sending.found effect⟩,left ▸ more,by simp only [length_nil] at fewer; dsimp only; omega⟩
    | cons done found =>
      simp only [length_cons] at fewer
      exact ⟨⟨b,k,sending.found effect⟩,left ▸ more,by dsimp only; omega⟩
  | refused =>
    simp only [place] at after control
    obtain ⟨⟨b,k,sending⟩,more,room⟩ := control
    obtain rfl := Option.some.inj after
    exact ⟨⟨b,k,sending.found effect⟩,left ▸ more,by dsimp only; omega⟩
  | polling =>
    simp only [place] at after control
    obtain ⟨-,⟨⟩⟩ := ite_none_right_eq_some.mp after
    exact control.found effect
  | pollingOnce =>
    simp only [place] at after control
    obtain rfl := Option.some.inj after
    have few := control.1.done
    exact ⟨control.1.found effect,by dsimp only; omega⟩
  | _ => simp [place] at after

theorem step_inv (stepped : step c r s a = some t) : Inv c r base t := by
  cases a with
  | advance => exact advance_inv inv stepped
  | processCompletions found =>
    obtain ⟨pc,after,rest⟩ := bind_eq_some_iff.mp stepped
    obtain ⟨u,processed,rfl⟩ := map_eq_some_iff.mp rest
    exact polled_inv inv after processed
  | submit taken =>
    rw [step] at stepped
    split_ifs at stepped with retry both took
    · have custom := r.written both.2
      simp [both.1] at custom
    · obtain rfl := Option.some.inj stepped
      exact submitCmd_inv inv retry
    · obtain rfl := Option.some.inj stepped
      have control := inv.control
      rw [Control,retry] at control
      obtain ⟨⟨b,k,sending⟩,rest⟩ := control
      exact inv.goTo ⟨⟨b,k,sending.goTo _⟩,rest⟩

end

theorem enter_inv (r : Request) (few : inflight ≤ c.inflightCap) (completionCount : Nat) :
    Inv c r (completionCount + inflight) (enter inflight completionCount) := by
  refine ⟨⟨?_,?_,rfl,?_⟩,⟨?_,?_,?_,nodup_nil⟩,?_,⟨?_,fun _ => rfl,rfl⟩⟩
  · simp [enter]
  · simpa [enter] using few
  · simp [enter]
  · intro j
    simp [enter,count_replicate]
  · intro j
    simp [enter]
  · intro j
    simp [enter]
  · intro j b before
    simp [enter] at before
  · simp [enter,sentBios]

theorem run_inv (few : inflight ≤ c.inflightCap)
    (ran : run (step c r) (enter inflight completionCount) acts = some s) : Inv c r (completionCount + inflight) s :=
  run_invariant_always (step c r) (Inv c r (completionCount + inflight)) (fun _ _ _ inv stepped => step_inv inv stepped) _ acts s
    (enter_inv r few completionCount) ran

/-! The run comes to its end if polls go on finding completions. -/

/-- A poll finds a completion if there is anything left to complete, and a command is only refused while others are in flight. -/
def fairStep (c : Config) (r : Request) (s : State) : Act → Option State
  | .advance => step c r s .advance
  | .processCompletions found =>
    if found = [] ∧ s.outstanding ≠ [] ∧ s.pc ≠ .pollingOnce then none else step c r s (.processCompletions found)
  | .submit taken => if taken = false ∧ s.outstanding = [] then none else step c r s (.submit taken)

def restOf (bl : List Bio) (i : Nat) : Nat := ((bl.drop i).map fun b => bvLen b + 1).sum

theorem restOf_succ (here : bl[i]? = some b) : restOf bl i = bvLen b + 1 + restOf bl (i + 1) := by
  obtain ⟨below,rfl⟩ := List.getElem?_eq_some_iff.mp here
  rw [restOf,drop_eq_getElem_cons below,map_cons,sum_cons,restOf]

def toGo (r : Request) (s : State) : Nat :=
  match s.pc with
  | .bios => 8 * restOf r.bl s.i + 2
  | .filling => 8 * (s.leftBytes + restOf r.bl (s.i + 1)) + 5
  | .full => 8 * (s.leftBytes + restOf r.bl (s.i + 1)) + 4
  | .retry => 8 * (s.leftBytes + restOf r.bl (s.i + 1)) + 3
  -- a refusal is paid for by a completion, unless there is none to come
  | .refused => 8 * (s.leftBytes + restOf r.bl (s.i + 1)) + if s.outstanding = [] then 4 else 2
  | .polling | .pollingOnce => 1
  | .returned | .aborted => 0

def measure (r : Request) (s : State) : Nat := toGo r s + 3 * s.outstanding.length + s.qpairCompletionCount

theorem advance_measure (advanced : advance c r s = some t) : measure r t < measure r s := by
  rw [advance] at advanced
  rw [measure,measure,toGo,toGo]
  cases pc : s.pc with
  | bios =>
    simp only [pc] at advanced ⊢
    cases here : r.bl[s.i]? with
    | none =>
      simp only [here] at advanced
      obtain rfl := Option.some.inj advanced
      by_cases none : s.totalReqCnt = 0 <;> simp only [poll,none,if_true,if_false] <;> omega
    | some b =>
      have rest := restOf_succ here
      simp only [here] at advanced
      split at advanced <;> obtain rfl := Option.some.inj advanced
      · dsimp only
        omega
      · dsimp only [nextBio]
        omega
  | filling =>
    simp only [pc] at advanced ⊢
    split at advanced <;> obtain rfl := Option.some.inj advanced
    · by_cases full : c.inflightCap ≤ s.qpairInflight <;> simp only [full,if_true,if_false] <;> omega
    · dsimp only
      omega
  | polling =>
    simp only [pc] at advanced ⊢
    split_ifs at advanced with waiting found <;> obtain rfl := Option.some.inj advanced
    · have size : 0 < consumed s ∧ consumed s ≤ s.qpairCompletionCount := by
        rw [consumed]
        split <;> omega
      dsimp only
      omega
    · dsimp only
      omega
  | _ => simp [pc] at advanced

section

variable (inv : Inv c r base s)
include inv

theorem Inv.waiting (polling : s.pc = .polling) (waiting : s.reqDone < s.reqTot)
    (none : s.qpairCompletionCount = 0) : 0 < s.outstanding.length := by
  have control := inv.control
  rw [Control,polling] at control
  have tot := control.tot
  have balance := inv.counts.balance
  omega

theorem polled_measure (after : polled found s = some pc)
    (processed : processCompletions found s = some t)
    (fair : ¬ (found = [] ∧ s.outstanding ≠ [] ∧ s.pc ≠ .pollingOnce)) :
    measure r { t with pc := pc } < measure r s := by
  have effect := processCompletions_found processed
  have fewer := effect.outstanding
  have completions := effect.completions
  have control := inv.control
  have same : t.i = s.i ∧ t.leftBytes = s.leftBytes := by
    rw [effect.frame]
    exact ⟨rfl,rfl⟩
  obtain ⟨i,left⟩ := same
  -- a fair poll that finds nothing had nothing to wait for
  have finds : s.pc ≠ .pollingOnce → 0 < s.outstanding.length → 0 < found.length := by
    intro loop busy
    by_contra nothing
    refine fair ⟨eq_nil_of_length_eq_zero (by omega),?_,loop⟩
    exact ne_nil_of_length_pos busy
  rw [measure,measure,toGo,toGo]
  rw [polled] at after
  rw [Control] at control
  cases place : s.pc with
  | full =>
    simp only [place] at after control finds ⊢
    have some := finds (by simp) (Nat.lt_of_lt_of_le c.inflightCap_pos control.2.2)
    have busy : found ≠ [] := ne_nil_of_length_pos some
    obtain rfl := Option.some.inj after
    simp only [busy,if_false,i,left]
    omega
  | refused =>
    simp only [place] at after finds ⊢
    obtain rfl := Option.some.inj after
    by_cases idle : s.outstanding = []
    · simp only [idle,length_nil,if_true,i,left] at fewer ⊢
      omega
    · have some := finds (by simp) (length_pos_of_ne_nil idle)
      simp only [idle,if_false,i,left]
      omega
  | polling =>
    simp only [place] at after finds ⊢
    obtain ⟨waiting,after⟩ := ite_none_right_eq_some.mp after
    have some := finds (by simp) (inv.waiting place waiting.1 waiting.2)
    obtain rfl := Option.some.inj after
    dsimp only
    omega
  | pollingOnce =>
    simp only [place] at after ⊢
    obtain rfl := Option.some.inj after
    dsimp only
    omega
  | _ => simp [place] at after

theorem fairStep_measure (stepped : fairStep c r s a = some t) : Inv c r base t ∧ measure r t < measure r s := by
  cases a with
  | advance =>
    have advanced : advance c r s = some t := stepped
    exact ⟨advance_inv inv advanced,advance_measure advanced⟩
  | processCompletions found =>
    rw [fairStep] at stepped
    obtain ⟨fair,stepped⟩ := ite_none_left_eq_some.mp stepped
    refine ⟨step_inv inv stepped,?_⟩
    obtain ⟨pc,after,rest⟩ := bind_eq_some_iff.mp stepped
    obtain ⟨u,processed,rfl⟩ := map_eq_some_iff.mp rest
    exact polled_measure inv after processed fair
  | submit taken =>
    rw [fairStep] at stepped
    obtain ⟨fair,stepped⟩ := ite_none_left_eq_some.mp stepped
    refine ⟨step_inv inv stepped,?_⟩
    rw [step] at stepped
    rw [measure,measure,toGo,toGo]
    split_ifs at stepped with retry both took <;> obtain rfl := Option.some.inj stepped
    · simp only [retry]
      omega
    · have control := inv.control
      rw [Control,retry] at control
      have size := singleIoSize_eq c s
      have positive := c.positive
      simp only [retry,submitCmd,length_append,length_cons,length_nil]
      omega
    · have busy : s.outstanding ≠ [] := fun idle => fair ⟨by simpa using took,idle⟩
      simp only [retry,busy,if_false]
      omega

/-- There is always something that can happen next. -/
theorem Inv.moves : s.pc = .returned ∨ ∃ a t, fairStep c r s a = some t := by
  have control := inv.control
  have one : ∀ pc, (∀ done, polled [done] s = some pc) → 0 < s.outstanding.length →
      ∃ a t, fairStep c r s a = some t := by
    intro pc after busy
    obtain ⟨done,member⟩ := exists_mem_of_length_pos busy
    refine ⟨.processCompletions [done],?_⟩
    rw [fairStep,if_neg (by simp),step,after done,bind_some,processCompletions,foldlM_cons,ioCompleteCb,if_pos member]
    exact ⟨_,rfl⟩
  rw [Control] at control
  cases pc : s.pc with
  | bios =>
    refine .inr ⟨.advance,?_⟩
    simp only [fairStep,step,advance,pc]
    cases r.bl[s.i]? with
    | none => exact ⟨_,rfl⟩
    | some b =>
      dsimp only
      split <;> exact ⟨_,rfl⟩
  | filling =>
    refine .inr ⟨.advance,?_⟩
    simp only [fairStep,step,advance,pc]
    split <;> exact ⟨_,rfl⟩
  | full =>
    simp only [pc] at control
    exact .inr (one .retry (fun _ => by simp [polled,pc]) (Nat.lt_of_lt_of_le c.inflightCap_pos control.2.2))
  | retry =>
    refine .inr ⟨.submit true,?_⟩
    simp only [fairStep,step,pc,if_true]
    by_cases both : r.isRead = true ∧ r.customBuf = true <;> simp [both]
  | refused =>
    by_cases idle : s.outstanding = []
    · refine .inr ⟨.processCompletions [],{ s with pc := .retry },?_⟩
      rw [fairStep,if_neg (by simp [idle]),step]
      simp [polled,pc,processCompletions]
    · exact .inr (one .retry (fun _ => by simp [polled,pc]) (length_pos_of_ne_nil idle))
  | polling =>
    by_cases wait : s.reqDone < s.reqTot ∧ s.qpairCompletionCount = 0
    · exact .inr (one .polling (fun _ => by simp [polled,pc,wait]) (inv.waiting pc wait.1 wait.2))
    · refine .inr ⟨.advance,?_⟩
      simp only [fairStep,step,advance,pc]
      by_cases waiting : s.reqDone < s.reqTot
      · have found : 0 < s.qpairCompletionCount := by omega
        simp [waiting,found]
      · simp [waiting]
  | pollingOnce =>
    refine .inr ⟨.processCompletions [],{ s with pc := .returned },?_⟩
    rw [fairStep,if_neg (by simp [pc]),step]
    simp [polled,pc,processCompletions]
  | returned => exact .inl rfl
  | aborted =>
    simp only [pc] at control

theorem poll_returns : Inevitable (fairStep c r) (fun t => t.pc = .returned) s :=
  inevitable_of_measure (Inv c r base) (measure r) (fun _ inv => inv.moves)
    (fun _ _ _ inv stepped => fairStep_measure inv stepped) s inv

theorem Inv.sent (dispatched : s.pc = .polling ∨ s.pc = .pollingOnce ∨ s.pc = .returned) : Sent c r s := by
  have control := inv.control
  rw [Control] at control
  rcases dispatched with pc | pc | pc <;> simp only [pc] at control
  · exact control
  · exact control.1
  · exact control.1

end

/-- With everything completed, the poll goes on to return by itself. -/
theorem Inv.returns (inv : Inv c r 0 s) (polling : s.pc = .polling) (idle : s.outstanding = []) :
    ∃ n t, run (step c r) s (replicate n .advance) = some t ∧ t.pc = .returned := by
  have sent := inv.sent (.inl polling)
  have tot := sent.tot
  have done := sent.done
  have balance := inv.counts.balance
  rw [idle,length_nil] at balance
  by_cases waiting : s.reqDone < s.reqTot
  · have found : 0 < s.qpairCompletionCount := by omega
    have all : consumed s = s.reqTot - s.reqDone := by
      rw [consumed]
      split <;> omega
    have last : ¬ s.reqDone + (s.reqTot - s.reqDone) < s.reqTot := by omega
    refine ⟨2,{ s with
      pc := .returned
      qpairCompletionCount := s.qpairCompletionCount - (s.reqTot - s.reqDone)
      reqDone := s.reqDone + (s.reqTot - s.reqDone) },?_,rfl⟩
    simp only [replicate,run,step,advance,polling,waiting,found,all,if_true,bind_some]
    rw [if_neg last]
    rfl
  · refine ⟨1,{ s with pc := .returned },?_,rfl⟩
    simp only [replicate,run,step,advance,polling,waiting,if_false]
    rfl

/-- After every run nothing has aborted, the counts are exact, and all that is polled for has been sent. -/
theorem dispatch_poll_exact (c : Config) (r : Request) (inflight completionCount : Nat) (few : inflight ≤ c.inflightCap)
    (acts : List Act) (s : State) (ran : run (step c r) (enter inflight completionCount) acts = some s) :
    s.pc ≠ .aborted ∧
      (s.qpairInflight = s.outstanding.length ∧ s.outstanding.length ≤ c.inflightCap) ∧
      (s.pc = .polling ∨ s.pc = .pollingOnce ∨ s.pc = .returned →
        s.submitted.flatMap Command.transfers = r.transfers ∧ s.reqTot = s.submitted.length) ∧
      (inflight = 0 → completionCount = 0 →
        (s.pc = .returned → s.outstanding = [] ∧ s.qpairCompletionCount = 0) ∧
        (s.pc = .polling → s.outstanding = [] →
          ∃ n t, run (step c r) s (replicate n .advance) = some t ∧ t.pc = .returned)) ∧
      Inevitable (fairStep c r) (fun t => t.pc = .returned) s := by
  have inv := run_inv few ran
  refine ⟨?_,⟨inv.counts.inflight,inv.counts.cap⟩,?_,?_,poll_returns inv⟩
  · intro aborted
    have control := inv.control
    rwa [Control,aborted] at control
  · intro dispatched
    have sent := inv.sent dispatched
    exact ⟨by rw [sent.sent,sentBios_all r sent.past],sent.tot⟩
  · rintro rfl rfl
    refine ⟨?_,fun polling idle => inv.returns polling idle⟩
    intro returned
    have tot := (inv.sent (.inr (.inr returned))).tot
    have control := inv.control
    rw [Control,returned] at control
    have balance := inv.counts.balance
    exact ⟨eq_nil_of_length_eq_zero (by omega),by omega⟩

theorem twoBlks_sectors : 8192 / sectorSize < 2^32 := by decide

def twoBlks : Config where
  maxIoSize := 8192
  maxIoQueueRequests := 4
  nvmfMaxInflightPerQpair := 0
  positive := Nat.succ_pos _
  whole := ⟨2,rfl⟩
  sectors := twoBlks_sectors
  requests := Nat.succ_pos _

theorem twoBios_onDevice : ∀ b ∈ [(⟨10,0,3⟩ : Bio),⟨20,3,1⟩], b.blkNo + b.nBlks ≤ maxDevBlks := by decide

def twoBios : Request where
  bl := [⟨10,0,3⟩,⟨20,3,1⟩]
  isRead := false
  customBuf := false
  single := fun custom => absurd custom Bool.false_ne_true
  written := fun _ => rfl
  onDevice := twoBios_onDevice

def twoBiosActs : List Act :=
  [.advance,.advance,.submit true,.advance,.submit true,.advance,.advance,.advance,.processCompletions [],
    .processCompletions [some 0],.submit false,.processCompletions [],.submit true,.advance,.advance,.advance,
    .processCompletions [some 1,some 0],.advance,.advance]

theorem dispatch_poll_exact_twoBios :
    ∃ s, run (step twoBlks twoBios) (enter 0 0) twoBiosActs = some s ∧ s.pc = .returned ∧
      s.submitted.map Command.payloadBuf = [0,8192,0] ∧ s.qpairCompletionCount = 0 := by
  have ends : (run (step twoBlks twoBios) (enter 0 0) twoBiosActs).map (fun s => (s.pc,s.submitted.map Command.payloadBuf)) =
      some (.returned,[0,8192,0]) := by decide
  obtain ⟨s,ran,seen⟩ := map_eq_some_iff.mp ends
  obtain ⟨returned,payload⟩ := Prod.mk.inj seen
  have exact' := dispatch_poll_exact twoBlks twoBios 0 0 (Nat.zero_le _) twoBiosActs s ran
  exact ⟨s,ran,returned,payload,((exact'.2.2.2.1 rfl rfl).1 returned).2⟩

/-! The tasks and their buffers. -/

theorem sentBios_count_eq (before : j < i) (here : bl[j]? = some b) :
    ((sentBios c bl i).map Command.task).count j = bioReqCnt c b := by
  induction i with
  | zero => omega
  | succ i ih =>
    cases last : bl[i]? with
    | none =>
      have short := List.getElem?_eq_none_iff.mp last
      obtain ⟨below,-⟩ := List.getElem?_eq_some_iff.mp here
      rw [sentBios,take_past last]
      exact ih (by omega)
    | some b' =>
      rw [sentBios_succ last,map_append,count_append,bioCommands,bioCommand_tasks]
      by_cases same : j = i
      · subst same
        obtain rfl : b = b' := Option.some.inj (here.symm.trans last)
        rw [sentBios_count (Nat.le_refl _),count_replicate_self,Nat.zero_add]
      · rw [ih (by omega),count_replicate,if_neg (by simpa using Ne.symm same)]
        rfl

/-- A task is freed once, when nothing of its buffer is left to transfer, and after the poll all of them have been. -/
theorem tasks_freed (r : Request) (ran : run (step c r) (enter 0 0) acts = some s) :
    (∀ j ∈ s.freed, some j ∉ s.outstanding ∧ (s.submitted.map Command.task).count j = (s.tasks j).bioSubmitCnt) ∧
      s.freed.Nodup ∧
      (s.pc = .returned → ∀ j b, r.bl[j]? = some b → 0 < b.nBlks → j ∈ s.freed) := by
  have inv := run_inv (Nat.zero_le _) ran
  obtain ⟨counted,within,freed,once⟩ := inv.tasks
  refine ⟨?_,once,?_⟩
  · intro j member
    obtain ⟨-,last⟩ := (freed j).mp member
    have few := within j
    have count := counted j
    refine ⟨?_,by omega⟩
    rw [← count_eq_zero]
    omega
  · intro returned j b here positive
    have sent := inv.sent (.inr (.inr returned))
    have control := inv.control
    rw [Control,returned] at control
    have balance := inv.counts.balance
    have tot := sent.tot
    have idle : s.outstanding = [] := eq_nil_of_length_eq_zero (by omega)
    have before : j < s.i := by
      have short := List.getElem?_eq_none_iff.mp sent.past
      obtain ⟨below,-⟩ := List.getElem?_eq_some_iff.mp here
      omega
    have count := counted j
    rw [idle,count_nil,sent.sent,sentBios_count_eq before here] at count
    have one : 0 < bioReqCnt c b := by
      rw [lt_bioReqCnt,Nat.zero_mul,bvLen]
      exact Nat.mul_pos positive (by decide)
    rw [freed,inv.allocated j b before here]
    omega

theorem tasks_freed_twoBios : ∃ s, run (step twoBlks twoBios) (enter 0 0) twoBiosActs = some s ∧ s.freed.Nodup ∧
    0 ∈ s.freed ∧ 1 ∈ s.freed := by
  have ends : (run (step twoBlks twoBios) (enter 0 0) twoBiosActs).map State.pc = some .returned := by decide
  obtain ⟨s,ran,returned⟩ := map_eq_some_iff.mp ends
  obtain ⟨-,once,all⟩ := tasks_freed twoBios ran
  exact ⟨s,ran,once,all returned 0 _ rfl (by decide),all returned 1 _ rfl (by decide)⟩

/-! The dispatch of a chunk that has been fetched. -/

/-- For one bio, every run that returns transfers what the plain function of the journal does. -/
theorem dispatchIoFast_agrees (one : r.bl = [b]) (size : c.maxIoSize = (maxIoBlks + 1) * blockSize)
    (ran : run (step c r) (enter 0 0) acts = some s) (returned : s.pc = .returned) :
    DevFS.dispatchIoFast maxIoBlks r.bl =
      ((s.submitted.flatMap Command.transfers).map fun x =>
        (x.lba / sectorsPerBlock,b.buf + x.offset / blockSize),some s.reqTot) := by
  have sent := (run_inv (Nat.zero_le _) ran).sent (.inr (.inr returned))
  have blks : c.maxIoSize / blockSize = maxIoBlks + 1 := by rw [size,Nat.mul_div_cancel _ (by decide)]
  have past := List.getElem?_eq_none_iff.mp sent.past
  have all : sentBios c r.bl s.i = bioCommands c 0 b := by
    rw [sentBios,take_of_length_le past,one]
    simp
  have length : s.reqTot = (b.nBlks + maxIoBlks) / (maxIoBlks + 1) := by
    rw [sent.tot,sent.sent,all,bioCommands,length_map,length_range,bioReqCnt_blks,blks]
    rfl
  rw [sent.sent,sentBios_all r sent.past,length,Request.transfers,one]
  simp only [DevFS.dispatchIoFast,Bio.blocks,bioTransfers,mapIdx_cons,mapIdx_nil,flatten_cons,flatten_nil,
    List.append_nil,List.map_map,Function.comp_def]
  have sectors : 0 < sectorsPerBlock := by decide
  have bytes : 0 < blockSize := by decide
  simp only [Nat.mul_div_cancel _ sectors,Nat.mul_div_cancel _ bytes]

theorem oneBio_onDevice : ∀ b ∈ [(⟨10,0,3⟩ : Bio)], b.blkNo + b.nBlks ≤ maxDevBlks := by decide

def oneBio : Request :=
  ⟨[⟨10,0,3⟩],false,false,fun custom => absurd custom Bool.false_ne_true,fun _ => rfl,oneBio_onDevice⟩

def oneBioActs : List Act :=
  [.advance,.advance,.submit true,.advance,.submit true,.advance,.advance,.processCompletions [some 0,some 0],.advance,.advance]

theorem dispatchIoFast_agrees_oneBio : ∃ s, run (step twoBlks oneBio) (enter 0 0) oneBioActs = some s ∧
    DevFS.dispatchIoFast 1 oneBio.bl = ((s.submitted.flatMap Command.transfers).map
      fun x => (x.lba / sectorsPerBlock,0 + x.offset / blockSize),some s.reqTot) := by
  have ends : (run (step twoBlks oneBio) (enter 0 0) oneBioActs).map State.pc = some .returned := by decide
  obtain ⟨s,ran,returned⟩ := map_eq_some_iff.mp ends
  exact ⟨s,ran,dispatchIoFast_agrees rfl rfl ran returned⟩

end Oxbow.DevFS.Dispatch
