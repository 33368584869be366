import Mathlib.Data.Fintype.Card
import Mathlib.Data.List.Perm.Subperm
import Oxbow.Daemon.Transactions
import Oxbow.Lib.Ring

/-! The turn of a transaction at the end of `persist_meta_and_commit`, together with the daemon that sends the transactions.
The commit block, the entry of the checkpoint list and the sequence number are written under `g_tx_seqn_mutex`; a handler whose
turn has not come sleeps on the condition and looks again after the next broadcast. The daemon builds a transaction only when
the one to follow it has a data fetcher, and there are two: the commit before has been answered by then. -/
namespace Oxbow.DevFS.Turn

open Oxbow.Lib List Option
open Daemon.Transactions (Transaction Exclusive Numbered Moves idAfter)

/-- `arrived` is in front of the mutex and `waiting` on the condition; the other phases
hold the mutex. -/
inductive Phase
  | arrived
  | waiting
  | turn
  | committed
  | enqueued
  deriving DecidableEq, Repr

def Phase.owns : Phase → Bool
  | .arrived | .waiting => false
  | .turn | .committed | .enqueued => true

structure Handler where
  txId : UInt32
  phase : Phase
  deriving DecidableEq, Repr

/-- `seqn` is `g_tx_seqn`. The lists keep all commit blocks issued and all checkpoint entries enqueued, in order. -/
structure State where
  daemon : Daemon.Transactions.State
  seqn : UInt32
  handler : Fin 2 → Option Handler
  commits : List UInt32
  ckptList : List UInt32

/-- After `reset_jnr_ctx`, with a daemon whose first transaction has the id that the superblock holds. -/
def init (sequence : UInt32) : State := ⟨Daemon.Transactions.init sequence,0,fun _ => none,[],[]⟩

def State.MutexFree (s : State) : Prop := ∀ df, ∀ h ∈ s.handler df, h.phase.owns = false

instance (s : State) : Decidable s.MutexFree := inferInstanceAs (Decidable (∀ df, ∀ h ∈ s.handler df, _))

def MyTurn (curSeqn txId : Nat) : Prop := curSeqn = 0 ∨ txId = u32 (curSeqn + 1)

instance (curSeqn txId : Nat) : Decidable (MyTurn curSeqn txId) := inferInstanceAs (Decidable (_ ∨ _))

def State.set (s : State) (df : Fin 2) (h : Option Handler) : State :=
  { s with handler := Function.update s.handler df h }

def Handler.wake (h : Handler) : Handler := if h.phase = .waiting then { h with phase := .arrived } else h

inductive Act
  | daemon (act : Daemon.Transactions.Act)
  | fail (df : Fin 2)
  | lock (df : Fin 2)
  | commitTx (df : Fin 2)
  | ckptListEnqueue (df : Fin 2)
  | unlock (df : Fin 2)
  deriving DecidableEq, Repr

/-- A commit request starts a handler, and is answered when that has returned, with `fail` before it comes to the mutex. -/
def step (s : State) : Act → Option State
  | .daemon act =>
    (Daemon.Transactions.step s.daemon act).bind fun daemon =>
      match act,s.daemon.worker with
      | .requestCommit _,.building tx descId _ => some { s.set tx.dfId (some ⟨descId,.arrived⟩) with daemon }
      | .freeTransaction k,_ =>
        if ∀ tx ∈ s.daemon.committing[k]?, s.handler tx.dfId = none then some { s with daemon } else none
      | _,_ => some { s with daemon }
  | .fail df =>
    match s.handler df with
    | some ⟨_,.arrived⟩ => some (s.set df none)
    | _ => none
  | .lock df =>
    match s.handler df with
    | some ⟨id,.arrived⟩ =>
      if s.MutexFree then
        some (s.set df (some ⟨id,if MyTurn s.seqn.toNat id.toNat then .turn else .waiting⟩))
      else none
    | _ => none
  | .commitTx df =>
    match s.handler df with
    | some ⟨id,.turn⟩ => some { s.set df (some ⟨id,.committed⟩) with commits := s.commits ++ [id] }
    | _ => none
  | .ckptListEnqueue df =>
    match s.handler df with
    | some ⟨id,.committed⟩ => some { s.set df (some ⟨id,.enqueued⟩) with ckptList := s.ckptList ++ [id] }
    | _ => none
  | .unlock df =>
    match s.handler df with
    | some ⟨id,.enqueued⟩ =>
      some { s with seqn := id, handler := fun other => if other = df then none else (s.handler other).map Handler.wake }
    | _ => none

/-- What a handler does next. -/
def Handler.act (h : Handler) (df : Fin 2) : Act :=
  match h.phase with
  | .arrived | .waiting => .lock df
  | .turn => .commitTx df
  | .committed => .ckptListEnqueue df
  | .enqueued => .unlock df

/-- Commit blocks and checkpoint entries come in the order of the ids, one handler is in flight at most, and if all
transactions sent before its own have committed it is not asleep, its turn has come and it can go on. -/
structure InOrder (s : State) : Prop where
  commits : (s.commits.map UInt32.toNat).Pairwise (· < ·)
  ckptList : (s.ckptList.map UInt32.toNat).Pairwise (· < ·)
  single : ∀ df other, ∀ h ∈ s.handler df, ∀ g ∈ s.handler other, df = other
  unblocked : ∀ df, ∀ h ∈ s.handler df, (∀ id ∈ s.daemon.sent, id.toNat < h.txId.toNat → id ∈ s.commits) →
    h.phase ≠ .waiting ∧ (h.phase = .arrived → MyTurn s.seqn.toNat h.txId.toNat) ∧ ∃ t, step s (h.act df) = some t

/-- The commit blocks and the checkpoint entries while a handler is in flight and those of `done` are through. -/
def written (done : List UInt32) (h : Handler) : List UInt32 × List UInt32 :=
  match h.phase with
  | .arrived | .waiting | .turn => (done,done)
  | .committed => (done ++ [h.txId],done)
  | .enqueued => (done ++ [h.txId],done ++ [h.txId])

/-- The handler of `df` is the only one, and works for the last transaction sent. -/
structure Busy (s : State) (done : List UInt32) (df : Fin 2) (h : Handler) : Prop where
  committing : s.daemon.committing.map Transaction.dfId = [df]
  only : s.handler = Function.update (fun _ => none) df (some h)
  passed : ∃ before, s.daemon.sent = before ++ [h.txId] ∧ done <+ before
  lists : (s.commits,s.ckptList) = written done h
  asleep : h.phase = .waiting → ¬ MyTurn s.seqn.toNat h.txId.toNat

structure Idle (s : State) (done : List UInt32) : Prop where
  none : s.handler = fun _ => none
  passed : done <+ s.daemon.sent
  lists : (s.commits,s.ckptList) = (done,done)

structure Invariant (sequence : UInt32) (done : List UInt32) (s : State) : Prop where
  exclusive : Exclusive s.daemon
  numbered : Numbered sequence s.daemon
  seqn : s.seqn = done.getLast?.getD 0
  flight : Idle s done ∨ ∃ df h, Busy s done df h

variable {sequence id : UInt32}

/-- While a transaction is built, it and the one to follow it have both data fetchers. -/
theorem building_alone (exclusive : Exclusive d)
    (building : d.worker = .building tx descId chunks) :
    d.committing = [] := by
  have few := exclusive.distinct.length_le_card
  simp only [Daemon.Transactions.State.live,building,Daemon.Transactions.Worker.transactions,length_map,cons_append,nil_append,
    length_cons,Fintype.card_fin] at few
  exact length_eq_zero_iff.mp (by omega)

theorem Busy.here (busy : Busy s done df h) : s.handler df = some h := by
  simp [busy.only]

theorem Busy.elsewhere (busy : Busy s done df h) (member : g ∈ s.handler other) : other = df ∧ g = h := by
  rw [busy.only] at member
  by_cases same : other = df
  · subst same
    simpa [eq_comm] using member
  · simp [same] at member

theorem Invariant.busy (inv : Invariant sequence done s) (here : s.handler df = some h) : Busy s done df h := by
  rcases inv.flight with idle | ⟨other,g,busy⟩
  · simp [idle.none] at here
  · obtain ⟨rfl,rfl⟩ := busy.elsewhere (mem_def.mpr here)
    exact busy

theorem init_invariant (sequence : UInt32) : Invariant sequence [] (init sequence) :=
  ⟨Daemon.Transactions.init_exclusive sequence,Daemon.Transactions.init_numbered sequence,rfl,
    .inl ⟨rfl,nil_sublist _,rfl⟩⟩

/-! The daemon's acts: a commit request finds no other in flight. -/

/-- What an act of the daemon does beside its own step. -/
inductive Sends (s : State) (daemon : Daemon.Transactions.State) : Daemon.Transactions.Act → State → Prop
  | requestCommit (building : s.daemon.worker = .building tx descId chunks)
      (committing : daemon.committing = s.daemon.committing ++ [tx]) (sent : daemon.sent = s.daemon.sent ++ [descId]) :
      Sends s daemon (.requestCommit mdBlks) { s.set tx.dfId (some ⟨descId,.arrived⟩) with daemon }
  | freeTransaction (answered : s.daemon.committing[k]? = some tx) (returned : s.handler tx.dfId = none)
      (sent : daemon.sent = s.daemon.sent) : Sends s daemon (.freeTransaction k) { s with daemon }
  | other (committing : daemon.committing = s.daemon.committing) (sent : daemon.sent = s.daemon.sent) :
      Sends s daemon act { s with daemon }

theorem step_sends (stepped : step s (.daemon act) = some t) :
    ∃ daemon, Moves s.daemon act daemon ∧ t.daemon = daemon ∧ Sends s daemon act t := by
  obtain ⟨daemon,moved,after⟩ := bind_eq_some_iff.mp stepped
  have moves := Daemon.Transactions.step_moves moved
  refine ⟨daemon,moves,?_⟩
  cases moves with
  | requestCommit building positive =>
    simp only [building,some.injEq] at after
    obtain rfl := after
    exact ⟨rfl,.requestCommit building rfl rfl⟩
  | freeTransaction answered =>
    simp only [answered] at after
    obtain ⟨returned,⟨⟩⟩ := ite_none_right_eq_some.mp after
    exact ⟨rfl,.freeTransaction answered (returned _ rfl) rfl⟩
  | _ =>
    obtain rfl := some.inj after
    exact ⟨rfl,.other rfl rfl⟩

theorem daemon_preserves (inv : Invariant sequence done s) (stepped : step s (.daemon act) = some t) :
    Invariant sequence done t := by
  obtain ⟨daemon,moves,same,sends⟩ := step_sends stepped
  have exclusive := inv.exclusive.moves moves
  have numbered := inv.numbered.moves moves
  rw [← same] at exclusive numbered
  cases sends with
  | @requestCommit tx descId _ _ building committing sent =>
    have alone := building_alone inv.exclusive building
    refine ⟨exclusive,numbered,inv.seqn,.inr ⟨tx.dfId,⟨descId,.arrived⟩,?_⟩⟩
    rcases inv.flight with idle | ⟨df,h,busy⟩
    · exact ⟨by simp [committing,alone],by simp [State.set,idle.none],⟨_,sent,idle.passed⟩,idle.lists,nofun⟩
    · have waits := busy.committing
      simp [alone] at waits
  | freeTransaction answered returned sent =>
    refine ⟨exclusive,numbered,inv.seqn,.inl ?_⟩
    rcases inv.flight with idle | ⟨df,h,busy⟩
    · exact ⟨idle.none,sent ▸ idle.passed,idle.lists⟩
    · have member := mem_map_of_mem (f := Transaction.dfId) (mem_of_getElem? answered)
      rw [busy.committing,mem_singleton] at member
      simp [member,busy.here] at returned
  | other committing sent =>
    refine ⟨exclusive,numbered,inv.seqn,inv.flight.imp ?_ ?_⟩
    · exact fun idle => ⟨idle.none,sent ▸ idle.passed,idle.lists⟩
    · rintro ⟨df,h,busy⟩
      exact ⟨df,h,committing ▸ busy.committing,busy.only,sent ▸ busy.passed,busy.lists,busy.asleep⟩

/-! The handler's acts. -/

section

variable (inv : Invariant sequence done s)
include inv

/-- The handler goes on to another phase. -/
theorem Invariant.goOn (here : s.handler df = some ⟨id,old⟩) (new : Phase)
    (commits ckptList : List UInt32) (lists : (commits,ckptList) = written done ⟨id,new⟩)
    (asleep : new = .waiting → ¬ MyTurn s.seqn.toNat id.toNat) :
    Invariant sequence done { s.set df (some ⟨id,new⟩) with commits, ckptList } := by
  have busy := inv.busy here
  exact ⟨inv.exclusive,inv.numbered,inv.seqn,
    .inr ⟨df,⟨id,new⟩,busy.committing,by simp [State.set,busy.only],busy.passed,lists,asleep⟩⟩

theorem fail_preserves (stepped : step s (.fail df) = some t) : Invariant sequence done t := by
  simp only [step] at stepped
  split at stepped
  case h_2 => cases stepped
  case h_1 id here =>
    obtain rfl := some.inj stepped
    have busy := inv.busy here
    obtain ⟨before,sent,passed⟩ := busy.passed
    refine ⟨inv.exclusive,inv.numbered,inv.seqn,.inl ⟨?_,?_,busy.lists⟩⟩
    · simp [State.set,busy.only]
    · exact sent ▸ passed.trans (sublist_append_left _ _)

theorem lock_preserves (stepped : step s (.lock df) = some t) : Invariant sequence done t := by
  simp only [step] at stepped
  split at stepped
  case h_2 => cases stepped
  case h_1 id here =>
    split at stepped
    case isFalse => cases stepped
    case isTrue free =>
      obtain rfl := some.inj stepped
      have lists := (inv.busy here).lists
      refine inv.goOn here _ s.commits s.ckptList ?_ ?_
      · split <;> exact lists
      · split
        · nofun
        next notMine => exact fun _ => notMine

theorem commitTx_preserves (stepped : step s (.commitTx df) = some t) : Invariant sequence done t := by
  simp only [step] at stepped
  split at stepped
  case h_2 => cases stepped
  case h_1 id here =>
    obtain rfl := some.inj stepped
    obtain ⟨commits,ckptList⟩ := Prod.mk.inj (inv.busy here).lists
    exact inv.goOn here .committed (s.commits ++ [id]) s.ckptList (by rw [commits,ckptList]; rfl) nofun

theorem ckptListEnqueue_preserves (stepped : step s (.ckptListEnqueue df) = some t) : Invariant sequence done t := by
  simp only [step] at stepped
  split at stepped
  case h_2 => cases stepped
  case h_1 id here =>
    obtain rfl := some.inj stepped
    obtain ⟨commits,ckptList⟩ := Prod.mk.inj (inv.busy here).lists
    exact inv.goOn here .enqueued s.commits (s.ckptList ++ [id]) (by rw [commits,ckptList]; rfl) nofun

theorem unlock_preserves (stepped : step s (.unlock df) = some t) : ∃ id, Invariant sequence (done ++ [id]) t := by
  simp only [step] at stepped
  split at stepped
  case h_2 => cases stepped
  case h_1 id here =>
    obtain rfl := some.inj stepped
    have busy := inv.busy here
    obtain ⟨before,sent,passed⟩ := busy.passed
    refine ⟨id,inv.exclusive,inv.numbered,by simp,.inl ⟨?_,?_,busy.lists⟩⟩
    · funext other
      by_cases same : other = df <;> simp [same,busy.only]
    · exact sent ▸ passed.append_right _

end

theorem step_preserves (act : Act) (inv : ∃ done, Invariant sequence done s) (stepped : step s act = some t) :
    ∃ done, Invariant sequence done t := by
  obtain ⟨done,inv⟩ := inv
  cases act with
  | daemon act => exact ⟨done,daemon_preserves inv stepped⟩
  | fail df => exact ⟨done,fail_preserves inv stepped⟩
  | lock df => exact ⟨done,lock_preserves inv stepped⟩
  | commitTx df => exact ⟨done,commitTx_preserves inv stepped⟩
  | ckptListEnqueue df => exact ⟨done,ckptListEnqueue_preserves inv stepped⟩
  | unlock df =>
    obtain ⟨id,after⟩ := unlock_preserves inv stepped
    exact ⟨done ++ [id],after⟩

/-! What the invariant says of the order and of the turns. -/

theorem Invariant.lists_sublist (inv : Invariant sequence done s) :
    s.commits <+ s.daemon.sent ∧ s.ckptList <+ s.daemon.sent := by
  rcases inv.flight with idle | ⟨df,h,busy⟩
  · obtain ⟨commits,ckptList⟩ := Prod.mk.inj idle.lists
    exact ⟨commits ▸ idle.passed,ckptList ▸ idle.passed⟩
  · obtain ⟨before,sent,passed⟩ := busy.passed
    have early : done <+ s.daemon.sent := sent ▸ passed.trans (sublist_append_left _ _)
    have late : done ++ [h.txId] <+ s.daemon.sent := sent ▸ passed.append_right _
    have commits : s.commits = (written done h).1 := congrArg Prod.fst busy.lists
    have ckptList : s.ckptList = (written done h).2 := congrArg Prod.snd busy.lists
    rw [commits,ckptList,written]
    cases h.phase with
    | arrived | waiting | turn => exact ⟨early,early⟩
    | committed => exact ⟨late,early⟩
    | enqueued => exact ⟨late,late⟩

theorem increasing (numbered : Numbered sequence d)
    (small : sequence.toNat + d.sent.length ≤ 2^32) : (d.sent.map UInt32.toNat).Pairwise (· < ·) := by
  rw [numbered.1,List.map_map]
  exact (Daemon.Transactions.ids_consecutive_iff sequence _).mpr small ▸ pairwise_lt_range'

/-- The turn of a transaction has come once those before it are through. -/
theorem myTurn_next (numbered : Numbered sequence d) (sent : d.sent = before ++ [id]) :
    MyTurn (before.getLast?.getD 0).toNat id.toNat := by
  have ids := numbered.1
  rw [sent,length_append,length_singleton,range_succ,map_append] at ids
  obtain ⟨before_eq,last⟩ := append_inj' ids rfl
  have id_eq : id = idAfter sequence before.length := by simpa using last
  cases length : before.length with
  | zero => exact .inl (by simp [length_eq_zero_iff.mp length])
  | succ n =>
    right
    rw [before_eq,id_eq,length,range_succ,map_append,map_singleton,getLast?_concat,getD_some,
      Daemon.Transactions.idAfter_succ,UInt32.toNat_add]
    rfl

theorem Busy.caughtUp (busy : Busy s done df h) (ordered : (s.daemon.sent.map UInt32.toNat).Pairwise (· < ·))
    (outside : s.commits = done) (earlier : ∀ id ∈ s.daemon.sent, id.toNat < h.txId.toNat → id ∈ s.commits) :
    s.daemon.sent = done ++ [h.txId] := by
  obtain ⟨before,sent,passed⟩ := busy.passed
  rw [sent,map_append,pairwise_append] at ordered
  have distinct : before.Nodup := Nodup.of_map _ (ordered.1.imp Nat.ne_of_lt)
  have covered : before ⊆ done := by
    intro id member
    have lower := ordered.2.2 _ (mem_map_of_mem member) h.txId.toNat (by simp)
    exact outside ▸ earlier id (by simp [sent,member]) lower
  rw [sent,passed.eq_of_length_le (subperm_of_subset distinct covered).length_le]

theorem Busy.moves (busy : Busy s done df h) (awake : h.phase ≠ .waiting) : ∃ t, step s (h.act df) = some t := by
  have here := busy.here
  obtain ⟨id,phase⟩ := h
  cases phase with
  | arrived =>
    have free : s.MutexFree := by
      intro other g member
      rw [(busy.elsewhere member).2]
      rfl
    exact isSome_iff_exists.mp (by simp [Handler.act,step,here,free])
  | waiting => exact absurd rfl awake
  | turn | committed | enqueued => exact isSome_iff_exists.mp (by simp [Handler.act,step,here])

theorem Invariant.unblocked (inv : Invariant sequence done s) (small : sequence.toNat + s.daemon.sent.length ≤ 2^32)
    (here : s.handler df = some h) (earlier : ∀ id ∈ s.daemon.sent, id.toNat < h.txId.toNat → id ∈ s.commits) :
    h.phase ≠ .waiting ∧ (h.phase = .arrived → MyTurn s.seqn.toNat h.txId.toNat) ∧
      ∃ t, step s (h.act df) = some t := by
  have busy := inv.busy here
  have mine : s.commits = done → MyTurn s.seqn.toNat h.txId.toNat := by
    intro outside
    have sent := busy.caughtUp (increasing inv.numbered small) outside earlier
    exact inv.seqn ▸ myTurn_next inv.numbered sent
  have lists := busy.lists
  have awake : h.phase ≠ .waiting := by
    intro sleeps
    rw [written,sleeps] at lists
    exact busy.asleep sleeps (mine (Prod.mk.inj lists).1)
  refine ⟨awake,?_,busy.moves awake⟩
  intro arrived
  rw [written,arrived] at lists
  exact mine (Prod.mk.inj lists).1

theorem Invariant.inOrder (inv : Invariant sequence done s) (small : sequence.toNat + s.daemon.sent.length ≤ 2^32) :
    InOrder s := by
  have ordered := increasing inv.numbered small
  obtain ⟨commits,ckptList⟩ := inv.lists_sublist
  refine ⟨ordered.sublist (commits.map _),ordered.sublist (ckptList.map _),?_,?_⟩
  · intro df other h here g there
    exact ((inv.busy here).elsewhere there).1.symm
  · intro df h here earlier
    exact inv.unblocked small here earlier

/-- Whatever the daemon and the handlers do, transactions commit in the order of their ids and nobody is left behind, as
long as the ids fit in a `tid_t`. -/
theorem commits_inOrder (sequence : UInt32) (acts : List Act) (s : State)
    (ran : run step (init sequence) acts = some s) (small : sequence.toNat + s.daemon.sent.length ≤ 2^32) : InOrder s := by
  obtain ⟨done,inv⟩ := run_invariant_always step (fun s => ∃ done, Invariant sequence done s)
    (fun s act t inv stepped => step_preserves act inv stepped)
    (init sequence) acts s ⟨[],init_invariant sequence⟩ ran
  exact inv.inOrder small

/-- The second transaction is built only after the answer to the first, and its handler finds its turn. -/
def oneByOne : List Act :=
  [.daemon .newTransaction,.daemon .allocDataFetcher,.daemon .startTransaction,.daemon (.requestCommit 1),
    .daemon .newTransaction,.lock 0,.commitTx 0,.ckptListEnqueue 0,.unlock 0,.daemon (.freeTransaction 0),
    .daemon .allocDataFetcher,.daemon .startTransaction,.daemon (.requestCommit 1),.lock 1,.commitTx 1]

theorem commits_inOrder_oneByOne :
    ∃ s, run step (init 5) oneByOne = some s ∧ s.commits = [5,6] ∧ s.ckptList = [5] ∧ InOrder s := by
  have ends : (run step (init 5) oneByOne).map (fun s => (s.commits,s.ckptList,s.daemon.sent)) = some ([5,6],[5],[5,6]) := by
    decide
  obtain ⟨s,ran,lists⟩ := map_eq_some_iff.mp ends
  simp only [Prod.mk.injEq] at lists
  exact ⟨s,ran,lists.1,lists.2.1,commits_inOrder 5 oneByOne s ran (by rw [lists.2.2]; decide)⟩

end Oxbow.DevFS.Turn
