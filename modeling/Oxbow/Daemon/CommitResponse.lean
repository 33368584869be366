import Mathlib.Logic.Function.Basic
import Oxbow.Lib.Run

/-! The answers of DevFS in the daemon. A pool of threads runs `handle_devfs_msg` on them, each call on its
own; the answer to a commit request writes the id of its transaction into `mrc_tx_id`. -/
namespace Oxbow.Daemon.CommitResponse

open Oxbow.Lib Option

inductive Msg
  | bgJournal (dfId mdBufId tx : Nat) (txId : UInt32)
  | fetchData (dfId bufId : Nat)
  | stgCkpt (nrBlksFreed : Nat)
  | unknown (op : Nat)
  deriving DecidableEq, Repr

inductive Action
  | dfFreeBuffer (dfId bufId : Nat)
  | clearWaitingDirtyLists (tx : Nat)
  | freeTransaction (tx : Nat)
  | setMrcTxId (txId : UInt32)
  | stageFreeBlks (nrBlks : Nat)
  | endStgCkpt
  | logError (op : Nat)
  deriving DecidableEq, Repr

def handleDevfsMsg : Msg → List Action
  | .bgJournal dfId mdBufId tx txId =>
    [.dfFreeBuffer dfId mdBufId,.clearWaitingDirtyLists tx,.freeTransaction tx,.setMrcTxId txId]
  | .fetchData dfId bufId => [.dfFreeBuffer dfId bufId]
  | .stgCkpt nrBlksFreed => [.stageFreeBlks nrBlksFreed,.endStgCkpt]
  | .unknown op => [.logError op]

structure Journal where
  mrcTxId : UInt32
  stgBlksFreed : Nat
  stgCkptInFlight : Bool
  buffersFreed : List (Nat × Nat)
  listsCleared : List Nat
  txsFreed : List Nat
  unknownOps : List Nat
  deriving DecidableEq, Repr

def Action.apply : Action → Journal → Journal
  | .dfFreeBuffer dfId bufId,j => {j with buffersFreed := j.buffersFreed ++ [(dfId,bufId)]}
  | .clearWaitingDirtyLists tx,j => {j with listsCleared := j.listsCleared ++ [tx]}
  | .freeTransaction tx,j => {j with txsFreed := j.txsFreed ++ [tx]}
  -- the id that is there is printed and not compared
  | .setMrcTxId txId,j => {j with mrcTxId := txId}
  | .stageFreeBlks nrBlks,j => {j with stgBlksFreed := j.stgBlksFreed + nrBlks}
  | .endStgCkpt,j => {j with stgCkptInFlight := false}
  | .logError op,j => {j with unknownOps := j.unknownOps ++ [op]}

structure State (n : Nat) where
  journal : Journal
  rest : Fin n → List Action

def step (s : State n) (i : Fin n) : Option (State n) :=
  match s.rest i with
  | [] => none
  | act :: rest => some ⟨act.apply s.journal,Function.update s.rest i rest⟩

def init (msgs : Fin n → Msg) : State n := ⟨⟨0,0,false,[],[],[],[]⟩,fun i => handleDevfsMsg (msgs i)⟩

def Msg.committed : Msg → Option UInt32
  | .bgJournal _ _ _ txId => some txId
  | _ => none

def Recorded (msgs : Fin n → Msg) (s : State n) (i : Fin n) (txId : UInt32) : Prop :=
  (msgs i).committed = some txId ∧ Action.setMrcTxId txId ∉ s.rest i

/-- The step is taken and does not lower `mrc_tx_id`. -/
def NeverDecreases (s : State n) (i : Fin n) (t : State n) : Prop :=
  step s i = some t ∧ s.journal.mrcTxId ≤ t.journal.mrcTxId

/-- All answers are handled and the largest id of a committed transaction is recorded. -/
def Latest (msgs : Fin n → Msg) (s : State n) : Prop :=
  (∀ i txId, (msgs i).committed = some txId → txId ≤ s.journal.mrcTxId) ∧
  ((∀ i, (msgs i).committed = none) ∧ s.journal.mrcTxId = 0 ∨ ∃ i, (msgs i).committed = some s.journal.mrcTxId)

/-- A call that takes the journal lock finds only ids recorded that are not larger than its own. -/
def InOrder (msgs : Fin n → Msg) (s : State n) (i : Fin n) : Prop :=
  ∀ txId ∈ (msgs i).committed, (s.rest i).head? = some (.setMrcTxId txId) →
    ∀ j, ∀ other ∈ (msgs j).committed, Action.setMrcTxId other ∉ s.rest j → other ≤ txId

instance InOrder.decidable (msgs : Fin n → Msg) (s : State n) (i : Fin n) : Decidable (InOrder msgs s i) :=
  -- over the elements of the options, not over all ids
  let _smaller (txId : UInt32) (j : Fin n) :
      Decidable (∀ other ∈ (msgs j).committed, Action.setMrcTxId other ∉ s.rest j → other ≤ txId) :=
    decidableForallMem (p := fun other => Action.setMrcTxId other ∉ s.rest j → other ≤ txId) _
  let _all (txId : UInt32) : Decidable ((s.rest i).head? = some (.setMrcTxId txId) →
      ∀ j, ∀ other ∈ (msgs j).committed, Action.setMrcTxId other ∉ s.rest j → other ≤ txId) := instDecidableForall
  decidableForallMem (p := fun txId => (s.rest i).head? = some (.setMrcTxId txId) →
    ∀ j, ∀ other ∈ (msgs j).committed, Action.setMrcTxId other ∉ s.rest j → other ≤ txId) _

theorem setMrcTxId_last (ends : Action.setMrcTxId txId :: rest <:+ handleDevfsMsg m) :
    m.committed = some txId ∧ rest = [] := by
  cases m <;> simp [handleDevfsMsg,List.suffix_cons_iff] at ends
  simp [Msg.committed,ends]

theorem setMrcTxId_mem : Action.setMrcTxId txId ∈ handleDevfsMsg m ↔ m.committed = some txId := by
  cases m <;> simp [handleDevfsMsg,Msg.committed,eq_comm]

inductive Moves (msgs : Fin n → Msg) (s t : State n) (i : Fin n) : Prop
  | records (txId : UInt32) (due : s.rest i = [.setMrcTxId txId]) (own : (msgs i).committed = some txId)
      (mrc : t.journal.mrcTxId = txId) (after : t.rest = Function.update s.rest i [])
  | leaves (due : ∀ txId, (s.rest i).head? ≠ some (.setMrcTxId txId)) (mrc : t.journal.mrcTxId = s.journal.mrcTxId)
      (same : ∀ j txId, Action.setMrcTxId txId ∈ t.rest j ↔ Action.setMrcTxId txId ∈ s.rest j)

structure Invariant (msgs : Fin n → Msg) (s : State n) : Prop where
  ends : ∀ i, s.rest i <:+ handleDevfsMsg (msgs i)
  bound : ∀ i txId, Recorded msgs s i txId → txId ≤ s.journal.mrcTxId
  source : s.journal.mrcTxId = 0 ∨ ∃ i, Recorded msgs s i s.journal.mrcTxId

variable {msgs : Fin n → Msg}

theorem step_some (next : step s i = some t) :
    ∃ act rest, s.rest i = act :: rest ∧ t = ⟨act.apply s.journal,Function.update s.rest i rest⟩ := by
  unfold step at next
  split at next
  · cases next
  next act rest due => exact ⟨act,rest,due,(some.inj next).symm⟩

theorem step_moves (ends : ∀ i, s.rest i <:+ handleDevfsMsg (msgs i)) (next : step s i = some t) : Moves msgs s t i := by
  obtain ⟨act,rest,due,rfl⟩ := step_some next
  by_cases locked : ∃ txId, act = .setMrcTxId txId
  · obtain ⟨txId,rfl⟩ := locked
    obtain ⟨own,rfl⟩ := setMrcTxId_last (due ▸ ends i)
    exact .records txId due own rfl rfl
  · have other : ∀ txId, act ≠ .setMrcTxId txId := fun txId same => locked ⟨txId,same⟩
    refine .leaves (by simpa [due] using other) ?_ ?_
    · cases act <;> first | rfl | exact absurd rfl (other _)
    · intro j txId
      by_cases same : j = i
      · subst same
        simp [due,(other txId).symm]
      · simp [same]

theorem suffix_step (ends : ∀ i, s.rest i <:+ handleDevfsMsg (msgs i)) (next : step s i = some t) (j : Fin n) :
    t.rest j <:+ handleDevfsMsg (msgs j) := by
  obtain ⟨act,rest,due,rfl⟩ := step_some next
  by_cases same : j = i
  · subst same
    have shorter : rest <:+ s.rest j := due ▸ List.suffix_cons act rest
    simpa using shorter.trans (ends j)
  · simpa [same] using ends j

theorem init_invariant (msgs : Fin n → Msg) : Invariant msgs (init msgs) where
  ends _ := List.suffix_rfl
  bound _ _ recorded := absurd (setMrcTxId_mem.mpr recorded.1) recorded.2
  source := .inl rfl

/-- A step does not lower `mrc_tx_id` just when it is in the order of the ids. -/
theorem Invariant.rises_iff (inv : Invariant msgs s) (next : step s i = some t) :
    s.journal.mrcTxId ≤ t.journal.mrcTxId ↔ InOrder msgs s i := by
  cases step_moves inv.ends next with
  | leaves due mrc _ =>
    refine ⟨fun _ txId _ head => absurd head (due txId),fun _ => ?_⟩
    rw [mrc]
    exact UInt32.le_refl _
  | records txId due own mrc _ =>
    rw [mrc]
    constructor
    · rintro above txId' own' - j other committed written
      obtain rfl : txId = txId' := some.inj (own.symm.trans own')
      exact UInt32.le_trans (inv.bound j other ⟨committed,written⟩) above
    · intro ordered
      rcases inv.source with zero | ⟨j,committed,written⟩
      · rw [zero]
        exact UInt32.zero_le
      · exact ordered txId own (by simp [due]) j _ committed written

theorem Invariant.step (inv : Invariant msgs s) (next : step s i = some t)
    (rises : s.journal.mrcTxId ≤ t.journal.mrcTxId) : Invariant msgs t := by
  have ends := suffix_step inv.ends next
  cases step_moves inv.ends next with
  | leaves _ mrc same =>
    have recorded : ∀ j txId, Recorded msgs t j txId ↔ Recorded msgs s j txId := fun j txId => by
      rw [Recorded,Recorded,same]
    refine ⟨ends,?_,?_⟩
    · intro j txId before
      exact mrc ▸ inv.bound j txId ((recorded j txId).mp before)
    · simpa only [mrc,recorded] using inv.source
  | records txId due own mrc after =>
    refine ⟨ends,?_,.inr ⟨i,?_⟩⟩
    · rintro j other ⟨committed,written⟩
      by_cases same : j = i
      · subst same
        obtain rfl : txId = other := some.inj (own.symm.trans committed)
        exact mrc ▸ UInt32.le_refl _
      · rw [after,Function.update_of_ne same] at written
        exact UInt32.le_trans (inv.bound j other ⟨committed,written⟩) rises
    · rw [mrc]
      exact ⟨own,by simp [after]⟩

theorem Invariant.latest (inv : Invariant msgs s) (handled : ∀ i, s.rest i = []) : Latest msgs s := by
  have all : ∀ i txId, (msgs i).committed = some txId → txId ≤ s.journal.mrcTxId := fun i txId committed =>
    inv.bound i txId ⟨committed,by simp [handled]⟩
  refine ⟨all,?_⟩
  rcases inv.source with zero | ⟨i,committed,-⟩
  · by_cases none : ∀ i, (msgs i).committed = none
    · exact .inl ⟨none,zero⟩
    · simp only [not_forall,ne_none_iff_exists'] at none
      obtain ⟨i,txId,committed⟩ := none
      have least := all i txId committed
      rw [zero,UInt32.le_zero_iff] at least
      exact .inr ⟨i,by rw [committed,least,zero]⟩
  · exact .inr ⟨i,committed⟩

/-- The most recently committed id never goes back, and is the largest one when all answers are handled, just
when the answers take the journal lock in the order of their ids. -/
theorem mrcTxId_latest_iff (msgs : Fin n → Msg) (as : List (Fin n)) (t : State n)
    (ran : run step (init msgs) as = some t) :
    (Meets NeverDecreases (init msgs) as ∧ ((∀ i, t.rest i = []) → Latest msgs t)) ↔
      Along step (InOrder msgs) (init msgs) as := by
  have exactly := meets_iff_along_of_run step (fun s _ t => s.journal.mrcTxId ≤ t.journal.mrcTxId) (InOrder msgs)
    (Invariant msgs) (fun s i t inv next => inv.rises_iff next) (fun s i t inv next rises => inv.step next rises)
    (init msgs) as t (init_invariant msgs) ran
  constructor
  · rintro ⟨rises,-⟩
    exact exactly.mp rises
  · intro ordered
    refine ⟨exactly.mpr ordered,Invariant.latest ?_⟩
    exact run_invariant step (Invariant msgs) (InOrder msgs)
      (fun s i t inv ordered next => inv.step next ((inv.rises_iff next).mpr ordered))
      (init msgs) as t (init_invariant msgs) ordered ran

def answers : Fin 2 → Msg := fun i => .bgJournal i i i (i.val + 1).toUInt32

theorem mrcTxId_latest_in_order : ∃ t, run step (init answers) [0,0,0,0,1,1,1,1] = some t ∧
    Meets NeverDecreases (init answers) [0,0,0,0,1,1,1,1] ∧ ((∀ i, t.rest i = []) → Latest answers t) := by
  have defined : (run step (init answers) [0,0,0,0,1,1,1,1]).isSome := by decide
  obtain ⟨t,ran⟩ := isSome_iff_exists.mp defined
  exact ⟨t,ran,(mrcTxId_latest_iff answers _ t ran).mpr (by decide)⟩

/-- The handler of the earlier transaction is preempted between `free_transaction`, after which the later one can be built and
sent, and the journal lock; the handler of the later one runs to its end, and then the earlier id takes the place of the
later. -/
theorem mrcTxId_goes_back :
    (run step (init answers) [0,0,0]).map (fun s => s.journal.txsFreed) = some [0] ∧
    (run step (init answers) [0,0,0,1,1,1,1]).map (fun s => s.journal.mrcTxId) = some 2 ∧
    (run step (init answers) [0,0,0,1,1,1,1,0]).map (fun s => (s.journal.mrcTxId,s.rest 0,s.rest 1)) =
      some (1,[],[]) := by
  decide

end Oxbow.Daemon.CommitResponse
