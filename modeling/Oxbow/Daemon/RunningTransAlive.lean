import Oxbow.Daemon.RunningTransFiles

/-! What `get_running_trans` finds when it inspects the transaction: between its two locks the journal thread can
overtake the caller. -/
namespace Oxbow.Daemon.RunningTrans

open Oxbow.Lib Function

variable {n : Nat}

def Phase.inspects : Phase → Option Nat
  | .inspecting _ tr => some tr
  | _ => none

def Builder.commits : Builder → Option Nat
  | .snapshotting tx => some tx
  | _ => none

/-- When a transaction goes to `TR_COMMIT`, no caller is between the two locks with its address. -/
def Unwatched (s : State n) : Act n → Prop
  | .build _ => ∀ tx ∈ s.builder.commits, ∀ t, (s.phase t).inspects ≠ some tx
  | _ => True

instance Unwatched.decidable (s : State n) : (act : Act n) → Decidable (Unwatched s act)
  | .build _ => inferInstanceAs (Decidable (∀ tx ∈ s.builder.commits, ∀ t, (s.phase t).inspects ≠ some tx))
  | .call _ _ | .go _ _ | .pass | .newTransaction _ | .freeTransaction _ => .isTrue trivial

/-- What `get_running_trans` expects of the transaction it inspects. -/
def Expected (s : State n) (tr : Nat) : Prop := ∃ state ∈ [TrState.running,.locked,.build], s.stateOf tr = some state

structure Safe (s : State n) : Prop extends Invariant s where
  expected : ∀ t tr, (s.phase t).inspects = some tr → Expected s tr
  faultless : s.fault = none ∨ s.fault = some .noMemory

variable {s u : State n} {t : Fin n}

theorem Invariant.front_expected (inv : Invariant s) : Expected s s.front := by
  have known : ∀ k, (s.front,k) ∈ s.builder.roles s.front → s.stateOf s.front = some k := fun k member => inv.role member
  cases here : s.builder with
  | idle => exact ⟨.running,by simp,known _ (by simp [here,Builder.roles])⟩
  | created tx new =>
    obtain rfl := inv.current tx (by rw [here]; rfl)
    exact ⟨.running,by simp,known _ (by simp [here,Builder.roles])⟩
  | locked tx new | waited tx new =>
    obtain rfl := inv.current tx (by rw [here]; rfl)
    exact ⟨.locked,by simp,known _ (by simp [here,Builder.roles])⟩
  | started tx | copying tx i | building tx i | snapshotting tx | committing tx =>
    exact ⟨.running,by simp,known _ (by simp [here,Builder.roles])⟩

theorem expected_iff (states : u.stateOf = s.stateOf) (tr : Nat) : Expected u tr ↔ Expected s tr := by
  rw [Expected,Expected,states]

theorem Invariant.held (inv : Invariant s) (holds : (s.phase t).holds tr = 1) : s.stateOf tr ≠ none := fun free => by
  have counted := holds_counted inv.counted holds
  rw [refOf_free free] at counted
  omega

theorem Safe.advance (safe : Safe s) (moves : CallerMoves s u t) (apart : Apart s u) : Safe u := by
  refine ⟨safe.toInvariant.advance moves apart,?_,?_⟩
  · intro v tr inspects
    rw [expected_iff apart.states]
    cases moves with
    | fails fault after _ =>
      subst after
      exact safe.expected v tr inspects
    | goes p after _ _ _ _ looks =>
      rw [after] at inspects
      by_cases same : v = t
      · subst same
        rw [update_self] at inspects
        cases p with
        | inspecting call tr' =>
          obtain rfl := Option.some.inj inspects
          exact looks call tr' rfl ▸ safe.toInvariant.front_expected
        | _ => cases inspects
      · rw [update_of_ne same] at inspects
        exact safe.expected v tr inspects
  · cases moves with
    | goes p _ fine _ _ _ _ => exact fine ▸ safe.faultless
    | fails fault after why =>
      subst after
      rcases why with rfl | ⟨tr,holds,free⟩ | ⟨call,tr,found,wrong⟩
      · exact .inr rfl
      · exact absurd free (safe.toInvariant.held holds)
      · obtain ⟨state,expected,known⟩ := safe.expected t tr (by rw [found]; rfl)
        exact absurd expected (wrong state known)

/-- The journal thread takes a transaction out of the expected states only when it goes to `TR_COMMIT`. -/
theorem Invariant.expected_kept (inv : Invariant s) (moves : RoleMoves s u) (expected : Expected s tr) :
    Expected u tr ∨ s.builder = .snapshotting tr ∧ u.builder = .committing tr := by
  obtain ⟨state,among,known⟩ := expected
  have kept : u.stateOf tr = s.stateOf tr → Expected u tr := fun same => ⟨state,among,same.trans known⟩
  cases moves with
  | stays _ states => exact .inl (kept (congrFun states tr))
  | changes b k k' rest change before _ states =>
    by_cases same : tr = b
    · subst same
      have set : u.stateOf tr = some k' := by rw [states,update_self]
      cases change with
      | lock | start | build => exact .inl ⟨_,by simp,set⟩
      | commit ends after => exact .inr ⟨ends,after⟩
    · exact .inl (kept (by rw [states,update_of_ne same]))
  | adds b free _ states =>
    have other : tr ≠ b := by
      rintro rfl
      simp [free] at known
    exact .inl (kept (by rw [states,update_of_ne other]))
  | frees b before states =>
    have other : tr ≠ b := by
      rintro rfl
      have committed := (inv.ledger.owned tr .commit).mp (before.mem_iff.mpr List.mem_cons_self)
      obtain rfl := Option.some.inj (committed.symm.trans known)
      simp at among
    exact .inl (kept (by rw [states,update_of_ne other]))

theorem builder_step (inv : Invariant s) (next : step s act = some u) :
    u.builder = s.builder ∨ s.builder = .idle ∨ ∃ nothing, act = .build nothing := by
  unfold step at next
  split at next
  · cases next
  · cases act with
    | build nothing => exact .inr (.inr ⟨nothing,rfl⟩)
    | go t memory => exact .inl (advance_moves inv.counted next).2.builder
    | call t call | pass | newTransaction new | freeTransaction tx =>
      simp only at next
      split at next
      next holds =>
        first
        | exact .inr (.inl holds)
        | exact .inl (Option.some.inj next ▸ rfl)
      · cases next

theorem Safe.step (safe : Safe s) (unwatched : Unwatched s act) (next : RunningTrans.step s act = some u) : Safe u := by
  rcases (step_moves safe.toInvariant next).2 with ⟨t,moves,apart⟩ | ⟨work,moves⟩
  · exact safe.advance moves apart
  · refine ⟨safe.toInvariant.journal work moves,fun t tr inspects => ?_,work.fault ▸ safe.faultless⟩
    rw [work.phase] at inspects
    rcases safe.toInvariant.expected_kept moves (safe.expected t tr inspects) with kept | ⟨before,after⟩
    · exact kept
    · rcases builder_step safe.toInvariant next with same | idle | ⟨nothing,rfl⟩
      · simp [before,after] at same
      · simp [before] at idle
      · exact absurd inspects (unwatched tr (by simp [before,Builder.commits]) t)

/-- A caller whose transaction has gone to `TR_COMMIT` under its hands runs into the check of the state. -/
theorem overtaken_faults (memory : Bool) (fine : u.fault = none) (committed : u.stateOf tx = some .commit)
    (inspects : (u.phase t).inspects = some tx) :
    ∃ v, RunningTrans.step u (.go t memory) = some v ∧ v.fault = some .wrongState := by
  obtain ⟨found,there,state⟩ := heap_of_state committed
  cases here : u.phase t with
  | inspecting call tr =>
    obtain rfl : tr = tx := by simpa [here,Phase.inspects] using inspects
    exact ⟨u.fail .wrongState,by simp [RunningTrans.step,fine,advance,here,getRunningTrans,there,state],rfl⟩
  | _ => simp [here,Phase.inspects] at inspects

/-- While no transaction goes to `TR_COMMIT` with a caller between the two locks, callers only inspect transactions
not past `TR_BUILD` and never run into the check of the state; after any step that takes one there, the next step of
that caller does. -/
theorem running_trans_alive (front : Nat) (sequence : UInt32) (inodes : Nat → Inode) (as : List (Act n)) (s : State n)
    (ran : run step (init n front sequence inodes) as = some s) :
    (Along step Unwatched (init n front sequence inodes) as →
      (∀ t tr, (s.phase t).inspects = some tr → Expected s tr) ∧ (s.fault = none ∨ s.fault = some .noMemory)) ∧
    ∀ act u, step s act = some u → ¬ Unwatched s act →
      ∃ t v, step u (.go t true) = some v ∧ v.fault = some .wrongState := by
  constructor
  · intro unwatched
    have start : Safe (init n front sequence inodes) :=
      ⟨init_invariant n front sequence inodes,by simp [init,Phase.inspects],.inl rfl⟩
    have safe := run_invariant step Safe Unwatched (fun s act t safe unwatched next => safe.step unwatched next)
      _ as s start unwatched ran
    exact ⟨safe.expected,safe.faultless⟩
  · intro act u next watched
    cases act with
    | build nothing =>
      simp only [Unwatched,not_forall,not_not] at watched
      obtain ⟨tx,commits,t,inspects⟩ := watched
      have ends : s.builder = .snapshotting tx := by
        cases here : s.builder <;> simp_all [Builder.commits]
      obtain ⟨fine,-⟩ := step_moves (run_inv ran) next
      have known : s.stateOf tx = some .build := (run_inv ran).role (by simp [ends,Builder.roles])
      have set := congrFun (stateOf_trChangeState s tx known .commit) tx
      rw [update_self] at set
      obtain rfl : {trChangeState s tx .commit with builder := .committing tx} = u := by
        simpa [step,fine,build,ends] using next
      exact ⟨t,overtaken_faults true fine set inspects⟩
    | _ => exact absurd trivial watched

def unwatched (t : Fin n) : List (Act n) :=
  [.call t ⟨5,true⟩,.go t true,.go t true,.newTransaction 1,.build false,.go t true,.go t true,.go t true] ++
    List.replicate 9 (.build false)

theorem running_trans_alive_unwatched : ∃ s, run step (init 1 0 7 fun _ => ⟨1,false,0⟩) (unwatched 0) = some s ∧
    (s.fault = none ∨ s.fault = some .noMemory) := by
  have defined : (run step (init 1 0 7 fun _ => ⟨1,false,0⟩) (unwatched 0)).isSome := by decide
  obtain ⟨s,ran⟩ := Option.isSome_iff_exists.mp defined
  exact ⟨s,ran,((running_trans_alive 0 7 (fun _ => ⟨1,false,0⟩) (unwatched 0) s ran).1 (by decide)).2⟩

def overtaken (t : Fin n) (builds : Nat) : List (Act n) :=
  [.call t ⟨5,true⟩,.go t true,.newTransaction 1] ++ List.replicate builds (.build true) ++ [.go t true]

/-- The caller finds the transaction in another state, or freed. -/
theorem overtaken_caller_faults :
    (run step (init 1 0 7 fun _ => ⟨1,false,0⟩) (overtaken 0 7)).map (fun s => s.fault) = some (some .wrongState) ∧
    (run step (init 1 0 7 fun _ => ⟨1,false,0⟩) (overtaken 0 8)).map (fun s => s.fault) = some (some .usedAfterFree) := by
  decide

end Oxbow.Daemon.RunningTrans
