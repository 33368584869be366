import Oxbow.Daemon.RunningTrans

/-! The journal thread against the callers: the live transactions and their states are those the thread has a role
for, each reference count is the number of callers that hold the transaction, and a transaction past the wait of
`build_transaction` is held by none. -/
namespace Oxbow.Daemon.RunningTrans

open Oxbow.Lib

structure Invariant (s : State n) : Prop where
  ledger : Ledger s.stateOf s.roles
  current : ∀ tx, s.builder.current = some tx → s.front = tx
  counted : ∀ a, s.refOf a = tally (Phase.holds a) s.phase
  unheld : ∀ a, Sealed s a ∨ s.stateOf a = some .new → s.refOf a = 0

variable {s u : State n}

theorem Apart.sealed_iff (apart : Apart s u) : Sealed u a ↔ Sealed s a := by
  rw [Sealed,Sealed,apart.builder,apart.states]

section

variable (inv : Invariant s)
include inv

theorem Invariant.caller (apart : Apart s u) (counted : ∀ a, u.refOf a = tally (Phase.holds a) u.phase)
    (unheld : ∀ a, Sealed s a ∨ s.stateOf a = some .new → u.refOf a = 0) : Invariant u where
  ledger := by
    have same : u.roles = s.roles := by rw [State.roles,State.roles,apart.front,apart.builder,apart.sent]
    rw [apart.states,same]
    exact inv.ledger
  current := by
    rw [apart.front,apart.builder]
    exact inv.current
  counted := counted
  unheld a := by
    rw [apart.sealed_iff,apart.states]
    exact unheld a

theorem Invariant.waitedOn (waited : s.builder.waitedOn = some a) : s.stateOf a = some .locked := by
  refine (inv.ledger.owned a .locked).mp (List.mem_append_left _ ?_)
  cases builder : s.builder <;> simp_all [Builder.waitedOn,Builder.roles]

theorem Invariant.not_running (closed : Sealed s a ∨ s.stateOf a = some .new) : s.stateOf a ≠ some .running := by
  rcases closed with (waited | build | commit) | new
  · simp [inv.waitedOn waited]
  · simp [build]
  · simp [commit]
  · simp [new]

theorem Invariant.advance (moves : CallerMoves s u t) (apart : Apart s u) : Invariant u := by
  cases moves with
  | fails fault after _ =>
    subst after
    exact inv.caller apart inv.counted inv.unheld
  | goes p after _ refs takes _ _ =>
    have counted : ∀ a, u.refOf a = tally (Phase.holds a) u.phase := fun a => by
      have moved := tally_update (Phase.holds a) s.phase t p
      have before := inv.counted a
      have here := refs a
      rw [after]
      omega
    refine inv.caller apart counted fun a closed => ?_
    have none := inv.unheld a closed
    have taken := (takes a).resolve_right (inv.not_running closed)
    have here := refs a
    omega

theorem Invariant.thread (phase : u.phase = s.phase) (refs : u.refOf = s.refOf) (ledger : Ledger u.stateOf u.roles)
    (current : ∀ tx, u.builder.current = some tx → u.front = tx)
    (unheld : ∀ a, Sealed u a ∨ u.stateOf a = some .new → s.refOf a = 0) : Invariant u where
  ledger := ledger
  current := current
  counted := by
    rw [refs,phase]
    exact inv.counted
  unheld := by
    rw [refs]
    exact unheld

end

inductive Change (s u : State n) (a : Nat) : TrState → TrState → Prop
  | lock : Change s u a .running .locked
  | start : Change s u a .new .running
  | build (waited : s.builder.waitedOn = some a) : Change s u a .locked .build
  | commit (before : s.builder = .snapshotting a) (after : u.builder = .committing a) : Change s u a .build .commit

inductive RoleMoves (s u : State n) : Prop
  | stays (roles : s.roles.Perm u.roles) (states : u.stateOf = s.stateOf)
  | changes (a : Nat) (k k' : TrState) (rest : List (Nat × TrState)) (change : Change s u a k k')
      (before : s.roles.Perm ((a,k) :: rest)) (after : ((a,k') :: rest).Perm u.roles)
      (states : u.stateOf = Function.update s.stateOf a (some k'))
  | adds (a : Nat) (free : s.stateOf a = none) (after : ((a,.new) :: s.roles).Perm u.roles)
      (states : u.stateOf = Function.update s.stateOf a (some .new))
  | frees (a : Nat) (before : s.roles.Perm ((a,.commit) :: u.roles))
      (states : u.stateOf = Function.update s.stateOf a none)

structure Work (s u : State n) : Prop where
  phase : u.phase = s.phase
  fault : u.fault = s.fault
  refs : u.refOf = s.refOf
  files : ∀ a, u.filesOf a = s.filesOf a ∨ s.heap a = none ∨ u.heap a = none
  current : ∀ tx, u.builder.current = some tx → u.front = tx
  waits : ∀ a, u.builder.waitedOn = some a → s.builder.waitedOn = some a ∨ s.refOf a = 0
  seals : ∀ a, s.builder.waitedOn = some a → u.builder.waitedOn = some a ∨ u.stateOf a = some .build

theorem RoleMoves.ledger (moves : RoleMoves s u) (ledger : Ledger s.stateOf s.roles) : Ledger u.stateOf u.roles := by
  cases moves with
  | stays roles states => exact states ▸ ledger.perm roles
  | changes a k k' rest _ before after states => exact states ▸ ((ledger.perm before).change k').perm after
  | adds a free after states => exact states ▸ (ledger.acquire free .new).perm after
  | frees a before states => exact states ▸ (ledger.perm before).release

theorem refOf_free (free : s.stateOf a = none) : s.refOf a = 0 := by
  have gone : s.heap a = none := by simpa [State.stateOf] using free
  simp [State.refOf,gone]

theorem Invariant.unheld_before (inv : Invariant s) (moves : RoleMoves s u)
    (closed : u.stateOf a = some .build ∨ u.stateOf a = some .commit ∨ u.stateOf a = some .new) : s.refOf a = 0 := by
  have kept : u.stateOf a = s.stateOf a → s.refOf a = 0 := fun same => by
    rw [same] at closed
    exact inv.unheld a (by simpa [Sealed,or_assoc] using .inr closed)
  cases moves with
  | stays _ states => exact kept (by rw [states])
  | changes b k k' rest change before _ states =>
    by_cases same : a = b
    · subst same
      rw [states,Function.update_self] at closed
      cases change with
      | lock => simp at closed
      | start => simp at closed
      | build waited => exact inv.unheld a (.inl (.inl waited))
      | commit _ _ =>
        have building := (inv.ledger.owned a .build).mp (before.mem_iff.mpr List.mem_cons_self)
        exact inv.unheld a (.inl (.inr (.inl building)))
    · exact kept (by rw [states,Function.update_of_ne same])
  | adds b free _ states =>
    by_cases same : a = b
    · exact refOf_free (same ▸ free)
    · exact kept (by rw [states,Function.update_of_ne same])
  | frees b _ states =>
    by_cases same : a = b
    · subst same
      simp [states] at closed
    · exact kept (by rw [states,Function.update_of_ne same])

theorem Invariant.journal (inv : Invariant s) (work : Work s u) (moves : RoleMoves s u) : Invariant u := by
  refine inv.thread work.phase work.refs (moves.ledger inv.ledger) work.current fun a closed => ?_
  rcases closed with (waited | build | commit) | new
  · rcases work.waits a waited with before | none
    · exact inv.unheld a (.inl (.inl before))
    · exact none
  · exact inv.unheld_before moves (.inl build)
  · exact inv.unheld_before moves (.inr (.inl commit))
  · exact inv.unheld_before moves (.inr (.inr new))

theorem Invariant.role (inv : Invariant s) (member : (a,k) ∈ s.builder.roles s.front) : s.stateOf a = some k :=
  (inv.ledger.owned a k).mp (List.mem_append_left _ member)

theorem heap_of_state (known : s.stateOf a = some k) : ∃ tx, s.heap a = some tx ∧ tx.state = k :=
  Option.map_eq_some_iff.mp known

theorem trChangeState_work (known : s.stateOf a = some k) (current : ∀ tx, b.current = some tx → s.front = tx)
    (waits : ∀ x, b.waitedOn = some x → s.builder.waitedOn = some x ∨ s.refOf x = 0)
    (seals : ∀ x, s.builder.waitedOn = some x → b.waitedOn = some x ∨ x = a ∧ k' = .build) :
    Work s {trChangeState s a k' with builder := b} where
  phase := rfl
  fault := rfl
  refs := refOf_onTx s a _ fun _ => rfl
  files x := by
    have same := congrFun (filesOf_onTx s a (fun tx => {tx with state := k'}) fun _ => rfl) x
    exact .inl same
  current := current
  waits := waits
  seals x waited := by
    rcases seals x waited with still | ⟨rfl,rfl⟩
    · exact .inl still
    · have set := congrFun (stateOf_trChangeState s x known .build) x
      rw [Function.update_self] at set
      exact .inr set

theorem stays_moves (phase : u.phase = s.phase) (fault : u.fault = s.fault) (refs : u.refOf = s.refOf)
    (files : u.filesOf = s.filesOf) (states : u.stateOf = s.stateOf)
    (current : ∀ tx, u.builder.current = some tx → u.front = tx)
    (waits : ∀ x, u.builder.waitedOn = some x → s.builder.waitedOn = some x ∨ s.refOf x = 0)
    (seals : ∀ x, s.builder.waitedOn = some x → u.builder.waitedOn = some x) (roles : s.roles.Perm u.roles) :
    Work s u ∧ RoleMoves s u :=
  ⟨⟨phase,fault,refs,fun x => .inl (congrFun files x),current,waits,fun x waited => .inl (seals x waited)⟩,
    .stays roles states⟩

section Build

theorem lock_moves (inv : Invariant s) (here : s.builder = .created tx new) (next : build s nothing = some u) :
    Work s u ∧ RoleMoves s u := by
  simp only [build,here,Option.some.injEq] at next
  subst next
  have known : s.stateOf tx = some .running := inv.role (by simp [here,Builder.roles])
  refine ⟨trChangeState_work known ?_ ?_ ?_,?_⟩
  · simpa [Builder.current] using inv.current tx (by rw [here]; rfl)
  · simp [Builder.waitedOn]
  · simp [here,Builder.waitedOn]
  · refine .changes tx .running .locked ((new,.new) :: s.sent.map fun tx => (tx,.commit)) .lock ?_ (List.Perm.refl _)
      (stateOf_trChangeState s tx known .locked)
    simp [State.roles,here,Builder.roles]

theorem wait_moves (inv : Invariant s) (here : s.builder = .locked tx new) (next : build s nothing = some u) :
    Work s u ∧ RoleMoves s u := by
  obtain ⟨found,there,-⟩ := heap_of_state (inv.role (a := tx) (k := .locked) (by simp [here,Builder.roles]))
  simp only [build,here,there] at next
  split at next
  next none =>
    obtain rfl := Option.some.inj next
    refine stays_moves rfl rfl rfl rfl rfl ?_ ?_ ?_ ?_
    · simpa [Builder.current] using inv.current tx (by rw [here]; rfl)
    · have unheld : s.refOf tx = 0 := by simp [State.refOf,there,none]
      simpa [Builder.waitedOn,here] using unheld
    · simp [here,Builder.waitedOn]
    · simp [State.roles,here,Builder.roles]
  · obtain rfl := Option.some.inj next
    exact stays_moves rfl rfl rfl rfl rfl inv.current (fun _ waited => .inl waited) (fun _ waited => waited) (List.Perm.refl _)

theorem start_moves (inv : Invariant s) (here : s.builder = .waited tx new) (next : build s nothing = some u) :
    Work s u ∧ RoleMoves s u := by
  simp only [build,here,Option.some.injEq] at next
  subst next
  have known : s.stateOf new = some .new := inv.role (by simp [here,Builder.roles])
  refine ⟨⟨rfl,rfl,?_,fun x => .inl ?_,?_,?_,?_⟩,?_⟩
  · exact refOf_onTx s new _ fun _ => rfl
  · exact congrFun (filesOf_onTx s new (fun found => {found with state := .running}) fun _ => rfl) x
  · simp [Builder.current]
  · simp [Builder.waitedOn,here]
  · simp [Builder.waitedOn,here]
  · refine .changes new .new .running ((tx,.locked) :: s.sent.map fun tx => (tx,.commit)) .start ?_ ?_
      (stateOf_trChangeState s new known .running)
    · simpa [State.roles,here,Builder.roles] using List.Perm.swap _ _ _
    · exact List.Perm.swap _ _ _

theorem buildState_moves (inv : Invariant s) (here : s.builder = .started tx) (next : build s nothing = some u) :
    Work s u ∧ RoleMoves s u := by
  simp only [build,here,Option.some.injEq] at next
  subst next
  have known : s.stateOf tx = some .locked := inv.role (by simp [here,Builder.roles])
  refine ⟨trChangeState_work known ?_ ?_ ?_,?_⟩
  · simp [Builder.current]
  · simp [Builder.waitedOn]
  · simp [here,Builder.waitedOn]
  · refine .changes tx .locked .build ((s.front,.running) :: s.sent.map fun tx => (tx,.commit)) (.build (by rw [here]; rfl)) ?_
      (List.Perm.refl _) (stateOf_trChangeState s tx known .build)
    simp [State.roles,here,Builder.roles]

theorem loop_moves {v : State n} (phase : v.phase = s.phase) (fault : v.fault = s.fault) (front : v.front = s.front)
    (sent : v.sent = s.sent) (refs : v.refOf = s.refOf) (files : v.filesOf = s.filesOf) (states : v.stateOf = s.stateOf)
    (here : s.builder = .copying tx i ∨ s.builder = .building tx i)
    (after : (∃ j, b = .copying tx j ∨ b = .building tx j) ∨ b = .snapshotting tx) :
    Work s {v with builder := b} ∧ RoleMoves s {v with builder := b} := by
  have roles : s.builder.roles s.front = b.roles v.front ∧ s.builder.waitedOn = none ∧
      b.waitedOn = none ∧ b.current = none := by
    rcases here with here | here <;> rcases after with ⟨j,rfl | rfl⟩ | rfl <;>
      simp [here,front,Builder.roles,Builder.waitedOn,Builder.current]
  obtain ⟨same,apart,waitedOn,current⟩ := roles
  refine stays_moves phase fault refs files states ?_ ?_ ?_ ?_
  · simp [current]
  · simp [waitedOn]
  · simp [apart]
  · rw [State.roles,State.roles,same,sent]

theorem commit_moves (inv : Invariant s) (here : s.builder = .snapshotting tx) (next : build s nothing = some u) :
    Work s u ∧ RoleMoves s u := by
  simp only [build,here,Option.some.injEq] at next
  subst next
  have known : s.stateOf tx = some .build := inv.role (by simp [here,Builder.roles])
  refine ⟨trChangeState_work known ?_ ?_ ?_,?_⟩
  · simp [Builder.current]
  · simp [Builder.waitedOn]
  · simp [here,Builder.waitedOn]
  · refine .changes tx .build .commit ((s.front,.running) :: s.sent.map fun tx => (tx,.commit)) (.commit here rfl) ?_
      (List.Perm.refl _) (stateOf_trChangeState s tx known .commit)
    simp [State.roles,here,Builder.roles]

theorem free_views (unheld : s.refOf a = 0) :
    (s.setTx a none).refOf = s.refOf ∧ ∀ x, (s.setTx a none).filesOf x = s.filesOf x ∨ (s.setTx a none).heap x = none := by
  refine ⟨?_,fun x => ?_⟩
  · rw [refOf_setTx,Option.elim_none,← unheld,Function.update_eq_self]
  · by_cases same : x = a
    · exact .inr (by simp [State.setTx,same])
    · exact .inl (by rw [filesOf_setTx,Function.update_of_ne same])

theorem discard_moves (inv : Invariant s) (here : s.builder = .committing tx) :
    Work s {discardTransaction s tx with builder := .idle} ∧ RoleMoves s {discardTransaction s tx with builder := .idle} := by
  let tidBack : Tx → Tx := fun front => {front with tid := front.tid - 1}
  have known : s.stateOf tx = some .commit := inv.role (by simp [here,Builder.roles])
  have refs : (s.onTx s.front tidBack).refOf = s.refOf := refOf_onTx s s.front tidBack fun _ => rfl
  have files : (s.onTx s.front tidBack).filesOf = s.filesOf := filesOf_onTx s s.front tidBack fun _ => rfl
  have states : (s.onTx s.front tidBack).stateOf = s.stateOf := stateOf_onTx s s.front tidBack fun _ => rfl
  have unheld : (s.onTx s.front tidBack).refOf tx = 0 := by
    rw [refs]
    exact inv.unheld tx (.inl (.inr (.inr known)))
  obtain ⟨refs',files'⟩ := free_views unheld
  refine ⟨⟨rfl,rfl,refs'.trans refs,fun x => ?_,?_,?_,?_⟩,.frees tx ?_ ?_⟩
  · rcases files' x with same | gone
    · exact .inl (same.trans (congrFun files x))
    · exact .inr (.inr gone)
  · simp [Builder.current]
  · simp [Builder.waitedOn]
  · simp [here,Builder.waitedOn]
  · simp [State.roles,here,Builder.roles,discardTransaction,State.onTx,State.setTx]
  · exact states ▸ stateOf_setTx (s.onTx s.front tidBack) tx none

theorem send_moves (here : s.builder = .committing tx) :
    Work s {s with sent := tx :: s.sent, builder := .idle} ∧ RoleMoves s {s with sent := tx :: s.sent, builder := .idle} := by
  refine stays_moves rfl rfl rfl rfl rfl ?_ ?_ ?_ ?_
  · simp [Builder.current]
  · simp [Builder.waitedOn]
  · simp [here,Builder.waitedOn]
  · simpa [State.roles,here,Builder.roles] using List.Perm.swap _ _ _

theorem build_moves (inv : Invariant s) (next : build s nothing = some u) : Work s u ∧ RoleMoves s u := by
  cases here : s.builder with
  | idle => simp [build,here] at next
  | created tx new => exact lock_moves inv here next
  | locked tx new => exact wait_moves inv here next
  | waited tx new => exact start_moves inv here next
  | started tx => exact buildState_moves inv here next
  | copying tx i =>
    simp only [build,here] at next
    split at next
    · obtain rfl := Option.some.inj next
      exact loop_moves rfl rfl rfl rfl rfl rfl rfl (.inl here) (.inl ⟨0,.inr rfl⟩)
    next ino _ =>
      obtain rfl := Option.some.inj next
      exact loop_moves rfl rfl rfl rfl (refOf_onTx s tx _ fun _ => rfl)
        (filesOf_onTx s tx (fun found => {found with waiting := found.waiting ++ [ino]}) fun _ => rfl)
        (stateOf_onTx s tx _ fun _ => rfl) (.inl here) (.inl ⟨i + 1,.inl rfl⟩)
  | building tx i =>
    simp only [build,here] at next
    split at next
    · obtain rfl := Option.some.inj next
      exact loop_moves rfl rfl rfl rfl rfl rfl rfl (.inr here) (.inr rfl)
    next ino _ =>
      obtain rfl := Option.some.inj next
      exact loop_moves rfl rfl rfl rfl (refOf_onTx s tx _ fun _ => rfl)
        (filesOf_onTx s tx (fun found => {found with built := found.built ++ [ino]}) fun _ => rfl)
        (stateOf_onTx s tx _ fun _ => rfl) (.inr here) (.inl ⟨i + 1,.inr rfl⟩)
  | snapshotting tx => exact commit_moves inv here next
  | committing tx =>
    simp only [build,here] at next
    split at next
    · exact Option.some.inj next ▸ discard_moves inv here
    · exact Option.some.inj next ▸ send_moves here

theorem newTransaction_moves (idle : s.builder = .idle) (next : newTransaction s new = some u) : Work s u ∧ RoleMoves s u := by
  unfold newTransaction at next
  split at next
  · cases next
  next gone =>
    obtain rfl := Option.some.inj next
    have free : s.stateOf new = none := by simp [State.stateOf,gone]
    refine ⟨⟨rfl,rfl,?_,fun x => ?_,?_,?_,?_⟩,.adds new free ?_ (stateOf_setTx s new _)⟩
    · have set := refOf_setTx s new (some ⟨s.sequence,.new,0,[],[],[]⟩)
      exact set.trans (Function.update_eq_self_iff.mpr (refOf_free free).symm)
    · by_cases same : x = new
      · exact .inr (.inl (same ▸ gone))
      · have set := congrFun (filesOf_setTx s new (some ⟨s.sequence,.new,0,[],[],[]⟩)) x
        rw [Function.update_of_ne same] at set
        exact .inl set
    · simp [Builder.current,State.setTx]
    · simp [Builder.waitedOn]
    · simp [idle,Builder.waitedOn]
    · simpa [State.roles,idle,Builder.roles,State.setTx] using List.Perm.swap _ _ _

theorem freeTransaction_moves (inv : Invariant s) (sent : tx ∈ s.sent) :
    Work s {s.setTx tx none with sent := s.sent.erase tx} ∧ RoleMoves s {s.setTx tx none with sent := s.sent.erase tx} := by
  have known : s.stateOf tx = some .commit := by
    refine (inv.ledger.owned tx .commit).mp (List.mem_append_right _ ?_)
    simpa using sent
  obtain ⟨refs,files⟩ := free_views (inv.unheld tx (.inl (.inr (.inr known))))
  refine ⟨⟨rfl,rfl,refs,fun x => ?_,inv.current,fun _ waited => .inl waited,fun _ waited => .inl waited⟩,
    .frees tx ?_ (stateOf_setTx s tx none)⟩
  · rcases files x with same | gone
    · exact .inl same
    · exact .inr (.inr gone)
  · have split := (List.perm_cons_erase sent).map fun tx => (tx,TrState.commit)
    exact (split.append_left _).trans List.perm_middle

end Build

theorem step_moves (inv : Invariant s) (next : step s act = some u) :
    s.fault = none ∧ ((∃ t, CallerMoves s u t ∧ Apart s u) ∨ Work s u ∧ RoleMoves s u) := by
  obtain ⟨fine,next⟩ := Option.ite_none_left_eq_some.mp next
  refine ⟨by simpa using fine,?_⟩
  cases act with
  | call t call =>
    obtain ⟨idle,⟨⟩⟩ := Option.ite_none_right_eq_some.mp next
    exact .inl ⟨t,.of_move (by simp [idle,Phase.holds]) (by simp),rfl,rfl,rfl,rfl⟩
  | go t memory => exact .inl ⟨t,advance_moves inv.counted next⟩
  | pass =>
    obtain ⟨-,⟨⟩⟩ := Option.ite_none_right_eq_some.mp next
    exact .inr (stays_moves rfl rfl rfl rfl rfl inv.current (fun _ waited => .inl waited) (fun _ waited => waited)
      (List.Perm.refl _))
  | newTransaction new =>
    obtain ⟨idle,next⟩ := Option.ite_none_right_eq_some.mp next
    exact .inr (newTransaction_moves idle next)
  | build nothing => exact .inr (build_moves inv next)
  | freeTransaction tx =>
    obtain ⟨sent,next⟩ := Option.ite_none_right_eq_some.mp next
    exact .inr (Option.some.inj next ▸ freeTransaction_moves inv sent)

theorem Invariant.step (inv : Invariant s) (next : step s act = some u) : Invariant u := by
  rcases (step_moves inv next).2 with ⟨t,moves,apart⟩ | ⟨work,moves⟩
  · exact inv.advance moves apart
  · exact inv.journal work moves

theorem init_invariant (n front : Nat) (sequence : UInt32) (inodes : Nat → Inode) :
    Invariant (init n front sequence inodes) := by
  have states : (init n front sequence inodes).stateOf = Function.update (fun _ => none) front (some .running) :=
    Function.comp_update (Option.map Tx.state) (fun _ => none) front _
  have refs : ∀ a, (init n front sequence inodes).refOf a = 0 := fun a => by
    by_cases same : a = front
    · simp [State.refOf,init,same]
    · simp [State.refOf,init,same]
  refine ⟨?_,?_,fun a => ?_,fun a _ => refs a⟩
  · rw [states]
    exact Ledger.empty.acquire rfl TrState.running
  · simp [init,Builder.current]
  · rw [refs]
    simp [tally,init,Phase.holds]

theorem run_inv {sequence : UInt32} (ran : run step (init n front sequence inodes) as = some s) : Invariant s :=
  run_invariant_always step Invariant (fun _ _ _ inv next => inv.step next) _ as s (init_invariant n front sequence inodes) ran

theorem Invariant.unheld_by (inv : Invariant s) (closed : Sealed s a) (t : Fin n) : (s.phase t).holds a = 0 := by
  have below := le_tally (Phase.holds a) s.phase t
  have none := inv.unheld a (.inl closed)
  rw [inv.counted a] at none
  omega

theorem Invariant.state_kept (inv : Invariant s) (moves : RoleMoves s u) (unfreed : u.stateOf a ≠ none)
    (closed : s.stateOf a = some .build ∨ s.stateOf a = some .commit) : u.stateOf a = some .build ∨
      u.stateOf a = some .commit := by
  cases moves with
  | stays _ states => rwa [states]
  | changes b k k' rest change before _ states =>
    have known := (inv.ledger.owned b k).mp (before.mem_iff.mpr List.mem_cons_self)
    rw [states]
    by_cases same : a = b
    · subst same
      rw [known] at closed
      cases change <;> simp at closed ⊢
    · rwa [Function.update_of_ne same]
  | adds b free _ states =>
    have other : a ≠ b := by
      rintro rfl
      simp [free] at closed
    rwa [states,Function.update_of_ne other]
  | frees b _ states =>
    rw [states] at unfreed ⊢
    by_cases same : a = b
    · simp [same] at unfreed
    · rwa [Function.update_of_ne same]

theorem Invariant.sealed_step (inv : Invariant s) (closed : Sealed s a) (next : RunningTrans.step s act = some u)
    (unfreed : u.heap a ≠ none) : Sealed u a ∧ u.filesOf a = s.filesOf a := by
  rcases (step_moves inv next).2 with ⟨t,moves,apart⟩ | ⟨work,moves⟩
  · refine ⟨apart.sealed_iff.mpr closed,?_⟩
    cases moves with
    | goes _ _ _ _ _ files _ => exact (files a).resolve_right (by simp [inv.unheld_by closed t])
    | fails fault after _ => rw [after]; rfl
  · have live : s.stateOf a ≠ none := by
      rcases closed with waited | build | commit
      · simp [inv.waitedOn waited]
      · simp [build]
      · simp [commit]
    constructor
    · rcases closed with waited | state
      · exact (work.seals a waited).imp_right .inl
      · exact .inr (inv.state_kept moves (by simpa [State.stateOf] using unfreed) state)
    · rcases work.files a with same | absent | gone
      · exact same
      · exact absurd (by simp [State.stateOf,absent]) live
      · exact absurd gone unfreed

/-- The step does not free the transaction. -/
def Unfreed (a : Nat) (s : State n) (act : Act n) : Prop := ∀ u, step s act = some u → u.heap a ≠ none

/-- Once `build_transaction` has left its wait for the reference count of a transaction, no caller is between
`start_journal` and `end_journal` with it, and until it is freed no file is added to it. -/
theorem files_stable_while_built (front : Nat) (sequence : UInt32) (inodes : Nat → Inode) (as : List (Act n)) (s : State n)
    (ran : run step (init n front sequence inodes) as = some s) (a : Nat) (closed : Sealed s a) :
    (∀ t, (s.phase t).holds a = 0) ∧
    ∀ (bs : List (Act n)) (u : State n), run step s bs = some u → Along step (Unfreed a) s bs →
      (∀ t, (u.phase t).holds a = 0) ∧ u.filesOf a = s.filesOf a := by
  have inv := run_inv ran
  refine ⟨inv.unheld_by closed,fun bs u later unfreed => ?_⟩
  have kept := run_invariant step (fun v => Invariant v ∧ Sealed v a ∧ v.filesOf a = s.filesOf a) (Unfreed a)
    (fun v act w held unfreed next => by
      obtain ⟨inv,closed,same⟩ := held
      obtain ⟨closed',same'⟩ := inv.sealed_step closed next (unfreed w next)
      exact ⟨inv.step next,closed',same'.trans same⟩) s bs u ⟨inv,closed,rfl⟩ unfreed later
  exact ⟨kept.1.unheld_by kept.2.1,kept.2.2⟩

def registered (t : Fin n) : List (Act n) :=
  [.call t ⟨5,false⟩,.go t true,.go t true,.newTransaction 1,.build false,.go t true,.build false,.go t true,.go t true,
    .build false]

theorem files_stable_while_built_registered :
    ∃ s, run step (init 1 0 7 fun _ => ⟨1,false,0⟩) (registered 0) = some s ∧ s.filesOf 0 = some [5] ∧
      ∀ bs u, run step s bs = some u → Along step (Unfreed 0) s bs → u.filesOf 0 = some [5] := by
  have ends : (run step (init 1 0 7 fun _ => ⟨1,false,0⟩) (registered 0)).map (fun s => (s.builder.waitedOn,s.filesOf 0)) =
      some (some 0,some [5]) := by
    decide
  obtain ⟨s,ran,same⟩ := Option.map_eq_some_iff.mp ends
  simp only [Prod.mk.injEq] at same
  obtain ⟨waited,files⟩ := same
  refine ⟨s,ran,files,fun bs u later unfreed => ?_⟩
  have stable := files_stable_while_built 0 7 (fun _ => ⟨1,false,0⟩) (registered 0) s ran 0 (.inl waited)
  exact (stable.2 bs u later unfreed).2.trans files

end Oxbow.Daemon.RunningTrans
