import Oxbow.Lib.Ledger
import Oxbow.Lib.Run
import Oxbow.Lib.Tally

/-! Files register with the running transaction, which `get_running_trans` finds through the front pointer under
one lock and examines under another, while the journal thread locks the transaction, waits for its reference count,
builds it and gives it away. -/
namespace Oxbow.Daemon.RunningTrans

open Oxbow.Lib Function Option

inductive TrState
  | new
  | running
  | locked
  | build
  | commit
  | complete
  | pause
  deriving DecidableEq, Repr

structure Tx where
  tid : UInt32
  state : TrState
  ref : Nat
  files : List Nat
  waiting : List Nat
  built : List Nat
  deriving DecidableEq, Repr

structure Inode where
  refs : Nat
  inJtxDirtyList : Bool
  journalTxid : UInt32
  deriving DecidableEq, Repr

structure Call where
  inode : Nat
  checks : Bool
  deriving DecidableEq, Repr

inductive Phase
  | idle
  | fetching (call : Call)
  | inspecting (call : Call) (tr : Nat)
  | inserting (call : Call) (tr : Nat)
  | marking (call : Call) (tr : Nat)
  | ending (tr : Nat)
  deriving DecidableEq, Repr

inductive Builder
  | idle
  | created (tx next : Nat)
  | locked (tx next : Nat)
  | waited (tx next : Nat)
  | started (tx : Nat)
  | copying (tx i : Nat)
  | building (tx i : Nat)
  | snapshotting (tx : Nat)
  | committing (tx : Nat)
  deriving DecidableEq, Repr

inductive Fault
  | wrongState
  | panicked
  | usedAfterFree
  | noMemory
  deriving DecidableEq, Repr

structure State (n : Nat) where
  front : Nat
  back : Option Nat
  sequence : UInt32
  heap : Nat → Option Tx
  inodes : Nat → Inode
  builder : Builder
  sent : List Nat
  phase : Fin n → Phase
  fault : Option Fault

section

variable (s : State n)

def State.move (t : Fin n) (p : Phase) : State n := {s with phase := update s.phase t p}

def State.setTx (a : Nat) (tx : Option Tx) : State n := {s with heap := update s.heap a tx}

def State.setInode (ino : Nat) (inode : Inode) : State n :=
  {s with inodes := update s.inodes ino inode}

def State.fail (fault : Fault) : State n := {s with fault := some fault}

section

variable (t : Fin n) (call : Call) (tr : Nat)

def getRunningTrans : State n :=
  match s.heap tr with
  | none => s.fail .usedAfterFree
  | some tx =>
    match tx.state with
    | .locked | .build => s.move t (.fetching call)
    | .running => (s.setTx tr (some {tx with ref := tx.ref + 1})).move t (.inserting call tr)
    | .pause => s.fail .panicked
    | .new | .commit | .complete => s.fail .wrongState

/-- `kh_put` under `j_lock`, after `iget`; `memory` tells whether it can allocate. -/
def insertFile (memory : Bool) : State n :=
  let inode := s.inodes call.inode
  match s.heap tr with
  | none => s.fail .usedAfterFree
  | some tx =>
    if memory = false then s.fail .noMemory
    else if call.inode ∈ tx.files then
      (s.setInode call.inode {inode with refs := inode.refs + 1}).move t
        (if call.checks then .ending tr else .marking call tr)
    else ((s.setInode call.inode {inode with refs := inode.refs + 1}).setTx tr
      (some {tx with files := tx.files ++ [call.inode]})).move t (.marking call tr)

def markFile : State n :=
  match s.heap tr with
  | none => s.fail .usedAfterFree
  | some tx =>
    (s.setInode call.inode {s.inodes call.inode with inJtxDirtyList := true, journalTxid := tx.tid}).move t (.ending tr)

end

def endJournal (t : Fin n) (tr : Nat) : State n :=
  match s.heap tr with
  | none => s.fail .usedAfterFree
  | some tx => (s.setTx tr (some {tx with ref := tx.ref - 1})).move t .idle

def advance (t : Fin n) (memory : Bool) : Option (State n) :=
  match s.phase t with
  | .idle => none
  | .fetching call => some (s.move t (.inspecting call s.front))
  | .inspecting call tr => some (getRunningTrans s t call tr)
  | .inserting call tr => some (insertFile s t call tr memory)
  | .marking call tr => some (markFile s t call tr)
  | .ending tr => some (endJournal s t tr)

def State.onTx (a : Nat) (f : Tx → Tx) : State n := s.setTx a ((s.heap a).map f)

def trChangeState (a : Nat) (state : TrState) : State n := s.onTx a fun tx => {tx with state}

/-- `front`, `back` and the state of the new transaction; the journal lock is held for the first and the last. -/
def startTransaction (tx next : Nat) : State n :=
  {trChangeState s next .running with front := next, back := some tx}

def discardTransaction (tx : Nat) : State n :=
  {(s.onTx s.front fun front => {front with tid := front.tid - 1}).setTx tx none with sequence := s.sequence - 1}

def newTransaction (next : Nat) : Option (State n) :=
  match s.heap next with
  | some _ => none
  | none => some {s.setTx next (some ⟨s.sequence,.new,0,[],[],[]⟩) with
      sequence := s.sequence + 1, builder := .created s.front next}

def build (nothing : Bool) : Option (State n) :=
  match s.builder with
  | .idle => none
  | .created tx next => some {trChangeState s tx .locked with builder := .locked tx next}
  | .locked tx next =>
    match s.heap tx with
    | none => some (s.fail .usedAfterFree)
    | some found => if found.ref = 0 then some {s with builder := .waited tx next} else some s
  | .waited tx next => some {startTransaction s tx next with builder := .started tx}
  | .started tx => some {trChangeState s tx .build with builder := .copying tx 0}
  | .copying tx i =>
    match (s.heap tx).bind fun found => found.files[i]? with
    | none => some {s with builder := .building tx 0}
    | some ino => some {s.onTx tx fun found => {found with waiting := found.waiting ++ [ino]} with
        builder := .copying tx (i + 1)}
  | .building tx i =>
    match (s.heap tx).bind fun found => found.files[i]? with
    | none => some {s with builder := .snapshotting tx}
    | some ino => some {s.onTx tx fun found => {found with built := found.built ++ [ino]} with builder := .building tx (i + 1)}
  | .snapshotting tx => some {trChangeState s tx .commit with builder := .committing tx}
  | .committing tx =>
    if nothing then some {discardTransaction s tx with builder := .idle}
    else some {s with sent := tx :: s.sent, builder := .idle}

end

inductive Act (n : Nat)
  | call (t : Fin n) (call : Call)
  | go (t : Fin n) (memory : Bool)
  /-- `build_transaction` returns early for want of a buffer or of memory. -/
  | pass
  | newTransaction (next : Nat)
  | build (nothing : Bool)
  | freeTransaction (tx : Nat)
  deriving DecidableEq, Repr

def step (s : State n) (act : Act n) : Option (State n) :=
  if s.fault.isSome then none
  else
    match act with
    | .call t call => if s.phase t = .idle then some (s.move t (.fetching call)) else none
    | .go t memory => advance s t memory
    | .pass => if s.builder = .idle then some s else none
    | .newTransaction next => if s.builder = .idle then newTransaction s next else none
    | .build nothing => build s nothing
    | .freeTransaction tx => if tx ∈ s.sent then some {s.setTx tx none with sent := s.sent.erase tx} else none

def init (n front : Nat) (sequence : UInt32) (inodes : Nat → Inode) : State n where
  front := front
  back := none
  sequence := sequence + 1
  heap := update (fun _ => none) front (some ⟨sequence,.running,0,[],[],[]⟩)
  inodes := inodes
  builder := .idle
  sent := []
  phase := fun _ => .idle
  fault := none

/-! What the two sides see of a transaction. -/

def State.stateOf (s : State n) (a : Nat) : Option TrState := (s.heap a).map Tx.state
def State.refOf (s : State n) (a : Nat) : Nat := (s.heap a).elim 0 Tx.ref
def State.filesOf (s : State n) (a : Nat) : Option (List Nat) := (s.heap a).map Tx.files

def Phase.holds (a : Nat) : Phase → Nat
  | .inserting _ tr | .marking _ tr | .ending tr => if tr = a then 1 else 0
  | _ => 0

def Builder.roles (front : Nat) : Builder → List (Nat × TrState)
  | .idle => [(front,.running)]
  | .created tx next => [(tx,.running),(next,.new)]
  | .locked tx next | .waited tx next => [(tx,.locked),(next,.new)]
  | .started tx => [(tx,.locked),(front,.running)]
  | .copying tx _ | .building tx _ | .snapshotting tx => [(tx,.build),(front,.running)]
  | .committing tx => [(tx,.commit),(front,.running)]

def State.roles (s : State n) : List (Nat × TrState) := s.builder.roles s.front ++ s.sent.map fun tx => (tx,.commit)

def Builder.current : Builder → Option Nat
  | .created tx _ | .locked tx _ | .waited tx _ => some tx
  | _ => none

def Builder.waitedOn : Builder → Option Nat
  | .waited tx _ | .started tx => some tx
  | _ => none

/-- `build_transaction` has left its wait for the reference count of the transaction. -/
def Sealed (s : State n) (a : Nat) : Prop :=
  s.builder.waitedOn = some a ∨ s.stateOf a = some .build ∨ s.stateOf a = some .commit

section Fields

variable (s : State n) (a : Nat) (tx : Option Tx) (f : Tx → Tx)

theorem stateOf_setTx : (s.setTx a tx).stateOf = update s.stateOf a (tx.map Tx.state) :=
  comp_update (Option.map Tx.state) s.heap a tx

theorem refOf_setTx : (s.setTx a tx).refOf = update s.refOf a (tx.elim 0 Tx.ref) :=
  comp_update (fun tx => Option.elim tx 0 Tx.ref) s.heap a tx

theorem filesOf_setTx : (s.setTx a tx).filesOf = update s.filesOf a (tx.map Tx.files) :=
  comp_update (Option.map Tx.files) s.heap a tx

theorem stateOf_onTx (same : ∀ tx, (f tx).state = tx.state) : (s.onTx a f).stateOf = s.stateOf := by
  rw [State.onTx,stateOf_setTx,map_map,comp_def]
  simp only [same]
  exact update_eq_self a s.stateOf

theorem refOf_onTx (same : ∀ tx, (f tx).ref = tx.ref) : (s.onTx a f).refOf = s.refOf := by
  rw [State.onTx,refOf_setTx,elim_map,comp_def]
  simp only [same]
  exact update_eq_self a s.refOf

theorem filesOf_onTx (same : ∀ tx, (f tx).files = tx.files) : (s.onTx a f).filesOf = s.filesOf := by
  rw [State.onTx,filesOf_setTx,map_map,comp_def]
  simp only [same]
  exact update_eq_self a s.filesOf

theorem stateOf_trChangeState (found : s.stateOf a = some before) (state : TrState) :
    (trChangeState s a state).stateOf = update s.stateOf a (some state) := by
  obtain ⟨tx,there,-⟩ := map_eq_some_iff.mp found
  rw [trChangeState,State.onTx,stateOf_setTx,there]
  rfl

end Fields

variable {s u : State n}

inductive CallerMoves (s u : State n) (t : Fin n) : Prop
  | goes (p : Phase) (after : u.phase = update s.phase t p) (fine : u.fault = s.fault)
      (refs : ∀ a, u.refOf a + (s.phase t).holds a = s.refOf a + p.holds a)
      (takes : ∀ a, p.holds a ≤ (s.phase t).holds a ∨ s.stateOf a = some .running)
      (files : ∀ a, u.filesOf a = s.filesOf a ∨ (s.phase t).holds a = 1)
      (looks : ∀ call tr, p = .inspecting call tr → tr = s.front)
  | fails (fault : Fault) (after : u = s.fail fault)
      (why : fault = .noMemory ∨ (∃ tr, (s.phase t).holds tr = 1 ∧ s.stateOf tr = none) ∨
        ∃ call tr, s.phase t = .inspecting call tr ∧ ∀ state, s.stateOf tr = some state →
          state ∉ [.running,.locked,.build])

structure Apart (s u : State n) : Prop where
  front : u.front = s.front
  builder : u.builder = s.builder
  sent : u.sent = s.sent
  states : u.stateOf = s.stateOf

theorem CallerMoves.of_move (same : ∀ a, p.holds a = (s.phase t).holds a)
    (looks : ∀ call tr, p = .inspecting call tr → tr = s.front) : CallerMoves s (s.move t p) t :=
  .goes p rfl rfl (fun a => by rw [same]; rfl) (fun a => .inl (same a).le) (fun _ => .inl rfl) looks

theorem setTx_views (there : s.heap a = some tx) (state : w.state = tx.state) : (s.setTx a (some w)).stateOf = s.stateOf ∧
    (∀ b, (s.setTx a (some w)).refOf b + (if a = b then tx.ref else 0) = s.refOf b + if a = b then w.ref else 0) ∧
    ∀ b, (s.setTx a (some w)).filesOf b = s.filesOf b ∨ a = b ∧ w.files ≠ tx.files := by
  have known : s.stateOf a = some tx.state := by simp [State.stateOf,there]
  have counted : s.refOf a = tx.ref := by simp [State.refOf,there]
  have listed : s.filesOf a = some tx.files := by simp [State.filesOf,there]
  refine ⟨?_,fun b => ?_,fun b => ?_⟩
  · rw [stateOf_setTx,map_some,state,← known,update_eq_self]
  · rw [refOf_setTx]
    by_cases same : a = b
    · subst same
      simp [counted,Nat.add_comm]
    · simp [same,Ne.symm same]
  · rw [filesOf_setTx]
    by_cases same : a = b
    · subst same
      by_cases files : w.files = tx.files
      · exact .inl (by simp [files,listed])
      · exact .inr ⟨rfl,files⟩
    · exact .inl (by simp [Ne.symm same])

theorem getRunningTrans_moves (found : s.phase t = .inspecting call tr) :
    CallerMoves s (getRunningTrans s t call tr) t ∧ Apart s (getRunningTrans s t call tr) := by
  have retry : CallerMoves s (s.move t (.fetching call)) t ∧ Apart s (s.move t (.fetching call)) :=
    ⟨.of_move (by simp [found,Phase.holds]) (by simp),rfl,rfl,rfl,rfl⟩
  have wrong : ∀ fault, (∀ state, s.stateOf tr = some state → state ∉ [.running,.locked,.build]) →
      CallerMoves s (s.fail fault) t ∧ Apart s (s.fail fault) := fun fault dead =>
    ⟨.fails fault rfl (.inr (.inr ⟨call,tr,found,dead⟩)),rfl,rfl,rfl,rfl⟩
  unfold getRunningTrans
  split
  next freed => exact wrong _ (by simp [State.stateOf,freed])
  next tx there =>
    have known : s.stateOf tr = some tx.state := by simp [State.stateOf,there]
    split
    next locked => exact retry
    next build => exact retry
    next running =>
      obtain ⟨states,refs,files⟩ := setTx_views (w := {tx with ref := tx.ref + 1}) there rfl
      refine ⟨.goes (.inserting call tr) rfl rfl (fun a => ?_) (fun a => ?_) (fun a => .inl ?_) (by simp),rfl,rfl,rfl,states⟩
      · have counted := refs a
        change (s.setTx tr _).refOf a + _ = _
        simp only [found,Phase.holds] at counted ⊢
        split_ifs at counted ⊢ <;> omega
      · by_cases same : tr = a
        · exact .inr (by rw [← same,known,running])
        · exact .inl (by simp [Phase.holds,same])
      · exact (files a).resolve_right (by simp)
    next pause => exact wrong _ (by simp [known,pause])
    next new => exact wrong _ (by simp [known,new])
    next commit => exact wrong _ (by simp [known,commit])
    next complete => exact wrong _ (by simp [known,complete])

/-- A caller that holds a reference finds the transaction, or it was freed under its hands. -/
theorem fail_moves (holds : (s.phase t).holds tr = 1) (freed : s.heap tr = none) :
    CallerMoves s (s.fail .usedAfterFree) t ∧ Apart s (s.fail .usedAfterFree) :=
  ⟨.fails _ rfl (.inr (.inl ⟨tr,holds,by simp [State.stateOf,freed]⟩)),rfl,rfl,rfl,rfl⟩

theorem insertFile_moves (found : s.phase t = .inserting call tr) :
    CallerMoves s (insertFile s t call tr memory) t ∧ Apart s (insertFile s t call tr memory) := by
  have holds : (s.phase t).holds tr = 1 := by simp [found,Phase.holds]
  unfold insertFile
  split
  next freed => exact fail_moves holds freed
  next tx there =>
    split_ifs
    · exact ⟨.fails _ rfl (.inl rfl),rfl,rfl,rfl,rfl⟩
    · refine ⟨.goes (.ending tr) rfl rfl ?_ ?_ (fun _ => .inl rfl) (by simp),rfl,rfl,rfl,rfl⟩
      · exact fun a => by rw [found]; rfl
      · exact fun a => .inl (by rw [found]; rfl)
    · refine ⟨.goes (.marking call tr) rfl rfl ?_ ?_ (fun _ => .inl rfl) (by simp),rfl,rfl,rfl,rfl⟩
      · exact fun a => by rw [found]; rfl
      · exact fun a => .inl (by rw [found]; rfl)
    · obtain ⟨states,refs,files⟩ := setTx_views (w := {tx with files := tx.files ++ [call.inode]}) there rfl
      refine ⟨.goes (.marking call tr) rfl rfl (fun a => ?_) (fun a => .inl ?_) (fun a => ?_) (by simp),rfl,rfl,rfl,states⟩
      · have counted := Nat.add_right_cancel (refs a)
        change (s.setTx tr _).refOf a + _ = _
        rw [counted,found]
        rfl
      · rw [found]
        rfl
      · rcases files a with same | ⟨rfl,-⟩
        · exact .inl same
        · exact .inr holds

theorem markFile_moves (found : s.phase t = .marking call tr) :
    CallerMoves s (markFile s t call tr) t ∧ Apart s (markFile s t call tr) := by
  have holds : (s.phase t).holds tr = 1 := by simp [found,Phase.holds]
  unfold markFile
  split
  next freed => exact fail_moves holds freed
  · refine ⟨.goes (.ending tr) rfl rfl ?_ ?_ (fun _ => .inl rfl) (by simp),rfl,rfl,rfl,rfl⟩
    · exact fun a => by rw [found]; rfl
    · exact fun a => .inl (by rw [found]; rfl)

theorem endJournal_moves (found : s.phase t = .ending tr) (counted : 0 < s.refOf tr) :
    CallerMoves s (endJournal s t tr) t ∧ Apart s (endJournal s t tr) := by
  unfold endJournal
  split
  next freed => simp [State.refOf,freed] at counted
  next tx there =>
    obtain ⟨states,refs,files⟩ := setTx_views (w := {tx with ref := tx.ref - 1}) there rfl
    refine ⟨.goes .idle rfl rfl (fun a => ?_) (fun a => .inl (Nat.zero_le _)) (fun a => .inl ?_)
      (by simp),rfl,rfl,rfl,states⟩
    · have before := refs a
      have known : s.refOf tr = tx.ref := by simp [State.refOf,there]
      change (s.setTx tr _).refOf a + _ = _
      simp only [found,Phase.holds] at before ⊢
      split_ifs at before ⊢ <;> omega
    · exact (files a).resolve_right (by simp)

theorem holds_counted (inv : ∀ a, s.refOf a = tally (Phase.holds a) s.phase) (holds : (s.phase t).holds a = 1) :
    0 < s.refOf a := by
  have below := le_tally (Phase.holds a) s.phase t
  rw [inv a]
  omega

theorem advance_moves (counted : ∀ a, s.refOf a = tally (Phase.holds a) s.phase)
    (next : advance s t memory = some u) : CallerMoves s u t ∧ Apart s u := by
  unfold advance at next
  split at next
  · cases next
  next call found =>
    obtain rfl := some.inj next
    exact ⟨.of_move (by simp [found,Phase.holds]) (by simp),rfl,rfl,rfl,rfl⟩
  next call tr found => exact some.inj next ▸ getRunningTrans_moves found
  next call tr found => exact some.inj next ▸ insertFile_moves found
  next call tr found => exact some.inj next ▸ markFile_moves found
  next tr found =>
    have holds : (s.phase t).holds tr = 1 := by simp [found,Phase.holds]
    exact some.inj next ▸ endJournal_moves found (holds_counted counted holds)

end Oxbow.Daemon.RunningTrans
