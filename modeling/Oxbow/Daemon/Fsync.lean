import Mathlib.Algebra.Ring.Nat
import Oxbow.Lib.Run

/-! `stage_file` on one regular inode, against the journal thread, the writers and the
commit responses of DevFS. A step is what runs under one hold of the inode's shared lock
or of a waiting-list lock; a write of a page that is already dirty joins the write that
made it dirty. Dirty pages are gathered by the group bits that the writes have set. Block
writes complete and messages are delivered once. -/
namespace Oxbow.Daemon.Fsync

open Function

def pageSize : Nat := 4096

def nrPagesInPeb : Nat := 8192

def pebCoverage : Nat := pageSize * nrPagesInPeb

/-- The groups `libfs_write` marks; a write over more than one group can leave its last one out. -/
def dirtyGroups (count startPgIdx endPgIdx : Nat) : List Nat :=
  if pebCoverage < count then
    (List.range ((endPgIdx - startPgIdx + nrPagesInPeb - 1) / nrPagesInPeb)).map fun k => startPgIdx / nrPagesInPeb + k
  else [startPgIdx / nrPagesInPeb,endPgIdx / nrPagesInPeb]

inductive Fetcher
  | df0
  | df1
  deriving DecidableEq, Repr

structure PageWrite where
  page : Nat
  seq : Nat
  deriving DecidableEq, Repr

structure JournalTx where
  tid : Nat
  pages : List PageWrite
  deriving DecidableEq, Repr

inductive Pc
  | idle
  | started
  | cutting (left : List Fetcher)
  | gathered
  | examining (left : List Fetcher)
  | returned (ret : Int)
  deriving DecidableEq, Repr

/-- One call of `stage_file`. `owed` is what was dirty, or gathered and not yet durable,
when it started. -/
structure Call where
  pc : Pc
  owed : List PageWrite
  snap : List PageWrite
  waitingList : Fetcher → List PageWrite
  waitingTxid : Fetcher → Option Nat
  skipped : Fetcher → Bool
  filled : List PageWrite

def Call.fresh : Call := ⟨.idle,[],[],fun _ => [],fun _ => none,fun _ => false,[]⟩

structure State where
  deleted : Bool
  aborted : Bool
  holder : Option Nat
  history : List PageWrite
  dirty : List PageWrite
  groups : List Nat
  waiting : Fetcher → List PageWrite
  waitingTxid : Fetcher → Option Nat
  inflight : Fetcher → Option JournalTx
  staged : List PageWrite
  committed : List PageWrite
  calls : Nat → Call

def init (deleted : Bool) : State :=
  ⟨deleted,false,none,[],[],[],fun _ => [],fun _ => none,fun _ => none,[],[],fun _ => Call.fresh⟩

/-- In a completed stage transaction, or in a journal transaction whose commit response
has been received. -/
def Durable (s : State) (w : PageWrite) : Prop := w ∈ s.staged ∨ w ∈ s.committed

instance (s : State) (w : PageWrite) : Decidable (Durable s w) := inferInstanceAs (Decidable (_ ∨ _))

inductive Act
  | write (pos count : Nat)
  | start (c : Nat)
  | noStageTx (c : Nat)
  | stageInodeFails (c : Nat)
  | gather (c : Nat)
  | cut (c : Nat)
  | fill (c : Nat) (mapped : Nat)
  | examine (c : Nat)
  | finish (c : Nat)
  | build (df : Fetcher) (tid mapped : Nat)
  | commit (df : Fetcher)
  deriving DecidableEq, Repr

section

variable (s : State)

def State.setCall (c : Nat) (call : Call) : State :=
  { s with calls := update s.calls c call }

/-- The pages a `libfs_write` copies to that are not dirty yet. -/
def newlyDirty (startPgIdx endPgIdx : Nat) : List PageWrite :=
  (((List.range (endPgIdx + 1 - startPgIdx)).map (startPgIdx + ·)).filter (· ∉ s.dirty.map PageWrite.page)).mapIdx
    fun i page => ⟨page,s.history.length + i⟩

def write (pos count : Nat) : Option State :=
  let startPgIdx := pos / pageSize
  -- unsigned: an empty write at offset 0 wraps around
  let endPgIdx := (pos + count + 2 ^ 64 - 1) % 2 ^ 64 / pageSize
  if s.holder ≠ none then none
  else
    let new := newlyDirty s startPgIdx endPgIdx
    some { s with
      history := s.history ++ new
      dirty := s.dirty ++ new
      groups := s.groups ++ dirtyGroups count startPgIdx endPgIdx }

def start (c : Nat) : Option State :=
  if (s.calls c).pc = .idle then
    some (s.setCall c { s.calls c with
      pc := if s.deleted then .returned 0 else .started
      owed := s.history.filter fun w => ¬ Durable s w })
  else none

def noStageTx (c : Nat) : Option State :=
  if (s.calls c).pc = .started then some (s.setCall c { s.calls c with pc := .returned (-1) }) else none

/-- `build_stage_tx` then leaves without unlocking. -/
def stageInodeFails (c : Nat) : Option State :=
  if (s.calls c).pc = .started ∧ s.holder = none then
    some { s.setCall c { s.calls c with pc := .returned (-1) } with holder := some c }
  else none

/-- `inode_gather_dirty_pagebits` takes the dirty pages of the groups whose bit is set. -/
def State.gathered : List PageWrite := s.dirty.filter fun w => w.page / nrPagesInPeb ∈ s.groups

def State.left : List PageWrite := s.dirty.filter fun w => w.page / nrPagesInPeb ∉ s.groups

def gather (c : Nat) : Option State :=
  if (s.calls c).pc = .started ∧ s.holder = none then
    some { s.setCall c { s.calls c with pc := .cutting [.df0,.df1], snap := s.gathered } with
      holder := some c, dirty := s.left, groups := [] }
  else none

def nothingWaits (df : Fetcher) : Bool := s.waitingTxid df = none ∨ s.waiting df = []

/-- One round of the loop over the fetchers; the lock is released after the last. -/
def cut (c : Nat) : Option State :=
  match (s.calls c).pc with
  | .cutting (df :: left) =>
    let call := s.calls c
    let nothing := nothingWaits s df
    some { s.setCall c { call with
        pc := if left = [] then .gathered else .cutting left
        waitingTxid := update call.waitingTxid df (if nothing then none else s.waitingTxid df)
        waitingList := update call.waitingList df (if nothing then [] else s.waiting df) } with
      holder := if left = [] then none else s.holder
      waiting := update s.waiting df (if nothing then s.waiting df else []) }
  | _ => none

end

def examineOrder (waitingTxid : Fetcher → Option Nat) : List Fetcher :=
  match waitingTxid .df0, waitingTxid .df1 with
  | none, none => []
  | none, some _ => [.df1]
  | some _, none => [.df0]
  | some a, some b => if a < b then [.df1,.df0] else [.df0,.df1]

section

variable (s : State)

def fill (c mapped : Nat) : Option State :=
  if (s.calls c).pc = .gathered then
    let call := s.calls c
    some (s.setCall c { call with
      pc := .examining (examineOrder call.waitingTxid)
      filled := call.snap.take mapped
      snap := [] })
  else none

/-- A waiting list whose transaction has gone is dropped, any other is staged. -/
def examine (c : Nat) : Option State :=
  match (s.calls c).pc with
  | .examining (df :: left) =>
    let call := { s.calls c with
      pc := .examining left, waitingList := update (s.calls c).waitingList df [] }
    if (s.calls c).waitingTxid df ≠ s.waitingTxid df then
      some (s.setCall c { call with skipped := update call.skipped df true })
    else some (s.setCall c { call with filled := call.filled ++ (s.calls c).waitingList df })
  | _ => none

/-- All blocks up to the commit block have completed. When both waiting lists were
skipped the commit address does not match the reserved one and the daemon stops. -/
def finish (c : Nat) : Option State :=
  if (s.calls c).pc = .examining [] then
    let call := s.calls c
    if call.skipped .df0 ∧ call.skipped .df1 then some { s with aborted := true }
    else some { s.setCall c { call with pc := .returned 0, filled := [] } with
      staged := s.staged ++ call.filled }
  else none

def build (df : Fetcher) (tid mapped : Nat) : Option State :=
  if s.holder = none ∧ s.inflight df = none then
    if s.waiting df ≠ [] ∨ s.waitingTxid df ≠ none then some { s with aborted := true }
    else some { s with
      dirty := s.left
      groups := []
      waiting := update s.waiting df s.gathered
      waitingTxid := update s.waitingTxid df (if s.gathered = [] then none else some tid)
      inflight := update s.inflight df (some ⟨tid,s.gathered.take mapped⟩) }
  else none

/-- The commit response: `clear_waiting_dirty_lists`, then the fetcher is free again. -/
def commit (df : Fetcher) : Option State :=
  match s.inflight df with
  | none => none
  | some tx => some { s with
      committed := s.committed ++ tx.pages
      waiting := update s.waiting df []
      waitingTxid := update s.waitingTxid df none
      inflight := update s.inflight df none }

def step (a : Act) : Option State :=
  if s.aborted then none
  else match a with
    | .write pos count => write s pos count
    | .start c => start s c
    | .noStageTx c => noStageTx s c
    | .stageInodeFails c => stageInodeFails s c
    | .gather c => gather s c
    | .cut c => cut s c
    | .fill c mapped => fill s c mapped
    | .examine c => examine s c
    | .finish c => finish s c
    | .build df tid mapped => build s df tid mapped
    | .commit df => commit s df

end

end Oxbow.Daemon.Fsync
