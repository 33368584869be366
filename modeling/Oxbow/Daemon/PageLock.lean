import Mathlib.Algebra.Ring.Nat
import Oxbow.Lib.Ledger
import Oxbow.Lib.Run
import Oxbow.Daemon.Fsync

/-! The lock bits of the pages of one inode. A writer locks a page for the time of its copy; a
gather locks the pages it takes, and they are unlocked one by one as they are copied out. The
pages a journal build gathers also go to a waiting list, from which `stage_file` copies and
unlocks them as long as the journal transaction has not finished. -/
namespace Oxbow.Daemon.PageLock

open Oxbow.Lib Function Option
open Fsync (Fetcher pageSize nrPagesInPeb pebCoverage dirtyGroups)

inductive Owner
  | writer
  | gather (id : Nat)
  deriving DecidableEq, Repr

inductive Holder
  | writer (page last : Nat) (locked : Bool)
  | journal
  | stage (id : Nat)
  deriving DecidableEq, Repr

structure Mark where
  page : Nat
  gather : Nat
  deriving DecidableEq, Repr

def Mark.entry (m : Mark) : Nat × Owner := (m.page,.gather m.gather)

/-- The journal thread at this inode. `run` is not on the lists yet; `left` is what remains of
the first run of `iJournalDirty`. -/
inductive Journal
  | idle
  | gathering (df : Fetcher) (gather next : Nat) (run : List Mark)
  | copying (df : Fetcher) (left : List Mark)

inductive Phase
  | gathering (next : Nat) (run : List Mark)
  | cutting (left : List Fetcher)
  | filling

structure Call where
  gather : Nat
  phase : Phase
  snap : List Mark
  waiting : Fetcher → Option (Nat × List Mark)
  staging : List Mark

structure State where
  nrPages : Nat
  dirtyGroup : Nat → Bool
  dirtyBit : Nat → Bool
  lockBit : Nat → Bool
  /-- Not in the source: who has set the lock bit. -/
  owner : Nat → Option Owner
  shared : Option Holder
  gathers : Nat
  tid : Nat
  journal : Journal
  iJournalDirty : List (List Mark)
  waitingTxid : Fetcher → Option Nat
  waitingList : Fetcher → List Mark
  calls : List Call

def start (nrPages : Nat) : State :=
  ⟨nrPages,fun _ => false,fun _ => false,fun _ => false,fun _ => none,none,0,0,.idle,[],fun _ => none,fun _ => [],[]⟩

inductive Act
  | writeBegin (pos count : Nat)
  | lockPageBit
  | dirtyPageBit
  | unlockPageBit
  | writeEnd
  | journalBegin (df : Fetcher)
  | journalGather
  | journalGathered
  | journalCopy
  | journalGetBlocks (ok : Bool)
  | clearWaiting (df : Fetcher)
  | stageBegin
  | stageGather (id : Nat)
  | stageGathered (id : Nat)
  | stageCut (id : Nat)
  | stageEnd (id : Nat)
  | stageCopy (id : Nat)
  | stageCheck (id : Nat)
  | stageCopyWaiting (id : Nat)

section

variable (s : State)

def State.lock (page : Nat) (owner : Owner) : State :=
  { s with lockBit := update s.lockBit page true, owner := update s.owner page (some owner) }

def State.unlock (page : Nat) : State :=
  { s with lockBit := update s.lockBit page false, owner := update s.owner page none }

def State.setCall (id : Nat) (call : Call) : State := { s with calls := s.calls.set id call }

def writeBegin (pos count : Nat) : Option State :=
  let startPgIdx := pos / pageSize
  -- unsigned: an empty write at offset 0 wraps around
  let endPgIdx := (pos + count + 2 ^ 64 - 1) % 2 ^ 64 / pageSize
  if s.shared = none then
    some { s with
      shared := some (.writer startPgIdx endPgIdx false)
      dirtyGroup := fun g => s.dirtyGroup g || decide (g ∈ dirtyGroups count startPgIdx endPgIdx) }
  else none

def lockPageBit : Option State :=
  match s.shared with
  | some (.writer page last false) =>
    if page ≤ last ∧ s.lockBit page = false then
      some { s.lock page .writer with shared := some (.writer page last true) }
    else none
  | _ => none

def dirtyPageBit : Option State :=
  match s.shared with
  | some (.writer page _ true) => some { s with dirtyBit := update s.dirtyBit page true }
  | _ => none

def unlockPageBit : Option State :=
  match s.shared with
  | some (.writer page last true) => some { s.unlock page with shared := some (.writer (page + 1) last false) }
  | _ => none

def writeEnd : Option State :=
  match s.shared with
  | some (.writer page last false) => if last < page then some { s with shared := none } else none
  | _ => none

end

structure Gathered where
  next : Nat
  run : List Mark
  added : List Mark

def scans (s : State) (page : Nat) : Bool := page % nrPagesInPeb != 0 || s.dirtyGroup (page / nrPagesInPeb)

def gatherDirtyBits (s : State) (gather next : Nat) (run : List Mark) : State × Gathered :=
  if scans s next then
    let t := { s with dirtyGroup := update s.dirtyGroup (next / nrPagesInPeb) false }
    if s.dirtyBit next then
      let t := { t with dirtyBit := update s.dirtyBit next false }
      -- the error return drops the run and the rest of the bitmap
      if s.lockBit next then (t,⟨(next / nrPagesInPeb + 1) * nrPagesInPeb,[],[]⟩)
      else if (next + 1) % nrPagesInPeb = 0 then (t.lock next (.gather gather),⟨next + 1,[],run ++ [⟨next,gather⟩]⟩)
      else (t.lock next (.gather gather),⟨next + 1,run ++ [⟨next,gather⟩],[]⟩)
    else (t,⟨next + 1,[],run⟩)
  else (s,⟨next + nrPagesInPeb,[],run⟩)

def addRun (runs : List (List Mark)) (run : List Mark) : List (List Mark) := if run = [] then runs else runs ++ [run]

def addRangeDirtyJournal (s : State) (df : Fetcher) (run : List Mark) : State :=
  { s with
    iJournalDirty := addRun s.iJournalDirty run
    waitingList := update s.waitingList df (s.waitingList df ++ run) }

def copyFirst (df : Fetcher) : List (List Mark) → Journal
  | [] => .idle
  | run :: _ => .copying df run

def journalBegin (s : State) (df : Fetcher) : Option State :=
  match s.journal with
  | .idle =>
    if s.shared = none ∧ s.waitingList df = [] ∧ s.waitingTxid df = none then
      some { s with shared := some .journal, journal := .gathering df s.gathers 0 [], gathers := s.gathers + 1 }
    else none
  | .gathering .. | .copying .. => none

def journalGather (s : State) : Option State :=
  match s.journal with
  | .gathering df gather next run =>
    if s.shared = some .journal ∧ next < s.nrPages then
      let (t,g) := gatherDirtyBits s gather next run
      some { addRangeDirtyJournal t df g.added with journal := .gathering df gather g.next g.run }
    else none
  | .idle | .copying .. => none

def journalGathered (s : State) : Option State :=
  match s.journal with
  | .gathering df _ next run =>
    if s.shared = some .journal ∧ s.nrPages ≤ next then
      let t := addRangeDirtyJournal s df run
      some { t with
        waitingTxid := if t.waitingList df = [] then t.waitingTxid else update t.waitingTxid df (some t.tid)
        tid := t.tid + 1
        shared := none
        journal := copyFirst df t.iJournalDirty }
    else none
  | .idle | .copying .. => none

def journalCopy (s : State) : Option State :=
  match s.journal with
  | .copying df (m :: left) => some { s.unlock m.page with journal := .copying df left }
  | .copying _ [] | .idle | .gathering .. => none

/-- After a failure the runs stay on the list, the one just copied included. -/
def journalGetBlocks (s : State) (ok : Bool) : Option State :=
  match s.journal with
  | .copying df [] =>
    if ok then some { s with iJournalDirty := s.iJournalDirty.tail, journal := copyFirst df s.iJournalDirty.tail }
    else some { s with journal := .idle }
  | .copying _ (_ :: _) | .idle | .gathering .. => none

def Journal.builds (df : Fetcher) : Journal → Bool
  | .idle => false
  | .gathering df' .. | .copying df' _ => df' = df

def clearWaiting (s : State) (df : Fetcher) : Option State :=
  if s.journal.builds df then none
  else some { s with
    waitingTxid := update s.waitingTxid df none
    waitingList := update s.waitingList df [] }

def stageBegin (s : State) : Option State :=
  if s.shared = none then
    some { s with
      shared := some (.stage s.calls.length)
      calls := s.calls ++ [⟨s.gathers,.gathering 0 [],[],fun _ => none,[]⟩]
      gathers := s.gathers + 1 }
  else none

section

variable (s : State) (id : Nat)

def stageGather : Option State :=
  (s.calls[id]?).bind fun call =>
    match call.phase with
    | .gathering next run =>
      if s.shared = some (.stage id) ∧ next < s.nrPages then
        let (t,g) := gatherDirtyBits s call.gather next run
        some (t.setCall id { call with phase := .gathering g.next g.run, snap := call.snap ++ g.added })
      else none
    | .cutting _ | .filling => none

def stageGathered : Option State :=
  (s.calls[id]?).bind fun call =>
    match call.phase with
    | .gathering next run =>
      if s.shared = some (.stage id) ∧ s.nrPages ≤ next then
        some (s.setCall id { call with phase := .cutting [.df0,.df1], snap := call.snap ++ run })
      else none
    | .cutting _ | .filling => none

def stageCut : Option State :=
  (s.calls[id]?).bind fun call =>
    match call.phase with
    | .cutting (df :: left) =>
      if s.shared = some (.stage id) then
        match s.waitingTxid df with
        | none => some (s.setCall id { call with phase := .cutting left })
        | some txid =>
          if s.waitingList df = [] then some (s.setCall id { call with phase := .cutting left })
          else some { s.setCall id { call with
              phase := .cutting left
              waiting := update call.waiting df (some (txid,s.waitingList df)) } with
            waitingList := update s.waitingList df [] }
      else none
    | .cutting [] | .gathering .. | .filling => none

def stageEnd : Option State :=
  (s.calls[id]?).bind fun call =>
    match call.phase with
    | .cutting [] =>
      if s.shared = some (.stage id) then some { s.setCall id { call with phase := .filling } with shared := none } else none
    | .cutting (_ :: _) | .gathering .. | .filling => none

def stageCopy : Option State :=
  (s.calls[id]?).bind fun call =>
    match call.phase,call.snap with
    | .filling,m :: rest => some ((s.unlock m.page).setCall id { call with snap := rest })
    | _,_ => none

end

def Call.nextWaiting (call : Call) : Option Fetcher :=
  match call.waiting .df0,call.waiting .df1 with
  | none,none => none
  | some _,none => some .df0
  | none,some _ => some .df1
  | some a,some b => if a.1 < b.1 then some .df1 else some .df0

def stageCheck (s : State) (id : Nat) : Option State :=
  (s.calls[id]?).bind fun call =>
    match call.phase,call.snap,call.staging with
    | .filling,[],[] =>
      call.nextWaiting.bind fun df =>
        (call.waiting df).bind fun w =>
          some (s.setCall id { call with
            waiting := update call.waiting df none
            staging := if s.waitingTxid df = some w.1 then w.2 else [] })
    | _,_,_ => none

def stageCopyWaiting (s : State) (id : Nat) : Option State :=
  (s.calls[id]?).bind fun call =>
    match call.staging with
    | [] => none
    | m :: rest => some ((s.unlock m.page).setCall id { call with staging := rest })

def step (s : State) : Act → Option State
  | .writeBegin pos count => writeBegin s pos count
  | .lockPageBit => lockPageBit s
  | .dirtyPageBit => dirtyPageBit s
  | .unlockPageBit => unlockPageBit s
  | .writeEnd => writeEnd s
  | .journalBegin df => journalBegin s df
  | .journalGather => journalGather s
  | .journalGathered => journalGathered s
  | .journalCopy => journalCopy s
  | .journalGetBlocks ok => journalGetBlocks s ok
  | .clearWaiting df => clearWaiting s df
  | .stageBegin => stageBegin s
  | .stageGather id => stageGather s id
  | .stageGathered id => stageGathered s id
  | .stageCut id => stageCut s id
  | .stageEnd id => stageEnd s id
  | .stageCopy id => stageCopy s id
  | .stageCheck id => stageCheck s id
  | .stageCopyWaiting id => stageCopyWaiting s id

section Cases

variable {id : Nat}

theorem lockPageBit_some (moved : lockPageBit s = some t) :
    ∃ page last, s.shared = some (.writer page last false) ∧ page ≤ last ∧ s.lockBit page = false ∧
      t = { s.lock page .writer with shared := some (.writer page last true) } := by
  unfold lockPageBit at moved
  split at moved
  · rename_i page last shared
    simp only [ite_none_right_eq_some,some.injEq] at moved
    exact ⟨page,last,shared,moved.1.1,moved.1.2,moved.2.symm⟩
  · cases moved

theorem dirtyPageBit_some (moved : dirtyPageBit s = some t) :
    ∃ page last, s.shared = some (.writer page last true) ∧
      t = { s with dirtyBit := update s.dirtyBit page true } := by
  unfold dirtyPageBit at moved
  split at moved
  · rename_i page last shared
    exact ⟨page,last,shared,(some.inj moved).symm⟩
  · cases moved

theorem unlockPageBit_some (moved : unlockPageBit s = some t) :
    ∃ page last, s.shared = some (.writer page last true) ∧
      t = { s.unlock page with shared := some (.writer (page + 1) last false) } := by
  unfold unlockPageBit at moved
  split at moved
  · rename_i page last shared
    exact ⟨page,last,shared,(some.inj moved).symm⟩
  · cases moved

theorem writeEnd_some (moved : writeEnd s = some t) :
    ∃ page last, s.shared = some (.writer page last false) ∧ last < page ∧ t = { s with shared := none } := by
  unfold writeEnd at moved
  split at moved
  · rename_i page last shared
    simp only [ite_none_right_eq_some,some.injEq] at moved
    exact ⟨page,last,shared,moved.1,moved.2.symm⟩
  · cases moved

theorem journalBegin_some (moved : journalBegin s df = some t) :
    s.journal = .idle ∧ s.shared = none ∧
      t = { s with shared := some .journal, journal := .gathering df s.gathers 0 [], gathers := s.gathers + 1 } := by
  unfold journalBegin at moved
  split at moved
  · rename_i idle
    simp only [ite_none_right_eq_some,some.injEq] at moved
    exact ⟨idle,moved.1.1,moved.2.symm⟩
  all_goals cases moved

theorem journalGather_some (moved : journalGather s = some t) :
    ∃ df gather next run, s.journal = .gathering df gather next run ∧ s.shared = some .journal ∧
      t = { addRangeDirtyJournal (gatherDirtyBits s gather next run).1 df (gatherDirtyBits s gather next run).2.added with
        journal :=
          .gathering df gather (gatherDirtyBits s gather next run).2.next (gatherDirtyBits s gather next run).2.run } := by
  unfold journalGather at moved
  split at moved
  · rename_i df gather next run gathering
    simp only [ite_none_right_eq_some,some.injEq] at moved
    exact ⟨df,gather,next,run,gathering,moved.1.1,moved.2.symm⟩
  all_goals cases moved

theorem journalGathered_some (moved : journalGathered s = some t) :
    ∃ df gather next run waitingTxid, s.journal = .gathering df gather next run ∧ s.shared = some .journal ∧
      s.nrPages ≤ next ∧
      t = { addRangeDirtyJournal s df run with
        waitingTxid := waitingTxid
        tid := s.tid + 1
        shared := none
        journal := copyFirst df (addRun s.iJournalDirty run) } := by
  unfold journalGathered at moved
  split at moved
  · rename_i df gather next run gathering
    simp only [ite_none_right_eq_some,some.injEq] at moved
    exact ⟨df,gather,next,run,_,gathering,moved.1.1,moved.1.2,moved.2.symm⟩
  all_goals cases moved

theorem journalCopy_some (moved : journalCopy s = some t) :
    ∃ df m left, s.journal = .copying df (m :: left) ∧ t = { s.unlock m.page with journal := .copying df left } := by
  unfold journalCopy at moved
  split at moved
  · rename_i df m left copying
    exact ⟨df,m,left,copying,(some.inj moved).symm⟩
  all_goals cases moved

theorem journalGetBlocks_some (moved : journalGetBlocks s ok = some t) :
    ∃ df, s.journal = .copying df [] ∧
      t = if ok then { s with iJournalDirty := s.iJournalDirty.tail, journal := copyFirst df s.iJournalDirty.tail }
        else { s with journal := .idle } := by
  unfold journalGetBlocks at moved
  split at moved
  · rename_i df copying
    rw [← apply_ite some] at moved
    exact ⟨df,copying,(some.inj moved).symm⟩
  all_goals cases moved

theorem stageGather_some (moved : stageGather s id = some t) :
    ∃ call next run, s.calls[id]? = some call ∧ call.phase = .gathering next run ∧ s.shared = some (.stage id) ∧
      t = (gatherDirtyBits s call.gather next run).1.setCall id { call with
        phase := .gathering (gatherDirtyBits s call.gather next run).2.next (gatherDirtyBits s call.gather next run).2.run
        snap := call.snap ++ (gatherDirtyBits s call.gather next run).2.added } := by
  obtain ⟨call,found,moved⟩ := bind_eq_some_iff.mp moved
  split at moved
  · rename_i next run gathering
    simp only [ite_none_right_eq_some,some.injEq] at moved
    exact ⟨call,next,run,found,gathering,moved.1.1,moved.2.symm⟩
  all_goals cases moved

theorem stageGathered_some (moved : stageGathered s id = some t) :
    ∃ call next run, s.calls[id]? = some call ∧ call.phase = .gathering next run ∧ s.shared = some (.stage id) ∧
      s.nrPages ≤ next ∧ t = s.setCall id { call with phase := .cutting [.df0,.df1], snap := call.snap ++ run } := by
  obtain ⟨call,found,moved⟩ := bind_eq_some_iff.mp moved
  split at moved
  · rename_i next run gathering
    simp only [ite_none_right_eq_some,some.injEq] at moved
    exact ⟨call,next,run,found,gathering,moved.1.1,moved.1.2,moved.2.symm⟩
  all_goals cases moved

theorem stageCut_some (moved : stageCut s id = some t) :
    ∃ call df left waiting waitingList, s.calls[id]? = some call ∧ call.phase = .cutting (df :: left) ∧
      t = { s.setCall id { call with phase := .cutting left, waiting := waiting } with waitingList := waitingList } := by
  obtain ⟨call,found,moved⟩ := bind_eq_some_iff.mp moved
  split at moved
  · rename_i df left cutting
    split at moved
    · split at moved
      · exact ⟨call,df,left,_,_,found,cutting,(some.inj moved).symm⟩
      · split at moved
        all_goals exact ⟨call,df,left,_,_,found,cutting,(some.inj moved).symm⟩
    · cases moved
  all_goals cases moved

theorem stageEnd_some (moved : stageEnd s id = some t) :
    ∃ call, s.calls[id]? = some call ∧ call.phase = .cutting [] ∧ s.shared = some (.stage id) ∧
      t = { s.setCall id { call with phase := .filling } with shared := none } := by
  obtain ⟨call,found,moved⟩ := bind_eq_some_iff.mp moved
  split at moved
  · rename_i cutting
    simp only [ite_none_right_eq_some,some.injEq] at moved
    exact ⟨call,found,cutting,moved.1,moved.2.symm⟩
  all_goals cases moved

theorem stageCopy_some (moved : stageCopy s id = some t) :
    ∃ call m rest, s.calls[id]? = some call ∧ call.snap = m :: rest ∧
      t = (s.unlock m.page).setCall id { call with snap := rest } := by
  obtain ⟨call,found,moved⟩ := bind_eq_some_iff.mp moved
  split at moved
  · rename_i m rest filling snap
    exact ⟨call,m,rest,found,snap,(some.inj moved).symm⟩
  · cases moved

theorem stageCheck_some (moved : stageCheck s id = some t) :
    ∃ call df w, s.calls[id]? = some call ∧ call.staging = [] ∧ call.nextWaiting = some df ∧ call.waiting df = some w ∧
      t = s.setCall id { call with
        waiting := update call.waiting df none
        staging := if s.waitingTxid df = some w.1 then w.2 else [] } := by
  obtain ⟨call,found,moved⟩ := bind_eq_some_iff.mp moved
  split at moved
  · rename_i filling snap staging
    obtain ⟨df,first,moved⟩ := bind_eq_some_iff.mp moved
    obtain ⟨w,cut,moved⟩ := bind_eq_some_iff.mp moved
    exact ⟨call,df,w,found,staging,first,cut,(some.inj moved).symm⟩
  · cases moved

theorem stageCopyWaiting_some (moved : stageCopyWaiting s id = some t) :
    ∃ call m rest, s.calls[id]? = some call ∧ call.staging = m :: rest ∧
      t = (s.unlock m.page).setCall id { call with staging := rest } := by
  obtain ⟨call,found,moved⟩ := bind_eq_some_iff.mp moved
  split at moved
  · cases moved
  · rename_i m rest staging
    exact ⟨call,m,rest,found,staging,(some.inj moved).symm⟩

end Cases

def takes (s : State) (page : Nat) : Bool := scans s page && s.dirtyBit page && !s.lockBit page

def locks (s : State) : Act → Option (Nat × Owner)
  | .lockPageBit =>
    match s.shared with
    | some (.writer page _ false) => some (page,.writer)
    | _ => none
  | .journalGather =>
    match s.journal with
    | .gathering _ gather next _ => if takes s next then some (next,.gather gather) else none
    | .idle | .copying .. => none
  | .stageGather id =>
    (s.calls[id]?).bind fun call =>
      match call.phase with
      | .gathering next _ => if takes s next then some (next,.gather call.gather) else none
      | .cutting _ | .filling => none
  | _ => none

def releases (s : State) : Act → Option (Nat × Owner)
  | .unlockPageBit =>
    match s.shared with
    | some (.writer page _ true) => some (page,.writer)
    | _ => none
  | .journalCopy =>
    match s.journal with
    | .copying _ (m :: _) => some m.entry
    | .copying _ [] | .idle | .gathering .. => none
  | .stageCopy id => (s.calls[id]?).bind fun call => call.snap.head?.map Mark.entry
  | .stageCopyWaiting id => (s.calls[id]?).bind fun call => call.staging.head?.map Mark.entry
  | _ => none

/-- A lock bit is cleared only by the party that set it. -/
def ByOwner (s : State) (act : Act) : Prop := ∀ r ∈ releases s act, s.owner r.1 = some r.2

instance (s : State) (act : Act) : Decidable (ByOwner s act) :=
  inferInstanceAs (Decidable (∀ r ∈ releases s act, s.owner r.1 = some r.2))

def Journal.toCopy (runs : List (List Mark)) : Journal → List Mark
  | .idle => runs.flatten
  | .gathering _ _ _ run => runs.flatten ++ run
  | .copying _ left => left ++ runs.tail.flatten

def Phase.run : Phase → List Mark
  | .gathering _ run => run
  | .cutting _ | .filling => []

def Call.toCopy (call : Call) : List Mark := call.snap ++ call.phase.run ++ call.staging

def State.toCopy (s : State) : List Mark := s.journal.toCopy s.iJournalDirty ++ s.calls.flatMap Call.toCopy

/-- The journal allocates blocks without failure, and the transaction of a waiting list has
finished when `stage_file` comes to it. -/
def InTime (s : State) : Act → Prop
  | .journalGetBlocks ok => ok = true
  | .stageCheck id =>
    ∀ call ∈ s.calls[id]?, ∀ df ∈ call.nextWaiting, ∀ w ∈ call.waiting df, s.waitingTxid df ≠ some w.1
  | _ => True

instance (s : State) : (act : Act) → Decidable (InTime s act)
  | .journalGetBlocks ok => inferInstanceAs (Decidable (ok = true))
  | .stageCheck id => inferInstanceAs (Decidable
      (∀ call ∈ s.calls[id]?, ∀ df ∈ call.nextWaiting, ∀ w ∈ call.waiting df, s.waitingTxid df ≠ some w.1))
  | .writeBegin .. | .lockPageBit | .dirtyPageBit | .unlockPageBit | .writeEnd | .journalBegin _ | .journalGather
  | .journalGathered | .journalCopy | .clearWaiting _ | .stageBegin | .stageGather _ | .stageGathered _ | .stageCut _
  | .stageEnd _ | .stageCopy _ | .stageCopyWaiting _ => .isTrue trivial

end Oxbow.Daemon.PageLock
