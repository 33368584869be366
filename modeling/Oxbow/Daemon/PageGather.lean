import Oxbow.Daemon.PageLock

/-! What a gather finds. A page is dirty and locked only while a writer has it, and the group
bits tell the gather which bitmaps to look at. -/
namespace Oxbow.Daemon.PageLock

open Oxbow.Lib Function Option
open Fsync (Fetcher pageSize nrPagesInPeb pebCoverage dirtyGroups)

variable {s t : State} {page gather next id : Nat} {run : List Mark}

/-- No writer holds the shared lock. -/
def State.NoWriter (s : State) : Prop := ∀ page last locked, s.shared ≠ some (.writer page last locked)

def Phase.cursor : Phase → Option Nat
  | .gathering next _ => some next
  | .cutting _ | .filling => none

def State.cursor (s : State) : Option Nat :=
  match s.shared with
  | some .journal =>
    match s.journal with
    | .gathering _ _ next _ => some next
    | .idle | .copying .. => none
  | some (.stage id) => (s.calls[id]?).bind fun call => call.phase.cursor
  | some (.writer ..) | none => none

inductive Effect (s : State) (act : Act) (t : State) : Prop
  | quiet (pages : t.nrPages = s.nrPages) (group : t.dirtyGroup = s.dirtyGroup) (dirty : t.dirtyBit = s.dirtyBit)
      (lock : ∀ page, t.lockBit page = true → s.lockBit page = true) (shared : t.shared = s.shared)
      (cursor : t.cursor = s.cursor)
  | begins (pages : t.nrPages = s.nrPages) (group : t.dirtyGroup = s.dirtyGroup) (dirty : t.dirtyBit = s.dirtyBit)
      (lock : t.lockBit = s.lockBit) (free : s.shared = none) (noWriter : t.NoWriter) (cursor : t.cursor = some 0)
  | gathers (gather next : Nat) (run : List Mark) (pages : t.nrPages = s.nrPages) (noWriter : s.NoWriter)
    (shared : t.shared = s.shared)
      (before : s.cursor = some next)
      (group : t.dirtyGroup = (gatherDirtyBits s gather next run).1.dirtyGroup)
      (dirty : t.dirtyBit = (gatherDirtyBits s gather next run).1.dirtyBit)
      (lock : t.lockBit = (gatherDirtyBits s gather next run).1.lockBit)
      (after : t.cursor = some (gatherDirtyBits s gather next run).2.next)
  | gathered (pages : t.nrPages = s.nrPages) (group : t.dirtyGroup = s.dirtyGroup) (dirty : t.dirtyBit = s.dirtyBit)
      (lock : t.lockBit = s.lockBit) (noWriter : s.NoWriter) (still : t.NoWriter)
        (before : ∀ next, s.cursor = some next → s.nrPages ≤ next)
      (after : t.cursor = none)
  | writeBegins (pos count : Nat) (call : act = .writeBegin pos count) (writes : writeBegin s pos count = some t)
  | locks (writes : lockPageBit s = some t)
  | dirties (writes : dirtyPageBit s = some t)
  | unlocks (writes : unlockPageBit s = some t)
  | writeEnds (writes : writeEnd s = some t)

theorem cursor_setCall (found : s.calls[id]? = some call) (shared : t.shared = s.shared) (journal : t.journal = s.journal)
    (calls : t.calls = s.calls.set id call') (phase : call'.phase.cursor = call.phase.cursor) : t.cursor = s.cursor := by
  have each : ∀ k : Nat, ((s.calls.set id call')[k]?).bind (fun call => call.phase.cursor) =
      (s.calls[k]?).bind fun call => call.phase.cursor := by
    intro k
    obtain ⟨inside,there⟩ := List.getElem?_eq_some_iff.mp found
    rcases eq_or_ne id k with rfl | other
    · simp [inside,there,phase]
    · rw [List.getElem?_set_ne other]
  simp only [State.cursor,shared,journal,calls,each]

theorem gatherDirtyBits_frame (s : State) (gather next : Nat) (run : List Mark) :
    (gatherDirtyBits s gather next run).1.nrPages = s.nrPages ∧ (gatherDirtyBits s gather next run).1.shared = s.shared ∧
    (gatherDirtyBits s gather next run).1.calls = s.calls := by
  unfold gatherDirtyBits
  split
  · dsimp only
    split
    · split
      · exact ⟨rfl,rfl,rfl⟩
      · split <;> exact ⟨rfl,rfl,rfl⟩
    · exact ⟨rfl,rfl,rfl⟩
  · exact ⟨rfl,rfl,rfl⟩

theorem unlock_lockBit (s : State) (page other : Nat) (locked : (s.unlock page).lockBit other = true) :
    s.lockBit other = true := by
  rcases eq_or_ne other page with rfl | different
  · simp [State.unlock] at locked
  · simpa [State.unlock,different] using locked

theorem journalBegin_effect (moved : journalBegin s df = some t) : Effect s act t := by
  obtain ⟨_,free,rfl⟩ := journalBegin_some moved
  exact .begins rfl rfl rfl rfl free (by simp [State.NoWriter]) rfl

theorem journalGather_effect (moved : journalGather s = some t) : Effect s act t := by
  obtain ⟨df,gather,next,run,gathering,shared,rfl⟩ := journalGather_some moved
  obtain ⟨pages,kept,_⟩ := gatherDirtyBits_frame s gather next run
  exact .gathers gather next run pages (by simp [State.NoWriter,shared]) kept (by simp [State.cursor,shared,gathering])
    rfl rfl rfl (by simp [State.cursor,addRangeDirtyJournal,kept,shared])

theorem journalGathered_effect (moved : journalGathered s = some t) : Effect s act t := by
  obtain ⟨df,gather,next,run,waitingTxid,gathering,shared,finished,rfl⟩ := journalGathered_some moved
  exact .gathered rfl rfl rfl rfl (by simp [State.NoWriter,shared]) (by simp [State.NoWriter])
    (by simpa [State.cursor,shared,gathering] using finished) rfl

theorem journalCopy_effect (moved : journalCopy s = some t) : Effect s act t := by
  obtain ⟨df,m,left,copying,rfl⟩ := journalCopy_some moved
  exact .quiet rfl rfl rfl (unlock_lockBit s m.page) rfl (by simp [State.cursor,State.unlock,copying])

theorem copyFirst_not_gathering (runs : List (List Mark)) :
    (match copyFirst df runs with
      | .gathering _ _ next _ => some next
      | .idle | .copying .. => none) = (none : Option Nat) := by
  cases runs <;> rfl

theorem journalGetBlocks_effect (moved : journalGetBlocks s ok = some t) : Effect s act t := by
  obtain ⟨df,copying,rfl⟩ := journalGetBlocks_some moved
  cases ok with
  | true =>
    exact .quiet rfl rfl rfl (fun _ locked => locked) rfl (by simp [State.cursor,copying,copyFirst_not_gathering])
  | false => exact .quiet rfl rfl rfl (fun _ locked => locked) rfl (by simp [State.cursor,copying])

theorem clearWaiting_effect (moved : clearWaiting s df = some t) : Effect s act t := by
  simp only [clearWaiting,ite_none_left_eq_some,some.injEq] at moved
  obtain ⟨-,rfl⟩ := moved
  exact .quiet rfl rfl rfl (fun _ locked => locked) rfl rfl

theorem stageBegin_effect (moved : stageBegin s = some t) : Effect s act t := by
  simp only [stageBegin,ite_none_right_eq_some,some.injEq] at moved
  obtain ⟨free,rfl⟩ := moved
  exact .begins rfl rfl rfl rfl free (by simp [State.NoWriter]) (by simp [State.cursor,Phase.cursor])

theorem stageGather_effect (moved : stageGather s id = some t) : Effect s act t := by
  obtain ⟨call,next,run,found,gathering,shared,rfl⟩ := stageGather_some moved
  obtain ⟨pages,kept,calls⟩ := gatherDirtyBits_frame s call.gather next run
  obtain ⟨inside,_⟩ := List.getElem?_eq_some_iff.mp found
  exact .gathers call.gather next run pages (by simp [State.NoWriter,shared]) kept
    (by simp [State.cursor,shared,found,gathering,Phase.cursor]) rfl rfl rfl
    (by simp [State.cursor,State.setCall,kept,shared,calls,inside,Phase.cursor])

theorem stageGathered_effect (moved : stageGathered s id = some t) : Effect s act t := by
  obtain ⟨call,next,run,found,gathering,shared,finished,rfl⟩ := stageGathered_some moved
  obtain ⟨inside,_⟩ := List.getElem?_eq_some_iff.mp found
  exact .gathered rfl rfl rfl rfl (by simp [State.NoWriter,shared]) (by simp [State.NoWriter,State.setCall,shared])
    (by simpa [State.cursor,shared,found,gathering,Phase.cursor] using finished)
    (by simp [State.cursor,State.setCall,shared,inside,Phase.cursor])

theorem stageCut_effect (moved : stageCut s id = some t) : Effect s act t := by
  obtain ⟨call,df,left,waiting,waitingList,found,cutting,rfl⟩ := stageCut_some moved
  have same : (Phase.cutting left).cursor = call.phase.cursor := by rw [cutting]; rfl
  exact .quiet rfl rfl rfl (fun _ locked => locked) rfl (cursor_setCall found rfl rfl rfl same)

theorem stageEnd_effect (moved : stageEnd s id = some t) : Effect s act t := by
  obtain ⟨call,found,cutting,shared,rfl⟩ := stageEnd_some moved
  exact .gathered rfl rfl rfl rfl (by simp [State.NoWriter,shared]) (by simp [State.NoWriter])
    (by simp [State.cursor,shared,found,cutting,Phase.cursor]) rfl

theorem stageCopy_effect (moved : stageCopy s id = some t) : Effect s act t := by
  obtain ⟨call,m,rest,found,snap,rfl⟩ := stageCopy_some moved
  exact .quiet rfl rfl rfl (unlock_lockBit s m.page) rfl (cursor_setCall found rfl rfl rfl rfl)

theorem stageCheck_effect (moved : stageCheck s id = some t) : Effect s act t := by
  obtain ⟨call,df,w,found,_,_,_,rfl⟩ := stageCheck_some moved
  exact .quiet rfl rfl rfl (fun _ locked => locked) rfl (cursor_setCall found rfl rfl rfl rfl)

theorem stageCopyWaiting_effect (moved : stageCopyWaiting s id = some t) : Effect s act t := by
  obtain ⟨call,m,rest,found,staging,rfl⟩ := stageCopyWaiting_some moved
  exact .quiet rfl rfl rfl (unlock_lockBit s m.page) rfl (cursor_setCall found rfl rfl rfl rfl)

theorem step_effect (moved : step s act = some t) : Effect s act t := by
  cases act with
  | writeBegin pos count => exact .writeBegins pos count rfl moved
  | lockPageBit => exact .locks moved
  | dirtyPageBit => exact .dirties moved
  | unlockPageBit => exact .unlocks moved
  | writeEnd => exact .writeEnds moved
  | journalBegin df => exact journalBegin_effect moved
  | journalGather => exact journalGather_effect moved
  | journalGathered => exact journalGathered_effect moved
  | journalCopy => exact journalCopy_effect moved
  | journalGetBlocks ok => exact journalGetBlocks_effect moved
  | clearWaiting df => exact clearWaiting_effect moved
  | stageBegin => exact stageBegin_effect moved
  | stageGather id => exact stageGather_effect moved
  | stageGathered id => exact stageGathered_effect moved
  | stageCut id => exact stageCut_effect moved
  | stageEnd id => exact stageEnd_effect moved
  | stageCopy id => exact stageCopy_effect moved
  | stageCheck id => exact stageCheck_effect moved
  | stageCopyWaiting id => exact stageCopyWaiting_effect moved

/-- A page is dirty and locked only while a writer has it. -/
def WriterOnly (s : State) : Prop :=
  ∀ page, s.dirtyBit page = true → s.lockBit page = true → ∃ last, s.shared = some (.writer page last true)

theorem WriterOnly.unlocked (only : WriterOnly s) (noWriter : s.NoWriter) (dirty : s.dirtyBit page = true) :
    s.lockBit page = false := by
  refine Bool.eq_false_iff.mpr fun locked => ?_
  obtain ⟨last,shared⟩ := only page dirty locked
  exact noWriter page last true shared

theorem gatherDirtyBits_locks (s : State) (gather next : Nat) (run : List Mark) (page : Nat)
    (dirty : (gatherDirtyBits s gather next run).1.dirtyBit page = true)
    (locked : (gatherDirtyBits s gather next run).1.lockBit page = true) :
    s.dirtyBit page = true ∧ s.lockBit page = true := by
  unfold gatherDirtyBits at dirty locked
  by_cases looks : scans s next
  · by_cases marked : s.dirtyBit next = true
    · rcases eq_or_ne page next with rfl | other
      · by_cases held : s.lockBit page = true
        · simp [looks,marked,held] at dirty
        · by_cases last : (page + 1) % nrPagesInPeb = 0 <;> simp [looks,marked,held,last,State.lock] at dirty
      · by_cases held : s.lockBit next = true
        · exact ⟨by simpa [looks,marked,held,other] using dirty,by simpa [looks,marked,held] using locked⟩
        · by_cases last : (next + 1) % nrPagesInPeb = 0
          · exact ⟨by simpa [looks,marked,held,last,other,State.lock] using dirty,
              by simpa [looks,marked,held,last,other,State.lock] using locked⟩
          · exact ⟨by simpa [looks,marked,held,last,other,State.lock] using dirty,
              by simpa [looks,marked,held,last,other,State.lock] using locked⟩
    · exact ⟨by simpa [looks,marked] using dirty,by simpa [looks,marked] using locked⟩
  · exact ⟨by simpa [looks] using dirty,by simpa [looks] using locked⟩

theorem WriterOnly.step (only : WriterOnly s) (effect : Effect s act t) : WriterOnly t := by
  intro page dirty locked
  cases effect with
  | quiet pages group bits lock shared cursor =>
    rw [bits] at dirty
    rw [shared]
    exact only page dirty (lock page locked)
  | begins pages group bits lock free noWriter cursor =>
    rw [bits] at dirty
    rw [lock] at locked
    obtain ⟨last,shared⟩ := only page dirty locked
    simp [free] at shared
  | gathers gather next run pages noWriter shared before group bits lock after =>
    rw [bits] at dirty
    rw [lock] at locked
    obtain ⟨marked,held⟩ := gatherDirtyBits_locks s gather next run page dirty locked
    simp [only.unlocked noWriter marked] at held
  | gathered pages group bits lock noWriter still before after =>
    rw [bits] at dirty
    rw [lock] at locked
    simp [only.unlocked noWriter dirty] at locked
  | writeBegins pos count _ writes =>
    simp only [writeBegin,ite_none_right_eq_some,some.injEq] at writes
    obtain ⟨free,rfl⟩ := writes
    obtain ⟨last,shared⟩ := only page dirty locked
    simp [free] at shared
  | locks writes =>
    obtain ⟨mine,last,holds,_,_,rfl⟩ := lockPageBit_some writes
    rcases eq_or_ne page mine with rfl | other
    · exact ⟨last,rfl⟩
    · obtain ⟨last,shared⟩ := only page dirty (by simpa [State.lock,other] using locked)
      simp [holds] at shared
  | dirties writes =>
    obtain ⟨mine,last,holds,rfl⟩ := dirtyPageBit_some writes
    rcases eq_or_ne page mine with rfl | other
    · exact ⟨last,holds⟩
    · exact only page (by simpa [other] using dirty) locked
  | unlocks writes =>
    obtain ⟨mine,last,holds,rfl⟩ := unlockPageBit_some writes
    have held := unlock_lockBit s mine page locked
    obtain ⟨last,shared⟩ := only page dirty held
    rw [holds] at shared
    cases shared
    simp [State.unlock] at locked
  | writeEnds writes =>
    obtain ⟨mine,last,holds,_,rfl⟩ := writeEnd_some writes
    obtain ⟨last,shared⟩ := only page dirty locked
    simp [holds] at shared

theorem run_writerOnly (ran : Lib.run step (start nrPages) acts = some s) : WriterOnly s :=
  run_invariant_always step WriterOnly (fun _ _ _ only moved => only.step (step_effect moved)) _ acts s
    (fun _ dirty => by cases dirty) ran

/-- The gather comes to a dirty page that is locked. -/
def notLockedHere (s : State) : Act → Prop
  | .journalGather =>
    match s.journal with
    | .gathering _ _ next _ => s.shared = some .journal ∧ scans s next = true ∧
      s.dirtyBit next = true ∧ s.lockBit next = true
    | .idle | .copying .. => False
  | .stageGather id =>
    ∃ call ∈ s.calls[id]?,
      match call.phase with
      | .gathering next _ =>
        s.shared = some (.stage id) ∧ scans s next = true ∧ s.dirtyBit next = true ∧ s.lockBit next = true
      | .cutting _ | .filling => False
  | _ => False

theorem WriterOnly.gathers (only : WriterOnly s) (act : Act) : ¬ notLockedHere s act := by
  intro error
  cases act with
  | journalGather =>
    simp only [notLockedHere] at error
    split at error
    · obtain ⟨shared,_,dirty,locked⟩ := error
      have free := only.unlocked (by simp [State.NoWriter,shared]) dirty
      simp [free] at locked
    all_goals exact error
  | stageGather id =>
    obtain ⟨call,found,error⟩ := error
    split at error
    · obtain ⟨shared,_,dirty,locked⟩ := error
      have free := only.unlocked (by simp [State.NoWriter,shared]) dirty
      simp [free] at locked
    all_goals exact error
  | _ => exact error

/-- In every run, a dirty page is unlocked whenever no writer has the shared lock, and no
gather finds a page it would have to drop. -/
theorem gather_finds_unlocked (nrPages : Nat) (acts : List Act) (s : State)
    (ran : Lib.run step (start nrPages) acts = some s) :
    (s.NoWriter → ∀ page, s.dirtyBit page = true → s.lockBit page = false) ∧ ∀ act, ¬ notLockedHere s act := by
  have only := run_writerOnly ran
  exact ⟨fun noWriter page dirty => only.unlocked noWriter dirty,only.gathers⟩

theorem gather_finds_unlocked_dirtied :
    ∃ s, Lib.run step (start 1) [.writeBegin 0 4096,.lockPageBit,.dirtyPageBit,.unlockPageBit,.writeEnd,.journalBegin .df0] =
        some s ∧ s.dirtyBit 0 = true ∧ s.lockBit 0 = false ∧ ¬ notLockedHere s .journalGather := by
  have ends : (Lib.run step (start 1) [.writeBegin 0 4096,.lockPageBit,.dirtyPageBit,.unlockPageBit,.writeEnd,
      .journalBegin .df0]).map (fun s => (s.dirtyBit 0,s.shared)) = some (true,some .journal) := by
    decide +kernel
  obtain ⟨s,ran,same⟩ := map_eq_some_iff.mp ends
  obtain ⟨dirty,shared⟩ := Prod.mk.inj same
  obtain ⟨unlocked,noError⟩ := gather_finds_unlocked 1 _ s ran
  exact ⟨s,ran,dirty,unlocked (by simp [State.NoWriter,shared]) 0 dirty,noError .journalGather⟩

/-- A write of at least one byte inside the file size that the bitmaps cover. -/
def Within (s : State) : Act → Prop
  | .writeBegin pos count => 1 ≤ count ∧ pos + count ≤ s.nrPages * pageSize ∧ pos + count < 2 ^ 64
  | _ => True

/-- The group of the last page gets its bit: the write is no longer than a group, its last page
lies further inside its group than its first page, or the bit is set already. -/
def Covered (s : State) : Act → Prop
  | .writeBegin pos count =>
    count ≤ pebCoverage ∨ pos / pageSize % nrPagesInPeb < (pos + count - 1) / pageSize % nrPagesInPeb ∨
      s.dirtyGroup ((pos + count - 1) / pageSize / nrPagesInPeb) = true
  | _ => True

instance (s : State) : (act : Act) → Decidable (Within s act)
  | .writeBegin pos count =>
    inferInstanceAs (Decidable (1 ≤ count ∧ pos + count ≤ s.nrPages * pageSize ∧ pos + count < 2 ^ 64))
  | .lockPageBit | .dirtyPageBit | .unlockPageBit | .writeEnd | .journalBegin _ | .journalGather | .journalGathered
  | .journalCopy | .journalGetBlocks _ | .clearWaiting _ | .stageBegin | .stageGather _ | .stageGathered _ | .stageCut _
  | .stageEnd _ | .stageCopy _ | .stageCheck _ | .stageCopyWaiting _ => .isTrue trivial

instance (s : State) : (act : Act) → Decidable (Covered s act)
  | .writeBegin pos count => inferInstanceAs (Decidable (count ≤ pebCoverage ∨
      pos / pageSize % nrPagesInPeb < (pos + count - 1) / pageSize % nrPagesInPeb ∨
      s.dirtyGroup ((pos + count - 1) / pageSize / nrPagesInPeb) = true))
  | .lockPageBit | .dirtyPageBit | .unlockPageBit | .writeEnd | .journalBegin _ | .journalGather | .journalGathered
  | .journalCopy | .journalGetBlocks _ | .clearWaiting _ | .stageBegin | .stageGather _ | .stageGathered _ | .stageCut _
  | .stageEnd _ | .stageCopy _ | .stageCheck _ | .stageCopyWaiting _ => .isTrue trivial

/-- Every group a write touches is marked, but for the last one. -/
theorem dirtyGroups_cover (some : 1 ≤ count) (first : pos / pageSize ≤ page) (last : page ≤ (pos + count - 1) / pageSize) :
    page / nrPagesInPeb ∈ dirtyGroups count (pos / pageSize) ((pos + count - 1) / pageSize) ∨
    page / nrPagesInPeb = (pos + count - 1) / pageSize / nrPagesInPeb ∧ pebCoverage < count ∧
      (pos + count - 1) / pageSize % nrPagesInPeb ≤ pos / pageSize % nrPagesInPeb := by
  unfold dirtyGroups
  split
  · rename_i long
    simp only [List.mem_map,List.mem_range]
    by_cases inside : page / nrPagesInPeb - pos / pageSize / nrPagesInPeb <
        ((pos + count - 1) / pageSize - pos / pageSize + nrPagesInPeb - 1) / nrPagesInPeb
    · refine .inl ⟨page / nrPagesInPeb - pos / pageSize / nrPagesInPeb,inside,?_⟩
      have := Nat.div_le_div_right first (c := nrPagesInPeb)
      omega
    · refine .inr ⟨?_,long,?_⟩ <;> simp only [nrPagesInPeb,pageSize] at * <;> omega
  · rename_i short
    simp only [pebCoverage] at short
    refine .inl ?_
    simp only [List.mem_cons,List.not_mem_nil,or_false]
    simp only [nrPagesInPeb,pageSize] at *
    omega

def State.Scanning (s : State) (page : Nat) : Prop :=
  ∃ next ∈ s.cursor, next % nrPagesInPeb ≠ 0 ∧ next ≤ page ∧ page / nrPagesInPeb = next / nrPagesInPeb

structure Tracked (s : State) : Prop where
  listed : ∀ page, s.dirtyBit page = true → s.dirtyGroup (page / nrPagesInPeb) = true ∨ s.Scanning page
  entered : ∀ next ∈ s.cursor, next % nrPagesInPeb ≠ 0 → s.dirtyGroup (next / nrPagesInPeb) = false
  inside : ∀ page, s.dirtyBit page = true → page < s.nrPages
  ahead : ∀ page last locked, s.shared = some (.writer page last locked) → (locked = true → page ≤ last) ∧
    last < s.nrPages ∧ ∀ other, page ≤ other → other ≤ last → s.dirtyGroup (other / nrPagesInPeb) = true

theorem Tracked.noCursor (tracked : Tracked s) (none : s.cursor = .none) (dirty : s.dirtyBit page = true) :
    s.dirtyGroup (page / nrPagesInPeb) = true := by
  refine (tracked.listed page dirty).resolve_right ?_
  rintro ⟨next,cursor,_⟩
  simp [none] at cursor

/-- A gather that takes no error exit passes over the bitmap or clears the page. -/
theorem gatherDirtyBits_scan (unlocked : s.dirtyBit next = true → s.lockBit next = false) (gather : Nat) (run : List Mark) :
    (scans s next = false ∧ (gatherDirtyBits s gather next run).1.dirtyGroup = s.dirtyGroup ∧
      (gatherDirtyBits s gather next run).1.dirtyBit = s.dirtyBit ∧
      (gatherDirtyBits s gather next run).2.next = next + nrPagesInPeb) ∨
    (gatherDirtyBits s gather next run).1.dirtyGroup = update s.dirtyGroup (next / nrPagesInPeb) false ∧
      (gatherDirtyBits s gather next run).1.dirtyBit = update s.dirtyBit next false ∧
      (gatherDirtyBits s gather next run).2.next = next + 1 := by
  unfold gatherDirtyBits
  by_cases looks : scans s next
  · refine .inr ?_
    by_cases dirty : s.dirtyBit next = true
    · have free := unlocked dirty
      by_cases last : (next + 1) % nrPagesInPeb = 0 <;> simp [looks,dirty,free,last,State.lock]
    · have same : update s.dirtyBit next false = s.dirtyBit := by
        rw [← Bool.eq_false_iff.mpr dirty]
        exact update_eq_self next s.dirtyBit
      simp [looks,dirty,same]
  · exact .inl (by simp [looks])

theorem Tracked.gathers (tracked : Tracked s) (only : WriterOnly s) (noWriter : s.NoWriter) (pages : t.nrPages = s.nrPages)
    (shared : t.shared = s.shared) (before : s.cursor = some next)
    (group : t.dirtyGroup = (gatherDirtyBits s gather next run).1.dirtyGroup)
    (dirty : t.dirtyBit = (gatherDirtyBits s gather next run).1.dirtyBit)
    (after : t.cursor = some (gatherDirtyBits s gather next run).2.next) : Tracked t := by
  have noWriter' : t.NoWriter := by
    intro page last locked
    rw [shared]
    exact noWriter page last locked
  rcases gatherDirtyBits_scan (only.unlocked noWriter) gather run with
      ⟨skips,group',dirty',next'⟩ | ⟨group',dirty',next'⟩
  · -- the gather stands at the start of a bitmap, so no page is left to its own scan
    rw [group'] at group
    rw [dirty'] at dirty
    rw [next'] at after
    have aligned : next % nrPagesInPeb = 0 := by
      simp only [scans,Bool.or_eq_false_iff,bne_eq_false_iff_eq] at skips
      exact skips.1
    refine ⟨?_,?_,?_,fun page last locked holds => absurd holds (noWriter' page last locked)⟩
    · intro page marked
      rw [dirty] at marked
      rw [group]
      refine .inl ((tracked.listed page marked).resolve_right ?_)
      rintro ⟨next,cursor,inner,_⟩
      obtain rfl := some.inj (before.symm.trans cursor)
      exact inner aligned
    · intro later cursor inner
      obtain rfl := some.inj (after.symm.trans cursor)
      simp [aligned] at inner
    · intro page marked
      rw [pages]
      exact tracked.inside page (dirty ▸ marked)
  · rw [group'] at group
    rw [dirty'] at dirty
    rw [next'] at after
    refine ⟨?_,?_,?_,fun page last locked holds => absurd holds (noWriter' page last locked)⟩
    · intro page marked
      rw [dirty] at marked
      rcases eq_or_ne page next with rfl | other
      · simp at marked
      · rw [update_of_ne other] at marked
        rcases eq_or_ne (page / nrPagesInPeb) (next / nrPagesInPeb) with same | apart
        · -- in this bitmap only pages behind the cursor are dirty
          refine .inr ⟨next + 1,after,?_⟩
          have beyond : next ≤ page := by
            by_cases inner : next % nrPagesInPeb = 0
            · simp only [nrPagesInPeb] at *
              omega
            · rcases tracked.listed page marked with listed | ⟨next',cursor,_,lower,_⟩
              · rw [same,tracked.entered next before inner] at listed
                cases listed
              · obtain rfl := some.inj (before.symm.trans cursor)
                exact lower
          simp only [nrPagesInPeb] at *
          omega
        · refine .inl ?_
          rw [group,update_of_ne apart]
          refine (tracked.listed page marked).resolve_right ?_
          rintro ⟨next',cursor,_,_,here⟩
          obtain rfl := some.inj (before.symm.trans cursor)
          exact apart here
    · intro later cursor inner
      obtain rfl := some.inj (after.symm.trans cursor)
      have same : (next + 1) / nrPagesInPeb = next / nrPagesInPeb := by
        simp only [nrPagesInPeb] at *
        omega
      rw [group,same,update_self]
    · intro page marked
      rw [pages]
      rw [dirty] at marked
      rcases eq_or_ne page next with rfl | other
      · simp at marked
      · exact tracked.inside page (by simpa [other] using marked)

theorem Tracked.writeBegins (tracked : Tracked s) (within : Within s (.writeBegin pos count))
    (covered : Covered s (.writeBegin pos count)) (writes : writeBegin s pos count = some t) : Tracked t := by
  simp only [writeBegin,ite_none_right_eq_some,some.injEq] at writes
  obtain ⟨free,rfl⟩ := writes
  obtain ⟨atLeast,fits,small⟩ := within
  have idle : s.cursor = none := by simp [State.cursor,free]
  have last : (pos + count + 2 ^ 64 - 1) % 2 ^ 64 = pos + count - 1 := by omega
  have below : (pos + count - 1) / pageSize < s.nrPages := by
    simp only [pageSize] at *
    omega
  simp only [last]
  refine ⟨?_,by simp [State.cursor],tracked.inside,?_⟩
  · intro page marked
    exact .inl (by simp [tracked.noCursor idle marked])
  · intro page stop locked holds
    simp only [some.injEq,Holder.writer.injEq] at holds
    obtain ⟨rfl,rfl,rfl⟩ := holds
    refine ⟨by simp,below,?_⟩
    intro other lower upper
    simp only [Bool.or_eq_true,decide_eq_true_eq]
    rcases dirtyGroups_cover atLeast lower upper with marked | ⟨same,long,turned⟩
    · exact .inr marked
    · rcases covered with short | ahead | already
      · exact absurd short (Nat.not_le.mpr long)
      · exact absurd ahead (Nat.not_lt.mpr turned)
      · exact .inl (same ▸ already)

theorem Tracked.step (tracked : Tracked s) (only : WriterOnly s) (within : Within s act) (covered : Covered s act)
    (moved : step s act = some t) : Tracked t := by
  have effect := step_effect moved
  cases effect with
  | quiet pages group bits lock shared cursor =>
    obtain ⟨listed,entered,inside,ahead⟩ := tracked
    refine ⟨?_,by rwa [cursor,group],by rwa [bits,pages],by rwa [shared,pages,group]⟩
    simpa only [State.Scanning,bits,group,cursor] using listed
  | begins pages group bits lock free noWriter cursor =>
    have idle : s.cursor = none := by simp [State.cursor,free]
    refine ⟨?_,?_,by rw [bits,pages]; exact tracked.inside,fun page last locked holds =>
      absurd holds (noWriter page last locked)⟩
    · intro page marked
      rw [bits] at marked
      exact .inl (group ▸ tracked.noCursor idle marked)
    · intro next here inner
      obtain rfl := some.inj (cursor.symm.trans here)
      simp at inner
  | gathers gather next run pages noWriter shared before group bits lock after =>
    exact tracked.gathers only noWriter pages shared before group bits after
  | gathered pages group bits lock noWriter still before after =>
    refine ⟨?_,by simp [after],by rw [bits,pages]; exact tracked.inside,
      fun page last locked holds => absurd holds (still page last locked)⟩
    intro page marked
    rw [bits] at marked
    rw [group]
    refine .inl ((tracked.listed page marked).resolve_right ?_)
    rintro ⟨next,cursor,_,lower,_⟩
    exact absurd (tracked.inside page marked) (Nat.not_lt.mpr (Nat.le_trans (before next cursor) lower))
  | writeBegins pos count call writes =>
    subst call
    exact tracked.writeBegins within covered writes
  | locks writes =>
    obtain ⟨page,last,holds,within,_,rfl⟩ := lockPageBit_some writes
    have idle : s.cursor = none := by simp [State.cursor,holds]
    obtain ⟨_,below,marked⟩ := tracked.ahead page last false holds
    refine ⟨fun other dirty => .inl (tracked.noCursor idle dirty),by simp [State.cursor],tracked.inside,?_⟩
    intro page' last' locked same
    simp only [some.injEq,Holder.writer.injEq] at same
    obtain ⟨rfl,rfl,rfl⟩ := same
    exact ⟨fun _ => within,below,marked⟩
  | dirties writes =>
    obtain ⟨page,last,holds,rfl⟩ := dirtyPageBit_some writes
    have idle : s.cursor = none := by simp [State.cursor,holds]
    obtain ⟨within,below,marked⟩ := tracked.ahead page last true holds
    refine ⟨?_,by simp [State.cursor,holds],?_,tracked.ahead⟩
    · intro other dirty
      rcases eq_or_ne other page with rfl | different
      · exact .inl (marked other (Nat.le_refl _) (within rfl))
      · exact .inl (tracked.noCursor idle (by simpa [different] using dirty))
    · intro other dirty
      rcases eq_or_ne other page with rfl | different
      · exact Nat.lt_of_le_of_lt (within rfl) below
      · exact tracked.inside other (by simpa [different] using dirty)
  | unlocks writes =>
    obtain ⟨page,last,holds,rfl⟩ := unlockPageBit_some writes
    have idle : s.cursor = none := by simp [State.cursor,holds]
    obtain ⟨_,below,marked⟩ := tracked.ahead page last true holds
    refine ⟨fun other dirty => .inl (tracked.noCursor idle dirty),by simp [State.cursor],tracked.inside,?_⟩
    intro page' last' locked same
    simp only [some.injEq,Holder.writer.injEq] at same
    obtain ⟨rfl,rfl,rfl⟩ := same
    exact ⟨by simp,below,fun other lower upper => marked other (Nat.le_of_succ_le lower) upper⟩
  | writeEnds writes =>
    obtain ⟨page,last,holds,_,rfl⟩ := writeEnd_some writes
    have idle : s.cursor = none := by simp [State.cursor,holds]
    exact ⟨fun other dirty => .inl (tracked.noCursor idle dirty),by simp [State.cursor],tracked.inside,by simp⟩

/-- In every run whose writes mark the group of their last page, each dirty page is in a marked
group whenever no call is in its critical section, so the next gather looks at its bitmap. -/
theorem dirtyGroup_tracks (nrPages : Nat) (acts : List Act) (within : Along step Within (start nrPages) acts)
    (covered : Along step Covered (start nrPages) acts) (s : State) (ran : Lib.run step (start nrPages) acts = some s)
    (between : s.shared = none) (page : Nat) (dirty : s.dirtyBit page = true) :
    s.dirtyGroup (page / nrPagesInPeb) = true := by
  have started : Tracked (start nrPages) ∧ WriterOnly (start nrPages) := by
    refine ⟨⟨?_,?_,?_,?_⟩,?_⟩
    all_goals simp [start,State.cursor,WriterOnly]
  have kept := run_invariant step (fun s => Tracked s ∧ WriterOnly s) (fun s act => Within s act ∧ Covered s act)
    (fun s act t both meets moved =>
      ⟨both.1.step both.2 meets.1 meets.2 moved,both.2.step (step_effect moved)⟩)
    (start nrPages) acts s started (Along.and step within covered) ran
  exact kept.1.noCursor (by simp [State.cursor,between]) dirty

theorem dirtyGroup_tracks_short :
    ∃ s, Lib.run step (start 2) [.writeBegin 5000 10,.lockPageBit,.dirtyPageBit,.unlockPageBit,.writeEnd] = some s ∧
      s.dirtyBit 1 = true ∧ s.dirtyGroup 0 = true := by
  have ends : (Lib.run step (start 2) [.writeBegin 5000 10,.lockPageBit,.dirtyPageBit,.unlockPageBit,.writeEnd]).map
      (fun s => (s.dirtyBit 1,s.shared)) = some (true,none) := by
    decide +kernel
  obtain ⟨s,ran,same⟩ := map_eq_some_iff.mp ends
  obtain ⟨dirty,shared⟩ := Prod.mk.inj same
  exact ⟨s,ran,dirty,dirtyGroup_tracks 2 _ (by decide +kernel) (by decide +kernel) s ran shared 1 dirty⟩

def writePages : Nat → List Act
  | 0 => [.writeEnd]
  | n + 1 => .lockPageBit :: .dirtyPageBit :: .unlockPageBit :: writePages n

theorem run_writePages (n : Nat) (s : State) (page last : Nat) (holds : s.shared = some (.writer page last false))
    (left : page + n = last + 1) (free : ∀ other, s.lockBit other = false) :
    ∃ t, Lib.run step s (writePages n) = some t ∧ t.shared = none ∧ t.dirtyGroup = s.dirtyGroup ∧
      ∀ other, t.dirtyBit other = true ↔ s.dirtyBit other = true ∨ page ≤ other ∧ other ≤ last := by
  induction n generalizing s page with
  | zero =>
    refine ⟨{ s with shared := none },?_,rfl,rfl,fun other => ?_⟩
    · simp [writePages,Lib.run,step,writeEnd,holds,show last < page by omega]
    · have none : ¬ (page ≤ other ∧ other ≤ last) := by omega
      simp [none]
  | succ n ih =>
    let t : State := { ({ s.lock page .writer with
      dirtyBit := update s.dirtyBit page true } : State).unlock page with
        shared := some (.writer (page + 1) last false) }
    have moved : Lib.run step s (writePages (n + 1)) = Lib.run step t (writePages n) := by
      have within : page ≤ last := by omega
      simp [writePages,Lib.run,step,lockPageBit,dirtyPageBit,unlockPageBit,holds,within,free page,t,State.lock,State.unlock]
    have unlocked : ∀ other, t.lockBit other = false := by
      intro other
      rcases eq_or_ne other page with rfl | different
      · simp [t,State.unlock]
      · simp [t,State.unlock,State.lock,different,free other]
    obtain ⟨u,ran,shared,group,dirty⟩ := ih t (page + 1) rfl (by omega) unlocked
    refine ⟨u,moved.trans ran,shared,group,fun other => (dirty other).trans ?_⟩
    rcases eq_or_ne other page with rfl | different
    · simp [t,State.unlock]
      omega
    · have beyond : page + 1 ≤ other ↔ page ≤ other := by omega
      simp [t,State.unlock,different,beyond]

/-- A write of one byte more than a group marks the first group only, and its last page is the
first of the second one. -/
theorem dirtyGroup_misses_last :
    ∃ s, Lib.run step (start 16384) (.writeBegin 0 33554433 :: writePages 8193) = some s ∧
      Within (start 16384) (.writeBegin 0 33554433) ∧ s.shared = none ∧ s.dirtyBit 8192 = true ∧
      s.dirtyGroup (8192 / nrPagesInPeb) = false := by
  have begun : (writeBegin (start 16384) 0 33554433).map (fun s => (s.shared,s.dirtyGroup 1)) =
      some (some (.writer 0 8192 false),false) := by
    decide +kernel
  obtain ⟨s,moved,same⟩ := map_eq_some_iff.mp begun
  obtain ⟨holds,group⟩ := Prod.mk.inj same
  have free : ∀ other, s.lockBit other = false := by
    simp only [writeBegin,start,if_true,some.injEq] at moved
    rw [← moved]
    exact fun _ => rfl
  have first : step (start 16384) (.writeBegin 0 33554433) = some s := moved
  obtain ⟨t,ran,shared,groups,dirty⟩ := run_writePages 8193 s 0 8192 holds (by omega) free
  refine ⟨t,(run_cons step first _).trans ran,by decide +kernel,shared,(dirty 8192).mpr (by omega),?_⟩
  rw [groups]
  simpa [nrPagesInPeb] using group

end Oxbow.Daemon.PageLock
