import Mathlib.Data.List.Flatten
import Oxbow.Daemon.PageLock

/-! Every lock bit is written down in one place: with the writer that holds the page, or with
the one copy that has it still to make. -/
namespace Oxbow.Daemon.PageLock

open Oxbow.Lib Function List Option
open Fsync (Fetcher pageSize nrPagesInPeb pebCoverage dirtyGroups)

variable {s t : State} {page gather next id : Nat} {run : List Mark}

def State.writing (s : State) : List (Nat × Owner) :=
  match s.shared with
  | some (.writer page _ true) => [(page,.writer)]
  | _ => []

def State.entries (s : State) : List (Nat × Owner) := s.writing ++ s.toCopy.map Mark.entry

structure Invariant (s : State) : Prop where
  ledger : Ledger s.owner s.entries
  bits : ∀ page, s.lockBit page = (s.owner page).isSome
  clean : ∀ page gather, s.owner page = some (.gather gather) → s.dirtyBit page = false

inductive Change (s : State) (act : Act) (t : State) : Prop
  | kept (owner : t.owner = s.owner) (bits : t.lockBit = s.lockBit) (entries : s.entries.Perm t.entries)
      (dirty : ∀ page, t.dirtyBit page = true → s.dirtyBit page = true ∨ (page,.writer) ∈ s.entries)
      (locked : locks s act = none) (released : releases s act = none)
  | took (e : Nat × Owner) (free : s.lockBit e.1 = false) (owner : t.owner = update s.owner e.1 (some e.2))
      (bits : t.lockBit = update s.lockBit e.1 true) (entries : (e :: s.entries).Perm t.entries)
      (dirty : ∀ page, t.dirtyBit page = true → s.dirtyBit page = true)
      (cleaned : ∀ gather, e.2 = .gather gather → t.dirtyBit e.1 = false)
      (locked : locks s act = some e) (released : releases s act = none)
  | gave (e : Nat × Owner) (owner : t.owner = update s.owner e.1 none)
      (bits : t.lockBit = update s.lockBit e.1 false) (entries : s.entries.Perm (e :: t.entries))
      (dirty : t.dirtyBit = s.dirtyBit) (locked : locks s act = none) (released : releases s act = some e)

namespace Invariant

theorem free (inv : Invariant s) (unlocked : s.lockBit page = false) : s.owner page = none := by
  have bit := inv.bits page
  rw [unlocked] at bit
  exact not_isSome_iff_eq_none.mp (by simp [← bit])

/-- With no write under way a dirty page is not locked. -/
theorem dirty_unlocked (inv : Invariant s) (noWriter : s.writing = []) (dirty : s.dirtyBit page = true) :
    s.lockBit page = false := by
  rw [inv.bits page]
  cases owner : s.owner page with
  | none => rfl
  | some k =>
    cases k with
    | gather g =>
      have clean := inv.clean page g owner
      simp [dirty] at clean
    | writer =>
      have listed := (inv.ledger.owned page .writer).mpr owner
      simp [State.entries,noWriter,Mark.entry] at listed

theorem change (inv : Invariant s) (change : Change s act t) : Invariant t := by
  cases change with
  | kept owner bits entries dirty locked released =>
    refine ⟨?_,?_,?_⟩
    · rw [owner]
      exact inv.ledger.perm entries
    · rw [owner,bits]
      exact inv.bits
    · intro page g owned
      rw [owner] at owned
      refine Bool.eq_false_iff.mpr fun marked => ?_
      rcases dirty page marked with before | writing
      · simp [inv.clean page g owned] at before
      · have writer := (inv.ledger.owned page .writer).mp writing
        simp [owned] at writer
  | took e free owner bits entries dirty cleaned locked released =>
    refine ⟨?_,?_,?_⟩
    · rw [owner]
      exact (inv.ledger.acquire (inv.free free) e.2).perm entries
    · intro page
      by_cases same : page = e.1
      · simp [owner,bits,same]
      · simp [owner,bits,same,inv.bits page]
    · intro page g owned
      by_cases same : page = e.1
      · subst same
        exact cleaned g (by simpa [owner] using owned)
      · refine Bool.eq_false_iff.mpr fun marked => ?_
        have clean := inv.clean page g (by simpa [owner,same] using owned)
        simp [dirty page marked] at clean
  | gave e owner bits entries dirty locked released =>
    refine ⟨?_,?_,?_⟩
    · rw [owner]
      exact (inv.ledger.perm entries).release
    · intro page
      by_cases same : page = e.1
      · simp [owner,bits,same]
      · simp [owner,bits,same,inv.bits page]
    · intro page g owned
      rw [dirty]
      by_cases same : page = e.1
      · simp [owner,same] at owned
      · exact inv.clean page g (by simpa [owner,same] using owned)

end Invariant

def State.holds (e : Nat × Owner) (s : State) : Nat := if s.owner e.1 = some e.2 then 1 else 0

theorem Change.balance (inv : Invariant s) (change : Change s act t) (e : Nat × Owner) :
    (locks s act).toList.count e + s.holds e = (releases s act).toList.count e + t.holds e := by
  cases change with
  | kept owner bits entries dirty locked released => simp [State.holds,owner,locked,released]
  | took e' free owner bits entries dirty cleaned locked released =>
    have unowned := inv.free free
    obtain ⟨p,k⟩ := e
    obtain ⟨p',k'⟩ := e'
    rcases eq_or_ne p p' with rfl | other
    · simp [State.holds,owner,locked,released,unowned,count_singleton]
    · simp [State.holds,owner,locked,released,other,other.symm]
  | gave e' owner bits entries dirty locked released =>
    have owned := ((inv.ledger.perm entries).owned e'.1 e'.2).mp (by simp)
    obtain ⟨p,k⟩ := e
    obtain ⟨p',k'⟩ := e'
    rcases eq_or_ne p p' with rfl | other
    · simp [State.holds,owner,locked,released,owned,count_singleton]
    · simp [State.holds,owner,locked,released,other,other.symm]

theorem entries_perm (extra : List Mark) (writing : t.writing = s.writing) (marks : (extra ++ s.toCopy).Perm t.toCopy) :
    (extra.map Mark.entry ++ s.entries).Perm t.entries := by
  have listed := marks.map Mark.entry
  rw [List.map_append] at listed
  simp only [State.entries,writing]
  exact perm_append_comm_assoc .. |>.trans (listed.append_left _)

theorem toCopy_journal (extra : List Mark) (calls : t.calls = s.calls)
    (marks : (extra ++ s.journal.toCopy s.iJournalDirty).Perm (t.journal.toCopy t.iJournalDirty)) :
    (extra ++ s.toCopy).Perm t.toCopy := by
  simp only [State.toCopy,calls,← append_assoc]
  exact marks.append_right _

theorem flatMap_set (calls : List Call) (extra : List Mark) (inside : id < calls.length)
    (marks : (extra ++ call.toCopy).Perm call'.toCopy) :
    (extra ++ (calls.set id call).flatMap Call.toCopy).Perm ((calls.set id call').flatMap Call.toCopy) := by
  simp only [set_eq_take_append_cons_drop,inside,if_true,flatMap_append,flatMap_cons]
  refine (perm_append_comm_assoc ..).trans (List.Perm.append_left _ ?_)
  rw [← append_assoc]
  exact marks.append_right _

theorem toCopy_call (extra : List Mark) (found : s.calls[id]? = some call) (journal : t.journal = s.journal)
    (runs : t.iJournalDirty = s.iJournalDirty) (calls : t.calls = s.calls.set id call')
    (marks : (extra ++ call.toCopy).Perm call'.toCopy) : (extra ++ s.toCopy).Perm t.toCopy := by
  obtain ⟨inside,there⟩ := List.getElem?_eq_some_iff.mp found
  have moved := flatMap_set s.calls extra inside marks
  rw [← there,set_getElem_self] at moved
  simp only [State.toCopy,journal,runs,calls]
  exact (perm_append_comm_assoc ..).trans (moved.append_left _)

theorem toCopy_call_less (m : Mark) (found : s.calls[id]? = some call) (journal : t.journal = s.journal)
    (runs : t.iJournalDirty = s.iJournalDirty) (calls : t.calls = s.calls.set id call')
    (marks : call.toCopy.Perm (m :: call'.toCopy)) : ([m] ++ t.toCopy).Perm s.toCopy := by
  obtain ⟨inside,there⟩ := List.getElem?_eq_some_iff.mp found
  refine toCopy_call [m] (calls ▸ List.getElem?_set_self inside) journal.symm runs.symm ?_ marks.symm
  rw [calls,set_set,← there,set_getElem_self]

@[simp] theorem addRun_flatten (runs : List (List Mark)) : (addRun runs run).flatten = runs.flatten ++ run := by
  unfold addRun
  split
  · simp_all
  · simp

namespace Journal

@[simp] theorem idle_toCopy : idle.toCopy runs = runs.flatten := rfl

@[simp] theorem gathering_toCopy : (gathering df gather next run).toCopy runs = runs.flatten ++ run := rfl

@[simp] theorem copying_toCopy : (copying df left).toCopy runs = left ++ runs.tail.flatten := rfl

@[simp] theorem copyFirst_toCopy : (copyFirst df runs).toCopy runs = runs.flatten := by
  cases runs <;> simp [copyFirst]

end Journal

theorem gatherDirtyBits_cases (unlocked : s.dirtyBit next = true → s.lockBit next = false) (gather : Nat) (run : List Mark) :
    ∃ groups g,
      (takes s next = false ∧ gatherDirtyBits s gather next run = ({ s with dirtyGroup := groups },g) ∧
        g.added ++ g.run = run) ∨
      (takes s next = true ∧ s.lockBit next = false ∧
        gatherDirtyBits s gather next run =
          (State.lock { s with dirtyGroup := groups, dirtyBit := update s.dirtyBit next false } next (.gather gather),g) ∧
        g.added ++ g.run = run ++ [⟨next,gather⟩]) := by
  unfold gatherDirtyBits takes
  by_cases looks : scans s next
  · by_cases dirty : s.dirtyBit next = true
    · have free := unlocked dirty
      by_cases last : (next + 1) % nrPagesInPeb = 0
      · exact ⟨update s.dirtyGroup (next / nrPagesInPeb) false,⟨next + 1,[],run ++ [⟨next,gather⟩]⟩,
          .inr ⟨by simp [looks,dirty,free],free,by simp [looks,dirty,free,last],by simp⟩⟩
      · exact ⟨update s.dirtyGroup (next / nrPagesInPeb) false,⟨next + 1,run ++ [⟨next,gather⟩],[]⟩,
          .inr ⟨by simp [looks,dirty,free],free,by simp [looks,dirty,free,last],by simp⟩⟩
    · exact ⟨update s.dirtyGroup (next / nrPagesInPeb) false,⟨next + 1,[],run⟩,
        .inl ⟨by simp [dirty],by simp [looks,dirty],by simp⟩⟩
  · exact ⟨s.dirtyGroup,⟨next + nrPagesInPeb,[],run⟩,.inl ⟨by simp [looks],by simp [looks],by simp⟩⟩

theorem Change.same (owner : t.owner = s.owner) (bits : t.lockBit = s.lockBit) (dirty : t.dirtyBit = s.dirtyBit)
    (writing : t.writing = s.writing) (marks : s.toCopy.Perm t.toCopy) (locked : locks s act = none)
    (released : releases s act = none) : Change s act t :=
  .kept owner bits (by simpa using entries_perm [] writing marks) (fun _ marked => .inl (dirty ▸ marked)) locked released

theorem Change.gathered (free : s.lockBit next = false) (owner : t.owner = update s.owner next (some (.gather gather)))
    (bits : t.lockBit = update s.lockBit next true) (dirty : t.dirtyBit = update s.dirtyBit next false)
    (writing : t.writing = s.writing) (marks : ([Mark.mk next gather] ++ s.toCopy).Perm t.toCopy)
    (locked : locks s act = some (next,.gather gather)) (released : releases s act = none) : Change s act t := by
  refine .took (next,.gather gather) free owner bits (by simpa [Mark.entry] using entries_perm _ writing marks)
    ?_ (by simp [dirty]) locked released
  intro page marked
  rw [dirty] at marked
  rcases eq_or_ne page next with rfl | other
  · simp at marked
  · simpa [other] using marked

theorem Change.copied (m : Mark) (owner : t.owner = update s.owner m.page none)
    (bits : t.lockBit = update s.lockBit m.page false) (dirty : t.dirtyBit = s.dirtyBit)
    (writing : t.writing = s.writing) (marks : ([m] ++ t.toCopy).Perm s.toCopy)
    (locked : locks s act = none) (released : releases s act = some m.entry) : Change s act t :=
  .gave m.entry owner bits (by simpa using (entries_perm _ writing.symm marks).symm) dirty locked released

theorem writeBegin_change {pos count : Nat} (moved : writeBegin s pos count = some t) : Change s (.writeBegin pos count) t := by
  simp only [writeBegin,ite_none_right_eq_some,some.injEq] at moved
  obtain ⟨shared,rfl⟩ := moved
  exact .same rfl rfl rfl (by simp [State.writing,shared]) (.refl _) rfl rfl

theorem lockPageBit_change (moved : lockPageBit s = some t) : Change s .lockPageBit t := by
  obtain ⟨page,last,shared,_,free,rfl⟩ := lockPageBit_some moved
  exact .took (page,.writer) free rfl rfl (by simp [State.entries,State.writing,shared,State.lock,State.toCopy])
    (fun _ marked => marked) (by simp) (by simp [locks,shared]) rfl

theorem dirtyPageBit_change (moved : dirtyPageBit s = some t) : Change s .dirtyPageBit t := by
  obtain ⟨page,last,shared,rfl⟩ := dirtyPageBit_some moved
  refine .kept rfl rfl (.refl _) ?_ rfl rfl
  intro page' marked
  rcases eq_or_ne page' page with rfl | other
  · exact .inr (by simp [State.entries,State.writing,shared])
  · exact .inl (by simpa [other] using marked)

theorem unlockPageBit_change (moved : unlockPageBit s = some t) : Change s .unlockPageBit t := by
  obtain ⟨page,last,shared,rfl⟩ := unlockPageBit_some moved
  exact .gave (page,.writer) rfl rfl (by simp [State.entries,State.writing,shared,State.unlock,State.toCopy]) rfl rfl
    (by simp [releases,shared])

theorem writeEnd_change (moved : writeEnd s = some t) : Change s .writeEnd t := by
  obtain ⟨page,last,shared,_,rfl⟩ := writeEnd_some moved
  exact .same rfl rfl rfl (by simp [State.writing,shared]) (.refl _) rfl rfl

theorem journalBegin_change (moved : journalBegin s df = some t) : Change s (.journalBegin df) t := by
  obtain ⟨idle,shared,rfl⟩ := journalBegin_some moved
  exact .same rfl rfl rfl (by simp [State.writing,shared]) (by simp [State.toCopy,idle]) rfl rfl

theorem journalGather_change (inv : Invariant s) (moved : journalGather s = some t) : Change s .journalGather t := by
  obtain ⟨df,gather,next,run,gathering,shared,rfl⟩ := journalGather_some moved
  have noWriter : s.writing = [] := by simp [State.writing,shared]
  obtain ⟨groups,g,⟨left,result,runs⟩ | ⟨takes,free,result,runs⟩⟩ :=
    gatherDirtyBits_cases (inv.dirty_unlocked noWriter) gather run
  · rw [result]
    refine .same rfl rfl rfl rfl (toCopy_journal [] rfl ?_) (by simp [locks,gathering,left]) rfl
    simp [gathering,addRangeDirtyJournal,runs]
  · rw [result]
    refine .gathered free rfl rfl rfl rfl (toCopy_journal _ rfl ?_) (by simp [locks,gathering,takes]) rfl
    simp only [Journal.gathering_toCopy,gathering,addRangeDirtyJournal,addRun_flatten,State.lock,append_assoc,runs]
    rw [← append_assoc s.iJournalDirty.flatten]
    exact perm_append_comm

theorem journalGathered_change (moved : journalGathered s = some t) : Change s .journalGathered t := by
  obtain ⟨df,gather,next,run,waitingTxid,gathering,shared,_,rfl⟩ := journalGathered_some moved
  refine .same rfl rfl rfl (by simp [State.writing,shared]) (toCopy_journal [] rfl ?_) rfl rfl
  simp [gathering,addRangeDirtyJournal]

theorem journalCopy_change (moved : journalCopy s = some t) : Change s .journalCopy t := by
  obtain ⟨df,m,left,copying,rfl⟩ := journalCopy_some moved
  refine .copied m rfl rfl rfl rfl (toCopy_journal _ rfl ?_) rfl (by simp [releases,copying])
  simp [copying,State.unlock]

theorem journalGetBlocks_change (moved : journalGetBlocks s true = some t) : Change s (.journalGetBlocks true) t := by
  obtain ⟨df,copying,rfl⟩ := journalGetBlocks_some moved
  refine .same rfl rfl rfl rfl (toCopy_journal [] rfl ?_) rfl rfl
  simp [copying]

theorem clearWaiting_change (moved : clearWaiting s df = some t) : Change s (.clearWaiting df) t := by
  simp only [clearWaiting,ite_none_left_eq_some,some.injEq] at moved
  obtain ⟨-,rfl⟩ := moved
  exact .same rfl rfl rfl rfl (.refl _) rfl rfl

theorem stageBegin_change (moved : stageBegin s = some t) : Change s .stageBegin t := by
  simp only [stageBegin,ite_none_right_eq_some,some.injEq] at moved
  obtain ⟨shared,rfl⟩ := moved
  exact .same rfl rfl rfl (by simp [State.writing,shared]) (by simp [State.toCopy,Call.toCopy,Phase.run]) rfl rfl

theorem stageGather_change (inv : Invariant s) (moved : stageGather s id = some t) : Change s (.stageGather id) t := by
  obtain ⟨call,next,run,found,gathering,shared,rfl⟩ := stageGather_some moved
  have noWriter : s.writing = [] := by simp [State.writing,shared]
  obtain ⟨groups,g,⟨left,result,runs⟩ | ⟨takes,free,result,runs⟩⟩ :=
    gatherDirtyBits_cases (inv.dirty_unlocked noWriter) call.gather run
  · rw [result]
    refine .same rfl rfl rfl rfl (toCopy_call [] found rfl rfl rfl ?_) (by simp [locks,found,gathering,left]) rfl
    simp [Call.toCopy,Phase.run,gathering,← runs]
  · rw [result]
    refine .gathered free rfl rfl rfl rfl (toCopy_call _ found rfl rfl rfl ?_) (by simp [locks,found,gathering,takes]) rfl
    have collected : call.snap ++ g.added ++ g.run = call.snap ++ run ++ [⟨next,call.gather⟩] := by
      rw [append_assoc,runs,append_assoc]
    simp only [Call.toCopy,Phase.run,gathering,collected]
    rw [← append_assoc]
    exact perm_append_comm.append_right _

theorem stageGathered_change (moved : stageGathered s id = some t) : Change s (.stageGathered id) t := by
  obtain ⟨call,next,run,found,gathering,_,_,rfl⟩ := stageGathered_some moved
  refine .same rfl rfl rfl rfl (toCopy_call [] found rfl rfl rfl ?_) rfl rfl
  simp [Call.toCopy,Phase.run,gathering]

theorem stageCut_change (moved : stageCut s id = some t) : Change s (.stageCut id) t := by
  obtain ⟨call,df,left,waiting,waitingList,found,cutting,rfl⟩ := stageCut_some moved
  refine .same rfl rfl rfl rfl (toCopy_call [] found rfl rfl rfl ?_) rfl rfl
  simp [Call.toCopy,Phase.run,cutting]

theorem stageEnd_change (moved : stageEnd s id = some t) : Change s (.stageEnd id) t := by
  obtain ⟨call,found,cutting,shared,rfl⟩ := stageEnd_some moved
  refine .same rfl rfl rfl (by simp [State.writing,shared]) (toCopy_call [] found rfl rfl rfl ?_) rfl rfl
  simp [Call.toCopy,Phase.run,cutting]

theorem stageCopy_change (moved : stageCopy s id = some t) : Change s (.stageCopy id) t := by
  obtain ⟨call,m,rest,found,snap,rfl⟩ := stageCopy_some moved
  refine .copied m rfl rfl rfl rfl (toCopy_call_less m found rfl rfl rfl ?_) rfl (by simp [releases,found,snap])
  simp [Call.toCopy,snap]

theorem stageCheck_change (inTime : InTime s (.stageCheck id)) (moved : stageCheck s id = some t) :
    Change s (.stageCheck id) t := by
  obtain ⟨call,df,w,found,staging,first,cut,rfl⟩ := stageCheck_some moved
  have finished : s.waitingTxid df ≠ some w.1 := inTime call found df first w cut
  refine .same rfl rfl rfl rfl (toCopy_call [] found rfl rfl rfl ?_) rfl rfl
  simp [Call.toCopy,staging,finished]

theorem stageCopyWaiting_change (moved : stageCopyWaiting s id = some t) : Change s (.stageCopyWaiting id) t := by
  obtain ⟨call,m,rest,found,staging,rfl⟩ := stageCopyWaiting_some moved
  refine .copied m rfl rfl rfl rfl (toCopy_call_less m found rfl rfl rfl ?_) rfl (by simp [releases,found,staging])
  simp only [Call.toCopy,staging]
  exact perm_middle

theorem step_change (inv : Invariant s) (inTime : InTime s act) (moved : step s act = some t) : Change s act t := by
  cases act with
  | writeBegin pos count => exact writeBegin_change moved
  | lockPageBit => exact lockPageBit_change moved
  | dirtyPageBit => exact dirtyPageBit_change moved
  | unlockPageBit => exact unlockPageBit_change moved
  | writeEnd => exact writeEnd_change moved
  | journalBegin df => exact journalBegin_change moved
  | journalGather => exact journalGather_change inv moved
  | journalGathered => exact journalGathered_change moved
  | journalCopy => exact journalCopy_change moved
  | journalGetBlocks ok =>
    obtain rfl : ok = true := inTime
    exact journalGetBlocks_change moved
  | clearWaiting df => exact clearWaiting_change moved
  | stageBegin => exact stageBegin_change moved
  | stageGather id => exact stageGather_change inv moved
  | stageGathered id => exact stageGathered_change moved
  | stageCut id => exact stageCut_change moved
  | stageEnd id => exact stageEnd_change moved
  | stageCopy id => exact stageCopy_change moved
  | stageCheck id => exact stageCheck_change inTime moved
  | stageCopyWaiting id => exact stageCopyWaiting_change moved

theorem start_invariant (nrPages : Nat) : Invariant (start nrPages) :=
  ⟨Ledger.empty,fun _ => rfl,fun _ _ owned => by cases owned⟩

theorem call_listed (found : s.calls[id]? = some call) (member : m ∈ call.toCopy) : m.entry ∈ s.entries := by
  have listed : m ∈ s.toCopy :=
    mem_append_right _ (mem_flatMap.mpr ⟨call,mem_of_getElem? found,member⟩)
  exact mem_append_right _ (mem_map_of_mem listed)

theorem releases_listed (released : releases s act = some e) : e ∈ s.entries := by
  cases act with
  | unlockPageBit =>
    simp only [releases] at released
    split at released
    · rename_i page last shared
      obtain rfl := some.inj released
      simp [State.entries,State.writing,shared]
    · cases released
  | journalCopy =>
    simp only [releases] at released
    split at released
    · rename_i df m left copying
      obtain rfl := some.inj released
      simp [State.entries,State.toCopy,copying]
    all_goals cases released
  | stageCopy id =>
    obtain ⟨call,found,released⟩ := bind_eq_some_iff.mp released
    obtain ⟨m,first,rfl⟩ := map_eq_some_iff.mp released
    exact call_listed found (by simp [Call.toCopy,mem_of_mem_head? first])
  | stageCopyWaiting id =>
    obtain ⟨call,found,released⟩ := bind_eq_some_iff.mp released
    obtain ⟨m,first,rfl⟩ := map_eq_some_iff.mp released
    exact call_listed found (by simp [Call.toCopy,mem_of_mem_head? first])
  | _ => cases released

theorem Invariant.byOwner (inv : Invariant s) : ByOwner s act := by
  intro e released
  exact (inv.ledger.owned e.1 e.2).mp (releases_listed released)

/-- A page that a gather has locked is on one list to copy, once. -/
theorem Invariant.copiedOnce (inv : Invariant s) (owned : s.owner page = some (.gather gather)) :
    s.toCopy.count ⟨page,gather⟩ = 1 := by
  have once : s.toCopy.Nodup := by
    have entries := inv.ledger.once
    rw [State.entries,List.map_append,List.map_map] at entries
    exact (nodup_append.mp entries).2.1.of_map
  refine count_eq_one_of_mem once ?_
  have listed := (inv.ledger.owned page (.gather gather)).mpr owned
  rcases mem_append.mp listed with writing | marked
  · unfold State.writing at writing
    split at writing <;> simp at writing
  · obtain ⟨m,there,same⟩ := mem_map.mp marked
    obtain ⟨rfl,rfl⟩ : m.page = page ∧ m.gather = gather := by simpa [Mark.entry] using same
    exact there

def sampleInTime : List Act :=
  [.writeBegin 0 4096,.lockPageBit,.dirtyPageBit,.unlockPageBit,.writeEnd,
    .journalBegin .df0,.journalGather,.journalGathered,
    .stageBegin,.stageGather 0,.stageGathered 0,.stageCut 0,.stageCut 0,.stageEnd 0,
    .journalCopy,.journalGetBlocks true,.clearWaiting .df0,
    .writeBegin 0 4096,.lockPageBit,.stageCheck 0,.dirtyPageBit,.unlockPageBit,.writeEnd,
    .stageBegin,.stageGather 1]

def sampleLate : List Act :=
  [.writeBegin 0 4096,.lockPageBit,.dirtyPageBit,.unlockPageBit,.writeEnd,
    .journalBegin .df0,.journalGather,.journalGathered,
    .stageBegin,.stageGather 0,.stageGathered 0,.stageCut 0,.stageCut 0,.stageEnd 0,
    .stageCheck 0,.journalCopy,.writeBegin 0 4096,.lockPageBit]

-- after a failed allocation the next build copies the run again, whoever holds its pages
example :
    ¬ Along step ByOwner (start 1)
      [.writeBegin 0 4096,.lockPageBit,.dirtyPageBit,.unlockPageBit,.writeEnd,
        .journalBegin .df0,.journalGather,.journalGathered,.journalCopy,.journalGetBlocks false,.clearWaiting .df0,
        .journalBegin .df0,.journalGather,.journalGathered,.writeBegin 0 4096,.lockPageBit,.journalCopy] := by
  decide +kernel

end Oxbow.Daemon.PageLock
