import Oxbow.DevFS.StageScan
import Oxbow.Daemon.StageCommit

/-! Stage transactions from `stage_file` to the checkpoint. A call links its transaction into
the stage list of the inode before it reserves the region; a journal build cuts the list and
stores the addresses it finds; DevFS commits the journal transaction and applies what is at
those addresses. The parties interleave step by step. -/
namespace Oxbow.Daemon.Stage.Life

open Oxbow.Lib Oxbow.Sjd Oxbow.DevFS Function Option

structure Call where
  ino : Nat
  file : File
  contents : Contents
  linked : Bool
  stx : StageTx
  io : Option Io

structure Entry where
  call : Nat
  address : Nat
  deriving DecidableEq, Repr

/-- `ids` are the calls made so far. `tracing` is the list that the running journal build has
cut and not yet stored. `regions` and `traced` remember every region handed out and every
address stored. -/
structure System where
  disk : Disk
  area : StageArea.Journal
  ids : List Nat
  calls : Nat → Option Call
  iStageList : Nat → List Nat
  tracing : List Nat
  building : List Entry
  sent : List (List Entry)
  committed : List (List Entry)
  regions : List (Nat × Nat)
  traced : List Entry

def start (disk : Disk) (area : StageArea.Journal) : System :=
  ⟨disk,area,[],fun _ => none,fun _ => [],[],[],[],[],[],[]⟩

inductive Act
  | stageFile (id ino : Nat) (f : File) (x : Contents)
  | buildStageTx (id : Nat)
  | stageFixBlocks (id : Nat)
  | stageIo (id : Nat)
  | io (id : Nat) (act : IoAct)
  | buildJtx (ino : Nat)
  | journalStageTrace
  | requestCommit
  | commit
  | checkpoint
  | stageFreeBlks (nrBlks : Nat)

def System.setCall (s : System) (id : Nat) (call : Call) : System :=
  { s with calls := update s.calls id (some call) }

def stageFile (c : SeqBufs) (s : System) (id ino : Nat) (f : File) (x : Contents) : Option System :=
  match s.calls id with
  | some _ => none
  | none =>
    (resvBlk c (newStageTx c x)).map fun r =>
      { s.setCall id ⟨ino,f,x,false,r.2,none⟩ with ids := s.ids ++ [id] }

def buildStageTx (s : System) (id : Nat) : Option System :=
  (s.calls id).bind fun call =>
    if call.linked then none
    else some { s.setCall id { call with linked := true } with
      iStageList := update s.iStageList call.ino (s.iStageList call.ino ++ [id]) }

section

variable (c : SeqBufs) (s : System) (id : Nat)

def stageFixBlocks : Option System :=
  (s.calls id).bind fun call =>
    if call.linked ∧ call.stx.stageAreaReserved = false then
      (stageFillIndexBlk c call.contents.block call.file.privateList call.stx).bind fun stx =>
      (stageFillTags c call.file.extents call.file.ird.nodes stx).bind fun stx =>
      match StageArea.stageReserveArea s.area
        (u32 (stx.nrPending + (nrDirtyBlks call.file.ird + (call.file.waiting + call.file.skipped)) + 1)) with
      | .ok area start _ =>
        (Stage.stageFixBlocks s.area (nrDirtyBlks call.file.ird) (call.file.waiting + call.file.skipped) stx).map
          fun stx => { s.setCall id { call with stx := stx } with area := area, regions := s.regions ++ [(id,start)] }
      | .full | .bugOn _ => none
    else none

def stageIo : Option System :=
  (s.calls id).bind fun call =>
    if call.stx.stageAreaReserved ∧ call.io.isNone then
      (stageFillData c call.contents.page call.file.ird.nodes call.stx).bind fun stx =>
      (copyDataBlks c call.contents.waiting call.file.waiting 0 stx).bind fun stx =>
      (Stage.stageIo c call.contents.commitBlk stx).map fun stx =>
        s.setCall id { call with stx := stx, io := some (.idle stx.trace s.disk 0) }
    else none

def io (act : IoAct) : Option System :=
  (s.calls id).bind fun call =>
    call.io.bind fun io =>
      (Io.step c { io with disk := s.disk } act).map fun io =>
        { s.setCall id { call with io := some io } with disk := io.disk }

end

def buildJtx (s : System) (ino : Nat) : Option System :=
  if s.tracing = [] then
    some { s with tracing := s.iStageList ino, iStageList := update s.iStageList ino [] }
  else none

/-- One round of `journal_stage_trace`: the address is read when it is stored. -/
def journalStageTrace (s : System) : Option System :=
  match s.tracing with
  | [] => none
  | id :: rest =>
    (s.calls id).map fun call =>
      { s with
        tracing := rest
        building := s.building ++ [⟨id,call.stx.start⟩]
        traced := s.traced ++ [⟨id,call.stx.start⟩] }

def requestCommit (s : System) : Option System :=
  if s.tracing = [] then some { s with sent := s.sent ++ [s.building], building := [] } else none

def commit (s : System) : Option System :=
  match s.sent with
  | [] => none
  | tx :: rest => some { s with sent := rest, committed := s.committed ++ [tx] }

/-- Pass 1 over the oldest committed transaction, and the copies that come of it. The commit
blocks of the stage transactions are not read. -/
def checkpoint (stage : LogRing) (s : System) : Option System :=
  match s.committed with
  | [] => none
  | tx :: rest =>
    (tx.mapM fun e => decodeStageTx stage s.disk e.address).map fun copies =>
      { s with
        committed := rest
        disk := copies.flatten.foldl (fun disk copy => update disk copy.2 copy.1) s.disk }

def step (c : SeqBufs) (stage : LogRing) (s : System) : Act → Option System
  | .stageFile id ino f x => stageFile c s id ino f x
  | .buildStageTx id => buildStageTx s id
  | .stageFixBlocks id => stageFixBlocks c s id
  | .stageIo id => stageIo c s id
  | .io id act => io c s id act
  | .buildJtx ino => buildJtx s ino
  | .journalStageTrace => journalStageTrace s
  | .requestCommit => requestCommit s
  | .commit => commit s
  | .checkpoint => checkpoint stage s
  | .stageFreeBlks nrBlks => some { s with area := StageArea.stageFreeBlks s.area nrBlks }

/-- What is stored is the start of a region reserved for the transaction, and the transaction
has not been listed before. -/
def Valid (s : System) : Act → Prop
  | .journalStageTrace => ∀ id ∈ s.tracing.head?, ∀ call ∈ s.calls id,
      (id,call.stx.start) ∈ s.regions ∧ ∀ e ∈ s.traced, e.call ≠ id
  | _ => True

/-- A journal build finds every listed stage transaction with its region. -/
def Settled (s : System) : Act → Prop
  | .buildJtx ino => ∀ id ∈ s.iStageList ino, ∀ call ∈ s.calls id, call.stx.stageAreaReserved = true
  | _ => True

instance (s : System) (act : Act) : Decidable (Settled s act) :=
  match act with
  | .buildJtx ino =>
    inferInstanceAs (Decidable (∀ id ∈ s.iStageList ino, ∀ call ∈ s.calls id, call.stx.stageAreaReserved = true))
  | .stageFile .. | .buildStageTx _ | .stageFixBlocks _ | .stageIo _ | .io .. | .journalStageTrace | .requestCommit
  | .commit | .checkpoint | .stageFreeBlks _ => .isTrue trivial

section Fields

theorem freeSeq_same (ready : freeSeq c s = some t) : Same s t := by
  rw [freeSeq] at ready
  split at ready
  · obtain ⟨u,next,rfl⟩ := map_eq_some_iff.mp ready
    rw [nextSeq] at next
    split at next
    · obtain ⟨-,⟨⟩⟩ := ite_none_right_eq_some.mp next
      exact ⟨rfl,rfl,rfl⟩
    · obtain rfl := some.inj next
      exact ⟨rfl,rfl,rfl⟩
  · obtain rfl := some.inj ready
    exact ⟨rfl,rfl,rfl⟩

theorem copyBlk_same (copied : copyBlk c s p = some t) : Same s t := by
  obtain ⟨⟨slot,u⟩,taken,rfl⟩ := map_eq_some_iff.mp copied
  obtain ⟨v,ready,same⟩ := map_eq_some_iff.mp taken
  simp only [Prod.mk.injEq] at same
  obtain ⟨_,rfl⟩ := same
  have kept := freeSeq_same ready
  exact ⟨kept.start,kept.commitBaddr,kept.reserved⟩

theorem copyAll_same (ps : List Page) (copied : copyAll c ps s = some t) : Same s t := by
  induction ps generalizing s with
  | nil =>
    obtain rfl := some.inj copied
    exact ⟨rfl,rfl,rfl⟩
  | cons p ps ih =>
    obtain ⟨u,first,rest⟩ := bind_eq_some_iff.mp copied
    exact (copyBlk_same first).trans (ih rest)

theorem stageIo_same (issued : Stage.stageIo c commitBlk s = some t) : Same s t := by
  simp only [Stage.stageIo] at issued
  obtain ⟨-,⟨⟩⟩ := ite_none_right_eq_some.mp issued
  exact ⟨rfl,rfl,rfl⟩

theorem stageFixBlocks_reserves {nrDirty nrWaiting start commitBaddr : Nat}
    (handed : StageArea.stageReserveArea j (u32 (s.nrPending + (nrDirty + nrWaiting) + 1)) = .ok area start commitBaddr)
    (fixed : Stage.stageFixBlocks j nrDirty nrWaiting s = some t) : t.start = start ∧ t.stageAreaReserved = true := by
  simp only [Stage.stageFixBlocks,handed] at fixed
  obtain ⟨-,⟨⟩⟩ := ite_none_right_eq_some.mp fixed
  exact ⟨rfl,rfl⟩

end Fields

structure Invariant (s : System) : Prop where
  listed : ∀ ino, ∀ id ∈ s.iStageList ino, ∃ call, s.calls id = some call ∧ call.linked = true ∧ call.ino = ino
  cut : ∀ id ∈ s.tracing, ∃ call, s.calls id = some call ∧ call.linked = true ∧ call.stx.stageAreaReserved = true
  stored : ∀ e ∈ s.traced, ∃ call, s.calls e.call = some call ∧ call.linked = true
  once : ∀ ino, (s.iStageList ino).Nodup
  cutOnce : s.tracing.Nodup
  listedApart : ∀ ino, ∀ id ∈ s.iStageList ino, id ∉ s.tracing ∧ ∀ e ∈ s.traced, e.call ≠ id
  cutApart : ∀ id ∈ s.tracing, ∀ e ∈ s.traced, e.call ≠ id
  reserved : ∀ id call, s.calls id = some call → call.stx.stageAreaReserved = true → (id,call.stx.start) ∈ s.regions

structure Lists (s t : System) : Prop where
  list : t.iStageList = s.iStageList
  tracing : t.tracing = s.tracing
  traced : t.traced = s.traced

section

variable (inv : Invariant s)
include inv

theorem Invariant.advance (same : Lists s t) (calls : t.calls = update s.calls n (some next)) (here : s.calls n = some call)
    (linked : call.linked = true → next.linked = true) (ino : next.ino = call.ino)
    (kept : call.stx.stageAreaReserved = true → next.stx.stageAreaReserved = true)
    (regions : ∀ r ∈ s.regions, r ∈ t.regions)
    (own : next.stx.stageAreaReserved = true → (n,next.stx.start) ∈ t.regions) : Invariant t := by
  obtain ⟨list,tracing,traced⟩ := same
  have moved : ∀ other old, s.calls other = some old → ∃ new, t.calls other = some new ∧
      (old.linked = true → new.linked = true) ∧ new.ino = old.ino ∧
      (old.stx.stageAreaReserved = true → new.stx.stageAreaReserved = true) := by
    intro other old before
    rw [calls]
    by_cases same : other = n
    · subst same
      obtain rfl : call = old := some.inj (here.symm.trans before)
      exact ⟨next,by simp,linked,ino,kept⟩
    · exact ⟨old,by simp [same,before],id,rfl,id⟩
  refine ⟨?_,?_,?_,?_,?_,?_,?_,?_⟩
  · rw [list]
    intro ino id member
    obtain ⟨old,before,isLinked,isIno⟩ := inv.listed ino id member
    obtain ⟨new,after,staysLinked,sameIno,_⟩ := moved id old before
    exact ⟨new,after,staysLinked isLinked,sameIno.trans isIno⟩
  · rw [tracing]
    intro id member
    obtain ⟨old,before,isLinked,isReserved⟩ := inv.cut id member
    obtain ⟨new,after,staysLinked,_,stays⟩ := moved id old before
    exact ⟨new,after,staysLinked isLinked,stays isReserved⟩
  · rw [traced]
    intro e member
    obtain ⟨old,before,isLinked⟩ := inv.stored e member
    obtain ⟨new,after,staysLinked,_⟩ := moved e.call old before
    exact ⟨new,after,staysLinked isLinked⟩
  · rw [list]
    exact inv.once
  · rw [tracing]
    exact inv.cutOnce
  · rw [list,tracing,traced]
    exact inv.listedApart
  · rw [tracing,traced]
    exact inv.cutApart
  · intro other after there isReserved
    rw [calls] at there
    by_cases same : other = n
    · subst same
      obtain rfl : next = after := by simpa using there
      exact own isReserved
    · rw [update_of_ne same] at there
      exact regions _ (inv.reserved other after there isReserved)

theorem Invariant.frame (same : Lists s t) (calls : t.calls = s.calls) (regions : t.regions = s.regions) : Invariant t := by
  obtain ⟨list,tracing,traced⟩ := same
  obtain ⟨a,b,d,e,f,g,h,i⟩ := inv
  exact ⟨by rwa [list,calls],by rwa [tracing,calls],by rwa [traced,calls],by rwa [list],by rwa [tracing],
    by rwa [list,tracing,traced],by rwa [tracing,traced],by rwa [calls,regions]⟩

theorem stageFile_kept (stepped : stageFile c s n ino f x = some t) : Invariant t := by
  simp only [stageFile] at stepped
  split at stepped
  next => simp at stepped
  next unused =>
    obtain ⟨r,taken,rfl⟩ := map_eq_some_iff.mp stepped
    have kept : ∀ id call, s.calls id = some call → (s.setCall n ⟨ino,f,x,false,r.2,none⟩).calls id = some call := by
      intro id call before
      have other : id ≠ n := by
        rintro rfl
        simp [unused] at before
      simp [System.setCall,other,before]
    refine ⟨?_,?_,?_,inv.once,inv.cutOnce,inv.listedApart,inv.cutApart,?_⟩
    · intro ino id member
      obtain ⟨call,before,rest⟩ := inv.listed ino id member
      exact ⟨call,kept id call before,rest⟩
    · intro id member
      obtain ⟨call,before,rest⟩ := inv.cut id member
      exact ⟨call,kept id call before,rest⟩
    · intro e member
      obtain ⟨call,before,rest⟩ := inv.stored e member
      exact ⟨call,kept e.call call before,rest⟩
    · intro id call there isReserved
      by_cases same : id = n
      · -- the region is reserved later
        subst same
        obtain ⟨v,ready,took⟩ := map_eq_some_iff.mp taken
        have untouched := (freeSeq_same ready).reserved
        simp only [System.setCall,update_self,some.injEq] at there
        rw [← there,← took] at isReserved
        simp only [takeBlk] at isReserved
        simp [untouched,newStageTx] at isReserved
      · simp only [System.setCall,update_of_ne same] at there
        exact inv.reserved id call there isReserved

theorem buildStageTx_kept (stepped : buildStageTx s n = some t) : Invariant t := by
  obtain ⟨call,here,stepped⟩ := bind_eq_some_iff.mp stepped
  obtain ⟨unlinked,⟨⟩⟩ := ite_none_left_eq_some.mp stepped
  have moved : Invariant (s.setCall n { call with linked := true }) :=
    inv.advance ⟨rfl,rfl,rfl⟩ rfl here (fun _ => rfl) rfl id (fun _ member => member) (inv.reserved n call here)
  -- a call that is not linked is nowhere
  have unlisted : ∀ ino, n ∉ s.iStageList ino := by
    intro ino member
    obtain ⟨old,before,isLinked,_⟩ := inv.listed ino n member
    obtain rfl : call = old := some.inj (here.symm.trans before)
    exact unlinked isLinked
  have uncut : n ∉ s.tracing := by
    intro member
    obtain ⟨old,before,isLinked,_⟩ := inv.cut n member
    obtain rfl : call = old := some.inj (here.symm.trans before)
    exact unlinked isLinked
  have unstored : ∀ e ∈ s.traced, e.call ≠ n := by
    rintro e member rfl
    obtain ⟨old,before,isLinked⟩ := inv.stored e member
    obtain rfl : call = old := some.inj (here.symm.trans before)
    exact unlinked isLinked
  have either : ∀ ino id, id ∈ update s.iStageList call.ino (s.iStageList call.ino ++ [n]) ino →
      id ∈ s.iStageList ino ∨ id = n ∧ ino = call.ino := by
    intro ino id member
    by_cases same : ino = call.ino
    · subst same
      simpa using member
    · exact .inl (by simpa [same] using member)
  refine ⟨?_,moved.cut,moved.stored,?_,moved.cutOnce,?_,moved.cutApart,moved.reserved⟩
  · intro ino id member
    rcases either ino id member with old | ⟨rfl,rfl⟩
    · exact moved.listed ino id old
    · exact ⟨{ call with linked := true },by simp [System.setCall],rfl,rfl⟩
  · intro ino
    by_cases same : ino = call.ino
    · subst same
      simpa [List.nodup_append,inv.once call.ino] using fun id member same => unlisted _ (same ▸ member)
    · simpa [same] using inv.once ino
  · intro ino id member
    rcases either ino id member with old | ⟨rfl,_⟩
    · exact inv.listedApart ino id old
    · exact ⟨uncut,unstored⟩

theorem stageFixBlocks_kept (stepped : stageFixBlocks c s n = some t) : Invariant t := by
  obtain ⟨call,here,stepped⟩ := bind_eq_some_iff.mp stepped
  obtain ⟨unfixed,stepped⟩ := ite_none_right_eq_some.mp stepped
  obtain ⟨indexed,_,stepped⟩ := bind_eq_some_iff.mp stepped
  obtain ⟨tagged,_,stepped⟩ := bind_eq_some_iff.mp stepped
  split at stepped
  next area start commitBaddr handed =>
    obtain ⟨stx,fixed,rfl⟩ := map_eq_some_iff.mp stepped
    obtain ⟨starts,_⟩ := stageFixBlocks_reserves handed fixed
    refine inv.advance ⟨rfl,rfl,rfl⟩ rfl here id rfl ?_ (fun _ member => List.mem_append_left _ member) ?_
    · simp [unfixed.2]
    · simp [starts]
  next => simp at stepped
  next => simp at stepped

theorem stageIo_kept (stepped : stageIo c s n = some t) : Invariant t := by
  obtain ⟨call,here,stepped⟩ := bind_eq_some_iff.mp stepped
  obtain ⟨fixed,stepped⟩ := ite_none_right_eq_some.mp stepped
  rw [stageFillData_eq] at stepped
  obtain ⟨filled,copied,stepped⟩ := bind_eq_some_iff.mp stepped
  rw [copyDataBlks_eq] at stepped
  obtain ⟨waited,copied',stepped⟩ := bind_eq_some_iff.mp stepped
  obtain ⟨stx,issued,rfl⟩ := map_eq_some_iff.mp stepped
  have same := ((copyAll_same _ copied).trans (copyAll_same _ copied')).trans (stageIo_same issued)
  refine inv.advance ⟨rfl,rfl,rfl⟩ rfl here id rfl ?_ (fun _ member => member) ?_
  · simp [same.reserved]
  · simp only [same.reserved,same.start]
    exact inv.reserved n call here

theorem io_kept (stepped : io c s n act = some t) : Invariant t := by
  obtain ⟨call,here,stepped⟩ := bind_eq_some_iff.mp stepped
  obtain ⟨before,_,stepped⟩ := bind_eq_some_iff.mp stepped
  obtain ⟨after,_,rfl⟩ := map_eq_some_iff.mp stepped
  exact inv.advance ⟨rfl,rfl,rfl⟩ rfl here id rfl id (fun _ member => member) (inv.reserved n call here)

theorem buildJtx_kept (settled : Settled s (.buildJtx ino)) (stepped : buildJtx s ino = some t) : Invariant t := by
  simp only [buildJtx] at stepped
  obtain ⟨idle,⟨⟩⟩ := ite_none_right_eq_some.mp stepped
  have left : ∀ other id, id ∈ update s.iStageList ino [] other → other ≠ ino ∧ id ∈ s.iStageList other := by
    intro other id member
    by_cases same : other = ino
    · simp [same] at member
    · exact ⟨same,by simpa [same] using member⟩
  refine ⟨?_,?_,inv.stored,?_,inv.once ino,?_,?_,inv.reserved⟩
  · intro other id member
    exact inv.listed other id (left other id member).2
  · intro id member
    obtain ⟨call,there,isLinked,_⟩ := inv.listed ino id member
    exact ⟨call,there,isLinked,settled id member call there⟩
  · intro other
    by_cases same : other = ino
    · simp [same]
    · simpa [same] using inv.once other
  · intro other id member
    obtain ⟨different,old⟩ := left other id member
    refine ⟨fun alsoCut => ?_,(inv.listedApart other id old).2⟩
    -- a call is on the list of one inode only
    obtain ⟨call,there,_,isIno⟩ := inv.listed other id old
    obtain ⟨call',there',_,isIno'⟩ := inv.listed ino id alsoCut
    obtain rfl : call = call' := some.inj (there.symm.trans there')
    exact different (isIno.symm.trans isIno')
  · intro id member
    exact (inv.listedApart ino id member).2

theorem journalStageTrace_kept (stepped : journalStageTrace s = some t) : Invariant t := by
  simp only [journalStageTrace] at stepped
  split at stepped
  next => simp at stepped
  next n rest cut =>
    obtain ⟨call,here,rfl⟩ := map_eq_some_iff.mp stepped
    have head : n ∈ s.tracing := by simp [cut]
    have tail : ∀ id ∈ rest, id ∈ s.tracing := fun id member => by simp [cut,member]
    have once := inv.cutOnce
    rw [cut,List.nodup_cons] at once
    have either : ∀ e ∈ s.traced ++ [⟨n,call.stx.start⟩], e ∈ s.traced ∨ e.call = n := by
      intro e member
      rcases List.mem_append.mp member with old | new
      · exact .inl old
      · exact .inr (by rw [List.mem_singleton.mp new])
    refine ⟨inv.listed,fun id member => inv.cut id (tail id member),?_,inv.once,once.2,?_,?_,
      inv.reserved⟩
    · intro e member
      rcases either e member with old | same
      · exact inv.stored e old
      · obtain ⟨call,there,isLinked,_⟩ := inv.cut n head
        exact ⟨call,same ▸ there,isLinked⟩
    · intro ino id member
      obtain ⟨uncut,unstored⟩ := inv.listedApart ino id member
      refine ⟨fun later => uncut (tail id later),fun e stored => ?_⟩
      rcases either e stored with old | same
      · exact unstored e old
      · rintro rfl
        exact uncut (same ▸ head)
    · intro id member e stored
      rcases either e stored with old | same
      · exact inv.cutApart id (tail id member) e old
      · rintro rfl
        exact once.1 (same ▸ member)

end

def Act.background : Act → Bool
  | .requestCommit | .commit | .checkpoint | .stageFreeBlks _ => true
  | .stageFile .. | .buildStageTx _ | .stageFixBlocks _ | .stageIo _ | .io .. | .buildJtx _ | .journalStageTrace => false

theorem step_background (background : act.background = true)
    (stepped : step c stage s act = some t) : Lists s t ∧ t.calls = s.calls ∧ t.regions = s.regions := by
  cases act with
  | requestCommit =>
    simp only [step,requestCommit] at stepped
    obtain ⟨-,⟨⟩⟩ := ite_none_right_eq_some.mp stepped
    exact ⟨⟨rfl,rfl,rfl⟩,rfl,rfl⟩
  | commit =>
    simp only [step,commit] at stepped
    split at stepped
    · simp at stepped
    · obtain rfl := some.inj stepped
      exact ⟨⟨rfl,rfl,rfl⟩,rfl,rfl⟩
  | checkpoint =>
    simp only [step,checkpoint] at stepped
    split at stepped
    · simp at stepped
    · obtain ⟨copies,_,rfl⟩ := map_eq_some_iff.mp stepped
      exact ⟨⟨rfl,rfl,rfl⟩,rfl,rfl⟩
  | stageFreeBlks nrBlks =>
    obtain rfl := some.inj stepped
    exact ⟨⟨rfl,rfl,rfl⟩,rfl,rfl⟩
  | _ => cases background

theorem step_kept (c : SeqBufs) (stage : LogRing) (act : Act) (inv : Invariant s) (settled : Settled s act)
    (stepped : step c stage s act = some t) : Invariant t := by
  have framed : act.background = true → Invariant t := by
    intro background
    obtain ⟨lists,calls,regions⟩ := step_background background stepped
    exact inv.frame lists calls regions
  cases act with
  | stageFile id ino f x => exact stageFile_kept inv stepped
  | buildStageTx id => exact buildStageTx_kept inv stepped
  | stageFixBlocks id => exact stageFixBlocks_kept inv stepped
  | stageIo id => exact stageIo_kept inv stepped
  | io id act => exact io_kept inv stepped
  | buildJtx ino => exact buildJtx_kept inv settled stepped
  | journalStageTrace => exact journalStageTrace_kept inv stepped
  | requestCommit | commit | checkpoint | stageFreeBlks => exact framed rfl

theorem Invariant.valid (inv : Invariant s) (act : Act) : Valid s act := by
  cases act with
  | journalStageTrace =>
    intro id first call here
    have head : id ∈ s.tracing := List.mem_of_mem_head? first
    obtain ⟨call',there,_,isReserved⟩ := inv.cut id head
    obtain rfl : call = call' := some.inj (here.symm.trans there)
    exact ⟨inv.reserved id call here isReserved,inv.cutApart id head⟩
  | _ => trivial

theorem start_kept (disk : Disk) (area : StageArea.Journal) : Invariant (start disk area) :=
  ⟨by simp [start],by simp [start],by simp [start],by simp [start],by simp [start],by simp [start],by simp [start],
    by simp [start]⟩

/-- Every address stored in a stage trace block is that of a region reserved for the
transaction, and no transaction is stored twice, in every run in which stage lists are cut
only when their transactions have their regions. -/
theorem stageTrace_valid (c : SeqBufs) (stage : LogRing) (disk : Disk) (area : StageArea.Journal) (acts : List Act)
    (settled : Along (step c stage) Settled (start disk area) acts) :
    Along (step c stage) Valid (start disk area) acts :=
  Along.of_invariant (step c stage) Invariant Settled Valid
    (fun _ act _ inv settled stepped => step_kept c stage act inv settled stepped)
    (fun _ act inv _ => inv.valid act) _ acts (start_kept disk area) settled

def sampleCall : Act := .stageFile 0 5 (sampleFile 2 (by decide)) (marked 500)

def sampleBuild : List Act :=
  [sampleCall,.buildStageTx 0,.stageFixBlocks 0,.buildJtx 5,.journalStageTrace]

theorem stageTrace_valid_fixed :
    (run (step sampleBufs sampleStageLog) (start (fun _ _ => 0) sampleArea) sampleBuild).isSome ∧
      Along (step sampleBufs sampleStageLog) Valid (start (fun _ _ => 0) sampleArea) sampleBuild :=
  ⟨by decide +kernel,stageTrace_valid sampleBufs sampleStageLog _ sampleArea _ (by decide +kernel)⟩

/-- The list is cut between `build_stage_tx` and `stage_fix_blocks`: address 0 is stored. -/
theorem stageTrace_unset :
    (run (step sampleBufs sampleStageLog) (start (fun _ _ => 0) sampleArea)
      [.stageFile 0 5 (sampleFile 2 (by decide)) (marked 500),.buildStageTx 0,.buildJtx 5,.journalStageTrace]).map
      (fun s => (s.traced,s.regions)) = some ([⟨0,0⟩],[]) := by
  decide +kernel

end Oxbow.Daemon.Stage.Life
