import Oxbow.DevFS.CheckpointAgree
import Oxbow.DevFS.LogSafety

/-! One journal log of DevFS as a store. The daemon stages blocks, sends a transaction and its data in chunks and has it
committed, while transactions committed before are checkpointed in order. What this amounts to is a list of committed
updates: those at its front are in the file-system area, and the logs hold the rest. -/
namespace Oxbow.DevFS.Ckpt

open Oxbow.Lib List Function

/-- One write to the file-system area, of a whole block or of an inode inside one. -/
structure Write where
  baddr : Nat
  blk : Blk → Blk

def Write.apply (disk : Blks) (w : Write) : Blks := update disk w.baddr (w.blk (disk w.baddr))

def applyAll (disk : Blks) (ws : List Write) : Blks := ws.foldl Write.apply disk

def Write.block (baddr : Nat) (blk : Blk) : Write := ⟨baddr,fun _ => blk⟩

variable {logs : Logs}

def Write.inode (t : StageTx logs) (sdb : Blk) : Write :=
  ⟨t.inodeBaddr,fun blk => memcpy blk (t.inodeIndex * t.inodeSize) sdb 0 t.inodeSize⟩

def stageInodes (disk : Blks) (tx : Tx logs) : List Write := (stageTxs tx.metaBlks).map fun t => .inode t (disk t.stageStart)

def logged (disk : Blks) (ws : List (Nat × Nat)) : List Write := ws.map fun w => .block w.2 (disk w.1)

/-- What the logs hold of a committed transaction. -/
def held (disk : Blks) (tx : Tx logs) : List Write :=
  stageInodes disk tx ++ logged disk (stageWrites (stageTxs tx.metaBlks) ++ journalWrites tx)

/-- A transaction and its data, one block for each destination of the journal's tags. Its place on the log is the one it is
committed to. -/
structure Payload (logs : Logs) where
  tx : Tx logs
  blks : List Blk
  counted : blks.length = total (journalTags tx)
  narrow : tx.metaBlks.length + 2 < 2^32

namespace Payload

def dests (p : Payload logs) : List Nat := (journalTags p.tx).flatMap ETag.dests

def writes (disk : Blks) (p : Payload logs) : List Write :=
  stageInodes disk p.tx ++ logged disk (stageWrites (stageTxs p.tx.metaBlks)) ++ zipWith .block p.dests p.blks

def place (p : Payload logs) (e : Extent) (placed : logs.journal.Holds e.start) : Tx logs :=
  { p.tx with jStartBaddr := e.start, totalTxSize := e.len * blockSize, placed := placed }

end Payload

structure JournalStore (logs : Logs) where
  log : TxLog
  disk : Blks
  sbTxId : Nat
  payload : Option (Payload logs)
  queue : List (Tx logs)

/-- The metadata blocks get whatever they get: the checkpoint works with the copy in memory. -/
inductive StoreAct (logs : Logs)
  | stage (baddr : Nat) (blk : Blk)
  | begin (p : Payload logs)
  | data (reqId : Nat)
  | commit (md : Blks)
  | checkpoint

namespace JournalStore

def init (logs : Logs) (disk : Blks) (sbTxId : Nat) : JournalStore logs := ⟨.init logs.journal,disk,sbTxId,none,[]⟩

def dataBufs (p : Payload logs) (writes : List (Nat × Nat)) : List (Nat × Blk) :=
  writes.map fun w => (w.1,p.blks.getD w.2 default)

def mdBufs (md : Blks) (written : List Nat) : List (Nat × Blk) := written.map fun a => (a,md a)

variable (maxIoBlks maxBufSize : Nat)

section

variable (s : JournalStore logs)

def step : StoreAct logs → Option (JournalStore logs)
  | .stage baddr blk => if logs.stage.Holds baddr then some { s with disk := update s.disk baddr blk } else none
  | .begin p =>
    (s.log.step maxIoBlks logs.journal (.begin p.blks.length (p.tx.metaBlks.length + 1))).map fun log =>
      { s with log := log, payload := some p }
  | .data reqId =>
    (s.log.step maxIoBlks logs.journal (.data reqId)).bind fun log => s.payload.map fun p =>
      { s with log := log, disk := writeBl s.disk (dataBufs p (log.persist.writes.drop s.log.persist.writes.length)) }
  | .commit md =>
    (s.log.step maxIoBlks logs.journal .commit).bind fun log => s.payload.bind fun p => log.committed.getLast?.bind fun e =>
      if placed : logs.journal.Holds e.start then
        some { s with
          log := log
          disk := writeBl s.disk (mdBufs md (s.log.written maxIoBlks logs.journal .commit))
          payload := none
          queue := s.queue ++ [p.place e placed] }
      else none
  | .checkpoint =>
    match s.queue with
    | [] => none
    | tx :: rest =>
      (s.log.step maxIoBlks logs.journal .checkpoint).bind fun log =>
        (doCheckpointCoalesce maxBufSize tx ⟨s.disk,s.sbTxId,s.log.log⟩).map fun out =>
          { s with log := log, disk := out.disk, sbTxId := out.sbTxId, queue := rest }

/-- What a commit makes durable. -/
def committed : StoreAct logs → Option (List Write)
  | .commit _ => s.payload.map (Payload.writes s.disk)
  | _ => none

def pending : List (List Write) := s.queue.map (held s.disk)

/-- The space of a chunk is free when it comes and its first block is not past the end of the log; a block is not staged
again before its transaction has been checkpointed. -/
def Fits : StoreAct logs → Prop
  | .stage baddr _ => ∀ tx ∈ (s.payload.map Payload.tx).toList ++ s.queue,
    ∀ t ∈ stageTxs tx.metaBlks, baddr ∉ t.logBlks
  | .data reqId => s.log.Fits (.data reqId) ∧ dataStart s.log.log.head reqId ≤ logs.journal.last
  | _ => True

end

instance (s : JournalStore logs) : (act : StoreAct logs) → Decidable (s.Fits act)
  | .stage _ _ => inferInstanceAs (Decidable (∀ tx ∈ _, _))
  | .data _ => inferInstanceAs (Decidable (_ ∧ _))
  | .begin _ | .commit _ | .checkpoint => inferInstanceAs (Decidable True)

end JournalStore

theorem writeBl_apply (disk : Blks) (bufs : List (Nat × Blk)) (d : Nat) :
    writeBl disk bufs d = (lastSource (bufs.map Prod.swap) d).getD (disk d) := by
  induction bufs generalizing disk with
  | nil => rfl
  | cons w bufs ih =>
    rw [writeBl,foldl_cons,← writeBl,ih,map_cons,lastSource_cons]
    cases lastSource (bufs.map Prod.swap) d with
    | some blk => rfl
    | none =>
      by_cases here : w.1 = d
      · simp [here]
      · simp [here,update_of_ne (Ne.symm here)]

theorem writeBl_other (disk : Blks) (other : d ∉ bufs.map Prod.fst) : writeBl disk bufs d = disk d := by
  rw [writeBl_apply,lastSource_eq_none.mpr,Option.getD_none]
  simpa using other

theorem writeBl_written (disk : Blks) (distinct : (bufs.map Prod.fst).Nodup) (member : (d,blk) ∈ bufs) :
    writeBl disk bufs d = blk := by
  rw [writeBl_apply,lastSource_of_nodup (s := blk),Option.getD_some]
  · rwa [map_map]
  · exact mem_map.mpr ⟨_,member,rfl⟩

theorem apply_agree (outside : Outside logs d) (same : ∀ d, Outside logs d → disk d = other d) (w : Write) :
    w.apply disk d = w.apply other d := by
  rw [Write.apply,Write.apply]
  by_cases here : d = w.baddr
  · rw [← here,update_self,update_self,same d outside]
  · rw [update_of_ne here,update_of_ne here,same d outside]

theorem applyAll_agree (ws : List Write) (same : ∀ d, Outside logs d → disk d = other d) :
    ∀ d, Outside logs d → applyAll disk ws d = applyAll other ws d := by
  induction ws generalizing disk other with
  | nil => exact same
  | cons w ws ih => exact ih fun d outside => apply_agree outside same w

/-! What the logs hold of a transaction. -/

def sources (tx : Tx logs) : List Nat := (stageTxs tx.metaBlks).flatMap StageTx.logBlks ++ (journalWrites tx).map Prod.fst

theorem held_congr (same : ∀ a ∈ sources tx, disk a = other a) : held disk tx = held other tx := by
  have stage : ∀ t ∈ stageTxs tx.metaBlks, ∀ a ∈ t.logBlks, disk a = other a := fun t member a inside =>
    same a (mem_append_left _ (mem_flatMap.mpr ⟨t,member,inside⟩))
  refine congrArg₂ (· ++ ·) (map_congr_left ?_) (map_congr_left ?_)
  · intro t member
    rw [stage t member _ mem_cons_self]
  · intro w member
    rcases mem_append.mp member with staged | journal
    · obtain ⟨t,named,written⟩ := mem_flatMap.mp staged
      rw [stage t named _ (mem_cons_of_mem _ (mem_map_of_mem written))]
    · rw [same _ (mem_append_right _ (mem_map_of_mem journal))]

theorem applyAll_held (disk : Blks) (tx : Tx logs) :
    applyAll disk (held disk tx) = transfer disk (applyInodes disk disk (stageTxs tx.metaBlks))
      (stageWrites (stageTxs tx.metaBlks) ++ journalWrites tx) := by
  rw [applyAll,held,foldl_append,stageInodes,logged,foldl_map,foldl_map]
  rfl

theorem journal_source {tx : Tx logs} (size : total (journalTags tx) + 1 < e.len) (start : tx.jStartBaddr = e.start)
    (member : a ∈ (journalWrites tx).map Prod.fst) : a ∈ logs.journal.addresses e := by
  obtain ⟨w,written,rfl⟩ := mem_map.mp member
  obtain ⟨i,below,rfl⟩ := mem_mapIdx.mp written
  rw [length_dests] at below
  refine mem_map.mpr ⟨i + 1,mem_range.mpr (by omega),?_⟩
  simp only [Ring.block,start]
  have same : e.start + (i + 1) = e.start + 1 + (0 + i) := by omega
  rw [same]

theorem stage_source {tx : Tx logs} (member : a ∈ (stageTxs tx.metaBlks).flatMap StageTx.logBlks) : logs.stage.Holds a := by
  obtain ⟨t,-,inside⟩ := mem_flatMap.mp member
  rcases mem_cons.mp inside with rfl | data
  · exact t.placed
  · obtain ⟨w,written,rfl⟩ := mem_map.mp data
    exact t.writes_holds w written

theorem source_held {tx : Tx logs} (inside : a ∈ sources tx) : logs.journal.Holds a ∨ logs.stage.Holds a := by
  rcases mem_append.mp inside with stage | journal
  · exact .inr (stage_source stage)
  · obtain ⟨w,written,rfl⟩ := mem_map.mp journal
    exact (tx.writes_logs w (mem_append_right _ written)).1

/-- The checkpoint entry is the one of its extent, and the descriptor and the data are inside. -/
def Stored (e : Extent) (tx : Tx logs) : Prop :=
  tx.jStartBaddr = e.start ∧ tx.totalTxSize = e.len * blockSize ∧ total (journalTags tx) + 1 < e.len

namespace JournalStore

variable {s t : JournalStore logs} {p : Payload logs} {after : TxLog} {maxIoBlks maxBufSize : Nat}

def slot (s : JournalStore logs) (k : Nat) : Nat := logs.journal.block s.log.log.head k

/-- The data of the chunks that have been sent is behind the block kept for the descriptor. -/
def Arrived (s : JournalStore logs) (p : Payload logs) (sent : List Nat) : Prop :=
  ∀ k < p.blks.length, k / nBlksPerChunk ∈ sent → s.disk (s.slot (1 + k)) = p.blks.getD k default

def chunkBufs (s : JournalStore logs) (p : Payload logs) (reqId : Nat) : List (Nat × Blk) :=
  (range (chunkBlks p.blks.length reqId)).map fun i =>
    (s.slot (1 + (reqId * nBlksPerChunk + i)),p.blks.getD (reqId * nBlksPerChunk + i) default)

structure Sound (s : JournalStore logs) : Prop where
  log : s.log.Invariant logs.journal
  alive : s.log.persist.aborted = false
  stored : Forall₂ Stored s.log.committed s.queue
  sending : ∀ p, s.payload = some p → ∃ sent, s.log.tx = some ⟨p.blks.length,p.tx.metaBlks.length + 1,sent⟩ ∧
    s.Arrived p sent

/-- Outside the logs the disk is this one. -/
def Shows (s : JournalStore logs) (disk : Blks) : Prop := ∀ d, Outside logs d → s.disk d = disk d

theorem pending_eq (same : ∀ tx ∈ s.queue, ∀ a ∈ sources tx, other a = s.disk a) :
    s.queue.map (held other) = s.pending :=
  map_congr_left fun tx member => held_congr (same tx member)

theorem mem_chunkBufs : w ∈ s.chunkBufs p reqId ↔
    ∃ k < p.blks.length, k / nBlksPerChunk = reqId ∧ (s.slot (1 + k),p.blks.getD k default) = w := by
  simp only [chunkBufs,mem_map,mem_range]
  constructor
  · rintro ⟨i,below,rfl⟩
    refine ⟨reqId * nBlksPerChunk + i,?_,?_,rfl⟩ <;> simp only [chunkBlks,nBlksPerChunk] at below ⊢ <;> omega
  · rintro ⟨k,below,rfl,rfl⟩
    refine ⟨k % nBlksPerChunk,?_,by rw [Nat.div_add_mod']⟩
    simp only [chunkBlks,nBlksPerChunk]
    omega

theorem room_free (room : k / nBlksPerChunk * nBlksPerChunk + chunkBlks n (k / nBlksPerChunk) + 1 ≤ free)
    (below : k < n) : 1 + k < free := by
  simp only [chunkBlks,nBlksPerChunk] at room
  omega

namespace Sound

section

variable (sound : s.Sound)
include sound

theorem source (member : tx ∈ s.queue) (inside : a ∈ sources tx) :
    a ∈ (stageTxs tx.metaBlks).flatMap StageTx.logBlks ∨ ∃ e ∈ s.log.committed, a ∈ logs.journal.addresses e := by
  rcases mem_append.mp inside with stage | journal
  · exact .inl stage
  · have pairs := forall₂_iff_get.mp sound.stored
    obtain ⟨i,rfl⟩ := get_of_mem member
    obtain ⟨start,-,size⟩ := pairs.2 i (by rw [pairs.1]; exact i.2) i.2
    exact .inr ⟨_,get_mem _ _,journal_source size start journal⟩

theorem slot_holds (free : k < s.log.log.nFreeBlks) : logs.journal.Holds (s.slot k) := by
  have size := sound.log.size
  exact logs.journal.block_wraps sound.log.queue.head (by omega)

theorem slot_inj (first : i < s.log.log.nFreeBlks) (second : j < s.log.log.nFreeBlks) (same : s.slot i = s.slot j) : i = j := by
  have size := sound.log.size
  exact logs.journal.block_injective (by omega) (by omega) same

/-- Writes to free blocks of the journal change neither the file-system area nor what the logs hold. -/
theorem write_free (apart : ∀ a, logs.journal.Holds a → ¬ logs.stage.Holds a) (bufs : List (Nat × Blk))
    (free : ∀ w ∈ bufs, ∃ k < s.log.log.nFreeBlks, w.1 = s.slot k) :
    s.queue.map (held (writeBl s.disk bufs)) = s.pending ∧ ∀ a, ¬ logs.journal.Holds a →
      writeBl s.disk bufs a = s.disk a := by
  have other : ∀ a, (∀ k < s.log.log.nFreeBlks, a ≠ s.slot k) → writeBl s.disk bufs a = s.disk a := by
    intro a apart
    refine writeBl_other _ ?_
    intro member
    obtain ⟨w,written,rfl⟩ := mem_map.mp member
    obtain ⟨k,below,address⟩ := free w written
    exact apart k below address
  have outside : ∀ a, ¬ logs.journal.Holds a → writeBl s.disk bufs a = s.disk a := fun a out =>
    other a fun k below same => out (same ▸ sound.slot_holds below)
  refine ⟨pending_eq ?_,outside⟩
  intro tx member a inside
  rcases sound.source member inside with stage | ⟨e,live,address⟩
  · exact outside a fun journal => apart a journal (stage_source stage)
  · exact other a fun k below same => sound.log.queue.free_apart below e live (by rwa [same] at address)

/-- The room of the chunks that have been sent is free. -/
theorem sent_free (tx : s.log.tx = some ⟨p.blks.length,m,sent⟩) (below : k < p.blks.length)
    (member : k / nBlksPerChunk ∈ sent) : 1 + k < s.log.log.nFreeBlks := by
  exact room_free ((sound.log.sending _ tx sound.alive).room _ member) below

end

theorem data (positive : 0 < logs.journal.first) (sound : s.Sound) (fits : s.Fits (.data reqId)) (current : s.payload = some p)
    (stepped : s.log.step maxIoBlks logs.journal (.data reqId) = some after)
    (written :
    t = { s with log := after, disk := writeBl s.disk (dataBufs p (after.persist.writes.drop s.log.persist.writes.length)) }) :
    t.Sound ∧ t.pending = s.pending ∧ ∀ a, ¬ logs.journal.Holds a → t.disk a = s.disk a := by
  have kept := TxLog.step_preserves maxIoBlks logs.journal positive _ _ _ sound.log fits.1 stepped
  obtain ⟨sent,tx,arrived⟩ := sound.sending p current
  obtain ⟨alive,cases⟩ := TxLog.step_cases maxIoBlks logs.journal stepped
  rcases cases with ⟨_,_,⟨⟩,_⟩ | ⟨_,_,⟨rfl⟩,other,bound,new,rfl⟩ | ⟨_,_,⟨⟩,_⟩ | ⟨_,_,_,⟨⟩,_⟩
  obtain rfl := Option.some.inj (tx.symm.trans other)
  obtain ⟨room,inside⟩ := fits
  simp only [TxLog.Fits,tx] at room
  have desc := (sound.log.sending _ tx alive).desc
  obtain ⟨still,-,-,writes⟩ := persistData_inside maxIoBlks logs.journal s.log.log.head reqId (chunkBlks p.blks.length reqId)
    s.log.persist alive (fun zero => by rw [desc,if_neg (zero ▸ new)]) inside sound.log.queue.head.1 (chunkBlks_pos _ _ bound)
    (Nat.min_le_left _ _)
  have bufs : t.disk = writeBl s.disk (s.chunkBufs p reqId) := by
    simp only [written,TxLog.persistChunk,writes,drop_left,dataBufs,map_map]
    rfl
  have free : ∀ w ∈ s.chunkBufs p reqId, ∃ k < s.log.log.nFreeBlks, w.1 = s.slot k := by
    intro w member
    obtain ⟨k,below,rfl,rfl⟩ := mem_chunkBufs.mp member
    exact ⟨1 + k,room_free room below,rfl⟩
  obtain ⟨pending,outside⟩ := sound.write_free p.tx.logsApart _ free
  rw [← bufs] at pending outside
  have distinct : ((s.chunkBufs p reqId).map Prod.fst).Nodup := by
    rw [chunkBufs,map_map]
    refine nodup_range.map_on ?_
    intro i first j second same
    rw [mem_range] at first second
    have := sound.slot_inj (by omega) (by omega) same
    omega
  have arrives : t.Arrived p (reqId :: sent) := by
    intro k below member
    have place : t.slot (1 + k) = s.slot (1 + k) := by rw [written]; rfl
    rw [place,bufs]
    by_cases here : k / nBlksPerChunk = reqId
    · exact writeBl_written _ distinct (mem_chunkBufs.mpr ⟨k,below,here,rfl⟩)
    · have earlier := mem_of_ne_of_mem here member
      rw [← arrived k below earlier]
      refine writeBl_other _ ?_
      intro again
      obtain ⟨w,chunk,same⟩ := mem_map.mp again
      obtain ⟨j,early,mine,rfl⟩ := mem_chunkBufs.mp chunk
      have := sound.slot_inj (room_free (mine ▸ room) early) (sound.sent_free tx below earlier) same
      exact here (by rwa [show k = j by omega])
  refine ⟨?_,?_,outside⟩
  · subst written
    refine ⟨kept,still,sound.stored,?_⟩
    intro p' same
    obtain rfl := Option.some.inj (current.symm.trans same)
    exact ⟨reqId :: sent,rfl,arrives⟩
  · rw [← pending,JournalStore.pending,written]

theorem all_sent (sending : Sending after tx) (committed : after.commitTx tx = some out) (bound : reqId < nChunks tx.dataBlks) :
    reqId ∈ tx.sent := by
  obtain ⟨reserved,first⟩ := commitTx_reserved after tx committed
  rw [reserveData,if_neg (by omega)] at first
  split at first
  next counted => exact all_of_distinct sending.distinct sending.bound (by have := sending.counted; omega) reqId bound
  · cases first

/-- A commit finds all the data behind the head and writes around it. -/
theorem metadata (positive : 0 < logs.journal.first) (sound : s.Sound) (current : s.payload = some p)
    (stepped : s.log.step maxIoBlks logs.journal .commit = some after) :
    (∃ jLog, after =
      ⟨jLog,.init,none,s.log.committed ++ [⟨s.log.log.head,p.blks.length + p.tx.metaBlks.length + 3⟩]⟩) ∧
      (∀ a ∈ s.log.written maxIoBlks logs.journal .commit, ∃ k < s.log.log.nFreeBlks,
        (k = 0 ∨ p.blks.length < k) ∧ a = s.slot k) ∧
      ∀ k < p.blks.length, 1 + k < s.log.log.nFreeBlks ∧ s.disk (s.slot (1 + k)) = p.blks.getD k default := by
  obtain ⟨sent,tx,arrived⟩ := sound.sending p current
  obtain ⟨alive,cases⟩ := TxLog.step_cases maxIoBlks logs.journal stepped
  rcases cases with ⟨_,_,⟨⟩,_⟩ | ⟨_,_,⟨⟩,_⟩ | ⟨_,out,-,other,committed,rfl⟩ | ⟨_,_,_,⟨⟩,_⟩
  obtain rfl := Option.some.inj (tx.symm.trans other)
  have sending := sound.log.sending _ tx alive
  obtain ⟨room,laidout,-⟩ := commitTx_spec logs.journal positive sound.log sending committed
  have ring : s.log.log.toRing = logs.journal.toRing := sound.log.queue.ring
  simp only at room
  refine ⟨⟨out.log,?_⟩,?_,?_⟩
  · rw [laidout.entry]
    simp only [Nat.mul_div_cancel _ (show 0 < blockSize by decide)]
    congr 4
    omega
  · intro a member
    simp only [TxLog.written,tx,committed,Option.map_some,Option.getD_some] at member
    obtain ⟨w,written,rfl⟩ := mem_map.mp member
    have placed := laidout.writes.mem_iff.mp written
    simp only [txBlocks,ring,cons_append,mem_cons,mem_append,mem_map,mem_range,not_mem_nil,or_false] at placed
    rcases placed with rfl | ⟨k,early,rfl⟩ | rfl | rfl
    · exact ⟨0,by omega,.inl rfl,(logs.journal.block_zero sound.log.queue.head).symm⟩
    all_goals exact ⟨_,by omega,.inr (by omega),rfl⟩
  · intro k below
    refine ⟨by omega,arrived k below (all_sent sending committed ?_)⟩
    simp only [nChunks,nBlksPerChunk]
    omega

theorem held_place (placed : logs.journal.Holds e.start) (same : ∀ a, logs.stage.Holds a → other a = was a)
    (data : ∀ k < p.blks.length, other (logs.journal.block e.start (1 + k)) = p.blks.getD k default) :
    held other (p.place e placed) = p.writes was := by
  have length : p.dests.length = p.blks.length := by rw [Payload.dests,length_dests,p.counted]
  have journal : logged other (journalWrites (p.place e placed)) = zipWith .block p.dests p.blks := by
    apply ext_getElem
    · simp only [logged,journalWrites,onLog,length_map,length_mapIdx,length_zipWith,← length,Nat.min_self]
      rfl
    · intro k first second
      have below : k < p.blks.length := by simpa [length] using second
      have stored := data k below
      rw [getD_eq_getElem?_getD,getElem?_eq_getElem below,Option.getD_some] at stored
      simp only [logged,journalWrites,onLog,getElem_map,getElem_mapIdx,getElem_zipWith,← stored,Nat.zero_add]
      congr 2
      simp only [Payload.place,Ring.block,Nat.add_assoc]
  rw [held,logged,map_append,← append_assoc,← logged,← logged,journal,Payload.writes]
  refine congrArg (· ++ _) (congrArg₂ (· ++ ·) (map_congr_left ?_) (map_congr_left ?_))
  · intro t _
    rw [same _ t.placed]
  · intro w member
    obtain ⟨t,-,written⟩ := mem_flatMap.mp member
    rw [same _ (t.writes_holds w written)]

theorem commit (positive : 0 < logs.journal.first) (sound : s.Sound) (current : s.payload = some p)
    (stepped : s.log.step maxIoBlks logs.journal .commit = some after) (last : after.committed.getLast? = some e)
    (placed : logs.journal.Holds e.start)
    (written : t = ⟨after,writeBl s.disk (mdBufs md (s.log.written maxIoBlks logs.journal .commit)),s.sbTxId,none,
      s.queue ++ [p.place e placed]⟩) :
    t.Sound ∧ t.pending = s.pending ++ [p.writes s.disk] ∧ ∀ a, ¬ logs.journal.Holds a → t.disk a = s.disk a := by
  have kept := TxLog.step_preserves maxIoBlks logs.journal positive _ _ _ sound.log (by simp [TxLog.Fits]) stepped
  obtain ⟨⟨jLog,rfl⟩,around,data⟩ := sound.metadata positive current stepped
  rw [getLast?_append_of_ne_nil _ (by simp),getLast?_singleton] at last
  obtain rfl := Option.some.inj last
  have free : ∀ w ∈ mdBufs md (s.log.written maxIoBlks logs.journal .commit),
      ∃ k < s.log.log.nFreeBlks, (k = 0 ∨ p.blks.length < k) ∧ w.1 = s.slot k := by
    intro w member
    obtain ⟨a,inside,rfl⟩ := mem_map.mp member
    exact around a inside
  obtain ⟨pending,outside⟩ := sound.write_free p.tx.logsApart _ fun w member =>
    (free w member).imp fun k inside => ⟨inside.1,inside.2.2⟩
  rw [show writeBl s.disk _ = t.disk from written ▸ rfl] at pending outside
  have new : held t.disk (p.place _ placed) = p.writes s.disk := by
    refine held_place placed (fun a stage => outside a fun journal => p.tx.logsApart a journal stage) ?_
    intro k below
    rw [← (data k below).2,written]
    refine writeBl_other _ ?_
    intro member
    obtain ⟨w,buf,same⟩ := mem_map.mp member
    obtain ⟨j,early,side,place⟩ := free w buf
    have := sound.slot_inj early (data k below).1 (place.symm.trans same)
    omega
  refine ⟨?_,?_,outside⟩
  · subst written
    refine ⟨kept,rfl,rel_append sound.stored (.cons ⟨rfl,rfl,?_⟩ .nil),by simp⟩
    have counted : total (journalTags (p.place _ placed)) = p.blks.length := p.counted.symm
    simp only [counted]
    omega
  · have queue : t.queue = s.queue ++ [p.place _ placed] := by rw [written]
    rw [← pending,JournalStore.pending,queue,map_append,map_singleton,new]

/-- Writes outside the journal leave the data of the transaction that is being sent. -/
theorem still_sending (sound : s.Sound)
    (journal : ∀ p, s.payload = some p → ∀ a, logs.journal.Holds a → t.disk a = s.disk a)
    (payload : t.payload = s.payload) (tx : t.log.tx = s.log.tx) (head : t.log.log.head = s.log.log.head) (p : Payload logs)
    (current : t.payload = some p) :
    ∃ sent, t.log.tx = some ⟨p.blks.length,p.tx.metaBlks.length + 1,sent⟩ ∧ t.Arrived p sent := by
  rw [payload] at current
  obtain ⟨sent,same,arrived⟩ := sound.sending p current
  refine ⟨sent,tx.trans same,?_⟩
  intro k below member
  rw [slot,head,← slot,journal p current _ (sound.slot_holds (sound.sent_free same below member))]
  exact arrived k below member

theorem stage (sound : s.Sound) (fits : s.Fits (.stage baddr blk)) (staged : logs.stage.Holds baddr)
    (written : t = { s with disk := update s.disk baddr blk }) :
    t.Sound ∧ t.pending = s.pending ∧ ∀ a, ¬ logs.stage.Holds a → t.disk a = s.disk a := by
  have other : ∀ a, a ≠ baddr → update s.disk baddr blk a = s.disk a := fun a apart => update_of_ne apart _ _
  have kept : ∀ a, ¬ logs.stage.Holds a → update s.disk baddr blk a = s.disk a := by
    intro a outside
    exact other a fun same => outside (same ▸ staged)
  subst written
  refine ⟨⟨sound.log,sound.alive,sound.stored,?_⟩,pending_eq (s := s) ?_,kept⟩
  · exact sound.still_sending (fun p _ a journal => kept a (p.tx.logsApart a journal)) rfl rfl rfl
  · intro tx member a inside
    rcases sound.source member inside with stage | ⟨e,live,journal⟩
    · obtain ⟨u,named,block⟩ := mem_flatMap.mp stage
      exact other a fun same => fits tx (mem_append_right _ member) u named (same ▸ block)
    · exact kept a (tx.logsApart a (sound.log.queue.inside e live a journal))

section

variable (positive : 0 < logs.journal.first) (sound : s.Sound)
include positive sound

theorem begin (stepped : s.log.step maxIoBlks logs.journal (.begin p.blks.length (p.tx.metaBlks.length + 1)) = some after) :
    Sound { s with log := after, payload := some p } := by
  have kept := TxLog.step_preserves maxIoBlks logs.journal positive _ _ _ sound.log
    (by simpa [TxLog.Fits] using p.narrow) stepped
  obtain ⟨alive,cases⟩ := TxLog.step_cases maxIoBlks logs.journal stepped
  rcases cases with ⟨_,_,⟨rfl⟩,idle,_,rfl⟩ | ⟨_,_,⟨⟩,_⟩ | ⟨_,_,⟨⟩,_⟩ | ⟨_,_,_,⟨⟩,_⟩
  refine ⟨kept,alive,sound.stored,?_⟩
  intro p' same
  obtain rfl := Option.some.inj same
  exact ⟨[],rfl,by simp [Arrived]⟩

/-- A checkpoint applies what the logs hold of the oldest transaction. -/
theorem checkpoint (oldest : s.queue = tx :: rest) (stepped : s.log.step maxIoBlks logs.journal .checkpoint = some after)
    (copied : doCheckpointCoalesce maxBufSize tx ⟨s.disk,s.sbTxId,s.log.log⟩ = some out)
    (applied : t = ⟨after,out.disk,out.sbTxId,s.payload,rest⟩) :
    t.Sound ∧ s.pending = held s.disk tx :: t.pending ∧ t.disk = applyAll s.disk (held s.disk tx) := by
  have kept := TxLog.step_preserves maxIoBlks logs.journal positive _ _ _ sound.log (by simp [TxLog.Fits]) stepped
  obtain ⟨alive,cases⟩ := TxLog.step_cases maxIoBlks logs.journal stepped
  rcases cases with ⟨_,_,⟨⟩,_⟩ | ⟨_,_,⟨⟩,_⟩ | ⟨_,_,⟨⟩,_⟩ | ⟨e,es,log,-,first,freed,rfl⟩
  rw [doCheckpointCoalesce_eq,release] at copied
  obtain ⟨jLog,-,rfl⟩ := Option.map_eq_some_iff.mp copied
  have same : SameLogs logs s.disk (applyAll s.disk (held s.disk tx)) := by
    rw [applyAll_held]
    refine SameLogs.transfer (applyInodes_logs (fun _ _ => rfl) tx.allOutside) ?_
    intro d member
    obtain ⟨w,written,rfl⟩ := mem_map.mp member
    exact (tx.writes_logs w written).2
  rw [← applyAll_held] at applied
  have stored := sound.stored
  rw [first,oldest,forall₂_cons] at stored
  subst applied
  refine ⟨⟨kept,alive,stored.2,?_⟩,?_,rfl⟩
  · exact sound.still_sending (fun _ _ a journal => same a (.inl journal)) rfl rfl (freeJournalSpace_head freed)
  · rw [JournalStore.pending,oldest,map_cons,JournalStore.pending]
    refine congrArg _ (map_congr_left fun u _ => held_congr fun a inside => ?_)
    exact (same a (source_held inside)).symm

theorem step (fits : s.Fits act) (stepped : s.step maxIoBlks maxBufSize act = some t) :
    t.Sound ∧ ∀ disk, s.Shows disk → ∃ done, s.pending ++ (s.committed act).toList = done ++ t.pending ∧
      t.Shows (done.foldl applyAll disk) := by
  cases act with
  | stage baddr blk =>
    simp only [JournalStore.step] at stepped
    split at stepped
    next staged =>
      obtain ⟨kept,pending,outside⟩ := sound.stage fits staged (Option.some.inj stepped).symm
      exact ⟨kept,fun disk shows => ⟨[],by simp [committed,pending],fun d out => (outside d out.2).trans (shows d out)⟩⟩
    · cases stepped
  | begin p =>
    obtain ⟨after,first,rfl⟩ := Option.map_eq_some_iff.mp stepped
    exact ⟨sound.begin positive first,fun disk shows => ⟨[],append_nil _,shows⟩⟩
  | data reqId =>
    obtain ⟨after,first,rest⟩ := Option.bind_eq_some_iff.mp stepped
    obtain ⟨p,current,written⟩ := Option.map_eq_some_iff.mp rest
    obtain ⟨kept,pending,outside⟩ := sound.data positive fits current first written.symm
    exact ⟨kept,fun disk shows => ⟨[],by simp [committed,pending],fun d out => (outside d out.1).trans (shows d out)⟩⟩
  | commit md =>
    obtain ⟨after,first,rest⟩ := Option.bind_eq_some_iff.mp stepped
    obtain ⟨p,current,rest⟩ := Option.bind_eq_some_iff.mp rest
    obtain ⟨e,last,rest⟩ := Option.bind_eq_some_iff.mp rest
    split at rest
    next placed =>
      obtain ⟨kept,pending,outside⟩ := sound.commit positive current first last placed (Option.some.inj rest).symm
      exact ⟨kept,fun disk shows =>
        ⟨[],by simp [committed,current,pending],fun d out => (outside d out.1).trans (shows d out)⟩⟩
    · cases rest
  | checkpoint =>
    simp only [JournalStore.step] at stepped
    split at stepped
    · cases stepped
    next tx rest oldest =>
      obtain ⟨after,first,rest⟩ := Option.bind_eq_some_iff.mp stepped
      obtain ⟨out,copied,applied⟩ := Option.map_eq_some_iff.mp rest
      obtain ⟨kept,pending,result⟩ := sound.checkpoint positive oldest first copied applied.symm
      refine ⟨kept,fun disk shows => ⟨[held s.disk tx],by simp [committed,pending],?_⟩⟩
      intro d outside
      rw [result]
      exact applyAll_agree _ shows d outside

end

/-- The oldest transaction can always be checkpointed. -/
theorem checkpoint_taken (maxIoBlks maxBufSize : Nat) (sound : s.Sound) (oldest : s.queue = tx :: rest) :
    ∃ t, s.step maxIoBlks maxBufSize .checkpoint = some t ∧ t.queue = rest := by
  have stored := sound.stored
  rw [oldest] at stored
  obtain ⟨e,es,⟨start,size,-⟩,-,first⟩ := forall₂_cons_right_iff.mp stored
  have laid := sound.log.queue.laid
  rw [first] at laid
  have tail : e.start = s.log.log.tail := laid.1
  obtain ⟨jLog,freed⟩ : ∃ jLog, freeJournalSpace s.log.log e.start (e.len * blockSize) = some jLog := by
    rw [freeJournalSpace,bytesToNblks_whole,Option.bind_some,if_neg (not_not.mpr tail)]
    exact ⟨_,rfl⟩
  have log : s.log.step maxIoBlks logs.journal .checkpoint = some { s.log with log := jLog, committed := es } := by
    simp [TxLog.step,sound.alive,first,freed]
  simp only [JournalStore.step,oldest,log,Option.bind_some,doCheckpointCoalesce_eq,release,start,size,freed,Option.map_some]
  exact ⟨_,rfl,rfl⟩

theorem drains (maxIoBlks maxBufSize : Nat) (positive : 0 < logs.journal.first) (sound : s.Sound) (shows : s.Shows view) :
    ∃ t, run (JournalStore.step maxIoBlks maxBufSize) s (replicate s.queue.length .checkpoint) = some t ∧ t.queue = [] ∧
      t.Shows (s.pending.foldl applyAll view) := by
  generalize waiting : s.queue = queue
  induction queue generalizing s view with
  | nil =>
    refine ⟨s,rfl,waiting,?_⟩
    rwa [JournalStore.pending,waiting]
  | cons tx rest ih =>
    obtain ⟨t,taken,later⟩ := sound.checkpoint_taken maxIoBlks maxBufSize waiting
    obtain ⟨kept,applied⟩ := sound.step positive (show s.Fits .checkpoint from trivial) taken
    obtain ⟨done,pending,seen⟩ := applied view shows
    obtain ⟨u,ran,empty,last⟩ := ih kept seen later
    refine ⟨u,?_,empty,?_⟩
    · rwa [length_cons,replicate_succ,run_cons _ taken]
    · have all : s.pending = done ++ t.pending := by simpa [committed] using pending
      rwa [all,foldl_append]

end Sound

/-- Whatever has been staged, sent, committed and checkpointed in between, the file-system area holds the first committed
transactions, each as a whole and in the order of their commits, and the logs hold all the others. Checkpointing these
cannot fail and leaves the effect of every transaction committed and of no other. -/
theorem committed_applied (maxIoBlks maxBufSize : Nat) (positive : 0 < logs.journal.first) (disk : Blks) (sbTxId : Nat)
    (acts : List (StoreAct logs)) (fits : Along (JournalStore.step maxIoBlks maxBufSize) Fits (init logs disk sbTxId) acts)
    (ran : run (JournalStore.step maxIoBlks maxBufSize) (init logs disk sbTxId) acts = some t) :
    (∃ done, yields (JournalStore.step maxIoBlks maxBufSize) committed (init logs disk sbTxId) acts = done ++ t.pending ∧
      t.Shows (done.foldl applyAll disk)) ∧
    ∃ u, run (JournalStore.step maxIoBlks maxBufSize) t (replicate t.queue.length .checkpoint) = some u ∧ u.queue = [] ∧
      u.Shows ((yields (JournalStore.step maxIoBlks maxBufSize) committed (init logs disk sbTxId) acts).foldl applyAll
        disk) := by
  have start : (init logs disk sbTxId).Sound := ⟨TxLog.init_invariant _,rfl,.nil,by simp [init]⟩
  have preserves : ∀ (s : JournalStore logs) act t, s.Sound → s.Fits act →
      s.step maxIoBlks maxBufSize act = some t → t.Sound :=
    fun s act t sound fits stepped => (sound.step positive fits stepped).1
  have sound := run_invariant _ _ _ preserves _ acts t start fits ran
  obtain ⟨done,all,shown⟩ := run_applies _ committed JournalStore.pending applyAll Shows Sound Fits preserves
    (fun s act t disk sound fits stepped shows => (sound.step positive fits stepped).2 disk shows) _ acts t disk start fits ran
    fun _ _ => rfl
  have all : yields (JournalStore.step maxIoBlks maxBufSize) committed (init logs disk sbTxId) acts = done ++ t.pending := all
  obtain ⟨u,drained,empty,last⟩ := sound.drains maxIoBlks maxBufSize positive shown
  refine ⟨⟨done,all,shown⟩,u,drained,empty,?_⟩
  rwa [all,foldl_append]

def oneTag : Payload sampleLogs where
  tx := ⟨5,10,0,[journalTag],[],fun _ => rfl,.inl (cons_ne_nil _ _),sampleLogs_journal,overwritten_fits,
    sampleLogs_apart,.nil,nofun,
    overwritten_outside⟩
  blks := [numbered 7]
  counted := rfl
  narrow := stagedTag_fits

/-- The second transaction is begun while the first fills the log, and sent once that has been checkpointed. -/
def twoCommits : List (StoreAct sampleLogs) :=
  [.stage 20 (numbered 1),.begin oneTag,.data 0,.commit numbered,.begin oneTag,.checkpoint,.data 0,.commit numbered]

theorem committed_applied_twoCommits :
    ∃ t, run (JournalStore.step 31 8192) (init sampleLogs numbered 5) twoCommits = some t ∧
    t.queue.length = 1 ∧ ∃ done, yields (JournalStore.step 31 8192) committed
    (init sampleLogs numbered 5) twoCommits = done ++ t.pending ∧
      t.Shows (done.foldl applyAll numbered) := by
  have one : (run (JournalStore.step 31 8192) (init sampleLogs numbered 5) twoCommits).map
      (fun t => t.queue.length) = some 1 := by decide
  obtain ⟨t,ran,left⟩ := Option.map_eq_some_iff.mp one
  exact ⟨t,ran,left,(committed_applied 31 8192 (by decide) numbered 5 twoCommits (by decide) ran).1⟩

end JournalStore

end Oxbow.DevFS.Ckpt
