import Mathlib.Data.List.Forall2
import Oxbow.Daemon.JournalMeta
import Oxbow.Daemon.StageTx

/-! The builder of a journal transaction. Blocks are copied into the data fetcher's buffers
and tagged in the metadata buffer; for file data the two are separate loops, and the second
one depends on what `get_blocks` answers. -/
namespace Oxbow.Daemon.JournalBuild

open Oxbow.Lib Oxbow.Sjd Oxbow.DevFS List Option
open JournalMeta (MdBuf bufBlocks Held Next)
open Stage (RangeDirty Ird BufferExtent)

def nblksToBytes (nBlks : Nat) : Nat := nBlks * 4096

structure Fetch (β : Type) where
  reqId : Nat
  size : Nat
  blks : List β

structure JournalTx (β : Type) where
  md : MdBuf
  traceBlk : Bool
  cur : List β
  nrBlocks : Nat
  usedBlkCnt : Nat
  nrSentBlks : Nat
  nDfBufs : Nat
  requests : List (Fetch β)

section

variable (tx : JournalTx β)

def txAllocBuffer : JournalTx β :=
  { tx with cur := [], nrBlocks := bufBlocks, nDfBufs := tx.nDfBufs + 1 }

/-- No answer if there is nothing to send, which the callers assert not to happen. -/
def requestDataFetch : Option (JournalTx β) :=
  let nBlksToSend := (((tx.usedBlkCnt : Int) - tx.nrSentBlks) % 2^32).toNat
  if nBlksToSend = 0 then none
  else some { tx with
    nrSentBlks := tx.nrSentBlks + nBlksToSend
    requests := tx.requests ++ [⟨tx.nDfBufs - 1,nblksToBytes nBlksToSend,tx.cur.take nBlksToSend⟩] }

def storeBlk (src : β) : JournalTx β :=
  { tx with cur := tx.cur ++ [src], usedBlkCnt := u32 (tx.usedBlkCnt + 1), nrBlocks := tx.nrBlocks - 1 }

def copyBlk (src : β) : Option (JournalTx β) :=
  if tx.nrBlocks < 1 then none
  else if (storeBlk tx src).nrBlocks = 0 then (requestDataFetch (storeBlk tx src)).map txAllocBuffer
  else some (storeBlk tx src)

end

def copyDataBlks (data : Nat → β) : Nat → Nat → JournalTx β → Option (JournalTx β)
  | _, 0, tx => some tx
  | start, cnt + 1, tx => (copyBlk tx (data start)).bind (copyDataBlks data (start + 1) cnt)

def fillTagblk (tx : JournalTx β) (tag : Extent) : Option (JournalTx β) :=
  (JournalMeta.fillTagblk tx.md tag).map fun md => { tx with md := md }

structure BufferHead (β : Type) where
  bBlocknr : Nat
  bData : β
  dirty : Bool
  addressable : bBlocknr < 2^64

def snapshotBlocks (pick : BufferHead β → Bool) : List (BufferHead β) → JournalTx β → Option (JournalTx β)
  | [], tx => some tx
  | bh :: rest, tx =>
    if pick bh then
      (copyBlk tx bh.bData).bind fun tx => (fillTagblk tx ⟨bh.bBlocknr,1⟩).bind (snapshotBlocks pick rest)
    else snapshotBlocks pick rest tx

def snapshotMetadataBlocks (privateList : List (BufferHead β)) : JournalTx β → Option (JournalTx β) :=
  snapshotBlocks (fun _ => true) privateList

def snapshotInodeBlocks (jBlks : List (BufferHead β)) : JournalTx β → Option (JournalTx β) :=
  snapshotBlocks (fun _ => true) jBlks

/-- A call of `get_blocks` with its result; an extent contains the block asked for. -/
structure Call where
  ino : Nat
  start : Nat
  result : Option BufferExtent
  contains : ∀ be ∈ result, be.iblock ≤ start ∧ start < be.iblock + be.nr
  addressable : ∀ be ∈ result, be.lba + be.nr ≤ 2^64

def copyRun (data : Nat → β) : Nat → Nat → Nat → JournalTx β → Option (JournalTx β)
  | 0, _, cnt, tx => if cnt = 0 then some tx else none
  | rounds + 1, start, cnt, tx =>
    if tx.nrBlocks < cnt then
      (copyDataBlks data start tx.nrBlocks tx).bind
        (copyRun data rounds (start + tx.nrBlocks) (cnt - tx.nrBlocks))
    else copyDataBlks data start cnt tx

/-- The tag loop for one run; the flag is down when `get_blocks` fails, and the function
returns. The calls still to come are handed on. -/
def tagRun (ino : Nat) (start cnt : Nat) (tx : JournalTx β) : List Call → Option (Bool × JournalTx β × List Call)
  | [] => none
  | call :: calls =>
    if call.ino = ino ∧ call.start = start then
      match call.result with
      | none => some (false,tx,calls)
      | some be =>
        if start + cnt ≤ be.iblock + be.nr then
          (fillTagblk tx ⟨be.lba + start - be.iblock,cnt⟩).map fun tx => (true,tx,calls)
        else
          let tmp := be.iblock + be.nr - start
          (fillTagblk tx ⟨be.lba + start - be.iblock,tmp⟩).bind fun tx =>
            tagRun ino (start + tmp) (cnt - tmp) tx calls
    else none

def journalRun (data : Nat → β) (ino : Nat) (rd : RangeDirty) (tx : JournalTx β) (calls : List Call) :
    Option (Bool × JournalTx β × List Call) :=
  if rd.nr = 0 then some (true,tx,calls)
  else (copyRun data rd.nr rd.start rd.nr tx).bind fun tx => tagRun ino rd.start rd.nr tx calls

def journalNode (data : Nat → β) (ino : Nat) : List RangeDirty → JournalTx β → List Call →
    Option (Bool × JournalTx β × List Call)
  | [], tx, calls => some (true,tx,calls)
  | rd :: rest, tx, calls =>
    (journalRun data ino rd tx calls).bind fun r =>
      if r.1 then journalNode data ino rest r.2.1 r.2.2 else some r

def journalFileData (data : Nat → β) (ino : Nat) : List (List RangeDirty) → JournalTx β → List Call →
    Option (JournalTx β × List Call)
  | [], tx, calls => some (tx,calls)
  | node :: next, tx, calls =>
    (journalNode data ino node tx calls).bind fun r =>
      if r.1 ∧ next.head?.getD [] ≠ [] then journalFileData data ino next r.2.1 r.2.2 else some r.2

structure RegFile (β : Type) where
  ino : Nat
  gone : Bool
  shmHeader : Bool
  failed : Bool
  iStageList : List Nat
  inJtxDirtyList : Bool
  regFails : Bool
  privateList : List (BufferHead β)
  journalDirty : Ird
  starts : ∀ start ∈ iStageList, number64.Storable start

structure DirFile (β : Type) where
  deleted : Bool
  writeFails : Bool
  privateList : List (BufferHead β)

inductive File (β : Type)
  | reg (f : RegFile β)
  | dir (d : DirFile β)

def journalRegInode (f : RegFile β) (tx : JournalTx β) : Option (JournalTx β) :=
  if f.regFails then none else snapshotBlocks BufferHead.dirty f.privateList tx

def journalStageTrace (f : RegFile β) (tx : JournalTx β) : Option (JournalTx β) :=
  if f.iStageList = [] then some tx
  else (JournalMeta.journalStageTrace tx.md f.iStageList).map fun md => { tx with md := md, traceBlk := true }

def buildJtxRegularFile (data : Nat → Nat → β) (f : RegFile β) (tx : JournalTx β) (calls : List Call) :
    Option (JournalTx β × List Call) :=
  if f.gone then some (tx,calls)
  else if !f.shmHeader then if f.failed then none else some (tx,calls)
  else if !f.inJtxDirtyList ∧ f.iStageList = [] then none
  else (journalRegInode f tx).bind fun tx =>
    (journalStageTrace f tx).bind fun tx =>
      journalFileData (data f.ino) f.ino f.journalDirty.nodes tx calls

def buildJtxDirectory (d : DirFile β) (tx : JournalTx β) : Option (JournalTx β) :=
  if d.deleted then some tx
  else if d.writeFails then none
  else snapshotBlocks BufferHead.dirty d.privateList tx

def buildTxFromFile (data : Nat → Nat → β) (tx : JournalTx β) (calls : List Call) :
    File β → Option (JournalTx β × List Call)
  | .reg f => buildJtxRegularFile data f tx calls
  | .dir d => (buildJtxDirectory d tx).map fun tx => (tx,calls)

def buildFiles (data : Nat → Nat → β) : List (File β) → JournalTx β → List Call → Option (JournalTx β × List Call)
  | [], tx, calls => some (tx,calls)
  | file :: rest, tx, calls =>
    (buildTxFromFile data tx calls file).bind fun r => buildFiles data rest r.1 r.2

structure Source (β : Type) where
  privateList : List (BufferHead β)
  files : List (File β)
  jBlks : List (BufferHead β)
  data : Nat → Nat → β

def start (memory : Nat → Page) : JournalTx β := ⟨JournalMeta.init memory,false,[],bufBlocks,0,0,1,[]⟩

def buildTransaction (memory : Nat → Page) (src : Source β) (calls : List Call) : Option (JournalTx β × List Call) :=
  (snapshotMetadataBlocks src.privateList (start memory)).bind fun tx =>
    (buildFiles src.data src.files tx calls).bind fun r =>
      (snapshotInodeBlocks src.jBlks r.1).map fun tx => (tx,r.2)

/-- A transaction with neither data nor stage transactions is discarded. -/
def Sent (tx : JournalTx β) : Prop := ¬ (tx.usedBlkCnt = 0 ∧ tx.traceBlk = false)

def copied (tx : JournalTx β) : List β := tx.requests.flatMap Fetch.blks ++ tx.cur

def tags (tx : JournalTx β) : List Extent := journalDescBlk.entries tx.md.descBlk ++ etagsOf tx.md.blks

/-- Data and tags agree in number and block by block. -/
def Aligned (belongs : Nat → β → Prop) (tx : JournalTx β) : Prop :=
  blocks (tags tx) = tx.usedBlkCnt ∧
    ∀ (k : Nat) (b : β), (copied tx)[k]? = some b →
      ∃ a, ((tags tx).flatMap Extent.addresses)[k]? = some a ∧ belongs a b

def File.buffers : File β → List (BufferHead β)
  | .reg f => f.privateList
  | .dir d => d.privateList

def File.blocks : File β → Nat
  | .reg f =>
    if f.gone ∨ f.shmHeader = false then 0
    else (f.privateList.filter BufferHead.dirty).length + (f.journalDirty.nodes.flatten.map RangeDirty.nr).sum
  | .dir d => if d.deleted then 0 else (d.privateList.filter BufferHead.dirty).length

def Source.blocks (src : Source β) : Nat :=
  src.privateList.length + (src.files.map File.blocks).sum + src.jBlks.length

/-- What belongs to which address: a buffer to its block, a page to the block that an answer
of `get_blocks` maps it to. -/
structure Places (belongs : Nat → β → Prop) (src : Source β) (calls : List Call) : Prop where
  privateList : ∀ bh ∈ src.privateList, belongs bh.bBlocknr bh.bData
  files : ∀ file ∈ src.files, ∀ bh ∈ file.buffers, belongs bh.bBlocknr bh.bData
  jBlks : ∀ bh ∈ src.jBlks, belongs bh.bBlocknr bh.bData
  pages : ∀ call ∈ calls, ∀ be ∈ call.result, ∀ p, be.iblock ≤ p → p < be.iblock + be.nr →
    belongs (be.lba + (p - be.iblock)) (src.data call.ino p)

structure Sound (tx : JournalTx β) : Prop where
  room : 0 < tx.nrBlocks
  size : tx.cur.length + tx.nrBlocks = bufBlocks
  sent : tx.nrSentBlks = (tx.requests.flatMap Fetch.blks).length
  used : tx.usedBlkCnt = (copied tx).length % 2^32
  full : ∀ r ∈ tx.requests, r.blks.length = bufBlocks ∧ r.size = nblksToBytes bufBlocks
  ids : tx.requests.map Fetch.reqId = List.range tx.requests.length
  bufs : tx.nDfBufs = tx.requests.length + 1
  held : ∃ starts, Held tx.md (tags tx) starts
  next : Next tx.md

structure Adds (tx tx' : JournalTx β) (bs : List β) (ts : List Extent) : Prop where
  sound : Sound tx'
  copied : copied tx' = copied tx ++ bs
  tags : tags tx' = tags tx ++ ts

variable {tx tx' tx'' : JournalTx β}

theorem Adds.refl (sound : Sound tx) : Adds tx tx [] [] := ⟨sound,by simp,by simp⟩

theorem Adds.trans (first : Adds tx tx' bs ts) (second : Adds tx' tx'' cs us) : Adds tx tx'' (bs ++ cs) (ts ++ us) :=
  ⟨second.sound,by rw [second.copied,first.copied,append_assoc],by rw [second.tags,first.tags,append_assoc]⟩

theorem bufBlocks_pos : 0 < bufBlocks := by decide

theorem start_sound (memory : Nat → Page) : Sound (start memory : JournalTx β) ∧
    copied (start memory : JournalTx β) = [] ∧
    tags (start memory : JournalTx β) = [] := by
  obtain ⟨held,next⟩ := JournalMeta.init_held memory
  have none : tags (start memory : JournalTx β) = [] := held.tags
  refine ⟨⟨bufBlocks_pos,by simp [start],rfl,by simp [start,copied],by simp [start],rfl,rfl,⟨[],?_⟩,next⟩,rfl,none⟩
  rw [none]
  exact held

theorem copied_storeBlk (tx : JournalTx β) (b : β) : copied (storeBlk tx b) = copied tx ++ [b] := by
  simp [copied,storeBlk]

theorem storeBlk_used (sound : Sound tx) (b : β) :
    (storeBlk tx b).usedBlkCnt = (copied (storeBlk tx b)).length % 2^32 := by
  rw [copied_storeBlk]
  simp only [storeBlk,u32,sound.used,length_append,length_singleton]
  omega

theorem unsent_eq (sent : tx.nrSentBlks = (tx.requests.flatMap Fetch.blks).length)
    (used : tx.usedBlkCnt = (copied tx).length % 2^32) (small : tx.cur.length < 2^32) :
    (((tx.usedBlkCnt : Int) - tx.nrSentBlks) % 2^32).toNat = tx.cur.length := by
  have all : (copied tx).length = tx.nrSentBlks + tx.cur.length := by
    rw [copied,length_append,sent]
  rw [used,all]
  omega

theorem requestDataFetch_full (sound : Sound tx) (b : β) :
    requestDataFetch (storeBlk tx b) = some { storeBlk tx b with
      nrSentBlks := tx.nrSentBlks + (tx.cur.length + 1)
      requests := tx.requests ++ [⟨tx.nDfBufs - 1,nblksToBytes (tx.cur.length + 1),tx.cur ++ [b]⟩] } := by
  have length : (storeBlk tx b).cur.length = tx.cur.length + 1 := by simp [storeBlk]
  have small : tx.cur.length + 1 < 2^32 := by
    have size := sound.size
    have room := sound.room
    simp only [bufBlocks] at size
    omega
  have whole := @unsent_eq β (storeBlk tx b) sound.sent (storeBlk_used sound b) (by rw [length]; exact small)
  rw [length] at whole
  have taken : (tx.cur ++ [b]).take (tx.cur.length + 1) = tx.cur ++ [b] := take_of_length_le (by simp)
  simp only [requestDataFetch,whole]
  simp [storeBlk,taken]

theorem copyBlk_adds (sound : Sound tx) (b : β) : ∃ tx', copyBlk tx b = some tx' ∧ Adds tx tx' [b] [] := by
  have used := storeBlk_used sound b
  have stored := copied_storeBlk tx b
  rw [copyBlk,if_neg (Nat.not_lt.mpr sound.room)]
  by_cases full : (storeBlk tx b).nrBlocks = 0
  · rw [if_pos full,requestDataFetch_full sound b]
    have same : copied (txAllocBuffer { storeBlk tx b with
        nrSentBlks := tx.nrSentBlks + (tx.cur.length + 1)
        requests := tx.requests ++ [⟨tx.nDfBufs - 1,nblksToBytes (tx.cur.length + 1),tx.cur ++ [b]⟩] }) = copied
          (storeBlk tx b) := by
      simp [copied,txAllocBuffer,storeBlk]
    have filled : tx.cur.length + 1 = bufBlocks := by
      have size := sound.size
      have room := sound.room
      have none : tx.nrBlocks - 1 = 0 := full
      omega
    refine ⟨_,rfl,
      ⟨⟨bufBlocks_pos,by simp [txAllocBuffer],?_,?_,?_,?_,?_,sound.held,sound.next⟩,same.trans stored,?_⟩⟩
    · simp [txAllocBuffer,sound.sent]
    · rw [same]
      exact used
    · intro r member
      rcases mem_append.mp member with earlier | last
      · exact sound.full r earlier
      · obtain rfl := mem_singleton.mp last
        exact ⟨by rw [length_append]; exact filled,by rw [filled]⟩
    · simp [txAllocBuffer,sound.ids,sound.bufs,range_succ]
    · simp [txAllocBuffer,storeBlk,sound.bufs]
    · simp [tags,txAllocBuffer,storeBlk]
  · rw [if_neg full]
    refine ⟨_,rfl,
      ⟨⟨Nat.pos_of_ne_zero full,?_,sound.sent,used,sound.full,sound.ids,sound.bufs,sound.held,sound.next⟩,stored,
      by simp [tags,storeBlk]⟩⟩
    have size := sound.size
    have room := sound.room
    simp only [storeBlk,length_append,length_singleton]
    omega

theorem fillTagblk_adds (sound : Sound tx) (storable : extent96.Storable tag)
    (done : fillTagblk tx tag = some tx') : Adds tx tx' [] [tag] := by
  obtain ⟨md,filled,rfl⟩ := map_eq_some_iff.mp done
  obtain ⟨starts,held⟩ := sound.held
  obtain ⟨held,next⟩ := JournalMeta.fillTagblk_held held sound.next storable filled
  have added : tags { tx with md := md } = tags tx ++ [tag] := held.tags
  refine ⟨⟨sound.room,sound.size,sound.sent,sound.used,sound.full,sound.ids,sound.bufs,⟨starts,?_⟩,next⟩,
    by simp [copied],added⟩
  rw [added]
  exact held

theorem copyDataBlks_adds (data : Nat → β) (start cnt : Nat) (sound : Sound tx) :
    ∃ tx', copyDataBlks data start cnt tx = some tx' ∧ Adds tx tx' ((List.range' start cnt).map data) [] := by
  induction cnt generalizing start tx with
  | zero => exact ⟨tx,rfl,.refl sound⟩
  | succ cnt ih =>
    obtain ⟨t,first,one⟩ := copyBlk_adds sound (data start)
    obtain ⟨tx',later,rest⟩ := ih (start + 1) one.sound
    refine ⟨tx',by simp [copyDataBlks,first,later],?_⟩
    simpa [List.range'_succ] using one.trans rest

/-- However a run is split over the buffers, its pages are copied in order. -/
theorem copyRun_adds (data : Nat → β) (rounds start cnt : Nat) (enough : cnt ≤ rounds) (sound : Sound tx) :
    ∃ tx', copyRun data rounds start cnt tx = some tx' ∧ Adds tx tx' ((List.range' start cnt).map data) [] := by
  induction rounds generalizing start cnt tx with
  | zero =>
    obtain rfl := Nat.le_zero.mp enough
    exact ⟨tx,rfl,.refl sound⟩
  | succ rounds ih =>
    rw [copyRun]
    by_cases more : tx.nrBlocks < cnt
    · have room := sound.room
      obtain ⟨t,first,piece⟩ := copyDataBlks_adds data start tx.nrBlocks sound
      obtain ⟨tx',later,rest⟩ := ih (start + tx.nrBlocks) (cnt - tx.nrBlocks) (by omega) piece.sound
      refine ⟨tx',by simp [more,first,later],?_⟩
      rw [show cnt = tx.nrBlocks + (cnt - tx.nrBlocks) by omega,← List.range'_append_1,map_append]
      exact piece.trans rest
    · rw [if_neg more]
      exact copyDataBlks_adds data start cnt sound

inductive Part (belongs : Nat → β → Prop) (made : List Call) (n : Nat) (bs : List β) (ts : List Extent) : Prop
  | answered (all : ∀ call ∈ made, call.result.isSome) (length : bs.length = n)
      (aligned : List.Forall₂ belongs (ts.flatMap Extent.addresses) bs)
  | failed (call : Call) (member : call ∈ made) (failure : call.result = none) (fewer : blocks ts < bs.length)

variable {belongs : Nat → β → Prop}

theorem length_addresses (ts : List Extent) : (ts.flatMap Extent.addresses).length = blocks ts := by
  simp [length_flatMap,Extent.addresses,blocks]

theorem Part.le (part : Part belongs made n bs ts) : blocks ts ≤ bs.length := by
  cases part with
  | answered _ _ aligned => exact (length_addresses ts ▸ aligned.length_eq).le
  | failed _ _ _ fewer => exact fewer.le

theorem Part.append (first : Part belongs made n bs ts) (second : Part belongs later m cs us) :
    Part belongs (made ++ later) (n + m) (bs ++ cs) (ts ++ us) := by
  have lower := first.le
  have upper := second.le
  cases first with
  | failed call member failure fewer =>
    refine .failed call (mem_append_left _ member) failure ?_
    rw [blocks_append,length_append]
    omega
  | answered all length aligned =>
    cases second with
    | failed call member failure fewer =>
      refine .failed call (mem_append_right _ member) failure ?_
      rw [blocks_append,length_append]
      omega
    | answered all' length' aligned' =>
      refine .answered ?_ (by simp [length,length']) ?_
      · intro call member
        rcases mem_append.mp member with earlier | after
        · exact all call earlier
        · exact all' call after
      · rw [flatMap_append]
        exact rel_append aligned aligned'

def Built (belongs : Nat → β → Prop) (calls rest : List Call) (n : Nat) (tx tx' : JournalTx β) : Prop :=
  ∃ made bs ts, calls = made ++ rest ∧ Adds tx tx' bs ts ∧ Part belongs made n bs ts

theorem Built.sound (built : Built belongs calls rest n tx tx') : Sound tx' := by
  obtain ⟨made,bs,ts,split,adds,part⟩ := built
  exact adds.sound

theorem Built.rest_subset (built : Built belongs calls rest n tx tx') : ∀ call ∈ rest, call ∈ calls := by
  obtain ⟨made,bs,ts,rfl,adds,part⟩ := built
  exact fun call member => mem_append_right made member

theorem Built.refl (sound : Sound tx) : Built belongs calls calls 0 tx tx :=
  ⟨[],[],[],rfl,.refl sound,.answered (by simp) rfl (by simp)⟩

theorem Built.trans (first : Built belongs calls mid n tx tx') (second : Built belongs mid rest m tx' tx'') :
    Built belongs calls rest (n + m) tx tx'' := by
  obtain ⟨made,bs,ts,rfl,adds,part⟩ := first
  obtain ⟨made',bs',ts',rfl,adds',part'⟩ := second
  exact ⟨made ++ made',bs ++ bs',ts ++ ts',by simp,adds.trans adds',part.append part'⟩

def Failed (calls rest : List Call) : Prop := ∃ made, calls = made ++ rest ∧ ∃ call ∈ made, call.result = none

theorem Built.failed (built : Built belongs calls rest n tx tx') (failed : Failed calls rest) (m : Nat) :
    Built belongs calls rest m tx tx' := by
  obtain ⟨made,bs,ts,rfl,adds,part⟩ := built
  obtain ⟨made',same,call,member,failure⟩ := failed
  obtain rfl := append_cancel_right same
  cases part with
  | answered all _ _ => simpa [failure] using all call member
  | failed call member failure fewer => exact ⟨made,bs,ts,rfl,adds,.failed call member failure fewer⟩

theorem snapshotBlocks_built (pick : BufferHead β → Bool) (bhs : List (BufferHead β))
    (places : ∀ bh ∈ bhs, belongs bh.bBlocknr bh.bData) (sound : Sound tx) (done : snapshotBlocks pick bhs tx = some tx') :
    Built belongs calls calls (bhs.filter pick).length tx tx' := by
  induction bhs generalizing tx with
  | nil =>
    obtain rfl := some.inj done
    exact .refl sound
  | cons bh bhs ih =>
    rw [forall_mem_cons] at places
    simp only [snapshotBlocks] at done
    split at done
    next picked =>
      obtain ⟨t,copy,block⟩ := copyBlk_adds sound bh.bData
      rw [copy,bind_some] at done
      obtain ⟨u,filled,done⟩ := bind_eq_some_iff.mp done
      have tag := fillTagblk_adds block.sound ⟨bh.addressable,by simp⟩ filled
      have one : Built belongs calls calls 1 tx u :=
        ⟨[],_,_,rfl,block.trans tag,.answered (by simp) rfl (by simp [Extent.addresses,places.1])⟩
      rw [filter_cons_of_pos picked,length_cons,Nat.add_comm]
      exact one.trans (ih places.2 tag.sound done)
    next left =>
      rw [filter_cons_of_neg left]
      exact ih places.2 sound done

theorem piece_aligned {be : BufferExtent} {start cnt : Nat} (before : be.iblock ≤ start)
    (inside : start + cnt ≤ be.iblock + be.nr)
    (places : ∀ p, be.iblock ≤ p → p < be.iblock + be.nr → belongs (be.lba + (p - be.iblock)) (data p)) :
    List.Forall₂ belongs (⟨be.lba + start - be.iblock,cnt⟩ : Extent).addresses ((List.range' start cnt).map data) := by
  rw [Extent.addresses,List.range'_eq_map_range,List.map_map,List.forall₂_map_left_iff,List.forall₂_map_right_iff]
  refine forall₂_same.mpr fun k member => ?_
  have small : k < cnt := mem_range.mp member
  have place := places (start + k) (by omega) (by omega)
  rw [show be.lba + start - be.iblock + k = be.lba + (start + k - be.iblock) by omega]
  exact place

def Answers (belongs : Nat → β → Prop) (ino : Nat) (data : Nat → β) (calls : List Call) : Prop :=
  ∀ call ∈ calls, ∀ be ∈ call.result, ∀ p, be.iblock ≤ p → p < be.iblock + be.nr → call.ino = ino →
    belongs (be.lba + (p - be.iblock)) (data p)

theorem tagRun_tags {ino start cnt : Nat} (positive : 0 < cnt) (small : cnt < 2^32)
    (places : Answers belongs ino data calls) (sound : Sound tx) (done : tagRun ino start cnt tx calls = some (ok,tx',rest)) :
    ∃ made ts, calls = made ++ rest ∧ Adds tx tx' [] ts ∧
      (if ok then (∀ call ∈ made, call.result.isSome) ∧
          List.Forall₂ belongs (ts.flatMap Extent.addresses) ((List.range' start cnt).map data)
        else (∃ call ∈ made, call.result = none) ∧ blocks ts < cnt) := by
  induction calls generalizing tx start cnt with
  | nil => simp [tagRun] at done
  | cons call calls ih =>
    rw [Answers,forall_mem_cons] at places
    simp only [tagRun] at done
    obtain ⟨asked,done⟩ := ite_none_right_eq_some.mp done
    obtain ⟨rfl,rfl⟩ := asked
    split at done
    next failure =>
      simp only [some.injEq,Prod.mk.injEq] at done
      obtain ⟨rfl,rfl,rfl⟩ := done
      exact ⟨[call],[],rfl,.refl sound,by simpa [failure] using positive⟩
    next be answer =>
      have contains := call.contains be answer
      have addressable := call.addressable be answer
      have place := fun p low high => places.1 be answer p low high rfl
      split at done
      next whole =>
        obtain ⟨t,filled,same⟩ := map_eq_some_iff.mp done
        simp only [Prod.mk.injEq] at same
        obtain ⟨rfl,rfl,rfl⟩ := same
        have tag := fillTagblk_adds sound ⟨by simp only; omega,small⟩ filled
        refine ⟨[call],_,rfl,tag,?_⟩
        simpa [answer] using piece_aligned contains.1 whole place
      next more =>
        obtain ⟨t,filled,done⟩ := bind_eq_some_iff.mp done
        generalize size : be.iblock + be.nr - call.start = tmp at filled done
        have tag := fillTagblk_adds sound ⟨by simp only; omega,by simp only; omega⟩ filled
        obtain ⟨made,ts,rfl,adds,result⟩ := ih (by omega) (by omega) places.2 tag.sound done
        refine ⟨call :: made,_,rfl,tag.trans adds,?_⟩
        split at result
        next up =>
          rw [if_pos up]
          refine ⟨forall_mem_cons.mpr ⟨by simp [answer],result.1⟩,?_⟩
          rw [show cnt = tmp + (cnt - tmp) by omega,← List.range'_append_1,map_append]
          simp only [singleton_append,flatMap_cons]
          exact rel_append (piece_aligned contains.1 (by omega) place) result.2
        next down =>
          rw [if_neg down]
          obtain ⟨⟨failing,member,failure⟩,fewer⟩ := result
          refine ⟨⟨failing,mem_cons_of_mem _ member,failure⟩,?_⟩
          simp only [singleton_append,blocks_cons]
          omega

theorem Answers.remaining (places : Answers belongs ino data calls) (built : Built belongs calls rest n tx tx') :
    Answers belongs ino data rest :=
  fun call member => places call (built.rest_subset call member)

theorem journalRun_built (rd : RangeDirty) (places : Answers belongs ino data calls) (sound : Sound tx)
    (done : journalRun data ino rd tx calls = some (ok,tx',rest)) :
    Built belongs calls rest rd.nr tx tx' ∧ (ok = false → Failed calls rest) := by
  simp only [journalRun] at done
  split at done
  next none =>
    simp only [some.injEq,Prod.mk.injEq] at done
    obtain ⟨rfl,rfl,rfl⟩ := done
    exact ⟨none ▸ .refl sound,by simp⟩
  next some =>
    obtain ⟨t,copy,pages⟩ := copyRun_adds data rd.nr rd.start rd.nr (Nat.le_refl _) sound
    rw [copy,bind_some] at done
    have small := rd.fits
    obtain ⟨made,ts,rfl,adds,result⟩ := tagRun_tags (Nat.pos_of_ne_zero some) (by omega) places pages.sound done
    have both := pages.trans adds
    rw [append_nil,nil_append] at both
    cases ok with
    | true => exact ⟨⟨made,_,ts,rfl,both,.answered result.1 (by simp) result.2⟩,by simp⟩
    | false =>
      obtain ⟨⟨call,member,failure⟩,fewer⟩ := result
      exact ⟨⟨made,_,ts,rfl,both,.failed call member failure (by simpa using fewer)⟩,fun _ =>
        ⟨made,rfl,call,member,failure⟩⟩

theorem Failed.after (built : Built belongs calls mid n tx tx') (failed : Failed mid rest) : Failed calls rest := by
  obtain ⟨made,bs,ts,rfl,adds,part⟩ := built
  obtain ⟨made',rfl,call,member,failure⟩ := failed
  exact ⟨made ++ made',by simp,call,mem_append_right _ member,failure⟩

theorem journalNode_built (node : List RangeDirty) (places : Answers belongs ino data calls) (sound : Sound tx)
    (done : journalNode data ino node tx calls = some (ok,tx',rest)) :
    Built belongs calls rest (node.map RangeDirty.nr).sum tx tx' ∧ (ok = false → Failed calls rest) := by
  induction node generalizing tx calls with
  | nil =>
    simp only [journalNode,some.injEq,Prod.mk.injEq] at done
    obtain ⟨rfl,rfl,rfl⟩ := done
    exact ⟨.refl sound,by simp⟩
  | cons rd node ih =>
    obtain ⟨⟨up,t,mid⟩,first,done⟩ := bind_eq_some_iff.mp done
    obtain ⟨run,failing⟩ := journalRun_built rd places sound first
    rw [map_cons,sum_cons]
    cases up with
    | true =>
      obtain ⟨later,failing'⟩ := ih (places.remaining run) run.sound done
      exact ⟨run.trans later,fun down => .after run (failing' down)⟩
    | false =>
      simp only [Bool.false_eq_true,if_false,some.injEq,Prod.mk.injEq] at done
      obtain ⟨rfl,rfl,rfl⟩ := done
      exact ⟨run.failed (failing rfl) _,failing⟩

theorem journalFileData_built (node : List RangeDirty) (next : List (List RangeDirty)) (filled : ∀ n ∈ next, n ≠ [])
    (places : Answers belongs ino data calls) (sound : Sound tx)
    (done : journalFileData data ino (node :: next) tx calls = some (tx',rest)) :
    Built belongs calls rest ((node :: next).flatten.map RangeDirty.nr).sum tx tx' := by
  induction next generalizing node tx calls with
  | nil =>
    obtain ⟨⟨up,t,mid⟩,first,done⟩ := bind_eq_some_iff.mp done
    simp only [List.head?_nil,getD_none,ne_eq,not_true,and_false,if_false,some.injEq,Prod.mk.injEq] at done
    obtain ⟨rfl,rfl⟩ := done
    simpa using (journalNode_built node places sound first).1
  | cons n next ih =>
    rw [forall_mem_cons] at filled
    obtain ⟨⟨up,t,mid⟩,first,done⟩ := bind_eq_some_iff.mp done
    obtain ⟨run,failing⟩ := journalNode_built node places sound first
    rw [flatten_cons,map_append,sum_append]
    cases up with
    | true =>
      rw [if_pos ⟨rfl,filled.1⟩] at done
      exact run.trans (ih n filled.2 (places.remaining run) run.sound done)
    | false =>
      simp only [Bool.false_eq_true,false_and,if_false,some.injEq,Prod.mk.injEq] at done
      obtain ⟨rfl,rfl⟩ := done
      exact run.failed (failing rfl) _

theorem journalStageTrace_built (f : RegFile β) (sound : Sound tx) (done : journalStageTrace f tx = some tx') :
    Built belongs calls calls 0 tx tx' := by
  simp only [journalStageTrace] at done
  split at done
  next none =>
    obtain rfl := some.inj done
    exact .refl sound
  next some =>
    obtain ⟨md,traced,rfl⟩ := map_eq_some_iff.mp done
    obtain ⟨starts,held⟩ := sound.held
    have valid : (JournalMeta.Op.trace f.iStageList).Valid := ⟨some,f.starts⟩
    obtain ⟨held,next⟩ := JournalMeta.apply_held valid held sound.next traced
    have same : tags { tx with md := md, traceBlk := true } = tags tx := held.tags.trans (append_nil _)
    refine ⟨[],[],[],rfl,⟨⟨sound.room,sound.size,sound.sent,sound.used,sound.full,sound.ids,sound.bufs,
      ⟨starts ++ f.iStageList,?_⟩,next⟩,?_,?_⟩,.answered (by simp) rfl (by simp)⟩
    · rw [same]
      simpa [JournalMeta.Op.tags,JournalMeta.Op.starts] using held
    · simp [copied]
    · simp [same]

theorem buildTxFromFile_built {data : Nat → Nat → β} (file : File β)
    (buffers : ∀ bh ∈ file.buffers, belongs bh.bBlocknr bh.bData)
    (places : ∀ ino, Answers belongs ino (data ino) calls) (sound : Sound tx)
    (done : buildTxFromFile data tx calls file = some (tx',rest)) : Built belongs calls rest file.blocks tx tx' := by
  cases file with
  | dir d =>
    obtain ⟨t,built,same⟩ := map_eq_some_iff.mp done
    simp only [Prod.mk.injEq] at same
    obtain ⟨rfl,rfl⟩ := same
    simp only [buildJtxDirectory] at built
    simp only [File.blocks]
    split at built
    next deleted =>
      obtain rfl := some.inj built
      rw [if_pos deleted]
      exact .refl sound
    next there =>
      rw [if_neg there]
      obtain ⟨-,built⟩ := ite_none_left_eq_some.mp built
      exact snapshotBlocks_built _ d.privateList buffers sound built
  | reg f =>
    simp only [buildTxFromFile,buildJtxRegularFile,journalRegInode] at done
    simp only [File.blocks]
    split at done
    next gone =>
      simp only [some.injEq,Prod.mk.injEq] at done
      obtain ⟨rfl,rfl⟩ := done
      rw [if_pos (.inl gone)]
      exact .refl sound
    next there =>
      split at done
      next unmapped =>
        obtain ⟨-,done⟩ := ite_none_left_eq_some.mp done
        simp only [some.injEq,Prod.mk.injEq] at done
        obtain ⟨rfl,rfl⟩ := done
        rw [if_pos (.inr (by simpa using unmapped))]
        exact .refl sound
      next mapped =>
        rw [if_neg (by simpa [there] using mapped)]
        obtain ⟨-,done⟩ := ite_none_left_eq_some.mp done
        obtain ⟨t,indexed,done⟩ := bind_eq_some_iff.mp done
        obtain ⟨u,traced,done⟩ := bind_eq_some_iff.mp done
        obtain ⟨-,indexed⟩ := ite_none_left_eq_some.mp indexed
        have index : Built belongs calls calls _ tx t := snapshotBlocks_built _ f.privateList buffers sound indexed
        have trace : Built belongs calls calls 0 t u := journalStageTrace_built f index.sound traced
        exact (index.trans trace).trans
          (journalFileData_built _ _ f.journalDirty.filled (places f.ino) trace.sound done)

theorem buildFiles_built {data : Nat → Nat → β} (files : List (File β))
    (buffers : ∀ file ∈ files, ∀ bh ∈ file.buffers, belongs bh.bBlocknr bh.bData)
    (places : ∀ ino, Answers belongs ino (data ino) calls) (sound : Sound tx)
    (done : buildFiles data files tx calls = some (tx',rest)) :
    Built belongs calls rest (files.map File.blocks).sum tx tx' := by
  induction files generalizing tx calls with
  | nil =>
    simp only [buildFiles,some.injEq,Prod.mk.injEq] at done
    obtain ⟨rfl,rfl⟩ := done
    exact .refl sound
  | cons file files ih =>
    rw [forall_mem_cons] at buffers
    obtain ⟨⟨t,mid⟩,first,done⟩ := bind_eq_some_iff.mp done
    have one := buildTxFromFile_built file buffers.1 places sound first
    rw [map_cons,sum_cons]
    exact one.trans (ih buffers.2 (fun ino => (places ino).remaining one) one.sound done)

theorem buildTransaction_built (memory : Nat → Page) (places : Places belongs src calls)
    (done : buildTransaction memory src calls = some (tx,rest)) :
    Built belongs calls rest src.blocks (start memory) tx := by
  obtain ⟨t,first,done⟩ := bind_eq_some_iff.mp done
  obtain ⟨⟨u,mid⟩,second,done⟩ := bind_eq_some_iff.mp done
  obtain ⟨v,third,same⟩ := map_eq_some_iff.mp done
  simp only [Prod.mk.injEq] at same
  obtain ⟨rfl,rfl⟩ := same
  have pages : ∀ ino, Answers belongs ino (src.data ino) calls := by
    intro ino call member be answer p low high asked
    exact asked ▸ places.pages call member be answer p low high
  have blks : Built belongs calls calls _ (start memory) t :=
    snapshotBlocks_built _ src.privateList places.privateList (start_sound memory).1 first
  have files := buildFiles_built src.files places.files pages blks.sound second
  have inodes : Built belongs mid mid _ u v := snapshotBlocks_built _ src.jBlks places.jBlks files.sound third
  simpa [Source.blocks] using (blks.trans files).trans inodes

/-- Data and tags of a transaction agree exactly when no call of `get_blocks` failed while it
was built and the blocks can be counted in 32 bits. -/
theorem buildTransaction_aligned_iff {src : Source β} (memory : Nat → Page) (places : Places belongs src calls)
    (built : buildTransaction memory src calls = some (tx,[])) :
    Aligned belongs tx ↔ (∀ call ∈ calls, call.result.isSome) ∧ src.blocks < 2^32 := by
  obtain ⟨made,bs,ts,split,adds,part⟩ := buildTransaction_built memory places built
  obtain ⟨_,none,untagged⟩ := start_sound (β := β) memory
  obtain rfl : calls = made := by simpa using split
  have used := adds.sound.used
  have copies : copied tx = bs := by simpa [none] using adds.copied
  have tagged : tags tx = ts := by simpa [untagged] using adds.tags
  rw [copies] at used
  rw [Aligned,copies,tagged,used]
  constructor
  · rintro ⟨number,each⟩
    cases part with
    | failed call member failure fewer =>
      -- a block without an address
      obtain ⟨a,address,_⟩ := each (blocks ts) bs[blocks ts] (List.getElem?_eq_getElem fewer)
      obtain ⟨inside,_⟩ := List.getElem?_eq_some_iff.mp address
      rw [length_addresses] at inside
      exact absurd inside (lt_irrefl _)
    | answered all length aligned =>
      have equal := aligned.length_eq
      rw [length_addresses] at equal
      refine ⟨all,?_⟩
      omega
  · rintro ⟨all,small⟩
    cases part with
    | failed call member failure fewer => simpa [failure] using all call member
    | answered _ length aligned =>
      have equal := aligned.length_eq
      rw [length_addresses] at equal
      refine ⟨by omega,fun k b at_k => ?_⟩
      obtain ⟨inside,rfl⟩ := List.getElem?_eq_some_iff.mp at_k
      have there : k < (ts.flatMap Extent.addresses).length := by rw [length_addresses]; omega
      exact ⟨_,List.getElem?_eq_getElem there,aligned.get there inside⟩

def oneRun (nr : Nat) (fits : nr < 2^31) : Source Nat where
  privateList := [⟨7,70,true,by decide⟩]
  files := [.reg ⟨1,false,true,false,[],true,false,[],⟨[⟨0,nr,fits⟩],[],Ird.empty.filled⟩,by simp⟩]
  jBlks := [⟨9,90,true,by decide⟩]
  data _ p := p

/-- A run that two extents cover. -/
theorem buildTransaction_aligned_two :
    ∃ tx, buildTransaction (fun _ _ => 0) (oneRun 3 (by decide)) [⟨1,0,some ⟨0,2,100⟩,by decide,by decide⟩,
        ⟨1,2,some ⟨2,2,200⟩,by decide,by decide⟩] = some (tx,[]) ∧
      Aligned (fun a b => a = 7 ∧ b = 70 ∨ a = 9 ∧ b = 90 ∨ a = 100 + b ∧ b < 2 ∨ a = 198 + b ∧ 2 ≤ b) tx := by
  have built : (buildTransaction (fun _ _ => 0) (oneRun 3 (by decide)) [⟨1,0,some ⟨0,2,100⟩,by decide,by decide⟩,
      ⟨1,2,some ⟨2,2,200⟩,by decide,by decide⟩]).map (·.2.length) = some 0 := by
    decide +kernel
  obtain ⟨⟨tx,rest⟩,built,none⟩ := map_eq_some_iff.mp built
  obtain rfl := eq_nil_of_length_eq_zero none
  refine ⟨tx,built,(buildTransaction_aligned_iff _ ⟨?_,?_,?_,?_⟩ built).mpr ⟨by simp,by decide⟩⟩
  · simp [oneRun]
  · simp [oneRun,File.buffers]
  · simp [oneRun]
  · intro call member be answer p low high
    simp only [mem_cons,not_mem_nil,or_false] at member
    rcases member with rfl | rfl
    all_goals
      obtain rfl := some.inj answer
      simp only [oneRun] at low high ⊢
      omega

/-- The page of a run is in the data buffer, and its block has no tag: the inode block that
follows it would be written from the page. -/
theorem buildTransaction_getBlocks_fails :
    ∃ tx, buildTransaction (fun _ _ => 0) (oneRun 1 (by decide)) [⟨1,0,none,by simp,by simp⟩] = some (tx,[]) ∧
      Sent tx ∧ copied tx = [70,0,90] ∧ tags tx = [⟨7,1⟩,⟨9,1⟩] ∧ ∀ belongs, ¬ Aligned belongs tx := by
  have built : (buildTransaction (fun _ _ => 0) (oneRun 1 (by decide)) [⟨1,0,none,by simp,by simp⟩]).map
      (fun r => (r.1.usedBlkCnt,copied r.1,tags r.1,r.2.length)) = some (3,[70,0,90],[⟨7,1⟩,⟨9,1⟩],0) := by
    decide +kernel
  obtain ⟨⟨tx,rest⟩,built,same⟩ := map_eq_some_iff.mp built
  simp only [Prod.mk.injEq] at same
  obtain ⟨used,copies,tagged,none⟩ := same
  obtain rfl := eq_nil_of_length_eq_zero none
  refine ⟨tx,built,by simp [Sent,used],copies,tagged,fun belongs aligned => ?_⟩
  have number := aligned.1
  simp [tagged,used,blocks] at number

end Oxbow.Daemon.JournalBuild
