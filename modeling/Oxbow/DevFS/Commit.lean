import Oxbow.DevFS.Log
import Oxbow.DevFS.PersistData

/-! `persist_meta_and_commit`: the space of a transaction is taken from its log and its
descriptor, metadata, superblock and commit block are placed around the data that
`persist_data` has written. The checkpoint entry's memory allocation is taken to succeed. -/
namespace Oxbow.DevFS

open Oxbow.Lib

/-- What a block of the log gets; metadata blocks are named by their place in the metadata
buffer, whose block 0 is the descriptor. -/
inductive TxPiece
  | desc
  | metadata (k : Nat)
  | super
  | commit
  deriving DecidableEq, Repr

structure CkptEntry where
  jStartBaddr : Nat
  totalTxSize : Nat
  deriving DecidableEq, Repr

/-- The bios and the address after the last block, which may be one past the end. -/
def addBiosConsideringWrap (r : Ring) (startBaddr buf nBlksTotal : Nat) : List Bio × Nat :=
  if checkWrapAround startBaddr nBlksTotal r.last then
    let nBlks1 := blksToEnd startBaddr r.last
    let nBlks2 := sub32 nBlksTotal nBlks1
    (addBioToBl buf startBaddr nBlks1 ++ addBioToBl (buf + nBlks1) r.first nBlks2,u64 (r.first + nBlks2))
  else (addBioToBl buf startBaddr nBlksTotal,u64 (startBaddr + nBlksTotal))

/-- The address the one block is placed at; the address after it may be one past the end. -/
def addBioConsideringWrap (r : Ring) (dstBaddr : Nat) : Nat :=
  if checkWrapAround dstBaddr 1 r.last then wrappedBaddr r.first r.last dstBaddr else dstBaddr

/-- The first half under the lock: the descriptor's address and the log after the
descriptor and the data have been taken. A transaction without data allocates its
descriptor here; one with data waits until all fetch requests are counted. -/
def reserveData (log : JournalLog) (ctx : FetchCtx) (totalDataSize nFetchReqs : Nat) :
    Option (Nat × JournalLog) :=
  if nFetchReqs = 0 then
    if totalDataSize = 0 ∧ ctx = ⟨0,0,0⟩ then allocJournalSpace log blockSize else none
  else if ctx.reqCnt = nFetchReqs ∧ totalDataSize = ctx.totalLogSize then
    some (ctx.descBlkBaddr,updateLogState log (totalDataSize / blockSize + 1))
  else none

/-- The log blocks written, in the order of the bios; the commit block is a list of its own
and comes last. -/
def placeMeta (r : Ring) (descBaddr startBaddr nMdBlks : Nat) : List (Nat × TxPiece) :=
  let md := addBiosConsideringWrap r startBaddr 1 nMdBlks
  let sbBaddr := addBioConsideringWrap r md.2
  let commitBaddr := addBioConsideringWrap r (sbBaddr + 1)
  (blBlocks md.1).map (fun w => (w.1,.metadata w.2)) ++
    [(sbBaddr,.super),(addBioConsideringWrap r descBaddr,.desc),(commitBaddr,.commit)]

structure Committed where
  log : JournalLog
  writes : List (Nat × TxPiece)
  entry : CkptEntry

def persistMetaAndCommit (log : JournalLog) (ctx : FetchCtx) (mdSize totalDataSize nFetchReqs : Nat) :
    Option Committed :=
  if mdSize = 0 then none
  else
    (reserveData log ctx totalDataSize nFetchReqs).bind fun reserved =>
      let jnlMdSize := sub64 mdSize blockSize
      let jnlMetaAllocSize := u64 (jnlMdSize + blockSize * 2)
      (allocJournalSpace reserved.2 jnlMetaAllocSize).bind fun out =>
        (bytesToNblks jnlMdSize).map fun nMdBlks =>
          ⟨out.2,placeMeta log.toRing reserved.1 out.1 nMdBlks,
            ⟨reserved.1,u64 (totalDataSize + jnlMetaAllocSize + blockSize)⟩⟩

/-- A log between transactions. The first block number of a log is positive, and the byte
addresses of its blocks are 64-bit. -/
structure JournalLog.Ready (log : JournalLog) : Prop where
  positive : 0 < log.first
  addressable : log.last < 2^52
  head : log.Holds log.head
  free : log.nFreeBlks ≤ log.size

/-- The fetch context once all the data has been counted. -/
def Fetched (head d nFetchReqs : Nat) (ctx : FetchCtx) : Prop :=
  if d = 0 then nFetchReqs = 0 ∧ ctx = ⟨0,0,0⟩
  else nFetchReqs ≠ 0 ∧ ctx = ⟨head,d * blockSize,nFetchReqs⟩

instance (head d nFetchReqs : Nat) (ctx : FetchCtx) : Decidable (Fetched head d nFetchReqs ctx) := by
  unfold Fetched
  infer_instance

def txBlocks (r : Ring) (head d m : Nat) : List (Nat × TxPiece) :=
  (head,.desc) :: (List.range (m - 1)).map (fun k => (r.block head (1 + d + k),.metadata (1 + k))) ++
    [(r.block head (d + m),.super),(r.block head (d + m + 1),.commit)]

/-- The blocks of the transaction but its data are written once, at their places from the head on. -/
structure Laidout (log : JournalLog) (d m : Nat) (out : Committed) : Prop where
  writes : out.writes.Perm (txBlocks log.toRing log.head d m)
  once : (out.writes.map Prod.fst).Nodup
  inside : ∀ w ∈ out.writes, log.Holds w.1
  head : out.log.head = log.block (log.block log.head (d + m + 1)) 1
  entry : out.entry = ⟨log.head,(1 + d + (m - 1) + 2) * blockSize⟩

/-- Both allocations see enough free blocks in the low 32 bits of the count. -/
def SeenFree (nFreeBlks d m : Nat) : Prop :=
  (d = 0 → 0 < u32 nFreeBlks) ∧ m + 1 ≤ u32 (nFreeBlks - (1 + d))

instance (nFreeBlks d m : Nat) : Decidable (SeenFree nFreeBlks d m) :=
  inferInstanceAs (Decidable (_ ∧ _))

structure Continues (r : Ring) (start n next : Nat) : Prop where
  position : r.Position next
  same : ∀ k, n + k < r.size → r.block next k = r.block start (n + k)

theorem addBiosConsideringWrap_placed (r : Ring) (positive : 0 < r.first) (addressable : r.last < 2^52)
    (holds : r.Holds start) (within : n < r.size) (small : n < 2^32) (buf : Nat) :
    blBlocks (addBiosConsideringWrap r start buf n).1 =
        (List.range n).map (fun k => (r.block start k,buf + k)) ∧
      Continues r start n (addBiosConsideringWrap r start buf n).2 := by
  simp only [Ring.Holds,Ring.size] at holds within
  have wraps : checkWrapAround start n r.last = true ↔ r.last + 1 < start + n := by
    simp only [checkWrapAround,u64,decide_eq_true_eq,gt_iff_lt]
    omega
  by_cases wrap : r.last + 1 < start + n
  · have left : blksToEnd start r.last = r.last + 1 - start :=
      blksToEnd_of_le _ _ (by omega) (by omega) (by omega)
    have rest : sub32 n (r.last + 1 - start) = n - (r.last + 1 - start) := sub32_of_le (by omega) small
    rw [addBiosConsideringWrap,if_pos (wraps.mpr wrap)]
    simp only [left,rest]
    rw [u64_of_lt (by omega)]
    refine ⟨?_,⟨by omega,by omega⟩,?_⟩
    · conv_rhs => rw [show n = (r.last + 1 - start) + (n - (r.last + 1 - start)) by omega,List.range_add]
      simp only [blBlocks_append,addBioToBl_blocks,List.map_append,List.map_map]
      congr 1
      · apply List.map_congr_left
        intro k early
        rw [List.mem_range] at early
        rw [r.block_before_end (by omega)]
      · apply List.map_congr_left
        intro k _
        simp only [Function.comp_apply]
        rw [r.block_past_end (by omega)]
        congr 1 <;> omega
    · intro k short
      simp only [Ring.size] at short
      rw [r.block_before_end (by omega),r.block_past_end (by omega)]
      omega
  · rw [addBiosConsideringWrap,if_neg (mt wraps.mp wrap)]
    simp only [addBioToBl_blocks]
    rw [u64_of_lt (by omega)]
    refine ⟨?_,⟨by omega,by omega⟩,?_⟩
    · apply List.map_congr_left
      intro k early
      rw [List.mem_range] at early
      rw [r.block_before_end (by omega)]
    · intro k _
      simp only [Ring.block,Nat.add_assoc]

theorem addBioConsideringWrap_placed (r : Ring) (next : Nat) (addressable : r.last < 2^52) (position : r.Position next) :
    addBioConsideringWrap r next = r.block next 0 := by
  simp only [Ring.Position] at position
  have wraps := checkWrapAround_iff next 1 r.last (by decide) (by omega)
  by_cases wrap : r.last + 1 < next + 1
  · rw [addBioConsideringWrap,if_pos (wraps.mpr wrap),wrappedBaddr_of_lt _ _ _ (by omega) (by omega) (by omega),
      r.block_past_end (by omega)]
    omega
  · rw [addBioConsideringWrap,if_neg (mt wraps.mp wrap),r.block_before_end (by omega),Nat.add_zero]

theorem Continues.succ (holds : r.Holds start) (continues : Continues r start n next) (short : n < r.size) :
    Continues r start (n + 1) (r.block next 0 + 1) := by
  have here : r.block next 0 = r.block start n := continues.same 0 short
  have inside := r.block_wraps holds (Nat.le_of_lt short)
  rw [here]
  simp only [Ring.Holds] at inside
  refine ⟨⟨by omega,by omega⟩,?_⟩
  intro k room
  have onward := r.block_block holds (show n + (1 + k) ≤ r.size by omega)
  rw [show n + 1 + k = n + (1 + k) by omega,← onward]
  generalize r.block start n = here
  simp only [Ring.block,Nat.add_assoc]

theorem placeMeta_eq (r : Ring) (positive : 0 < r.first) (addressable : r.last < 2^52)
    (holds : r.Holds start) (desc : r.Holds descBaddr) (within : n + 2 ≤ r.size) (small : n < 2^32) :
    placeMeta r descBaddr start n =
      (List.range n).map (fun k => (r.block start k,.metadata (1 + k))) ++
        [(r.block start n,.super),(descBaddr,.desc),(r.block start (n + 1),.commit)] := by
  obtain ⟨placed,continues⟩ :=
    addBiosConsideringWrap_placed r positive addressable holds (show n < r.size by omega) small 1
  have next := continues.succ holds (by omega)
  have descPlaced := addBioConsideringWrap_placed r descBaddr addressable ⟨desc.1,by have := desc.2; omega⟩
  simp only [placeMeta,placed,List.map_map,Function.comp_def]
  rw [addBioConsideringWrap_placed r _ addressable continues.position,
    addBioConsideringWrap_placed r _ addressable next.position,descPlaced,r.block_zero desc,
    next.same 0 (by omega),continues.same 0 (by omega)]
  rfl

theorem updateLogState_head (ready : log.Ready) (within : n ≤ log.nFreeBlks) :
    (updateLogState log n).head = log.block log.head n ∧
      (updateLogState log n).nFreeBlks = log.nFreeBlks - n := by
  have bounded := ready.free
  have addressable := ready.addressable
  refine ⟨advance_eq log.toRing addressable ready.head (by omega),sub64_of_le within ?_⟩
  simp only [Ring.size] at bounded
  omega

theorem JournalLog.Ready.small {log : JournalLog} (ready : log.Ready) : log.nFreeBlks < 2^52 := by
  have addressable := ready.addressable
  have positive := ready.positive
  have bounded := ready.free
  simp only [Ring.size] at bounded
  omega

theorem updateLogState_ready (ready : log.Ready) (within : n ≤ log.nFreeBlks) :
    (updateLogState log n).Ready := by
  have bounded := ready.free
  obtain ⟨head,free⟩ := updateLogState_head ready within
  refine ⟨ready.positive,ready.addressable,?_,?_⟩
  · rw [head]
    exact log.block_wraps ready.head (by omega)
  · rw [free]
    exact Nat.le_trans (Nat.sub_le _ _) bounded

theorem updateLogState_add (ready : log.Ready) (within : a + b ≤ log.nFreeBlks) :
    updateLogState (updateLogState log a) b = updateLogState log (a + b) := by
  have bounded := ready.free
  have first := updateLogState_head ready (show a ≤ log.nFreeBlks by omega)
  have second := updateLogState_head (updateLogState_ready ready (show a ≤ log.nFreeBlks by omega))
    (show b ≤ (updateLogState log a).nFreeBlks by omega)
  have whole := updateLogState_head ready within
  have ring : (updateLogState log a).toRing = log.toRing := rfl
  rw [ring,first.1,first.2,log.block_block ready.head (by omega)] at second
  rw [JournalLog.mk.injEq]
  refine ⟨rfl,second.1.trans whole.1.symm,rfl,?_⟩
  exact (second.2.trans (Nat.sub_sub _ _ _)).trans whole.2.symm

theorem reserveData_eq (fetched : Fetched log.head d nFetchReqs ctx) :
    reserveData log ctx (d * blockSize) nFetchReqs =
      if d = 0 ∧ u32 log.nFreeBlks = 0 then none else some (log.head,updateLogState log (1 + d)) := by
  unfold Fetched at fetched
  split at fetched
  next none =>
    obtain ⟨rfl,rfl⟩ := fetched
    subst none
    simp [reserveData,allocJournalSpace,bytesToNblks,blockSize,u32]
  next some =>
    obtain ⟨requests,rfl⟩ := fetched
    have whole : d * blockSize / blockSize = d := Nat.mul_div_cancel d (by decide)
    simp [reserveData,requests,some,whole,Nat.add_comm]

theorem allocJournalSpace_blocks (log : JournalLog) (n : Nat) :
    allocJournalSpace log (n * blockSize) =
      if u32 log.nFreeBlks < u32 n then none else some (log.head,updateLogState log (u32 n)) := by
  rw [allocJournalSpace,bytesToNblks_whole,Option.bind_some]

theorem txSizes (some : 1 ≤ m) (small : d + m + 2 < 2^52) :
    m * blockSize ≠ 0 ∧ sub64 (m * blockSize) blockSize = (m - 1) * blockSize ∧
      u64 ((m - 1) * blockSize + blockSize * 2) = (m + 1) * blockSize ∧
      u64 (d * blockSize + (m + 1) * blockSize + blockSize) = (1 + d + (m - 1) + 2) * blockSize := by
  simp only [blockSize]
  refine ⟨by omega,?_,?_,?_⟩
  · rw [sub64_of_le (by omega) (by omega)]
    omega
  · rw [u64_of_lt (by omega)]
    omega
  · rw [u64_of_lt (by omega)]
    omega

theorem persistMetaAndCommit_eq (ready : log.Ready) (fetched : Fetched log.head d nFetchReqs ctx)
    (some : 1 ≤ m) (data : 1 + d ≤ log.nFreeBlks) (small : d + m + 2 < 2^52) :
    persistMetaAndCommit log ctx (m * blockSize) (d * blockSize) nFetchReqs =
      if (d = 0 ∧ u32 log.nFreeBlks = 0) ∨ u32 (log.nFreeBlks - (1 + d)) < u32 (m + 1) then none
      else .some ⟨updateLogState (updateLogState log (1 + d)) (u32 (m + 1)),
        placeMeta log.toRing log.head (log.block log.head (1 + d)) (u32 (m - 1)),
        ⟨log.head,(1 + d + (m - 1) + 2) * blockSize⟩⟩ := by
  obtain ⟨head,free⟩ := updateLogState_head ready data
  obtain ⟨nonzero,mdSize,allocSize,txSize⟩ := txSizes some small
  rw [persistMetaAndCommit,if_neg nonzero,reserveData_eq fetched]
  by_cases unseen : d = 0 ∧ u32 log.nFreeBlks = 0
  · simp [unseen]
  · rw [if_neg unseen,Option.bind_some,mdSize]
    simp only [allocSize,allocJournalSpace_blocks,bytesToNblks_whole,free,head,txSize]
    by_cases short : u32 (log.nFreeBlks - (1 + d)) < u32 (m + 1)
    · simp [short]
    · simp [short,unseen]

theorem txBlocks_addresses (r : Ring) (holds : r.Holds head) (some : 1 ≤ m) (within : d + m + 2 ≤ r.size) :
    ((txBlocks r head d m).map Prod.fst).Nodup ∧ ∀ w ∈ txBlocks r head d m, r.Holds w.1 := by
  have zero := r.block_zero holds
  have addresses : (txBlocks r head d m).map Prod.fst =
      (0 :: (List.range (m - 1)).map (1 + d + ·) ++ [d + m,d + m + 1]).map (r.block head) := by
    simp [txBlocks,zero,Function.comp_def]
  have bounded : ∀ k ∈ 0 :: (List.range (m - 1)).map (1 + d + ·) ++ [d + m,d + m + 1], k < r.size := by
    intro k member
    simp only [List.cons_append,List.mem_cons,List.mem_append,List.mem_map,List.mem_range,List.not_mem_nil,
      or_false] at member
    omega
  have distinct : (0 :: (List.range (m - 1)).map (1 + d + ·) ++ [d + m,d + m + 1]).Nodup := by
    simp only [List.cons_append,List.nodup_cons,List.nodup_append,List.mem_append,List.mem_map,List.mem_range,
      List.mem_cons,List.not_mem_nil,or_false]
    refine ⟨by omega,?_,by simp,by omega⟩
    exact List.Nodup.map (fun i j same => by omega) List.nodup_range
  refine ⟨?_,?_⟩
  · rw [addresses]
    refine distinct.map_on ?_
    intro i mi j mj same
    exact r.block_injective (bounded i mi) (bounded j mj) same
  · intro w member
    have address : w.1 ∈ (txBlocks r head d m).map Prod.fst := List.mem_map_of_mem member
    rw [addresses] at address
    obtain ⟨k,mk,same⟩ := List.mem_map.mp address
    rw [← same]
    exact r.block_wraps holds (Nat.le_of_lt (bounded k mk))

theorem laidout_of_seenFree (ready : log.Ready) (fetched : Fetched log.head d nFetchReqs ctx)
    (some : 1 ≤ m) (fits : d + m + 2 ≤ log.nFreeBlks) (seen : SeenFree log.nFreeBlks d m) :
    ∃ out, persistMetaAndCommit log ctx (m * blockSize) (d * blockSize) nFetchReqs = .some out ∧
      Laidout log d m out := by
  have bounded := ready.free
  have narrow : m + 1 < 2^32 := Nat.lt_of_le_of_lt seen.2 (u32_lt _)
  have small := ready.small
  rw [persistMetaAndCommit_eq ready fetched some (by omega) (by omega),u32_of_lt narrow,u32_of_lt (show m - 1 < 2^32 by omega),
    if_neg (by have := seen.1; have := seen.2; omega)]
  refine ⟨_,rfl,?_⟩
  obtain ⟨head,free⟩ := updateLogState_head ready (show 1 + d ≤ log.nFreeBlks by omega)
  have start := log.block_wraps ready.head (show 1 + d ≤ log.size by omega)
  have placed := placeMeta_eq log.toRing ready.positive ready.addressable start ready.head
    (show m - 1 + 2 ≤ log.size by omega) (by omega)
  have perm : (placeMeta log.toRing log.head (log.block log.head (1 + d)) (m - 1)).Perm
      (txBlocks log.toRing log.head d m) := by
    rw [placed,txBlocks]
    have metadata : (List.range (m - 1)).map
          (fun k => (log.block (log.block log.head (1 + d)) k,TxPiece.metadata (1 + k))) =
        (List.range (m - 1)).map (fun k => (log.block log.head (1 + d + k),TxPiece.metadata (1 + k))) := by
      apply List.map_congr_left
      intro k early
      rw [List.mem_range] at early
      rw [log.block_block ready.head (by omega)]
    rw [metadata,log.block_block ready.head (show 1 + d + (m - 1) ≤ log.size by omega),
      log.block_block ready.head (show 1 + d + (m - 1 + 1) ≤ log.size by omega),
      show 1 + d + (m - 1) = d + m by omega,show 1 + d + (m - 1 + 1) = d + m + 1 by omega]
    -- the descriptor's bio stands between the superblock and the commit block
    refine (List.Perm.append_left _ (List.Perm.swap _ _ _)).trans ?_
    exact List.perm_middle
  obtain ⟨once,inside⟩ := txBlocks_addresses log.toRing ready.head some (show d + m + 2 ≤ log.size by omega)
  refine ⟨perm,(perm.map Prod.fst).nodup_iff.mpr once,fun w member => inside w (perm.mem_iff.mp member),?_,rfl⟩
  have next := updateLogState_head (updateLogState_ready ready (show 1 + d ≤ log.nFreeBlks by omega))
    (show m + 1 ≤ (updateLogState log (1 + d)).nFreeBlks by omega)
  have same : (updateLogState log (1 + d)).toRing = log.toRing := rfl
  rw [same,head,log.block_block ready.head (by omega)] at next
  have turn : 1 + d + (m + 1) = d + m + 1 + 1 := by omega
  rw [turn] at next
  simp only [next.1]
  rw [log.block_block ready.head (by omega)]

/-- The ring positions after `head` up to a full turn are distinct. -/
theorem block_turn_injective (r : Ring) (holds : r.Holds start) (hi : 0 < i) (hj : 0 < j)
    (iTurn : i ≤ r.size) (jTurn : j ≤ r.size) (same : r.block start i = r.block start j) : i = j := by
  simp only [Ring.Holds,Ring.size] at holds iTurn jTurn
  simp only [Ring.block] at same
  split at same <;> split at same <;> omega

/-- The transaction is laid out as described exactly when its allocations see the space
that is there. -/
theorem persistMetaAndCommit_laidout_iff (log : JournalLog) (ready : log.Ready) (d m nFetchReqs : Nat)
    (ctx : FetchCtx) (fetched : Fetched log.head d nFetchReqs ctx) (some : 1 ≤ m)
    (fits : d + m + 2 ≤ log.nFreeBlks) :
    (∃ out, persistMetaAndCommit log ctx (m * blockSize) (d * blockSize) nFetchReqs = .some out ∧
      Laidout log d m out) ↔ SeenFree log.nFreeBlks d m := by
  refine ⟨?_,laidout_of_seenFree ready fetched some fits⟩
  rintro ⟨out,committed,laidout⟩
  have bounded := ready.free
  have small := ready.small
  rw [persistMetaAndCommit_eq ready fetched some (by omega) (by omega)] at committed
  obtain ⟨seen,committed⟩ := Option.ite_none_left_eq_some.mp committed
  have truncated : u32 (m + 1) ≤ m + 1 := Nat.mod_le _ _
  obtain ⟨head,free⟩ := updateLogState_head ready (show 1 + d ≤ log.nFreeBlks by omega)
  have next := updateLogState_head (updateLogState_ready ready (show 1 + d ≤ log.nFreeBlks by omega))
    (show u32 (m + 1) ≤ (updateLogState log (1 + d)).nFreeBlks by omega)
  have same : (updateLogState log (1 + d)).toRing = log.toRing := rfl
  rw [same,head,log.block_block ready.head (by omega)] at next
  have moved := laidout.head
  rw [← Option.some.inj committed,next.1,log.block_block ready.head (by omega)] at moved
  have whole := block_turn_injective log.toRing ready.head (by omega) (by omega) (by omega) (by omega) moved
  exact ⟨by omega,by omega⟩

def tenBlockLog : JournalLog := ⟨⟨1,10,by decide⟩,8,8,10⟩

theorem persistMetaAndCommit_laidout_wrapped : ∃ out,
    persistMetaAndCommit tenBlockLog ⟨8,2 * blockSize,1⟩ (3 * blockSize) (2 * blockSize) 1 = some out ∧
      Laidout tenBlockLog 2 3 out :=
  (persistMetaAndCommit_laidout_iff tenBlockLog ⟨by decide,by decide,by decide,by decide⟩ 2 3 1 _
    (by decide) (by decide) (by decide)).mpr (by decide)

end Oxbow.DevFS
