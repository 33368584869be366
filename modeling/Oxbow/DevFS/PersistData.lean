import Mathlib.Data.List.Induction
import Mathlib.Data.List.Perm.Subperm
import Oxbow.DevFS.Bio
import Oxbow.Lib.Extent
import Oxbow.Lib.LastWrite

/-! `persist_data`: the fetched chunks of a transaction are written to the journal log
behind the block kept for the descriptor. Buffer blocks are named by the data block of the
transaction they hold. -/
namespace Oxbow.DevFS

open Oxbow.Lib List

structure FetchCtx where
  descBlkBaddr : Nat
  totalLogSize : Nat
  reqCnt : Nat
  deriving DecidableEq, Repr

/-- The fetch context, the log blocks written so far with the data block each has got,
and whether an assertion has stopped DevFS. -/
structure PersistState where
  ctx : FetchCtx
  writes : List (Nat × Nat)
  aborted : Bool
  deriving DecidableEq, Repr

def PersistState.init : PersistState := ⟨⟨0,0,0⟩,[],false⟩

def getChunckStart (head reqId : Nat) : Nat :=
  if reqId = 0 then head else u64 (head + reqId * nBlksPerChunk + 1)

def addBiosConsideringWrapIntoSeparateBls (log : LogRing) (start nBlks : Nat) : List Bio × List Bio :=
  if checkWrapAround start nBlks log.last then
    let nBlks1 := blksToEnd start log.last
    (addBioToBl 0 start nBlks1,addBioToBl nBlks1 log.first (sub32 nBlks nBlks1))
  else (addBioToBl 0 start nBlks,[])

/-- `nvmf_dispatch_io_fast` with a buffer of the caller: the blocks submitted and the
number of requests, or `none` when a second bio trips the assertion. -/
def dispatchIoFast (maxIoBlks : Nat) : List Bio → List (Nat × Nat) × Option Nat
  | [] => ([],some 0)
  | [b] => (b.blocks,some ((b.nBlks + maxIoBlks) / (maxIoBlks + 1)))
  | b :: _ :: _ => (b.blocks,none)

def ofChunk (reqId : Nat) (blocks : List (Nat × Nat)) : List (Nat × Nat) :=
  blocks.map fun w => (w.1,reqId * nBlksPerChunk + w.2)

/-- The rest of `persist_data` after its two lists have been dispatched; it leaves before
counting the request when the first dispatch had nothing to do. -/
def persistDispatched (ctx : FetchCtx) (writes : List (Nat × Nat)) (reqId nBlks : Nat)
    (first second : List (Nat × Nat) × Option Nat) : PersistState :=
  match first.2, second.2 with
  | none, _ => ⟨ctx,writes ++ ofChunk reqId first.1,true⟩
  | some 0, _ => ⟨ctx,writes ++ ofChunk reqId first.1,false⟩
  | some (_ + 1), none => ⟨ctx,writes ++ ofChunk reqId (first.1 ++ second.1),true⟩
  | some (_ + 1), some _ =>
    ⟨{ ctx with totalLogSize := ctx.totalLogSize + nBlks * blockSize, reqCnt := u32 (ctx.reqCnt + 1) },
      writes ++ ofChunk reqId (first.1 ++ second.1),false⟩

/-- The first block of chunk 0 is kept for the descriptor. -/
def getDataStart (head reqId : Nat) : Nat :=
  if reqId = 0 then getChunckStart head reqId + 1 else getChunckStart head reqId

/-- The largest command has `maxIoBlks + 1` blocks. -/
def persistData (maxIoBlks : Nat) (log : LogRing) (head reqId nBlks : Nat) (s : PersistState) : PersistState :=
  if s.aborted then s
  else if reqId = 0 ∧ s.ctx.descBlkBaddr ≠ 0 then { s with aborted := true }
  else persistDispatched
    { s.ctx with descBlkBaddr := if reqId = 0 then getChunckStart head reqId else s.ctx.descBlkBaddr }
    s.writes reqId nBlks
    (dispatchIoFast maxIoBlks (addBiosConsideringWrapIntoSeparateBls log (getDataStart head reqId) nBlks).1)
    (dispatchIoFast maxIoBlks (addBiosConsideringWrapIntoSeparateBls log (getDataStart head reqId) nBlks).2)

def nChunks (n : Nat) : Nat := (n + nBlksPerChunk - 1) / nBlksPerChunk

def chunkBlks (n reqId : Nat) : Nat := min nBlksPerChunk (n - reqId * nBlksPerChunk)

def persistChunks (maxIoBlks : Nat) (log : LogRing) (head n : Nat) (order : List Nat) : PersistState :=
  order.foldl (fun s reqId => persistData maxIoBlks log head reqId (chunkBlks n reqId) s) PersistState.init

/-- Data block `k` is written once, to the `(1+k)`-th ring successor of the head, nothing
else is written, and every chunk counts one request. -/
structure Placed (maxIoBlks : Nat) (log : LogRing) (head n : Nat) (order : List Nat) : Prop where
  alive : (persistChunks maxIoBlks log head n order).aborted = false
  once : ∀ k, k < n →
    ((persistChunks maxIoBlks log head n order).writes.filter fun w => w.2 = k) = [(log.block head (1 + k),k)]
  inside : ∀ w ∈ (persistChunks maxIoBlks log head n order).writes, log.Holds w.1 ∧ w.2 < n
  counted : ∀ before after, order = before ++ after →
    (persistChunks maxIoBlks log head n before).ctx.reqCnt = before.length

theorem dispatch_one (maxIoBlks start buf n : Nat) (positive : 0 < n) (small : n ≤ bioMaxBlks) :
    ∃ reqs, dispatchIoFast maxIoBlks (addBioToBl buf start n) =
      ((List.range n).map (fun i => (start + i,buf + i)),some (reqs + 1)) := by
  obtain ⟨m,rfl⟩ := Nat.exists_eq_succ_of_ne_zero (Nat.ne_of_gt positive)
  have single : addBioToBl buf start (m + 1) = [⟨start,buf,m + 1⟩] := by
    have last : addBioLoop m (m + 1) (0 + bioMaxBlks) (start + (m + 1)) (buf + (m + 1)) = [] := by
      cases m with
      | zero => rfl
      | succ m =>
        rw [addBioLoop,if_neg]
        omega
    have whole : min (m + 1 - 0) bioMaxBlks = m + 1 := by omega
    simp only [addBioToBl,addBioLoop,if_pos (Nat.succ_pos m),whole,last]
  rw [single]
  refine ⟨m / (maxIoBlks + 1),?_⟩
  simp only [dispatchIoFast,Bio.blocks,Prod.mk.injEq,true_and,Option.some.injEq]
  rw [show m + 1 + maxIoBlks = m + (maxIoBlks + 1) by omega,Nat.add_div_right _ (Nat.succ_pos _)]

def chunkWrites (log : LogRing) (head n reqId : Nat) : List (Nat × Nat) :=
  (List.range (chunkBlks n reqId)).map fun i =>
    (log.block head (1 + (reqId * nBlksPerChunk + i)),reqId * nBlksPerChunk + i)

def dataStart (head reqId : Nat) : Nat := head + 1 + reqId * nBlksPerChunk

theorem dataStart_eq (head reqId : Nat) (small : dataStart head reqId < 2^64) :
    getDataStart head reqId = dataStart head reqId := by
  by_cases zero : reqId = 0
  · simp [zero,getDataStart,getChunckStart,dataStart]
  · simp only [dataStart] at small ⊢
    rw [getDataStart,if_neg zero,getChunckStart,if_neg zero,u64_of_lt (by omega)]
    omega

/-- Both parts of a chunk that starts inside the log, as one run of ring successors. -/
theorem chunk_blocks (log : LogRing) (maxIoBlks head reqId n : Nat) (inside : dataStart head reqId ≤ log.last)
    (lower : log.first ≤ head) (positive : 0 < n) (small : n ≤ nBlksPerChunk) :
    let bls := addBiosConsideringWrapIntoSeparateBls log (dataStart head reqId) n
    ∃ reqs reqs2, (dispatchIoFast maxIoBlks bls.1).2 = some (reqs + 1) ∧
      (dispatchIoFast maxIoBlks bls.2).2 = some reqs2 ∧
      ofChunk reqId ((dispatchIoFast maxIoBlks bls.1).1 ++ (dispatchIoFast maxIoBlks bls.2).1) =
        (List.range n).map fun i =>
          (log.block head (1 + (reqId * nBlksPerChunk + i)),reqId * nBlksPerChunk + i) := by
  have addressable := log.addressable
  have size := log.fits
  simp only [Ring.size] at size
  simp only [nBlksPerChunk] at small
  have block : ∀ i, log.block head (1 + (reqId * nBlksPerChunk + i)) =
      if dataStart head reqId + i ≤ log.last then dataStart head reqId + i
      else log.first + (dataStart head reqId + i - (log.last + 1)) := by
    intro i
    simp only [Ring.block,dataStart,Nat.add_assoc]
  have wraps := checkWrapAround_iff (dataStart head reqId) n log.last positive (by omega)
  by_cases past : log.last + 1 < dataStart head reqId + n
  · have toEnd : blksToEnd (dataStart head reqId) log.last = log.last + 1 - dataStart head reqId := by
      apply blksToEnd_of_le
      · omega
      · simp only [dataStart]
        omega
      · omega
    obtain ⟨m,split⟩ : ∃ m, m = log.last + 1 - dataStart head reqId := ⟨_,rfl⟩
    have rest : sub32 n m = n - m := sub32_of_le (by omega) (by omega)
    obtain ⟨reqs,first⟩ := dispatch_one maxIoBlks (dataStart head reqId) 0 m (by omega) (by simp only [bioMaxBlks]; omega)
    obtain ⟨reqs2,second⟩ := dispatch_one maxIoBlks log.first m (n - m) (by omega) (by simp only [bioMaxBlks]; omega)
    have parts : addBiosConsideringWrapIntoSeparateBls log (dataStart head reqId) n =
        (addBioToBl 0 (dataStart head reqId) m,addBioToBl m log.first (n - m)) := by
      simp only [addBiosConsideringWrapIntoSeparateBls,if_pos (wraps.mpr past),toEnd,← split,rest]
    simp only [parts,first,second]
    refine ⟨reqs,reqs2 + 1,rfl,rfl,?_⟩
    have whole : n = m + (n - m) := by omega
    conv_rhs => rw [whole,range_add]
    simp only [ofChunk,map_append,map_map]
    refine congrArg₂ (· ++ ·) ?_ ?_
    · apply map_congr_left
      intro i bound
      have := mem_range.mp bound
      simp only [Function.comp_apply,block]
      rw [if_pos (by omega),Nat.zero_add]
    · apply map_congr_left
      intro i _
      simp only [Function.comp_apply,block]
      rw [if_neg (by omega)]
      exact Prod.ext (by simp only; omega) rfl
  · have straight : ¬ checkWrapAround (dataStart head reqId) n log.last = true := fun wrapped =>
      past (wraps.mp wrapped)
    obtain ⟨reqs,first⟩ := dispatch_one maxIoBlks (dataStart head reqId) 0 n positive small
    have none : dispatchIoFast maxIoBlks [] = ([],some 0) := rfl
    simp only [addBiosConsideringWrapIntoSeparateBls,if_neg straight,first,none]
    refine ⟨reqs,0,rfl,rfl,?_⟩
    simp only [ofChunk,append_nil,map_map]
    apply map_congr_left
    intro i bound
    have := mem_range.mp bound
    simp only [Function.comp_apply,block]
    rw [if_pos (by omega),Nat.zero_add]

section

variable (ctx : FetchCtx) (writes : List (Nat × Nat))
include ctx writes

theorem dispatched_grows (reqId n : Nat) (first second : List (Nat × Nat) × Option Nat) :
    ∀ w ∈ writes, w ∈ (persistDispatched ctx writes reqId n first second).writes := by
  intro w member
  unfold persistDispatched
  split <;> exact mem_append_left _ member

theorem dispatched_counted (reqId n : Nat) (first second : List (Nat × Nat) × Option Nat) :
    let t := persistDispatched ctx writes reqId n first second
    t.ctx.reqCnt = ctx.reqCnt ∨
      first.2 ≠ some 0 ∧ ∀ w ∈ first.1, (w.1,reqId * nBlksPerChunk + w.2) ∈ t.writes := by
  intro t
  simp only [t]
  unfold persistDispatched
  split
  next => exact .inl rfl
  next => exact .inl rfl
  next => exact .inl rfl
  next reqs _ some _ =>
    refine .inr ⟨by simp [some],?_⟩
    intro w member
    exact mem_append_right _ (mem_map.mpr ⟨w,mem_append_left _ member,rfl⟩)

theorem dispatched_done (reqId n reqs reqs2 : Nat)
    (first second : List (Nat × Nat) × Option Nat) (dispatched : first.2 = some (reqs + 1))
    (wrapped : second.2 = some reqs2) :
    persistDispatched ctx writes reqId n first second =
      ⟨{ ctx with totalLogSize := ctx.totalLogSize + n * blockSize, reqCnt := u32 (ctx.reqCnt + 1) },
        writes ++ ofChunk reqId (first.1 ++ second.1),false⟩ := by
  simp only [persistDispatched,dispatched,wrapped]

end

section Chunk

variable (maxIoBlks : Nat) (log : LogRing) (head reqId n : Nat) (s : PersistState)

theorem persistData_eq (alive : s.aborted = false) (clear : ¬ (reqId = 0 ∧ s.ctx.descBlkBaddr ≠ 0))
    (small : dataStart head reqId < 2^64) :
    persistData maxIoBlks log head reqId n s =
      persistDispatched
        { s.ctx with descBlkBaddr := if reqId = 0 then getChunckStart head reqId else s.ctx.descBlkBaddr }
        s.writes reqId n
        (dispatchIoFast maxIoBlks (addBiosConsideringWrapIntoSeparateBls log (dataStart head reqId) n).1)
        (dispatchIoFast maxIoBlks (addBiosConsideringWrapIntoSeparateBls log (dataStart head reqId) n).2) := by
  rw [persistData,if_neg (by simp [alive]),if_neg clear,dataStart_eq head reqId small]

/-- A chunk that starts inside the log is written there and counted. -/
theorem persistData_inside (alive : s.aborted = false) (unset : reqId = 0 → s.ctx.descBlkBaddr = 0)
    (inside : dataStart head reqId ≤ log.last) (lower : log.first ≤ head) (positive : 0 < n)
    (small : n ≤ nBlksPerChunk) :
    (persistData maxIoBlks log head reqId n s).aborted = false ∧
      (persistData maxIoBlks log head reqId n s).ctx.reqCnt = u32 (s.ctx.reqCnt + 1) ∧
      ((persistData maxIoBlks log head reqId n s).ctx.descBlkBaddr ≠ 0 → reqId = 0 ∨ s.ctx.descBlkBaddr ≠ 0) ∧
      (persistData maxIoBlks log head reqId n s).writes = s.writes ++ (List.range n).map fun i =>
        (log.block head (1 + (reqId * nBlksPerChunk + i)),reqId * nBlksPerChunk + i) := by
  have addressable := log.addressable
  have clear : ¬ (reqId = 0 ∧ s.ctx.descBlkBaddr ≠ 0) := fun both => both.2 (unset both.1)
  obtain ⟨reqs,reqs2,first,second,blocks⟩ := chunk_blocks log maxIoBlks head reqId n inside lower positive small
  rw [persistData_eq maxIoBlks log head reqId n s alive clear (by omega),
    dispatched_done _ _ _ _ reqs reqs2 _ _ first second,blocks]
  refine ⟨rfl,rfl,?_,rfl⟩
  by_cases zero : reqId = 0
  · exact fun _ => .inl zero
  · simp [zero]

theorem dispatch_first (buf start : Nat) (positive : 0 < n) :
    (start,buf) ∈ (dispatchIoFast maxIoBlks (addBioToBl buf start n)).1 := by
  obtain ⟨m,rfl⟩ := Nat.exists_eq_succ_of_ne_zero (Nat.ne_of_gt positive)
  have member : (start,buf) ∈ Bio.blocks ⟨start,buf,min (m + 1 - 0) bioMaxBlks⟩ := by
    apply mem_map.mpr
    exact ⟨0,mem_range.mpr (by simp [bioMaxBlks]),rfl⟩
  simp only [addBioToBl,addBioLoop,if_pos (Nat.succ_pos m)]
  cases addBioLoop m (m + 1) (0 + bioMaxBlks) (start + min (m + 1 - 0) bioMaxBlks)
    (buf + min (m + 1 - 0) bioMaxBlks) <;> exact member

/-- A chunk that starts past the log is not counted, or it is written past the log. -/
theorem persistData_outside (outside : log.last < dataStart head reqId) (near : dataStart head reqId + n ≤ 2^64)
    (positive : 0 < n) :
    (persistData maxIoBlks log head reqId n s).ctx.reqCnt = s.ctx.reqCnt ∨
      ∃ w ∈ (persistData maxIoBlks log head reqId n s).writes, ¬ log.Holds w.1 := by
  have wraps := (checkWrapAround_iff (dataStart head reqId) n log.last positive near)
  have wrapped : checkWrapAround (dataStart head reqId) n log.last = true := wraps.mpr (by omega)
  cases stopped : s.aborted with
  | true => exact .inl (by rw [persistData,if_pos stopped])
  | false =>
    by_cases set : reqId = 0 ∧ s.ctx.descBlkBaddr ≠ 0
    · exact .inl (by rw [persistData,if_neg (by simp [stopped]),if_pos set])
    · rw [persistData_eq maxIoBlks log head reqId n s stopped set (by omega)]
      simp only [addBiosConsideringWrapIntoSeparateBls,if_pos wrapped]
      rcases dispatched_counted _ s.writes reqId n _ _ with same | ⟨some,written⟩
      · exact .inl same
      · have blocks : 0 < blksToEnd (dataStart head reqId) log.last := by
          apply Nat.pos_of_ne_zero
          intro empty
          rw [empty,addBioToBl_nil] at some
          exact some rfl
        have first := dispatch_first maxIoBlks _ 0 (dataStart head reqId) blocks
        refine .inr ⟨_,written _ first,?_⟩
        simp only [Ring.Holds]
        omega

theorem persistData_grows : ∀ w ∈ s.writes, w ∈ (persistData maxIoBlks log head reqId n s).writes := by
  intro w member
  rw [persistData]
  by_cases stopped : s.aborted = true
  · rwa [if_pos stopped]
  · rw [if_neg stopped]
    by_cases set : reqId = 0 ∧ s.ctx.descBlkBaddr ≠ 0
    · rwa [if_pos set]
    · rw [if_neg set]
      exact dispatched_grows _ _ _ _ _ _ w member

end Chunk

section Run

variable (maxIoBlks : Nat) (log : LogRing) (head n : Nat)

theorem persistChunks_snoc (order : List Nat) (reqId : Nat) :
    persistChunks maxIoBlks log head n (order ++ [reqId]) =
      persistData maxIoBlks log head reqId (chunkBlks n reqId) (persistChunks maxIoBlks log head n order) :=
  foldl_append

theorem persistChunks_grows (before after : List Nat) :
    ∀ w ∈ (persistChunks maxIoBlks log head n before).writes,
      w ∈ (persistChunks maxIoBlks log head n (before ++ after)).writes := by
  induction after using reverseRecOn with
  | nil => simp
  | append_singleton after reqId ih =>
    intro w member
    rw [← append_assoc,persistChunks_snoc]
    exact persistData_grows _ _ _ _ _ _ w (ih w member)

theorem chunkBlks_pos (reqId : Nat) (bound : reqId < nChunks n) : 0 < chunkBlks n reqId := by
  simp only [nChunks,nBlksPerChunk,chunkBlks] at bound ⊢
  omega

theorem persistChunks_inside (lower : log.first ≤ head) (small : n < 2^32)
    (inside : ∀ reqId, reqId < nChunks n → dataStart head reqId ≤ log.last)
    (order : List Nat) (distinct : order.Nodup) (bound : ∀ reqId ∈ order, reqId < nChunks n) :
    (persistChunks maxIoBlks log head n order).aborted = false ∧
      (persistChunks maxIoBlks log head n order).ctx.reqCnt = order.length ∧
      ((persistChunks maxIoBlks log head n order).ctx.descBlkBaddr ≠ 0 → 0 ∈ order) ∧
      (persistChunks maxIoBlks log head n order).writes = order.flatMap (chunkWrites log head n) := by
  induction order using reverseRecOn with
  | nil => simp [persistChunks,PersistState.init]
  | append_singleton order reqId ih =>
    obtain ⟨distinct',fresh⟩ : order.Nodup ∧ reqId ∉ order := by
      obtain ⟨first,_,apart⟩ := nodup_append.mp distinct
      exact ⟨first,fun member => apart reqId member reqId mem_cons_self rfl⟩
    obtain ⟨alive,count,desc,writes⟩ := ih distinct' fun r member => bound r (mem_append_left _ member)
    have here := bound reqId (mem_append_right _ mem_cons_self)
    obtain ⟨alive',count',desc',writes'⟩ := persistData_inside maxIoBlks log head reqId (chunkBlks n reqId)
      (persistChunks maxIoBlks log head n order) alive
      (fun zero => by
        by_contra set
        exact fresh (zero ▸ desc set))
      (inside reqId here) lower (chunkBlks_pos n reqId here) (Nat.min_le_left _ _)
    have length : order.length ≤ nChunks n := by
      have sub : order ⊆ List.range (nChunks n) := fun r member =>
        mem_range.mpr (bound r (mem_append_left _ member))
      simpa using (subperm_of_subset distinct' sub).length_le
    have chunks : nChunks n < 2^32 - 1 := by
      simp only [nChunks,nBlksPerChunk]
      omega
    rw [persistChunks_snoc]
    refine ⟨alive',?_,?_,?_⟩
    · rw [count',count,u32_of_lt (by omega),length_append,length_singleton]
    · intro set
      rcases desc' set with zero | earlier
      · simp [zero]
      · exact mem_append_left _ (desc earlier)
    · rw [writes',writes,flatMap_append]
      simp [chunkWrites]

theorem chunks_flat : (List.range (nChunks n)).flatMap (chunkWrites log head n) =
    (List.range n).map fun k => (log.block head (1 + k),k) := by
  have all : min (nChunks n * nBlksPerChunk) n = n := by
    simp only [nChunks,nBlksPerChunk]
    omega
  have cut := (pieces_laid nBlksPerChunk n (nChunks n) (Nat.le_refl _)).addresses
  simp only [all,Nat.sub_zero,Nat.zero_add,map_id'] at cut
  rw [← cut,pieces,map_flatMap,flatMap_map]
  simp only [Extent.addresses,map_map,Function.comp_def]
  rfl

/-- In any order the chunks together write each data block once. -/
theorem chunks_perm (order : List Nat) (perm : order.Perm (List.range (nChunks n))) :
    (order.flatMap (chunkWrites log head n)).Perm ((List.range n).map fun k => (log.block head (1 + k),k)) := by
  rw [← chunks_flat]
  exact perm.flatMap_right _

theorem all_of_distinct {order : List Nat} (distinct : order.Nodup) (bound : ∀ reqId ∈ order, reqId < m)
    (all : m ≤ order.length) : ∀ reqId, reqId < m → reqId ∈ order := by
  have part : order.Subperm (List.range m) :=
    distinct.subperm fun reqId member => mem_range.mpr (bound reqId member)
  have perm := part.perm_of_length_le (by simpa using all)
  intro reqId small
  exact perm.mem_iff.mpr (mem_range.mpr small)

/-- The last chunk starts inside the log. -/
def LastChunkInside : Prop := dataStart head (nChunks n - 1) ≤ log.last

instance : Decidable (LastChunkInside log head n) := inferInstanceAs (Decidable (_ ≤ _))

theorem placed_of_inside (lower : log.first ≤ head) (fits : 1 + n ≤ log.size)
    (inside : LastChunkInside log head n) (upper : head ≤ log.last) (order : List Nat)
    (perm : order.Perm (List.range (nChunks n))) : Placed maxIoBlks log head n order := by
  have small := log.fits
  have each : ∀ reqId, reqId < nChunks n → dataStart head reqId ≤ log.last := by
    intro reqId bound
    have earlier := Nat.mul_le_mul_right nBlksPerChunk (Nat.le_sub_one_of_lt bound)
    exact Nat.le_trans (Nat.add_le_add_left earlier _) inside
  have distinct : order.Nodup := perm.nodup_iff.mpr nodup_range
  have bound : ∀ reqId ∈ order, reqId < nChunks n := fun r member =>
    mem_range.mp (perm.mem_iff.mp member)
  obtain ⟨alive,_,_,writes⟩ :=
    persistChunks_inside maxIoBlks log head n lower (by omega) each order distinct bound
  have whole := chunks_perm log head n order perm
  refine ⟨alive,?_,?_,?_⟩
  · intro k inRange
    rw [writes]
    have one : (((List.range n).map fun k => (log.block head (1 + k),k)).filter fun w => w.2 = k) =
        [(log.block head (1 + k),k)] := by
      apply filter_dest_of_nodup
      · simp only [map_map]
        exact nodup_range.map fun _ _ same => same
      · exact mem_map.mpr ⟨k,mem_range.mpr inRange,rfl⟩
    exact perm_singleton.mp (one ▸ whole.filter _)
  · intro w member
    rw [writes] at member
    obtain ⟨k,inRange,rfl⟩ := mem_map.mp (whole.mem_iff.mp member)
    have := mem_range.mp inRange
    exact ⟨log.block_holds ⟨lower,by omega⟩ (by omega),this⟩
  · intro before after split
    subst split
    exact (persistChunks_inside maxIoBlks log head n lower (by omega) each before
      (nodup_append.mp distinct).1 fun r member => bound r (mem_append_left _ member)).2.1

/-- The journal data of a transaction is placed as intended, in whatever order its chunks
are persisted, exactly when its last chunk begins inside the log. -/
theorem persistData_placed_iff (holds : log.Holds head) (positive : 1 ≤ n) (fits : 1 + n ≤ log.size)
    (order : List Nat) (perm : order.Perm (List.range (nChunks n))) :
    Placed maxIoBlks log head n order ↔ LastChunkInside log head n := by
  constructor
  · intro placed
    by_contra outside
    have last : nChunks n - 1 ∈ order := by
      apply perm.mem_iff.mpr
      simp only [mem_range,nChunks,nBlksPerChunk]
      omega
    obtain ⟨before,after,split⟩ := append_of_mem last
    have addressable := log.addressable
    have size := log.fits
    have upper := holds.2
    have chunk : 0 < chunkBlks n (nChunks n - 1) := chunkBlks_pos n _ (by
      simp only [nChunks,nBlksPerChunk]
      omega)
    have near : dataStart head (nChunks n - 1) + chunkBlks n (nChunks n - 1) ≤ 2^64 := by
      simp only [dataStart,chunkBlks,nChunks,nBlksPerChunk]
      omega
    have counts := placed.counted (before ++ [nChunks n - 1]) after (by simp [split])
    have counts' := placed.counted before ((nChunks n - 1) :: after) split
    rw [persistChunks_snoc] at counts
    rcases persistData_outside maxIoBlks log head (nChunks n - 1) _ (persistChunks maxIoBlks log head n before)
      (Nat.not_le.mp outside) near chunk with same | ⟨w,member,off⟩
    · rw [same,counts',length_append,length_singleton] at counts
      omega
    · rw [← persistChunks_snoc] at member
      have final := persistChunks_grows maxIoBlks log head n (before ++ [nChunks n - 1]) after w member
      rw [append_assoc,singleton_append,← split] at final
      exact off (placed.inside w final).1
  · intro inside
    exact placed_of_inside maxIoBlks log head n holds.1 fits inside holds.2 order perm

end Run

def sampleLog : LogRing := ⟨⟨1000,9999,by decide⟩,by decide,by decide⟩

theorem persistData_placed_sample : Placed 31 sampleLog 1500 8193 [1,0] := by
  refine (persistData_placed_iff 31 sampleLog 1500 8193 (by decide) (by decide) (by decide) [1,0] ?_).mpr ?_
  · exact List.Perm.swap 0 1 []
  · decide

/-- The head is the last block: the only chunk starts one past the log, its first list is
empty, and nothing is written. -/
theorem persistData_head_at_end : ¬ Placed 31 sampleLog 9999 1 [0] := by
  intro placed
  have counted := placed.counted [0] [] rfl
  revert counted
  decide

end Oxbow.DevFS
