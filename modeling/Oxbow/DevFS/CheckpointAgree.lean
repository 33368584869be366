import Mathlib.Data.List.Induction
import Oxbow.DevFS.CheckpointEffect

/-! When the two checkpoints agree. The plain one leaves its loop after the first stage trace block of a transaction without
tags,
and it puts the inode of a stage transaction behind the blocks of the earlier ones, where the coalescing one has all the
inodes first. -/
namespace Oxbow.DevFS.Ckpt

open Oxbow.Lib List Option

def stageDests (ts : List (StageTx logs)) : List Nat := ts.flatMap StageTx.dests

theorem mem_stageDests_append : d ∈ stageDests (ts ++ us) ↔ d ∈ stageDests ts ∨ d ∈ stageDests us := by
  rw [stageDests,flatMap_append,mem_append]
  rfl

theorem mem_stageDests_singleton : d ∈ stageDests [t] ↔ d ∈ t.dests := by
  simp [stageDests]

theorem stageWrites_dests (ts : List (StageTx logs)) : (stageWrites ts).map Prod.snd = stageDests ts := by
  rw [stageWrites,map_flatMap,stageDests]
  exact flatMap_congr fun t _ => t.writes_dests

theorem checkpointInode_apply (t : StageTx logs) (sdb : Blk) (disk : Blks) (d : Nat) :
    checkpointInode t sdb disk d =
      if d = t.inodeBaddr then memcpy (disk d) (t.inodeIndex * t.inodeSize) sdb 0 t.inodeSize else disk d := by
  rw [checkpointInode,Function.update_apply]
  split
  next here => rw [here]
  next => rfl

theorem applyTxs_uncovered (orig disk : Blks) (free : d ∉ stageDests ts) :
    applyTxs orig disk ts d = applyInodes orig disk ts d := by
  induction ts using reverseRecOn with
  | nil => rfl
  | append_singleton ts t ih =>
    rw [mem_stageDests_append,not_or,mem_stageDests_singleton,← t.writes_dests,← lastSource_eq_none] at free
    rw [applyTxs_append,applyInodes_append]
    change applyTx orig _ t d = checkpointInode t _ _ d
    rw [applyTx,transfer_apply,free.2,checkpointInode_apply,checkpointInode_apply,ih free.1]
    rfl

def Settled (ts : List (StageTx logs)) (d : Nat) : Prop :=
  ∀ before t after, ts = before ++ t :: after → t.inodeBaddr = d → d ∈ stageDests before →
    d ∈ stageDests (t :: after)

theorem applyTxs_covered (orig disk : Blks) (settled : Settled ts d)
    (last : lastSource (stageWrites ts) d = some s) : applyTxs orig disk ts d = orig s := by
  induction ts using reverseRecOn with
  | nil => cases last
  | append_singleton ts t ih =>
    have one : stageWrites [t] = t.writes := append_nil _
    rw [stageWrites_append,one,lastSource_append] at last
    rw [applyTxs_append]
    change applyTx orig _ t d = orig s
    rw [applyTx,transfer_apply]
    cases own : lastSource t.writes d with
    | some s' =>
      rw [own,some_or] at last
      obtain rfl := some.inj last
      rfl
    | none =>
      rw [own,none_or] at last
      have free : d ∉ t.dests := by
        rw [← t.writes_dests]
        exact lastSource_eq_none.mp own
      have covered : d ∈ stageDests ts := by
        rw [← stageWrites_dests,← lastSource_isSome,last]
        rfl
      have elsewhere : ¬ d = t.inodeBaddr := by
        intro here
        exact free (mem_stageDests_singleton.mp (settled ts t [] rfl here.symm covered))
      have earlier : Settled ts d := by
        intro before u after shape inode seen
        have later := settled before u (after ++ [t]) (by rw [shape]; simp) inode seen
        rw [← cons_append,mem_stageDests_append,mem_stageDests_singleton] at later
        exact later.resolve_right free
      rw [checkpointInode_apply,if_neg elsewhere]
      exact ih earlier last

theorem applyInodes_other (orig disk : Blks) {ts : List (StageTx logs)} (other : ∀ t ∈ ts, t.inodeBaddr ≠ d) :
    applyInodes orig disk ts d = disk d := by
  induction ts generalizing disk with
  | nil => rfl
  | cons t ts ih =>
    have rest := ih (checkpointInode t (orig t.stageStart) disk) fun u member => other u (mem_cons_of_mem t member)
    rw [checkpointInode_apply,if_neg (Ne.symm (other t mem_cons_self))] at rest
    exact rest

/-- The stage transactions that only the coalescing checkpoint comes to: those of the trace blocks behind the first, if the
descriptor has no tags. -/
def unreached (tx : Tx logs) : List (StageTx logs) := if tx.descTags = [] then stageTxs (tx.metaBlks.drop 1) else []

def journalDests (tx : Tx logs) : List Nat := (journalTags tx).flatMap ETag.dests

/-- When the two checkpoints leave the same disk. -/
structure Agreeing (beyond : Bool) (tx : Tx logs) : Prop where
  /-- Nothing behind an empty buffer of metadata blocks passes for a stage trace block. -/
  bare : tx.metaBlks = [] → beyond = false
  /-- Nothing is missed: there is nothing but an inode whose block is overwritten by the others. -/
  missed : ∀ t ∈ unreached tx, t.tags = [] ∧ t.inodeBaddr ∈ stageDests (reached tx)
  /-- An inode block that earlier stage transactions have written to is written once more. -/
  inodes : ∀ before t after, reached tx = before ++ t :: after → t.inodeBaddr ∈ stageDests before →
    t.inodeBaddr ∈ stageDests (t :: after) ∨ t.inodeBaddr ∈ journalDests tx

theorem stageTxs_reached (tx : Tx logs) : stageTxs tx.metaBlks = reached tx ++ unreached tx := by
  by_cases untagged : tx.descTags = []
  · rw [reached,unreached,if_pos untagged,if_pos untagged,stageTxs,stageTxs,stageTxs,← flatMap_append,take_append_drop]
  · rw [reached,unreached,if_neg untagged,if_neg untagged,append_nil]

theorem journalWrites_dests (tx : Tx logs) : (journalWrites tx).map Prod.snd = journalDests tx := onLog_dests _ _ _ _

theorem stageWrites_nil {ts : List (StageTx logs)} (empty : ∀ t ∈ ts, t.tags = []) : stageWrites ts = [] := by
  rw [stageWrites,flatMap_eq_nil_iff]
  intro t member
  rw [StageTx.writes,empty t member]
  rfl

def plainDisk (tx : Tx logs) (orig : Blks) : Blks := transfer orig (applyTxs orig orig (reached tx)) (journalWrites tx)

def coalescedDisk (tx : Tx logs) (orig : Blks) : Blks :=
  transfer orig (applyInodes orig orig (stageTxs tx.metaBlks)) (stageWrites (stageTxs tx.metaBlks) ++ journalWrites tx)

theorem disks_agree (agreeing : Agreeing beyond tx) (orig : Blks) :
    plainDisk tx orig = coalescedDisk tx orig := by
  funext d
  have missed : stageWrites (unreached tx) = [] := stageWrites_nil fun t member => (agreeing.missed t member).1
  have all : stageWrites (stageTxs tx.metaBlks) = stageWrites (reached tx) := by
    rw [stageTxs_reached,stageWrites_append,missed,append_nil]
  rw [plainDisk,coalescedDisk,transfer_apply,transfer_apply,lastSource_append,all]
  cases journal : lastSource (journalWrites tx) d with
  | some s => rfl
  | none =>
    have free : d ∉ journalDests tx := by
      rw [← journalWrites_dests]
      exact lastSource_eq_none.mp journal
    cases stage : lastSource (stageWrites (reached tx)) d with
    | some s =>
      refine applyTxs_covered orig orig ?_ stage
      rintro before t after shape rfl seen
      exact (agreeing.inodes before t after shape seen).resolve_right free
    | none =>
      have uncovered : d ∉ stageDests (reached tx) := by
        rw [← stageWrites_dests]
        exact lastSource_eq_none.mp stage
      rw [applyTxs_uncovered orig orig uncovered,stageTxs_reached,applyInodes_append]
      refine (applyInodes_other _ _ ?_).symm
      rintro t member rfl
      exact uncovered (agreeing.missed t member).2

/-! Disks that tell the two apart. -/

def marked (blks : List Nat) : Blks := fun a _ => if a ∈ blks then 1 else 0

theorem marked_mem (member : a ∈ blks) : marked blks a = fun _ => 1 := by
  funext i
  exact if_pos member

theorem marked_not_mem (other : a ∉ blks) : marked blks a = fun _ => 0 := by
  funext i
  exact if_neg other

theorem memcpy_const (b : UInt8) (dstOfs srcOfs n : Nat) : memcpy (fun _ => b) dstOfs (fun _ => b) srcOfs n = fun _ => b := by
  funext i
  rw [memcpy]
  split <;> rfl

theorem applyTxs_unmarked {ts : List (StageTx logs)} (apart : ∀ t ∈ ts, ∀ a ∈ t.logBlks, a ∉ blks)
    (clear : ∀ d, d ∉ blks → disk d = fun _ => 0) (other : d ∉ blks) :
    applyTxs (marked blks) disk ts d = fun _ => 0 := by
  induction ts generalizing disk with
  | nil => exact clear d other
  | cons t ts ih =>
    have here := apart t mem_cons_self
    refine ih (fun u member => apart u (mem_cons_of_mem t member)) ?_
    intro e outside
    rw [applyTx,transfer_apply]
    cases last : lastSource t.writes e with
    | some s =>
      refine marked_not_mem (here s ?_)
      exact mem_cons_of_mem _ (mem_map_of_mem (mem_of_lastSource last))
    | none =>
      change checkpointInode t _ _ e = _
      rw [checkpointInode_apply,clear e outside,marked_not_mem (here _ mem_cons_self),memcpy_const,ite_self]

theorem applyInodes_keeps {ts : List (StageTx logs)} (all : ∀ t ∈ ts, t.stageStart ∈ blks)
    (set : disk d p = 1) : applyInodes (marked blks) disk ts d p = 1 := by
  induction ts generalizing disk with
  | nil => exact set
  | cons t ts ih =>
    rw [applyInodes_cons]
    refine ih (fun u member => all u (mem_cons_of_mem t member)) ?_
    rw [checkpointInode_apply,marked_mem (all t mem_cons_self)]
    split
    next =>
      rw [memcpy]
      split
      next => rfl
      next => exact set
    next => exact set

theorem applyInodes_sets {t : StageTx logs} (member : t ∈ ts) (all : ∀ u ∈ ts, u.stageStart ∈ blks) (disk : Blks) :
    applyInodes (marked blks) disk ts t.inodeBaddr (t.inodeIndex * t.inodeSize) = 1 := by
  have positive := t.sized.1
  obtain ⟨before,after,rfl⟩ := append_of_mem member
  rw [applyInodes_append,applyInodes_cons]
  refine applyInodes_keeps (fun u later => all u (mem_append_right _ (mem_cons_of_mem t later))) ?_
  rw [checkpointInode_apply,if_pos rfl,marked_mem (all t member),memcpy_inside _ _ _ (Nat.le_refl _) (by omega)]

theorem StageTx.exists_dest {t : StageTx logs} (some : t.tags ≠ []) : ∃ d, d ∈ t.dests :=
  exists_mem_of_ne_nil _ (group_dests_ne_nil (t.group some))

theorem unreached_untagged (member : t ∈ unreached tx) : journalWrites tx = [] := by
  have untagged : tx.descTags = [] := by
    by_contra tagged
    simp [unreached,tagged] at member
  rw [journalWrites,journalTags,if_pos untagged]
  rfl

theorem Tx.apart_reached (tx : Tx logs) : ∀ t ∈ reached tx, ∀ u ∈ unreached tx,
    ∀ a ∈ t.logBlks, a ∉ u.logBlks := by
  have apart := tx.apart
  rw [stageTxs_reached,pairwise_append] at apart
  exact apart.2.2

theorem Outside.not_mem (outside : Outside logs d) {blks : List Nat} (stage : ∀ a ∈ blks, logs.stage.Holds a) :
    d ∉ blks := fun member => outside.2 (stage d member)

section

variable {tx : Tx logs} (agree : ∀ orig, plainDisk tx orig = coalescedDisk tx orig)
include agree

theorem disks_missed_tags : ∀ t ∈ unreached tx, t.tags = [] := by
  intro t member
  by_contra some
  obtain ⟨d,dest⟩ := StageTx.exists_dest some
  have journal := unreached_untagged member
  have named : t ∈ stageTxs tx.metaBlks := by
    rw [stageTxs_reached]
    exact mem_append_right _ member
  have covered : d ∈ (stageWrites (unreached tx)).map Prod.snd := by
    rw [stageWrites_dests]
    exact mem_flatMap.mpr ⟨t,member,dest⟩
  obtain ⟨s,last⟩ := isSome_iff_exists.mp ((lastSource_isSome _ _).mpr covered)
  obtain ⟨u,also,written⟩ := mem_flatMap.mp (mem_of_lastSource last)
  -- only the source of the block is marked
  have same := congrFun (congrFun (agree (marked [s])) d) 0
  have other : d ∉ [s] := Outside.not_mem (tx.destsOutside t named d (mem_cons_of_mem _ dest))
    (by simpa using u.writes_holds _ written)
  have plain : plainDisk tx (marked [s]) d = fun _ => 0 := by
    rw [plainDisk,journal]
    refine applyTxs_unmarked ?_ (fun e outside => marked_not_mem outside) other
    intro v before a read
    simp only [mem_singleton]
    rintro rfl
    exact tx.apart_reached v before u also a read (mem_cons_of_mem _ (mem_map_of_mem written))
  have coalesced : coalescedDisk tx (marked [s]) d = fun _ => 1 := by
    rw [coalescedDisk,transfer_apply,journal,append_nil,stageTxs_reached,stageWrites_append,lastSource_append,last]
    exact marked_mem (by simp)
  rw [plain,coalesced] at same
  exact UInt8.zero_ne_one same

theorem disks_missed_inode : ∀ t ∈ unreached tx, t.inodeBaddr ∈ stageDests (reached tx) := by
  intro t member
  by_contra free
  have journal := unreached_untagged member
  have missed : stageWrites (unreached tx) = [] := stageWrites_nil (disks_missed_tags agree)
  have named : t ∈ stageTxs tx.metaBlks := by
    rw [stageTxs_reached]
    exact mem_append_right _ member
  -- the descriptors that are not reached are marked
  have same := congrFun (congrFun (agree (marked ((unreached tx).map StageTx.stageStart))) t.inodeBaddr)
    (t.inodeIndex * t.inodeSize)
  have other : t.inodeBaddr ∉ (unreached tx).map StageTx.stageStart := by
    refine Outside.not_mem (tx.destsOutside t named _ mem_cons_self) ?_
    intro a marked
    obtain ⟨u,-,rfl⟩ := mem_map.mp marked
    exact u.placed
  have plain : plainDisk tx (marked ((unreached tx).map StageTx.stageStart)) t.inodeBaddr = fun _ => 0 := by
    rw [plainDisk,journal]
    refine applyTxs_unmarked ?_ (fun e outside => marked_not_mem outside) other
    intro v before a read marked
    obtain ⟨u,also,rfl⟩ := mem_map.mp marked
    exact tx.apart_reached v before u also _ read mem_cons_self
  have coalesced : coalescedDisk tx (marked ((unreached tx).map StageTx.stageStart)) t.inodeBaddr
      (t.inodeIndex * t.inodeSize) = 1 := by
    have none : lastSource (stageWrites (reached tx)) t.inodeBaddr = none := by
      rw [lastSource_eq_none,stageWrites_dests]
      exact free
    rw [coalescedDisk,transfer_apply,journal,append_nil,stageTxs_reached,stageWrites_append,missed,append_nil,none]
    rw [applyInodes_append]
    exact applyInodes_sets member (fun u also => mem_map_of_mem also) _
  rw [plain,coalesced] at same
  exact UInt8.zero_ne_one same

theorem disks_inodes (before : List (StageTx logs))
    (t : StageTx logs) (after : List (StageTx logs)) (shape : reached tx = before ++ t :: after)
    (seen : t.inodeBaddr ∈ stageDests before) :
    t.inodeBaddr ∈ stageDests (t :: after) ∨ t.inodeBaddr ∈ journalDests tx := by
  by_contra free
  rw [not_or] at free
  have missed : stageWrites (unreached tx) = [] := stageWrites_nil (disks_missed_tags agree)
  have journal : lastSource (journalWrites tx) t.inodeBaddr = none := by
    rw [lastSource_eq_none,journalWrites_dests]
    exact free.2
  have later : lastSource (stageWrites (t :: after)) t.inodeBaddr = none := by
    rw [lastSource_eq_none,stageWrites_dests]
    exact free.1
  rw [← stageWrites_dests,← lastSource_isSome] at seen
  obtain ⟨s,last⟩ := isSome_iff_exists.mp seen
  obtain ⟨u,earlier,written⟩ := mem_flatMap.mp (mem_of_lastSource last)
  -- the descriptors from this one on are marked
  have same := congrFun (congrFun (agree (marked ((t :: after).map StageTx.stageStart))) t.inodeBaddr)
    (t.inodeIndex * t.inodeSize)
  have plain : plainDisk tx (marked ((t :: after).map StageTx.stageStart)) t.inodeBaddr (t.inodeIndex * t.inodeSize) = 1 := by
    rw [plainDisk,transfer_apply,journal]
    rw [shape,applyTxs_append,applyTxs_uncovered _ _ free.1]
    exact applyInodes_sets mem_cons_self (fun v member => mem_map_of_mem member) _
  have coalesced : coalescedDisk tx (marked ((t :: after).map StageTx.stageStart)) t.inodeBaddr = fun _ => 0 := by
    rw [coalescedDisk,transfer_apply,lastSource_append,journal,stageTxs_reached,stageWrites_append,missed,append_nil,shape,
      stageWrites_append,lastSource_append,later,last]
    refine marked_not_mem ?_
    intro marked
    obtain ⟨v,behind,start⟩ := mem_map.mp marked
    have apart := tx.apart
    rw [stageTxs_reached,shape,pairwise_append,pairwise_append] at apart
    refine apart.1.2.2 u earlier v behind s (mem_cons_of_mem _ (mem_map_of_mem written)) ?_
    rw [← start]
    exact mem_cons_self
  rw [plain,coalesced] at same
  exact UInt8.zero_ne_one same.symm

end

theorem sampleSlot : 0 < 128 ∧ 128 ≤ inodeMaxSize := by decide

def onlyInode (start index : Nat) (slot : (index + 1) * 128 ≤ blockSize) (placed : sampleLogs.stage.Holds start)
    (begins : sampleLogs.stage.Position (start + 0 + 1)) : StageTx sampleLogs :=
  ⟨start,100,index,128,[],[],fun _ => rfl,sampleSlot,slot,placed,begins,Nat.zero_le _⟩

theorem twoTraces_slots : (0 + 1) * 128 ≤ blockSize ∧ (1 + 1) * 128 ≤ blockSize := by decide

theorem twoTraces_placed : (sampleLogs.stage.Holds 20 ∧ sampleLogs.stage.Position (20 + 0 + 1)) ∧
    sampleLogs.stage.Holds 21 ∧ sampleLogs.stage.Position (21 + 0 + 1) := by decide

def twoTracesBlks : List (MetaBlk sampleLogs) :=
  [.stageTrace [onlyInode 20 0 twoTraces_slots.1 twoTraces_placed.1.1 twoTraces_placed.1.2],
    .stageTrace [onlyInode 21 1 twoTraces_slots.2 twoTraces_placed.2.1 twoTraces_placed.2.2]]

theorem sampleLogs_journal : sampleLogs.journal.Holds 10 := by decide

theorem sampleLogs_apart (a : Nat) (journal : sampleLogs.journal.Holds a) : ¬ sampleLogs.stage.Holds a := by
  simp only [sampleLogs,Ring.Holds] at *
  omega

theorem twoTraces_apart : (stageTxs twoTracesBlks).Pairwise fun t u => ∀ a ∈ t.logBlks, a ∉ u.logBlks := by decide

theorem twoTraces_outside : ∀ t ∈ stageTxs twoTracesBlks, ∀ d ∈ t.inodeBaddr :: t.dests,
    ¬ sampleLogs.journal.Holds d ∧ ¬ sampleLogs.stage.Holds d := by decide

def twoTraces : Tx sampleLogs where
  txId := 5
  jStartBaddr := 10
  totalTxSize := 8192
  descTags := []
  metaBlks := twoTracesBlks
  emptyDesc := fun _ => rfl
  nonempty := .inr (cons_ne_nil _ _)
  placed := sampleLogs_journal
  fits := Nat.zero_le _
  logsApart := sampleLogs_apart
  apart := twoTraces_apart
  destsOutside := twoTraces_outside
  outside := fun _ none => absurd none not_mem_nil

def sampleJLog : JournalLog := ⟨sampleLogs.journal.toRing,12,10,2⟩

def numbered : Blks := fun a _ => UInt8.ofNat a

theorem stagedTag_fits : 2 < 2^32 := by decide
theorem stagedTag_addressable : 100 + 2 ≤ invalid := by decide
theorem journalTag_fits : 1 < 2^32 := by decide
theorem journalTag_addressable : 101 + 1 ≤ invalid := by decide

def stagedTag : ETag := ⟨100,2,Nat.two_pos,stagedTag_fits,stagedTag_addressable⟩

def journalTag : ETag := ⟨101,1,Nat.one_pos,journalTag_fits,journalTag_addressable⟩

theorem stagedTwo_fits : ((([stagedTag] :: []).flatten).map ETag.cnt).sum ≤ sampleLogs.stage.size := by decide

def stagedTwo : StageTx sampleLogs :=
  ⟨21,90,0,128,[stagedTag],[],fun none => absurd none (cons_ne_nil _ _),sampleSlot,twoTraces_slots.1,twoTraces_placed.2.1,
    twoTraces_placed.2.2,stagedTwo_fits⟩

theorem overwritten_fits : ((([journalTag] :: etagBlks [MetaBlk.stageTrace [stagedTwo]]).flatten).map ETag.cnt).sum ≤
    sampleLogs.journal.size := by decide

theorem overwritten_apart : (stageTxs [MetaBlk.stageTrace [stagedTwo]]).Pairwise fun t u => ∀ a ∈ t.logBlks,
    a ∉ u.logBlks := by decide

theorem overwritten_destsOutside : ∀ t ∈ stageTxs [MetaBlk.stageTrace [stagedTwo]], ∀ d ∈ t.inodeBaddr :: t.dests,
    ¬ sampleLogs.journal.Holds d ∧ ¬ sampleLogs.stage.Holds d := by decide

theorem overwritten_outside : ∀ d ∈ ([journalTag] :: etagBlks [MetaBlk.stageTrace [stagedTwo]]).flatten.flatMap ETag.dests,
    ¬ sampleLogs.journal.Holds d ∧ ¬ sampleLogs.stage.Holds d := by decide

def overwritten : Tx sampleLogs where
  txId := 5
  jStartBaddr := 10
  totalTxSize := 8192
  descTags := [journalTag]
  metaBlks := [.stageTrace [stagedTwo]]
  emptyDesc := fun none => absurd none (cons_ne_nil _ _)
  nonempty := .inl (cons_ne_nil _ _)
  placed := sampleLogs_journal
  fits := overwritten_fits
  logsApart := sampleLogs_apart
  apart := overwritten_apart
  destsOutside := overwritten_destsOutside
  outside := overwritten_outside

theorem overwritten_agreeing : Agreeing false overwritten := by
  have all : reached overwritten = [stagedTwo] := rfl
  refine ⟨fun _ => rfl,fun t member => absurd member not_mem_nil,?_⟩
  intro before t after shape seen
  rw [all] at shape
  cases before with
  | nil => exact absurd seen not_mem_nil
  | cons u before =>
    have length := congrArg List.length shape
    simp at length

end Oxbow.DevFS.Ckpt
