import Oxbow.Daemon.DirtyBits
import Oxbow.Lib.Loop

/-! The gather takes the dirty pages of the marked groups, and no others: the runs that it adds to the lists are the longest ones
of a group, in order. -/
namespace Oxbow.Daemon.DirtyBits

open Oxbow.Lib.BitRun Oxbow.Lib.ByteMap Function List
open Fsync (Fetcher)
open Stage (IrdNode)

/-! What is appended to the lists. -/

def entry (r : Nat × Nat) : Nat × Int := (r.1,r.2)

theorem addAt_dirtyPages (start nr : Nat) (k : Nat) (nodes : List IrdNode) (packed : Packed nodes) (inside : k < nodes.length) :
    (addAt start nr k nodes).1.flatMap IrdNode.dirtyPages = nodes.flatMap IrdNode.dirtyPages ++ [entry (start,nr)] := by
  induction packed generalizing k with
  | last node room =>
    obtain rfl : k = 0 := by simpa using inside
    rw [addAt]
    split
    · simp [addAt,entry]
    · simp [entry]
  | cons node next full rest ih =>
    cases k with
    | zero =>
      simp [addAt,full,ih 0 rest.length_pos]
    | succ k => simp [addAt,ih k (by simpa using inside)]

theorem addAt_place (start nr : Nat) (k : Nat) (nodes : List IrdNode) :
    (addAt start nr k nodes).2 < (addAt start nr k nodes).1.length := by
  fun_induction addAt start nr k nodes with
  | case1 => simp
  | case2 node next full ih => simpa using ih
  | case3 => simp
  | case4 k node next ih => simpa using ih

namespace DirtyList

def Cached (l : DirtyList) : Prop := l.tail.getD 0 < l.nodes.length

variable {l : DirtyList}

theorem resetTail_cached (l : DirtyList) : l.resetTail.Cached := l.packed.length_pos

theorem Cached.add (cached : l.Cached) (start nr : Nat) : (l.add start nr).Cached := by
  rw [Cached] at cached
  rw [Cached,DirtyList.add,dif_pos cached]
  exact addAt_place start nr _ l.nodes

theorem Cached.add_dirtyPages (cached : l.Cached) (start nr : Nat) :
    (l.add start nr).dirtyPages = l.dirtyPages ++ [entry (start,nr)] := by
  rw [Cached] at cached
  rw [dirtyPages,DirtyList.add,dif_pos cached]
  exact addAt_dirtyPages start nr _ l.nodes l.packed cached

end DirtyList

namespace Target

section

variable (target : Target)

def forJournal (runs : List (Nat × Nat)) : List (Nat × Nat) :=
  match target with
  | .journal _ => runs
  | .staging => []

def forWaiting (df : Fetcher) (runs : List (Nat × Nat)) : List (Nat × Nat) :=
  if target = .journal df then runs else []

def forStg (runs : List (Nat × Nat)) : List (Nat × Nat) :=
  match target with
  | .journal _ => []
  | .staging => runs

@[simp] theorem forJournal_append (runs more : List (Nat × Nat)) :
    target.forJournal (runs ++ more) = target.forJournal runs ++ target.forJournal more := by
  cases target <;> rfl

@[simp] theorem forStg_append (runs more : List (Nat × Nat)) :
    target.forStg (runs ++ more) = target.forStg runs ++ target.forStg more := by
  cases target <;> rfl

@[simp] theorem forWaiting_append (df : Fetcher) (runs more : List (Nat × Nat)) :
    target.forWaiting df (runs ++ more) = target.forWaiting df runs ++ target.forWaiting df more := by
  rw [forWaiting,forWaiting,forWaiting]
  split <;> simp

end

end Target

structure Appended (target : Target) (runs : List (Nat × Nat)) (l m : Lists) : Prop where
  journal : m.iJournalDirty.dirtyPages = l.iJournalDirty.dirtyPages ++ (target.forJournal runs).map entry
  waiting : ∀ df, (m.iJournalWaitingDirty df).dirtyPages =
    (l.iJournalWaitingDirty df).dirtyPages ++ (target.forWaiting df runs).map entry
  waitingNr : ∀ df, m.iJournalWaitingNrDirtyBlks df =
    l.iJournalWaitingNrDirtyBlks df + BitVec.ofNat 32 (total (target.forWaiting df runs))
  stg : m.iStgDirty.dirtyPages = l.iStgDirty.dirtyPages ++ (target.forStg runs).map entry

def Lists.Cached (target : Target) (l : Lists) : Prop :=
  match target with
  | .journal df => l.iJournalDirty.Cached ∧ (l.iJournalWaitingDirty df).Cached
  | .staging => l.iStgDirty.Cached

theorem Appended.refl (target : Target) (l : Lists) : Appended target [] l l := by
  constructor <;> cases target <;> simp [Target.forJournal,Target.forWaiting,Target.forStg]

theorem Appended.trans (first : Appended target runs l m) (second : Appended target more m n) :
    Appended target (runs ++ more) l n := by
  constructor
  · rw [second.journal,first.journal]
    simp
  · intro df
    rw [second.waiting,first.waiting]
    simp
  · intro df
    rw [second.waitingNr,first.waitingNr,Target.forWaiting_append,total_append,BitVec.ofNat_add,BitVec.add_assoc]
  · rw [second.stg,first.stg]
    simp

theorem resetTails_cached (target : Target) (l : Lists) : (resetTails target l).Cached target := by
  cases target with
  | journal df =>
    refine ⟨DirtyList.resetTail_cached _,?_⟩
    simp only [resetTails,update_self]
    exact DirtyList.resetTail_cached _
  | staging => exact DirtyList.resetTail_cached _

theorem resetTails_appended (target : Target) (l : Lists) : Appended target [] l (resetTails target l) := by
  cases target with
  | journal df =>
    refine ⟨by simp [resetTails,DirtyList.resetTail,DirtyList.dirtyPages,Target.forJournal],?_,?_,
      by simp [resetTails,Target.forStg]⟩
    · intro d
      by_cases same : d = df
      · simp [resetTails,same,DirtyList.resetTail,DirtyList.dirtyPages,Target.forWaiting]
      · simp [resetTails,same,Target.forWaiting]
    · intro d
      simp [resetTails,Target.forWaiting]
  | staging =>
    refine ⟨by simp [resetTails,Target.forJournal],?_,?_,?_⟩
    all_goals simp [resetTails,DirtyList.resetTail,DirtyList.dirtyPages,Target.forWaiting,Target.forStg]

theorem addRangeDirty_cached (cached : l.Cached target) (start nr : Nat) : (addRangeDirty target start nr l).Cached target := by
  cases target with
  | journal df =>
    rw [addRangeDirty,addRangeDirtyJournal]
    split
    · exact cached
    · refine ⟨cached.1.add start nr,?_⟩
      simp only [update_self]
      exact cached.2.add start nr
  | staging =>
    rw [addRangeDirty,addRangeDirtyStaging]
    split
    · exact cached
    · exact DirtyList.Cached.add cached start nr

theorem addRangeDirty_appended (cached : l.Cached target) (start : Nat) (some : nr ≠ 0) :
    Appended target [(start,nr)] l (addRangeDirty target start nr l) := by
  cases target with
  | journal df =>
    rw [addRangeDirty,addRangeDirtyJournal,if_neg some]
    refine ⟨cached.1.add_dirtyPages start nr,?_,?_,by simp [Target.forStg]⟩
    · intro d
      by_cases same : d = df
      · simp [same,Target.forWaiting,cached.2.add_dirtyPages]
      · simp [same,Ne.symm same,Target.forWaiting]
    · intro d
      by_cases same : d = df
      · simp [same,Target.forWaiting]
      · simp [same,Ne.symm same,Target.forWaiting]
  | staging =>
    rw [addRangeDirty,addRangeDirtyStaging,if_neg some]
    refine ⟨by simp [Target.forJournal],by simp [Target.forWaiting],by simp [Target.forWaiting],?_⟩
    exact DirtyList.Cached.add_dirtyPages cached start nr

/-! What the scan of a block has done at its `k`th bit. -/

def inGroup (g : Nat) (r : Nat × Nat) : Nat × Nat := (r.1 + g * nrPagesInPeb,r.2)

def takenBit (block : Nat → BitVec 8) (k p : Nat) : Bool :=
  if p < k then false
  else if nrPagesInPeb ≤ p ∧ p < nrPagesInPeb + k then bit block p || bit block (p - nrPagesInPeb)
  else bit block p

theorem nrPagesInPeb_eq : nrPagesInPeb = 8192 := rfl

theorem takenBit_dirty (page : p < nrPagesInPeb) : takenBit block nrPagesInPeb p = false := if_pos page

theorem takenBit_lock (page : p < nrPagesInPeb) :
    takenBit block nrPagesInPeb (nrPagesInPeb + p) = (bit block (nrPagesInPeb + p) || bit block p) := by
  rw [takenBit,if_neg (by omega),if_pos (by omega),Nat.add_sub_cancel_left]

theorem takenBit_others (beyond : 2 * nrPagesInPeb ≤ p) : takenBit block nrPagesInPeb p = bit block p := by
  rw [takenBit,if_neg (by omega),if_neg (by omega)]

theorem takenBit_clear (inside : k < nrPagesInPeb) (clear : bit block k = false) :
    takenBit block (k + 1) = takenBit block k := by
  funext p
  simp only [takenBit]
  by_cases here : p = k
  · rw [if_pos (by omega),if_neg (by omega),if_neg (by omega),here,clear]
  · by_cases lock : p = nrPagesInPeb + k
    · have place : p - nrPagesInPeb = k := by omega
      rw [if_neg (by omega),if_pos (by omega),if_neg (by omega),if_neg (by omega),place,clear,Bool.or_false]
    · exact if_congr (by omega) rfl (if_congr (by omega) rfl rfl)

theorem takenBit_set (inside : k < nrPagesInPeb) (set : bit block k = true) (p : Nat) :
    takenBit block (k + 1) p = if p = nrPagesInPeb + k then true else if p = k then false else takenBit block k p := by
  simp only [takenBit]
  split_ifs with _ _ lock here
  all_goals first | rfl | omega | skip
  have place : p - nrPagesInPeb = k := by omega
  rw [place,set,Bool.or_true]

structure At (target : Target) (g : Nat) (block : Nat → BitVec 8) (l : Lists) (k : Nat) (z : Scan) : Prop where
  count : z.count = streak (bit block) k
  pos : z.count ≠ 0 → z.pos = k - z.count
  bits : ∀ p, bit z.dlBmap p = takenBit block k p
  cached : z.lists.Cached target
  appended : Appended target ((endedRuns (bit block) k).map (inGroup g)) l z.lists

@[simp] theorem flush_count (z : Scan) : (flush target g z).count = 0 := by
  rw [flush]
  split
  next => rfl
  next none => exact not_not.mp none

theorem flush_dlBmap (z : Scan) : (flush target g z).dlBmap = z.dlBmap := by
  rw [flush]
  split <;> rfl

@[simp] theorem flush_flush (z : Scan) : flush target g (flush target g z) = flush target g z := by
  conv_lhs => rw [flush]
  rw [flush_count]
  rfl

theorem At.flush_lists (now : At target g block l k z) :
    (flush target g z).lists.Cached target ∧
      Appended target ((endedRuns (bit block) k ++
        if streak (bit block) k = 0 then [] else [(k - streak (bit block) k,streak (bit block) k)]).map (inGroup g)) l
        (flush target g z).lists := by
  rw [← now.count,flush]
  by_cases none : z.count = 0
  · rw [if_neg (not_not.mpr none),if_pos none,append_nil]
    exact ⟨now.cached,now.appended⟩
  · rw [if_pos none,if_neg none,now.pos none,map_append]
    exact ⟨addRangeDirty_cached now.cached _ _,now.appended.trans (addRangeDirty_appended now.cached _ none)⟩

theorem At.clear (now : At target g block l k z) (inside : k < nrPagesInPeb) (clear : bit block k = false) :
    At target g block l (k + 1) (flush target g z) := by
  obtain ⟨cached,appended⟩ := now.flush_lists
  refine ⟨?_,by simp,?_,cached,?_⟩
  · rw [flush_count,streak,clear]
    rfl
  · intro p
    rw [flush_dlBmap,takenBit_clear inside clear,now.bits]
  · rw [endedRuns]
    by_cases none : streak (bit block) k = 0
    · rw [if_neg (by simp [none])]
      rw [if_pos none,append_nil] at appended
      exact appended
    · rw [if_pos ⟨clear,none⟩]
      rw [if_neg none] at appended
      exact appended

theorem At.skip (now : At target g block l k z) {n : Nat} (inside : k + n < nrPagesInPeb)
    (clear : ∀ j ≤ n, bit block (k + j) = false) : At target g block l (k + n + 1) (flush target g z) := by
  induction n with
  | zero => exact now.clear inside (clear 0 (Nat.le_refl 0))
  | succ n ih =>
    have before := ih (by omega) fun j most => clear j (by omega)
    have after := before.clear inside (clear (n + 1) (Nat.le_refl _))
    rwa [flush_flush] at after

def Unlocked (block : Nat → BitVec 8) : Prop :=
  ∀ p < nrPagesInPeb, bit block p = true → bit block (nrPagesInPeb + p) = false

theorem At.gatherBit (now : At target g block l (o * 8 + b) z) (unlocked : Unlocked block)
    (inside : o * 8 + b < nrPagesInPeb) (small : b < 8) (read : currByte.getLsbD b = bit block (o * 8 + b)) :
    ∃ z', gatherBit target g currByte o z b = .ok z' ∧ At target g block l (o * 8 + b + 1) z' := by
  rw [DirtyBits.gatherBit,read]
  cases set : bit block (o * 8 + b)
  · exact ⟨_,rfl,now.clear inside set⟩
  · have place : (o + lockbitStartIndex) * 8 + b = nrPagesInPeb + (o * 8 + b) := by
      rw [show lockbitStartIndex = 1024 from rfl,nrPagesInPeb_eq]
      omega
    have free : ((clearBit z.dlBmap o b) (o + lockbitStartIndex)).getLsbD b = false := by
      rw [← bit_eq _ _ small,bit_clearBit _ small,if_neg (by omega),now.bits,place,takenBit,if_neg (by omega),if_neg
        (by omega)]
      exact unlocked _ inside set
    simp only [free,if_true]
    refine ⟨_,rfl,?_,?_,?_,now.cached,?_⟩
    · rw [streak,set,now.count]
      rfl
    · intro _
      rw [show bitsInByte = 8 from rfl]
      dsimp only
      split
      · omega
      · have start := now.pos ‹_›
        have count := now.count
        omega
    · intro p
      rw [bit_setBit _ small,bit_clearBit _ small,place,takenBit_set inside set,now.bits]
    · rw [endedRuns,if_neg (by simp [set])]
      exact now.appended

theorem At.gatherByte (now : At target g block l ((i * 8 + b) * 8) z) (unlocked : Unlocked block)
    (inside : i * 8 + b < bytesPerState) (read : byteOf word b = block (i * 8 + b)) :
    ∃ z', gatherByte target g word i z b = .ok z' ∧ At target g block l ((i * 8 + (b + 1)) * 8) z' := by
  have size : bytesPerState = 1024 := rfl
  have pages := nrPagesInPeb_eq
  have next : (i * 8 + (b + 1)) * 8 = (i * 8 + b) * 8 + 8 := by omega
  rw [DirtyBits.gatherByte,read,next]
  split
  next zero => exact ⟨_,rfl,now.skip (n := 7) (by omega) fun j most => (byte_eq_zero block _).mp zero j (by omega)⟩
  next =>
    refine Oxbow.Lib.Loop.foldlM_range (fun b' => At target g block l ((i * 8 + b) * 8 + b')) now ?_
    intro b' z' (small : b' < 8) at'
    exact at'.gatherBit unlocked (by omega) small (bit_eq block _ small).symm

theorem At.word_eq (now : At target g block l (i * 64) z) (inside : i < bytesPerState / 8) :
    word64 z.dlBmap i = word64 block i := by
  have size : bytesPerState / 8 = 128 := rfl
  have pages := nrPagesInPeb_eq
  apply BitVec.eq_of_getLsbD_eq
  intro j small
  rw [getLsbD_word64 _ _ small,getLsbD_word64 _ _ small,now.bits,takenBit,if_neg (by omega),if_neg (by omega)]

theorem At.gatherWord (now : At target g block l (i * 64) z) (unlocked : Unlocked block) (inside : i < bytesPerState / 8) :
    ∃ z', gatherWord target g z i = .ok z' ∧ At target g block l ((i + 1) * 64) z' := by
  have size : bytesPerState = 1024 := rfl
  have pages := nrPagesInPeb_eq
  have next : (i + 1) * 64 = (i * 8 + 8) * 8 := by omega
  have start : i * 64 = (i * 8 + 0) * 8 := by omega
  rw [DirtyBits.gatherWord,now.word_eq inside]
  split
  next zero =>
    have skipped := now.skip (n := 63) (by omega) fun j most => (word64_eq_zero block i).mp zero j (by omega)
    have place : i * 64 + 63 + 1 = (i + 1) * 64 := by omega
    rw [place] at skipped
    exact ⟨_,rfl,skipped⟩
  next =>
    rw [next]
    rw [start] at now
    refine Oxbow.Lib.Loop.foldlM_range (fun b => At target g block l ((i * 8 + b) * 8)) now ?_
    intro b z' small at'
    exact at'.gatherByte unlocked (by omega) (byteOf_word64 block i small)

/-- The runs of the dirty pages of a block go to the lists, and the pages are locked in place of being dirty. -/
theorem gatherDirtyBits_eq (target : Target) (g : Nat) (l : Lists) (unlocked : Unlocked block) :
    ∃ z, gatherDirtyBits target g block l = (z,0) ∧ (∀ p, bit z.dlBmap p = takenBit block nrPagesInPeb p) ∧
      Appended target ((maxRuns (bit block) nrPagesInPeb).map (inGroup g)) l z.lists := by
  have start : At target g block (resetTails target l) 0 ⟨block,resetTails target l,0,0⟩ := by
    refine ⟨rfl,by simp,?_,resetTails_cached target l,.refl target _⟩
    intro p
    rw [takenBit,if_neg (by omega),if_neg (by omega)]
  obtain ⟨z,scanned,done⟩ := Oxbow.Lib.Loop.foldlM_range (n := bytesPerState / 8)
    (fun i => At target g block (resetTails target l) (i * 64)) start
    (fun i z' inside at' => at'.gatherWord unlocked inside)
  rw [gatherDirtyBits,scanned]
  obtain ⟨-,appended⟩ := done.flush_lists
  refine ⟨_,rfl,?_,?_⟩
  · intro p
    rw [flush_dlBmap]
    exact done.bits p
  · have all := (resetTails_appended target l).trans appended
    exact all

/-! What the scan of the group bitmap has done at its `n`th bit. -/

def groupRuns (s : Inode) (g : Nat) : List (Nat × Nat) :=
  if bit s.dgBmap g then (maxRuns (bit (s.dlBmap g)) nrPagesInPeb).map (inGroup g) else []

structure Upto (target : Target) (s : Inode) (n : Nat) (t : Inode) : Prop where
  groups : ∀ g, bit t.dgBmap g = (decide (n ≤ g) && bit s.dgBmap g)
  before : ∀ g < n, ∀ p, bit (t.dlBmap g) p =
    if bit s.dgBmap g then takenBit (s.dlBmap g) nrPagesInPeb p else bit (s.dlBmap g) p
  behind : ∀ g, n ≤ g → t.dlBmap g = s.dlBmap g
  appended : Appended target ((List.range n).flatMap (groupRuns s)) s.lists t.lists

variable {s t : Inode} {n : Nat}

theorem Upto.start (target : Target) (s : Inode) : Upto target s 0 s :=
  ⟨by simp,by simp,by simp,.refl target s.lists⟩

theorem Upto.clear (now : Upto target s n t) (clear : bit s.dgBmap n = false) : Upto target s (n + 1) t := by
  refine ⟨?_,?_,fun g behind => now.behind g (by omega),?_⟩
  · intro g
    rw [now.groups]
    by_cases here : g = n
    · rw [here,clear,Bool.and_false,Bool.and_false]
    · congr 1
      exact decide_eq_decide.mpr (by omega)
  · intro g below p
    by_cases here : g = n
    · rw [here,now.behind n (Nat.le_refl n),clear]
      rfl
    · exact now.before g (by omega) p
  · rw [range_succ,flatMap_append,flatMap_singleton,groupRuns,clear,if_neg Bool.false_ne_true,append_nil]
    exact now.appended

theorem Upto.skip (now : Upto target s n t) {m : Nat} (clear : ∀ j < m, bit s.dgBmap (n + j) = false) :
    Upto target s (n + m) t := by
  induction m with
  | zero => exact now
  | succ m ih => exact (ih fun j below => clear j (by omega)).clear (clear m (Nat.lt_succ_self m))

theorem Upto.set (now : Upto target s n t) (unlocked : Unlocked (s.dlBmap n)) (set : bit s.dgBmap n = true)
    (cleared : ∀ g, bit dgBmap g = if g = n then false else bit t.dgBmap g) :
    Upto target s (n + 1) (gatherGroup target n dgBmap t) := by
  rw [gatherGroup,now.behind n (Nat.le_refl n)]
  obtain ⟨z,scanned,bits,appended⟩ := gatherDirtyBits_eq target n t.lists unlocked
  rw [scanned]
  refine ⟨?_,?_,?_,?_⟩
  · intro g
    rw [cleared,now.groups]
    by_cases here : g = n
    · rw [if_pos here,here,decide_eq_false (by omega),Bool.false_and]
    · rw [if_neg here]
      congr 1
      exact decide_eq_decide.mpr (by omega)
  · intro g below p
    by_cases here : g = n
    · rw [here,set,if_pos rfl]
      simp only [update_self]
      exact bits p
    · simp only [update_of_ne here]
      exact now.before g (by omega) p
  · intro g behind
    have other : g ≠ n := by omega
    simp only [update_of_ne other]
    exact now.behind g (by omega)
  · rw [range_succ,flatMap_append,flatMap_singleton,groupRuns,set,if_pos rfl]
    exact now.appended.trans appended

/-- The lowest set bit of the word is the next group, so the groups come in order. -/
theorem Upto.gatherGroups (unlocked : ∀ g, Unlocked (s.dlBmap g)) (now : Upto target s n t) (low : i * 64 ≤ n)
    (high : n ≤ i * 64 + 64) : Upto target s (i * 64 + 64) (gatherGroups target i t) := by
  fun_induction DirtyBits.gatherGroups target i t generalizing n with
  | case1 t zero =>
    have clear : ∀ j < i * 64 + 64 - n, bit s.dgBmap (n + j) = false := by
      intro j below
      have word := (word64_eq_zero t.dgBmap i).mp zero (n + j - i * 64) (by omega)
      rw [Nat.add_sub_cancel' (by omega),now.groups,decide_eq_true (by omega),Bool.true_and] at word
      exact word
    have skipped := now.skip clear
    rwa [Nat.add_sub_cancel' high] at skipped
  | case2 t some ih =>
    obtain ⟨small,above,below,set,least⟩ := nextGroup_first some
    rw [now.groups,Bool.and_eq_true,decide_eq_true_eq] at set
    obtain ⟨behind,set⟩ := set
    have clear : ∀ j < nextGroup t.dgBmap i - n, bit s.dgBmap (n + j) = false := by
      intro j below
      have bit := least (n + j) (by omega) (by omega)
      rw [now.groups,decide_eq_true (by omega),Bool.true_and] at bit
      exact bit
    have reached := now.skip clear
    rw [Nat.add_sub_cancel' behind] at reached
    have place : bytePos t.dgBmap i * 8 + bitPos t.dgBmap i = nextGroup t.dgBmap i := Nat.add_comm _ _
    refine ih (reached.set (unlocked _) set ?_) (by omega) (by omega)
    intro g
    rw [bit_clearBit _ small,place]

namespace Inode

def dirtyBit (s : Inode) (p : Nat) : Bool := bit (s.dlBmap (p / nrPagesInPeb)) (p % nrPagesInPeb)
def lockBit (s : Inode) (p : Nat) : Bool := bit (s.dlBmap (p / nrPagesInPeb)) (nrPagesInPeb + p % nrPagesInPeb)
def groupBit (s : Inode) (g : Nat) : Bool := decide (g < pageSize * bitsInByte) && bit s.dgBmap g

def gathers (s : Inode) (p : Nat) : Bool := s.dirtyBit p && s.groupBit (p / nrPagesInPeb)

end Inode

/-- A run of dirty pages of a marked group that no dirty page of the group adjoins. -/
structure DirtyRun (s : Inode) (start nr : Nat) : Prop where
  positive : 0 < nr
  group : s.groupBit (start / nrPagesInPeb) = true
  within : start % nrPagesInPeb + nr ≤ nrPagesInPeb
  dirty : ∀ j < nr, s.dirtyBit (start + j) = true
  left : start % nrPagesInPeb = 0 ∨ s.dirtyBit (start - 1) = false
  right : (start + nr) % nrPagesInPeb = 0 ∨ s.dirtyBit (start + nr) = false

theorem div_nrPagesInPeb (g : Nat) (small : a < nrPagesInPeb) : (a + g * nrPagesInPeb) / nrPagesInPeb = g := by
  rw [Nat.add_mul_div_right _ _ (by decide),Nat.div_eq_of_lt small,Nat.zero_add]

theorem mod_nrPagesInPeb (g : Nat) (small : a < nrPagesInPeb) : (a + g * nrPagesInPeb) % nrPagesInPeb = a := by
  rw [Nat.add_mul_mod_self_right,Nat.mod_eq_of_lt small]

theorem dirtyBit_eq (s : Inode) (g : Nat) (small : a < nrPagesInPeb) :
    s.dirtyBit (a + g * nrPagesInPeb) = bit (s.dlBmap g) a := by
  rw [Inode.dirtyBit,div_nrPagesInPeb g small,mod_nrPagesInPeb g small]

/-- The runs of a group are the longest ones among its bits. -/
theorem dirtyRun_iff (s : Inode) (g a nr : Nat) (small : a < nrPagesInPeb) :
    DirtyRun s (a + g * nrPagesInPeb) nr ↔ s.groupBit g = true ∧ MaxRun (bit (s.dlBmap g)) nrPagesInPeb a nr := by
  have pages := nrPagesInPeb_eq
  have group := div_nrPagesInPeb g small
  have page := mod_nrPagesInPeb g small
  have moved : ∀ j, a + g * nrPagesInPeb + j = a + j + g * nrPagesInPeb := fun j => by omega
  constructor
  · rintro ⟨positive,marked,within,dirty,left,right⟩
    rw [group] at marked
    rw [page] at within left
    refine ⟨marked,positive,within,?_,?_,?_⟩
    · intro j below
      have set := dirty j below
      rwa [moved,dirtyBit_eq s g (by omega)] at set
    · rcases left with first | clear
      · exact .inl first
      · by_cases first : a = 0
        · exact .inl first
        · have before : a + g * nrPagesInPeb - 1 = a - 1 + g * nrPagesInPeb := by omega
          rw [before,dirtyBit_eq s g (by omega)] at clear
          exact .inr clear
    · by_cases last : a + nr = nrPagesInPeb
      · exact .inl last
      · rw [moved,dirtyBit_eq s g (by omega)] at right
        refine .inr (right.resolve_left ?_)
        rw [pages] at within last ⊢
        omega
  · rintro ⟨marked,positive,within,set,left,right⟩
    refine ⟨positive,by rwa [group],by rwa [page],?_,?_,?_⟩
    · intro j below
      rw [moved,dirtyBit_eq s g (by omega)]
      exact set j below
    · rw [page]
      by_cases first : a = 0
      · exact .inl first
      · have before : a + g * nrPagesInPeb - 1 = a - 1 + g * nrPagesInPeb := by omega
        rw [before,dirtyBit_eq s g (by omega)]
        exact .inr (left.resolve_left first)
    · rw [moved]
      by_cases last : a + nr = nrPagesInPeb
      · left
        rw [last,Nat.add_mul_mod_self_right,Nat.mod_self]
      · rw [dirtyBit_eq s g (by omega)]
        exact .inr (right.resolve_left last)

def gatheredRuns (s : Inode) : List (Nat × Nat) := (List.range (pageSize * bitsInByte)).flatMap (groupRuns s)

theorem mem_gatheredRuns (s : Inode) (start nr : Nat) : (start,nr) ∈ gatheredRuns s ↔ DirtyRun s start nr := by
  have pages := nrPagesInPeb_eq
  have small : start % nrPagesInPeb < nrPagesInPeb := Nat.mod_lt _ (by omega)
  have place : start % nrPagesInPeb + start / nrPagesInPeb * nrPagesInPeb = start := by
    rw [Nat.mul_comm]
    exact Nat.mod_add_div start nrPagesInPeb
  have here := dirtyRun_iff s (start / nrPagesInPeb) (start % nrPagesInPeb) nr small
  rw [place] at here
  rw [here,gatheredRuns,mem_flatMap]
  constructor
  · rintro ⟨g,below,member⟩
    rw [groupRuns] at member
    split at member
    next marked =>
      obtain ⟨⟨a,len⟩,run,same⟩ := mem_map.mp member
      obtain ⟨rfl,rfl⟩ : a + g * nrPagesInPeb = start ∧ len = nr := by simpa [inGroup] using same
      have longest := mem_maxRuns.mp run
      have inside : a < nrPagesInPeb := by
        have within := longest.within
        have positive := longest.positive
        omega
      rw [div_nrPagesInPeb g inside,mod_nrPagesInPeb g inside]
      refine ⟨?_,longest⟩
      rw [Inode.groupBit,marked,decide_eq_true (mem_range.mp below),Bool.true_and]
    next => simp at member
  · rintro ⟨marked,longest⟩
    rw [Inode.groupBit,Bool.and_eq_true,decide_eq_true_eq] at marked
    refine ⟨start / nrPagesInPeb,mem_range.mpr marked.1,?_⟩
    rw [groupRuns,if_pos marked.2]
    refine mem_map.mpr ⟨_,mem_maxRuns.mpr longest,?_⟩
    rw [inGroup]
    exact Prod.ext place rfl

theorem mem_groupRuns (member : r ∈ groupRuns s g) : 0 < r.2 ∧ g * nrPagesInPeb ≤ r.1 ∧
    r.1 + r.2 ≤ (g + 1) * nrPagesInPeb := by
  rw [groupRuns] at member
  split at member
  next =>
    obtain ⟨⟨a,len⟩,run,rfl⟩ := mem_map.mp member
    have longest := mem_maxRuns.mp run
    refine ⟨longest.positive,Nat.le_add_left _ _,?_⟩
    have within := longest.within
    rw [inGroup,Nat.succ_mul]
    omega
  next => simp at member

theorem groupRuns_pairwise (s : Inode) (g : Nat) : (groupRuns s g).Pairwise Before := by
  rw [groupRuns]
  split
  · rw [pairwise_map]
    refine (maxRuns_pairwise nrPagesInPeb).imp ?_
    intro r r' before
    simp only [Before,inGroup] at before ⊢
    omega
  · exact .nil

theorem gatheredRuns_pairwise (s : Inode) : (gatheredRuns s).Pairwise Before := by
  rw [gatheredRuns,pairwise_flatMap]
  refine ⟨fun g _ => groupRuns_pairwise s g,pairwise_lt_range.imp ?_⟩
  intro g h earlier r first r' second
  have ends := (mem_groupRuns first).2.2
  have starts := (mem_groupRuns second).2.1
  exact ends.trans ((Nat.mul_le_mul_right _ earlier).trans starts)

theorem total_groupRuns_le (s : Inode) (g : Nat) : total (groupRuns s g) ≤ nrPagesInPeb := by
  rw [groupRuns]
  split
  · have lengths : total ((maxRuns (bit (s.dlBmap g)) nrPagesInPeb).map (inGroup g)) = total
        (maxRuns (bit (s.dlBmap g)) nrPagesInPeb) := by
      rw [total,map_map]
      rfl
    rw [lengths]
    exact total_maxRuns_le _ _
  · exact Nat.zero_le _

theorem total_gatheredRuns_le (s : Inode) : total (gatheredRuns s) ≤ 2^28 := by
  have upto : ∀ n, total ((List.range n).flatMap (groupRuns s)) ≤ n * nrPagesInPeb := by
    intro n
    induction n with
    | zero => exact Nat.zero_le _
    | succ n ih =>
      have last := total_groupRuns_le s n
      rw [range_succ,flatMap_append,flatMap_singleton,total_append,Nat.succ_mul]
      omega
  exact upto (pageSize * bitsInByte)

/-- What the gather leaves: the runs are on the lists of the target, and their pages are locked in place of being dirty. -/
structure Exact (target : Target) (runs : List (Nat × Nat)) (s t : Inode) : Prop where
  journal : t.lists.iJournalDirty.dirtyPages = s.lists.iJournalDirty.dirtyPages ++ (target.forJournal runs).map entry
  stg : t.lists.iStgDirty.dirtyPages = s.lists.iStgDirty.dirtyPages ++ (target.forStg runs).map entry
  waiting : ∀ df, (t.lists.iJournalWaitingDirty df).dirtyPages =
    (s.lists.iJournalWaitingDirty df).dirtyPages ++ (target.forWaiting df runs).map entry
  waitingNr : ∀ df, (t.lists.iJournalWaitingNrDirtyBlks df).toNat =
    if target = .journal df then total runs else (s.lists.iJournalWaitingNrDirtyBlks df).toNat
  dirty : ∀ p, t.dirtyBit p = (s.dirtyBit p && !s.gathers p)
  lock : ∀ p, t.lockBit p = (s.lockBit p || s.gathers p)
  others : ∀ g p, 2 * nrPagesInPeb ≤ p → bit (t.dlBmap g) p = bit (s.dlBmap g) p
  groups : ∀ g, t.groupBit g = false

theorem unlocked_block (unlocked : ∀ p, s.dirtyBit p = true → s.lockBit p = false) (g : Nat) : Unlocked (s.dlBmap g) := by
  intro a small set
  have free := unlocked (a + g * nrPagesInPeb)
  rw [Inode.dirtyBit,Inode.lockBit,div_nrPagesInPeb g small,mod_nrPagesInPeb g small] at free
  exact free set

theorem resetWaitingNr_other (other : target ≠ .journal df) (l : Lists) :
    (resetWaitingNr target l).iJournalWaitingNrDirtyBlks df = l.iJournalWaitingNrDirtyBlks df := by
  cases target with
  | journal d =>
    have apart : df ≠ d := fun same => other (by rw [same])
    simp only [resetWaitingNr,update_of_ne apart]
  | staging => rfl

theorem inodeGatherDirtyPagebits_upto (target : Target) (s : Inode) (unlocked : ∀ g, Unlocked (s.dlBmap g)) :
    Upto target { s with lists := resetWaitingNr target s.lists } (pageSize * bitsInByte)
    (inodeGatherDirtyPagebits target s) := by
  refine Oxbow.Lib.Loop.foldl_range (n := pageSize / 8)
    (fun i => Upto target { s with lists := resetWaitingNr target s.lists } (i * 64))
    (Upto.start target _) ?_
  intro i t _ now
  have next : (i + 1) * 64 = i * 64 + 64 := by omega
  rw [next]
  exact Upto.gatherGroups (s := { s with lists := resetWaitingNr target s.lists }) unlocked now (Nat.le_refl _) (by omega)

theorem Upto.bits (now : Upto target s (pageSize * bitsInByte) t) (g p : Nat) :
    bit (t.dlBmap g) p = if s.groupBit g then takenBit (s.dlBmap g) nrPagesInPeb p else bit (s.dlBmap g) p := by
  rw [Inode.groupBit]
  by_cases inside : g < pageSize * bitsInByte
  · rw [now.before g inside,decide_eq_true inside,Bool.true_and]
  · rw [now.behind g (by omega),decide_eq_false inside,Bool.false_and]
    rfl

theorem gatheredRuns_exact (target : Target) (s : Inode) (unlocked : ∀ p, s.dirtyBit p = true → s.lockBit p = false) :
    Exact target (gatheredRuns s) s (inodeGatherDirtyPagebits target s) := by
  have pages := nrPagesInPeb_eq
  have small : ∀ p, p % nrPagesInPeb < nrPagesInPeb := fun p => Nat.mod_lt p (by omega)
  have done := inodeGatherDirtyPagebits_upto target s (unlocked_block unlocked)
  have runs : (List.range (pageSize * bitsInByte)).flatMap (groupRuns { s with lists := resetWaitingNr target s.lists }) =
    gatheredRuns s := rfl
  have appended := done.appended
  rw [runs] at appended
  refine ⟨?_,?_,?_,?_,?_,?_,?_,?_⟩
  · rw [appended.journal]
    cases target <;> rfl
  · rw [appended.stg]
    cases target <;> rfl
  · intro df
    rw [appended.waiting]
    cases target <;> rfl
  · intro df
    have fits := total_gatheredRuns_le s
    rw [appended.waitingNr,Target.forWaiting]
    split
    next same =>
      simp only [same,resetWaitingNr,update_self,BitVec.zero_add,BitVec.toNat_ofNat]
      exact Nat.mod_eq_of_lt (by omega)
    next other =>
      rw [total_nil,BitVec.add_zero,resetWaitingNr_other other]
  · intro p
    rw [Inode.gathers,Inode.dirtyBit,done.bits,Inode.dirtyBit]
    change (if s.groupBit _ then takenBit (s.dlBmap _) _ _ else bit (s.dlBmap _) _) = _
    cases s.groupBit (p / nrPagesInPeb)
    · simp
    · simp [takenBit_dirty (small p)]
  · intro p
    rw [Inode.gathers,Inode.lockBit,done.bits,Inode.lockBit,Inode.dirtyBit]
    change (if s.groupBit _ then takenBit (s.dlBmap _) _ _ else bit (s.dlBmap _) _) = _
    cases s.groupBit (p / nrPagesInPeb)
    · simp
    · simp [takenBit_lock (small p)]
  · intro g p beyond
    rw [done.bits,takenBit_others beyond]
    exact ite_self _
  · intro g
    rw [Inode.groupBit,done.groups]
    by_cases inside : g < pageSize * bitsInByte
    · rw [decide_eq_false (Nat.not_le.mpr inside),Bool.false_and,Bool.and_false]
    · rw [decide_eq_false inside,Bool.false_and]

/-- With no dirty page locked, the lists get every longest dirty run once and in order, and nothing else. -/
theorem inodeGatherDirtyPagebits_exact (target : Target) (s : Inode)
    (unlocked : ∀ p, s.dirtyBit p = true → s.lockBit p = false) :
    ∃ runs : List (Nat × Nat), (∀ start nr, (start,nr) ∈ runs ↔ DirtyRun s start nr) ∧ runs.Pairwise Before ∧
      Exact target runs s (inodeGatherDirtyPagebits target s) := by
  exact ⟨gatheredRuns s,mem_gatheredRuns s,gatheredRuns_pairwise s,gatheredRuns_exact target s unlocked⟩

def DirtyList.fresh : DirtyList := ⟨[⟨[],0⟩],.last _ (Nat.zero_le _),none⟩

def fivePages : Inode where
  dgBmap o := if o = 0 then 1#8 else 0#8
  dlBmap g o := if g = 0 ∧ o = 0 then 0xe6#8 else 0#8
  lists := ⟨.fresh,fun _ => .fresh,fun _ => 0#32,.fresh⟩

theorem fivePages_unlocked (p : Nat) (_ : fivePages.dirtyBit p = true) : fivePages.lockBit p = false := by
  have pages := nrPagesInPeb_eq
  have lock : (nrPagesInPeb + p % nrPagesInPeb) / 8 ≠ 0 := by omega
  simp [Inode.lockBit,fivePages,bit,lock]

theorem inodeGatherDirtyPagebits_exact_fivePages :
    ∃ runs, (1,2) ∈ runs ∧ (5,3) ∈ runs ∧ runs.Pairwise Before ∧
      Exact (.journal .df0) runs fivePages (inodeGatherDirtyPagebits (.journal .df0) fivePages) := by
  obtain ⟨runs,all,ordered,exact'⟩ := inodeGatherDirtyPagebits_exact (.journal .df0) fivePages fivePages_unlocked
  have first : DirtyRun fivePages 1 2 := ⟨by decide,by decide,by decide,by decide,by decide,by decide⟩
  have second : DirtyRun fivePages 5 3 := ⟨by decide,by decide,by decide,by decide,by decide,by decide⟩
  exact ⟨runs,(all 1 2).mpr first,(all 5 3).mpr second,ordered,exact'⟩

/-! The dump of a gathered list can be read back. -/

theorem gatheredRuns_bounds (member : r ∈ gatheredRuns s) : 0 < r.2 ∧ r.1 + r.2 ≤ 2^28 := by
  obtain ⟨g,below,run⟩ := mem_flatMap.mp member
  obtain ⟨positive,-,ends⟩ := mem_groupRuns run
  have groups : g + 1 ≤ pageSize * bitsInByte := mem_range.mp below
  exact ⟨positive,ends.trans (Nat.mul_le_mul_right nrPagesInPeb groups)⟩

theorem length_le_total (runs : List (Nat × Nat)) (positive : ∀ r ∈ runs, 0 < r.2) : runs.length ≤ total runs := by
  have least := length_le_sum_of_one_le (runs.map Prod.snd) (forall_mem_map.mpr positive)
  rwa [length_map] at least

theorem gathered_of_runs {ranges : List Stage.RangeDirty} (same : ranges.map Stage.RangeDirty.pair = gatheredRuns s) :
    Stage.Gathered ranges := by
  have bounds : ∀ rd ∈ ranges, 0 < rd.nr ∧ rd.start + rd.nr ≤ 2^28 := by
    intro rd member
    have run := mem_map_of_mem (f := Stage.RangeDirty.pair) member
    rw [same] at run
    exact gatheredRuns_bounds run
  refine ⟨fun rd member => (bounds rd member).1,?_,?_,?_⟩
  · have ordered := gatheredRuns_pairwise s
    rw [← same,pairwise_map] at ordered
    refine (ordered.imp_of_mem ?_).isChain
    intro rd next _ member before
    have page := bounds next member
    exact ⟨before,by omega⟩
  · intro rd member
    have page := bounds rd member
    omega
  · have pages := total_gatheredRuns_le s
    have count := length_le_total (gatheredRuns s) fun r member => (gatheredRuns_bounds member).1
    have number : ranges.length = (gatheredRuns s).length := by rw [← same,length_map]
    rw [Stage.entsPerBlock_eq]
    omega

/-- The runs of a gather make a list as the dump of the dirty list takes it. -/
theorem gatheredRuns_gathered (s : Inode) :
    ∃ ranges : List Stage.RangeDirty, ranges.map Stage.RangeDirty.pair = gatheredRuns s ∧ Stage.Gathered ranges := by
  have fits : ∀ r ∈ gatheredRuns s, r.2 < 2^31 := by
    intro r member
    have bounds := gatheredRuns_bounds member
    omega
  have pairs : ((gatheredRuns s).pmap (fun r fit => (⟨r.1,r.2,fit⟩ : Stage.RangeDirty)) fits).map Stage.RangeDirty.pair =
      gatheredRuns s := by
    simp [map_pmap,Stage.RangeDirty.pair]
  exact ⟨_,pairs,gathered_of_runs pairs⟩

/-- What a gather puts on an empty list is as the dump of the list needs it. -/
theorem gather_dumpable {s : Inode} (clean : s.lists.iStgDirty.dirtyPages = [])
    (unlocked : ∀ p, s.dirtyBit p = true → s.lockBit p = false) : ∃ ranges : List Stage.RangeDirty,
      (inodeGatherDirtyPagebits .staging s).lists.iStgDirty.dirtyPages = ranges.map (fun rd => (rd.start,(rd.nr : Int))) ∧
      Stage.Gathered ranges := by
  obtain ⟨ranges,pairs,gathered⟩ := gatheredRuns_gathered s
  refine ⟨ranges,?_,gathered⟩
  rw [(gatheredRuns_exact .staging s unlocked).stg,clean,nil_append,Target.forStg,← pairs,map_map]
  rfl

theorem gather_dumpable_fivePages : fivePages.gathers 1 = true ∧ ∃ ranges : List Stage.RangeDirty,
    (inodeGatherDirtyPagebits .staging fivePages).lists.iStgDirty.dirtyPages = ranges.map
    (fun rd => (rd.start,(rd.nr : Int))) ∧
    Stage.Gathered ranges :=
  ⟨by decide,gather_dumpable rfl fivePages_unlocked⟩

end Oxbow.Daemon.DirtyBits
