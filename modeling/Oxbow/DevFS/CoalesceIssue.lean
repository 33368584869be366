import Oxbow.DevFS.CoalesceOptimize

/-! Passes 4 and 5: merging keeps every slot in place, and the issued copies are the live
slots, each read from where its group puts it on the log. Together with pass 3 this gives
the effect of a whole coalescing checkpoint. -/
namespace Oxbow.DevFS

open Oxbow.Lib List

def Cursor.enter (c : Cursor) (src : Nat) (stageTx : Bool) : Cursor := ⟨src,stageTx,c.offset src⟩

section Runs

variable (logs : Logs) (src : Nat) (stageTx : Bool)

theorem locate_run (k : Nat) (ds : List (Option Nat)) (tail : List Slot) :
    locate logs ⟨src,stageTx,k⟩ (ds.map (Slot.mk src stageTx) ++ tail) =
      ds.mapIdx (fun i d => ((logs.ring stageTx).block src (k + i),d)) ++
      locate logs ⟨src,stageTx,k + ds.length⟩ tail := by
  induction ds generalizing k with
  | nil => rfl
  | cons d ds ih =>
    have rest := ih (k + 1)
    simp only [map_cons,cons_append,locate,Cursor.offset,Cursor.next,if_true,
      mapIdx_cons,length_cons] at rest ⊢
    rw [rest]
    simp only [Nat.add_comm,Nat.add_left_comm,Nat.add_zero]

theorem fits_run (k : Nat) (ds : List (Option Nat)) (tail : List Slot)
    (fits : Fits logs ⟨src,stageTx,k⟩ (ds.map (Slot.mk src stageTx) ++ tail)) :
    (ds ≠ [] → k + ds.length ≤ (logs.ring stageTx).size) ∧ Fits logs ⟨src,stageTx,k + ds.length⟩ tail := by
  induction ds generalizing k with
  | nil => exact ⟨fun some => absurd rfl some,fits⟩
  | cons d ds ih =>
    simp only [map_cons,cons_append,Fits,Cursor.offset,Cursor.next,if_true] at fits
    obtain ⟨-,-,inside,later⟩ := fits
    obtain ⟨bound,rest⟩ := ih (k + 1) later
    rw [length_cons,Nat.add_comm ds.length,← Nat.add_assoc]
    refine ⟨fun _ => ?_,rest⟩
    by_cases more : ds = []
    · simpa [more] using Nat.succ_le_of_lt inside
    · exact bound more

variable (c : Cursor) (ds : List (Option Nat)) (some : ds ≠ []) (tail : List Slot)
include some

theorem locate_enter :
    locate logs c (ds.map (Slot.mk src stageTx) ++ tail) =
      locate logs (c.enter src stageTx) (ds.map (Slot.mk src stageTx) ++ tail) := by
  obtain ⟨d,ds,rfl⟩ := exists_cons_of_ne_nil some
  simp [locate,Cursor.enter,Cursor.offset,Cursor.next]

theorem fits_enter (fits : Fits logs c (ds.map (Slot.mk src stageTx) ++ tail)) :
    Agree (c.src,c.stageTx) (src,stageTx) ∧ (logs.ring stageTx).Position src ∧
      Fits logs (c.enter src stageTx) (ds.map (Slot.mk src stageTx) ++ tail) := by
  obtain ⟨d,ds,rfl⟩ := exists_cons_of_ne_nil some
  simp only [map_cons,cons_append,Fits,Cursor.enter,Cursor.offset,Cursor.next,if_true] at fits ⊢
  exact ⟨fits.1,fits.2.1,fun _ => rfl,fits.2⟩

end Runs

theorem fits_length (logs : Logs) (c : Cursor) (src : Nat) (stageTx : Bool) (ds : List (Option Nat))
    (tail : List Slot) (fits : Fits logs c (ds.map (Slot.mk src stageTx) ++ tail)) : ds.length < 2^32 := by
  have small := (logs.ring stageTx).fits
  by_cases some : ds = []
  · simp [some]
  · obtain ⟨-,-,entered⟩ := fits_enter logs src stageTx c ds some tail fits
    have := (fits_run logs src stageTx _ ds tail entered).1 some
    omega

theorem dests_length (n : TagListNode) : n.dests.length = n.cnt := by
  unfold TagListNode.dests
  split <;> simp [destRun]

theorem merged_slots (p n : TagListNode) (joined : mergeable p n) (key : p.key = n.key)
    (small : p.cnt + n.cnt < 2^32) (bounded : n.Bounded) :
    TagListNode.slots { p with cnt := u32 (p.cnt + n.cnt) } = p.slots ++ n.slots ∧
      TagListNode.Bounded { p with cnt := u32 (p.cnt + n.cnt) } := by
  obtain ⟨src,stage⟩ := Prod.mk.inj key
  simp only [mergeable,decide_eq_true_eq] at joined
  rw [u32_of_lt small]
  rcases joined with ⟨dead,deadPrev⟩ | ⟨⟨valid,validPrev⟩,next⟩
  · refine ⟨?_,.inl deadPrev⟩
    simp [TagListNode.slots,TagListNode.dests,dead,deadPrev,src,stage,← replicate_append_replicate]
  · have room := bounded.resolve_left valid
    refine ⟨?_,.inr (by simp only; omega)⟩
    simp only [TagListNode.slots,TagListNode.dests,if_neg validPrev,if_neg valid,src,stage,
      destRun_add,map_append]
    rw [next]

theorem OneLog.merge (before todo : List TagListNode) (p n : TagListNode) (cnt : Nat) (key : p.key = n.key)
    (chain : OneLog (before ++ p :: n :: todo)) : OneLog (before ++ { p with cnt := cnt } :: todo) := by
  have same : TagListNode.key { p with cnt := cnt } = p.key := rfl
  simp only [OneLog,map_append,map_cons,same] at chain ⊢
  rw [← key,isChain_append_cons_cons] at chain
  exact isChain_split.mpr ⟨chain.1,chain.2.2⟩

structure Kept (passed todo : List TagListNode) (n : TagListNode) (next : List TagListNode) : Prop where
  slots : slots (next.reverse ++ todo) = slots (passed.reverse ++ n :: todo)
  chain : OneLog (next.reverse ++ todo)
  bounded : ∀ m ∈ next, m.Bounded
  current : ∀ p ∈ next.head?, p.srcStartBaddr = n.srcStartBaddr

theorem Kept.push (passed todo : List TagListNode) (n : TagListNode) (bounded : ∀ m ∈ n :: passed, m.Bounded)
    (chain : OneLog (passed.reverse ++ n :: todo)) : Kept passed todo n (n :: passed) := by
  have same : (n :: passed).reverse ++ todo = passed.reverse ++ n :: todo := by simp
  exact ⟨congrArg DevFS.slots same,same ▸ chain,bounded,by simp⟩

section

variable (logs : Logs) (c : Cursor)

theorem Kept.merge (p n : TagListNode) (ps todo : List TagListNode)
    (joined : mergeable p n) (src : p.srcStartBaddr = n.srcStartBaddr)
    (bounded : ∀ m ∈ n :: p :: ps, m.Bounded) (chain : OneLog ((p :: ps).reverse ++ n :: todo))
    (fits : Fits logs c (DevFS.slots ((p :: ps).reverse ++ n :: todo))) :
    Kept (p :: ps) todo n ({ p with cnt := u32 (p.cnt + n.cnt) } :: ps) := by
  have order : (p :: ps).reverse ++ n :: todo = ps.reverse ++ p :: n :: todo := by simp
  rw [order] at chain fits
  have links := chain
  simp only [OneLog,map_append,map_cons,isChain_append_cons_cons] at links
  have key : p.key = n.key := Prod.ext src (links.2.1 src)
  have run : p.slots ++ n.slots = (p.dests ++ n.dests).map (Slot.mk p.srcStartBaddr p.stageTx) := by
    obtain ⟨_,stage⟩ := Prod.mk.inj key
    rw [map_append,TagListNode.slots,TagListNode.slots,src,stage]
  have split : DevFS.slots (ps.reverse ++ p :: n :: todo) =
      DevFS.slots ps.reverse ++ (p.slots ++ n.slots ++ DevFS.slots todo) := by simp [DevFS.slots]
  rw [split,run,fits_append] at fits
  have small := fits_length logs _ _ _ _ _ fits.2
  rw [length_append,dests_length,dests_length] at small
  obtain ⟨merged,mergedBounded⟩ := merged_slots p n joined key small (bounded n mem_cons_self)
  refine ⟨?_,?_,?_,by simpa using src⟩
  · rw [order,split,← merged]
    simp [DevFS.slots]
  · have folded := OneLog.merge _ _ p n (u32 (p.cnt + n.cnt)) key chain
    simpa using folded
  · intro m member
    rcases mem_cons.mp member with rfl | member
    · exact mergedBounded
    · exact bounded m (by simp [member])

/-- One node of pass 4: the slots before it and its own stay in place. -/
theorem coalesceNode_kept (group : Nat) (passed todo : List TagListNode)
    (n : TagListNode) (bounded : ∀ m ∈ n :: passed, m.Bounded)
    (current : ∀ p ∈ passed.head?, p.srcStartBaddr = group) (chain : OneLog (passed.reverse ++ n :: todo))
    (fits : Fits logs c (slots (passed.reverse ++ n :: todo))) :
    Kept passed todo n (coalesceNode group passed n) := by
  have pushed := Kept.push passed todo n bounded chain
  unfold coalesceNode
  split
  next => exact pushed
  next same =>
    cases passed with
    | nil => exact pushed
    | cons p ps =>
      simp only
      split
      next joined =>
        have src : p.srcStartBaddr = n.srcStartBaddr := (current p rfl).trans (not_not.mp same)
        exact Kept.merge logs c p n ps todo joined src bounded chain fits
      next => exact pushed

theorem coalesce_slots (group : Nat) (passed todo : List TagListNode)
    (bounded : ∀ n ∈ passed ++ todo, n.Bounded) (current : ∀ p ∈ passed.head?, p.srcStartBaddr = group)
    (chain : OneLog (passed.reverse ++ todo)) (fits : Fits logs c (slots (passed.reverse ++ todo))) :
    slots (coalesce group passed todo) = slots (passed.reverse ++ todo) ∧
      ∀ n ∈ coalesce group passed todo, n.Bounded := by
  induction todo generalizing group passed with
  | nil =>
    rw [coalesce,append_nil]
    exact ⟨rfl,fun n member => bounded n (mem_append_left _ (mem_reverse.mp member))⟩
  | cons n todo ih =>
    have here : ∀ m ∈ n :: passed, m.Bounded := by
      intro m member
      apply bounded
      simp only [mem_append,mem_cons] at member ⊢
      tauto
    have kept := coalesceNode_kept logs c group passed todo n here current chain fits
    rw [coalesce,← kept.slots]
    apply ih
    · intro m member
      rcases mem_append.mp member with member | member
      · exact kept.bounded m member
      · exact bounded m (by simp [member])
    · exact kept.current
    · exact kept.chain
    · rwa [kept.slots]

end

theorem mapIdx_range (n : Nat) (g : Nat → α) (f : Nat → α → β) :
    ((List.range n).map g).mapIdx f = (List.range n).map fun i => f i (g i) :=
  ext_getElem (by simp) (by simp)

theorem find_read (src n i : Nat) (bound : i < n) :
    (((List.range n).map fun j => (src + j,0 + j)).find? fun r => r.2 = 0 + i) = some (src + i,0 + i) := by
  rw [List.find?_map,Option.map_eq_some_iff]
  refine ⟨i,?_,rfl⟩
  rw [List.find?_range_eq_some]
  refine ⟨by simp,mem_range.mpr bound,?_⟩
  intro j less
  simp only [Function.comp_apply,Nat.zero_add,Bool.not_eq_true',decide_eq_false_iff_not]
  omega

theorem io_copies (src dst n : Nat) :
    Issue.copies ⟨n,addBioToBl 0 src n,addBioToBl 0 dst n⟩ = (List.range n).map fun i => (src + i,dst + i) := by
  rw [Issue.copies,addBioToBl_blocks,addBioToBl_blocks,filterMap_map]
  refine (filterMap_congr ?_).trans (congrFun filterMap_eq_map _)
  intro i member
  rw [Function.comp_apply,find_read src n i (mem_range.mp member)]
  rfl

theorem issueOf_copies (src : Nat) (n : TagListNode) :
    (issueOf src n).flatMap Issue.copies = live (n.dests.mapIdx fun i d => (src + i,d)) := by
  by_cases dead : n.start = invalid
  · simp [issueOf,dead,TagListNode.dests,live]
  · simp only [issueOf,if_neg dead,flatMap_cons,flatMap_nil,append_nil,io_copies]
    rw [dests_live n dead,destRun,live,mapIdx_range,filterMap_map]
    exact (congrFun filterMap_eq_map _).symm

structure At (logs : Logs) (c : Cursor) (current : Nat) : Prop where
  position : (logs.ring c.stageTx).Position current
  next : ∀ j, c.off + j < (logs.ring c.stageTx).size →
    (logs.ring c.stageTx).block current j = (logs.ring c.stageTx).block c.src (c.off + j)

theorem At.enter (logs : Logs) (c : Cursor) (current src : Nat) (stageTx : Bool)
    (agree : Agree (c.src,c.stageTx) (src,stageTx)) (position : (logs.ring stageTx).Position src)
    (here : c.src ≠ invalid → At logs c current) :
    At logs (c.enter src stageTx) (if c.src ≠ src then src else current) := by
  by_cases same : c.src = src
  · have stage : c.stageTx = stageTx := agree same
    have known : c.src ≠ invalid := by
      have := (logs.ring stageTx).addressable
      have := position.2
      simp only [invalid]
      omega
    have entered : c.enter src stageTx = c := by
      cases c
      simp_all [Cursor.enter,Cursor.offset]
    rw [entered,if_neg (not_not.mpr same)]
    exact here known
  · rw [if_pos same]
    refine ⟨position,?_⟩
    intro j _
    simp [Cursor.enter,Cursor.offset,same]

section

variable (here : At logs ⟨src,stageTx,off⟩ current)
include here

theorem At.forward (n : Nat)
    (room : current + n ≤ (logs.ring stageTx).last + 1) : At logs ⟨src,stageTx,off + n⟩ (current + n) := by
  refine ⟨⟨by have := here.position.1; simp only at this ⊢; omega,room⟩,?_⟩
  intro j bound
  simp only at bound ⊢
  rw [Nat.add_assoc off,← here.next (n + j) (by simp only; omega)]
  simp only [Ring.block,Nat.add_assoc]

theorem At.wrap (n : Nat) (toEnd : current + n = (logs.ring stageTx).last + 1) :
    At logs ⟨src,stageTx,off + n⟩ (logs.ring stageTx).first := by
  have order := (logs.ring stageTx).nonempty
  refine ⟨⟨Nat.le_refl _,by simp only; omega⟩,?_⟩
  intro j bound
  simp only at bound ⊢
  rw [Nat.add_assoc off,← here.next (n + j) (by simp only; omega)]
  have lower := here.position.1
  simp only [Ring.block,Ring.size] at bound lower ⊢
  split <;> split <;> omega

theorem At.straight (ds : List (Option Nat)) (room : current + ds.length ≤ (logs.ring stageTx).last + 1)
    (within : off + ds.length ≤ (logs.ring stageTx).size) :
    (ds.mapIdx fun i d => ((logs.ring stageTx).block src (off + i),d)) = ds.mapIdx fun i d => (current + i,d) := by
  apply ext_getElem (by simp)
  intro i bound _
  rw [length_mapIdx] at bound
  have same := here.next i (by simp only; omega)
  rw [Ring.block_before_end _ (by simp only; omega)] at same
  simpa using same.symm

end

section Loop

variable (logs : Logs) (fuel current : Nat) (n : TagListNode) (todo : List TagListNode)

theorem issueLoop_enter (group : Nat) (some : n.cnt ≠ 0) :
    issueLoop logs fuel group current (n :: todo) =
      issueLoop logs fuel n.srcStartBaddr (if group ≠ n.srcStartBaddr then n.srcStartBaddr else current)
        (n :: todo) := by
  cases fuel with
  | zero => rfl
  | succ fuel => simp [issueLoop,some]

theorem issueLoop_straight (some : n.cnt ≠ 0) (room : current + n.cnt ≤ (logs.ring n.stageTx).last + 1) :
    issueLoop logs (fuel + 1) n.srcStartBaddr current (n :: todo) =
      issueOf current n ++ issueLoop logs fuel n.srcStartBaddr (current + n.cnt) todo := by
  have small := (logs.ring n.stageTx).addressable
  have plain : ¬ checkWrapAround current n.cnt (logs.ring n.stageTx).last = true := by
    rw [checkWrapAround_iff _ _ _ (by omega) (by omega)]
    omega
  simp [issueLoop,some,plain]

def TagListNode.firstPart (n : TagListNode) (cnt : Nat) : TagListNode :=
  { n with start := if cnt = 0 then invalid else n.start, cnt := cnt }

def TagListNode.secondPart (n : TagListNode) (cnt : Nat) : TagListNode :=
  { n with start := if n.start = invalid then invalid else n.start + cnt, cnt := n.cnt - cnt }

theorem issueLoop_wrap (m : Nat) (toEnd : current + m = (logs.ring n.stageTx).last + 1)
    (lower : (logs.ring n.stageTx).first ≤ current) (small : n.cnt < 2^32) (past : m < n.cnt) :
    issueLoop logs (fuel + 1) n.srcStartBaddr current (n :: todo) =
      issueOf current (n.firstPart m) ++
      issueLoop logs fuel n.srcStartBaddr (logs.ring n.stageTx).first (n.secondPart m :: todo) := by
  have addressable := (logs.ring n.stageTx).addressable
  have size := (logs.ring n.stageTx).fits
  simp only [Ring.size] at size
  have wraps : checkWrapAround current n.cnt (logs.ring n.stageTx).last = true := by
    rw [checkWrapAround_iff _ _ _ (by omega) (by omega)]
    omega
  have first : blksToEnd current (logs.ring n.stageTx).last = m := by
    have near : (logs.ring n.stageTx).last + 1 - current < 2^32 := by have := lower; omega
    rw [blksToEnd_of_le _ _ (by omega) near (by omega)]
    omega
  have second : sub32 n.cnt m = n.cnt - m := sub32_of_le (by omega) small
  have some : n.cnt ≠ 0 := by omega
  simp [issueLoop,some,wraps,first,second,past,TagListNode.firstPart,TagListNode.secondPart]

end Loop

theorem parts_dests (n : TagListNode) (cnt : Nat) (bounded : n.Bounded) (inside : cnt < n.cnt) :
    (n.firstPart cnt).dests ++ (n.secondPart cnt).dests = n.dests := by
  by_cases dead : n.start = invalid
  · simp only [TagListNode.firstPart,TagListNode.secondPart,TagListNode.dests,dead,if_true,ite_self,
      replicate_append_replicate]
    rw [Nat.add_sub_cancel' (Nat.le_of_lt inside)]
  · have room := bounded.resolve_left dead
    have live : n.start + cnt ≠ invalid := by omega
    rw [TagListNode.firstPart,dests_kept n cnt dead,dests_live n dead,
      dests_live _ (by simpa [TagListNode.secondPart,dead] using live)]
    simp only [TagListNode.secondPart,if_neg dead]
    rw [← destRun_add,Nat.add_sub_cancel' (Nat.le_of_lt inside)]

theorem straight_copies (here : At logs ⟨src,stageTx,off⟩ current) (n : TagListNode) (tail : List Slot)
    (room : current + n.cnt ≤ (logs.ring stageTx).last + 1) (within : off + n.cnt ≤ (logs.ring stageTx).size) :
    live (locate logs ⟨src,stageTx,off⟩ (n.dests.map (Slot.mk src stageTx) ++ tail)) =
      (issueOf current n).flatMap Issue.copies ++ live (locate logs ⟨src,stageTx,off + n.cnt⟩ tail) := by
  have length := dests_length n
  rw [locate_run,live_append,here.straight n.dests (by omega) (by omega),issueOf_copies,length]

theorem issueLoop_node (logs : Logs) (fuel current off : Nat) (n : TagListNode) (todo : List TagListNode)
    (bounded : n.Bounded) (some : n.cnt ≠ 0) (enough : 2 * (todo.length + 1) ≤ fuel)
    (here : At logs ⟨n.srcStartBaddr,n.stageTx,off⟩ current)
    (within : off + n.cnt ≤ (logs.ring n.stageTx).size)
    (rest : ∀ fuel current, 2 * todo.length ≤ fuel → At logs ⟨n.srcStartBaddr,n.stageTx,off + n.cnt⟩ current →
      (issueLoop logs fuel n.srcStartBaddr current todo).flatMap Issue.copies =
        live (locate logs ⟨n.srcStartBaddr,n.stageTx,off + n.cnt⟩ (slots todo))) :
    (issueLoop logs fuel n.srcStartBaddr current (n :: todo)).flatMap Issue.copies =
      live (locate logs ⟨n.srcStartBaddr,n.stageTx,off⟩ (slots (n :: todo))) := by
  obtain ⟨fuel,rfl⟩ : ∃ f, fuel = f + 2 := ⟨fuel - 2,by omega⟩
  have shape : slots (n :: todo) = n.dests.map (Slot.mk n.srcStartBaddr n.stageTx) ++ slots todo := rfl
  have small := (logs.ring n.stageTx).fits
  obtain ⟨lower,upper⟩ := here.position
  simp only at lower upper
  by_cases room : current + n.cnt ≤ (logs.ring n.stageTx).last + 1
  · rw [issueLoop_straight logs (fuel + 1) current n todo some room,flatMap_append,shape,
      straight_copies here n _ room within,rest (fuel + 1) _ (by omega) (here.forward n.cnt room)]
  · -- the second part starts at the first block and cannot reach the end again
    obtain ⟨m,toEnd⟩ : ∃ m, current + m = (logs.ring n.stageTx).last + 1 := ⟨_,Nat.add_sub_cancel' upper⟩
    have order := (logs.ring n.stageTx).nonempty
    have inside : m < n.cnt := by omega
    have fits : (logs.ring n.stageTx).first + (n.cnt - m) ≤ (logs.ring n.stageTx).last + 1 := by
      simp only [Ring.size] at within
      omega
    have total : off + m + (n.cnt - m) = off + n.cnt := by omega
    have wrapped := here.wrap m toEnd
    have done := wrapped.forward (n.cnt - m) fits
    have tail := straight_copies wrapped (n.secondPart m) (slots todo) fits (by
      simp only [TagListNode.secondPart]
      omega)
    have front := straight_copies here (n.firstPart m)
      ((n.secondPart m).dests.map (Slot.mk n.srcStartBaddr n.stageTx) ++ slots todo)
      (Nat.le_of_eq toEnd) (by simp only [TagListNode.firstPart]; omega)
    rw [← append_assoc,← map_append,parts_dests n m bounded inside] at front
    have counts : (n.firstPart m).cnt = m ∧ (n.secondPart m).cnt = n.cnt - m := ⟨rfl,rfl⟩
    rw [counts.2,total] at tail
    rw [total] at done
    rw [issueLoop_wrap logs (fuel + 1) current n todo m toEnd lower (by omega) inside,flatMap_append,
      shape,front,counts.1,tail]
    congr 1
    have next := issueLoop_straight logs fuel (logs.ring n.stageTx).first (n.secondPart m) todo
      (by rw [counts.2]; omega) fits
    have same : (n.secondPart m).srcStartBaddr = n.srcStartBaddr := rfl
    rw [same,counts.2] at next
    rw [next,flatMap_append,rest fuel _ (by omega) done]

/-- Pass 5 issues the live slots, each from the log block its group has for it. -/
theorem issueLoop_copies (logs : Logs) (fuel : Nat) (c : Cursor) (current : Nat) (todo : List TagListNode)
    (bounded : ∀ n ∈ todo, n.Bounded) (enough : 2 * todo.length ≤ fuel) (fits : Fits logs c (slots todo))
    (here : c.src ≠ invalid → At logs c current) :
    (issueLoop logs fuel c.src current todo).flatMap Issue.copies = live (locate logs c (slots todo)) := by
  induction todo generalizing fuel c current with
  | nil => cases fuel <;> rfl
  | cons n todo ih =>
    have later : ∀ m ∈ todo, m.Bounded := fun m member => bounded m (mem_cons_of_mem _ member)
    rw [length_cons] at enough
    by_cases empty : n.cnt = 0
    · obtain ⟨fuel,rfl⟩ : ∃ f, fuel = f + 1 := ⟨fuel - 1,by omega⟩
      have none : slots (n :: todo) = slots todo := by
        have := eq_nil_of_length_eq_zero ((dests_length n).trans empty)
        simp [slots,TagListNode.slots,this]
      rw [none] at fits ⊢
      simpa [issueLoop,empty] using ih fuel c current later (by omega) fits here
    · have some : n.dests ≠ [] := by
        intro nil
        apply empty
        rw [← dests_length n,nil]
        rfl
      obtain ⟨agree,position,entered⟩ :=
        fits_enter logs n.srcStartBaddr n.stageTx c n.dests some (slots todo) fits
      obtain ⟨within,rest⟩ := fits_run logs n.srcStartBaddr n.stageTx _ n.dests (slots todo) entered
      rw [dests_length] at within rest
      have start := At.enter logs c current n.srcStartBaddr n.stageTx agree position here
      rw [issueLoop_enter logs fuel current n todo c.src empty]
      have inGroup := issueLoop_node logs fuel _ (c.offset n.srcStartBaddr) n todo
        (bounded n mem_cons_self) empty enough start (within some) fun fuel current enough at' =>
          ih fuel ⟨n.srcStartBaddr,n.stageTx,c.offset n.srcStartBaddr + n.cnt⟩ current later enough rest
            fun _ => at'
      rw [inGroup]
      exact congrArg live (locate_enter logs n.srcStartBaddr n.stageTx c n.dests some (slots todo)).symm

end Oxbow.DevFS
