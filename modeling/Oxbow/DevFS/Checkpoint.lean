import Oxbow.DevFS.CoalesceIssue

/-! The effect of a whole coalescing checkpoint: the copies it issues are the last write to
each destination its tags name, and they commute. -/
namespace Oxbow.DevFS

open Oxbow.Lib List

theorem batches_flatten (maxBufSize size : Nat) (pending is : List Issue) :
    (batches maxBufSize size pending is).flatten = pending ++ is := by
  induction is generalizing size pending with
  | nil => cases pending <;> simp [batches]
  | cons i is ih =>
    simp only [batches]
    split
    next => simp [ih]
    next => simp [ih]

def TagGroup.dests (g : TagGroup logs) : List Nat := g.tags.flatMap ETag.dests

theorem ETag.valid (t : ETag) : t.start ≠ invalid := by
  have := t.positive
  have := t.addressable
  omega

theorem group_slots (g : TagGroup logs) :
    slots g.nodes = (g.dests.map some).map (Slot.mk g.srcStartBaddr g.stageTx) := by
  simp only [slots,TagGroup.nodes,TagGroup.dests,flatMap_map,map_flatMap]
  apply flatMap_congr
  intro t _
  simp [TagListNode.slots,TagListNode.dests,t.valid,destRun,ETag.dests]

theorem group_length (g : TagGroup logs) : g.dests.length ≤ (logs.ring g.stageTx).size := by
  have := g.fits
  simpa [TagGroup.dests,length_flatMap,ETag.dests] using this

theorem group_dests_ne_nil (g : TagGroup logs) : g.dests ≠ [] := by
  obtain ⟨t,tags,shape⟩ := exists_cons_of_ne_nil g.nonempty
  have := t.positive
  simp only [TagGroup.dests,shape,flatMap_cons,ETag.dests]
  intro nil
  have := congrArg List.length nil
  simp only [length_append,length_map,length_range,length_nil] at this
  omega

theorem fits_of_run (logs : Logs) (src : Nat) (stageTx : Bool) (k : Nat) (ds : List (Option Nat))
    (tail : List Slot) (position : (logs.ring stageTx).Position src)
    (within : k + ds.length ≤ (logs.ring stageTx).size)
    (rest : Fits logs ⟨src,stageTx,k + ds.length⟩ tail) :
    Fits logs ⟨src,stageTx,k⟩ (ds.map (Slot.mk src stageTx) ++ tail) := by
  induction ds generalizing k with
  | nil => exact rest
  | cons d ds ih =>
    rw [length_cons] at within rest
    simp only [map_cons,cons_append,Fits,Cursor.offset,Cursor.next,if_true]
    refine ⟨fun _ => rfl,position,by omega,?_⟩
    apply ih (k + 1)
    · omega
    · rwa [Nat.add_assoc,Nat.add_comm 1]

theorem live_mapIdx_some (f : Nat → Nat) (ds : List Nat) :
    live ((ds.map some).mapIdx fun i d => (f i,d)) = ds.mapIdx fun i d => (f i,d) := by
  induction ds generalizing f with
  | nil => rfl
  | cons d ds ih =>
    rw [map_cons,mapIdx_cons,mapIdx_cons,live_some]
    exact congrArg _ (ih fun i => f (i + 1))

/-- The tag list fits its logs, and its slots mean what the tags mean. -/
theorem tagList_meaning (groups : List (TagGroup logs)) (c : Cursor) (grouped : Grouped groups)
    (fresh : ∀ g ∈ groups.head?, c.src ≠ g.srcStartBaddr) :
    Fits logs c (slots (tagList groups)) ∧ live (locate logs c (slots (tagList groups))) = tagWrites groups := by
  induction groups generalizing c with
  | nil => exact ⟨trivial,rfl⟩
  | cons g groups ih =>
    obtain ⟨next,chain⟩ := isChain_cons.mp grouped
    have some' : g.dests.map some ≠ [] := by simpa using group_dests_ne_nil g
    have zero : c.offset g.srcStartBaddr = 0 := if_neg (fresh g rfl)
    have shape : slots (tagList (g :: groups)) =
        (g.dests.map some).map (Slot.mk g.srcStartBaddr g.stageTx) ++ slots (tagList groups) := by
      rw [← group_slots]
      simp [tagList,slots]
    obtain ⟨fits,meaning⟩ := ih ⟨g.srcStartBaddr,g.stageTx,0 + (g.dests.map some).length⟩ chain next
    have bound := group_length g
    have whole := fits_of_run logs g.srcStartBaddr g.stageTx 0 (g.dests.map some) (slots (tagList groups)) g.begins
      (by simpa using bound) fits
    rw [shape]
    constructor
    · obtain ⟨d,ds,shape⟩ := exists_cons_of_ne_nil some'
      rw [shape] at whole ⊢
      simp only [map_cons,cons_append,Fits,Cursor.offset,Cursor.next,if_true] at whole ⊢
      refine ⟨fun same => absurd same (fresh g rfl),whole.2.1,?_,?_⟩
      · simpa [fresh g rfl] using whole.2.2.1
      · simpa [fresh g rfl] using whole.2.2.2
    · rw [locate_enter logs _ _ c _ some',Cursor.enter,zero,locate_run,live_append,meaning,live_mapIdx_some]
      simp [tagWrites,TagGroup.dests]

theorem group_keys (g : TagGroup logs) :
    ∃ k, g.nodes.map TagListNode.key = replicate (k + 1) (g.srcStartBaddr,g.stageTx) := by
  obtain ⟨k,length⟩ := Nat.exists_eq_succ_of_ne_zero (mt length_eq_zero_iff.mp g.nonempty)
  refine ⟨k,eq_replicate_iff.mpr ⟨?_,?_⟩⟩
  · simpa [TagGroup.nodes] using length
  · simp [TagGroup.nodes,TagListNode.key]

theorem tagList_chain (groups : List (TagGroup logs)) (a : Nat × Bool) (grouped : Grouped groups)
    (fresh : ∀ g ∈ groups.head?, a.1 ≠ g.srcStartBaddr) :
    (a :: (tagList groups).map TagListNode.key).IsChain Agree := by
  induction groups generalizing a with
  | nil => simp [tagList]
  | cons g groups ih =>
    obtain ⟨next,chain⟩ := isChain_cons.mp grouped
    obtain ⟨k,keys⟩ := group_keys g
    have rest := ih (g.srcStartBaddr,g.stageTx) chain next
    have linked : ([a] ++ (g.srcStartBaddr,g.stageTx) :: (tagList groups).map TagListNode.key).IsChain Agree :=
      isChain_cons_cons.mpr ⟨fun same => absurd same (fresh g rfl),rest⟩
    have stretched := Agree.stutter _ k _ _ linked
    simpa [tagList,keys] using stretched

theorem tagList_nodes (groups : List (TagGroup logs)) :
    ∀ n ∈ tagList groups, n.Bounded ∧ n.start ≠ invalid := by
  intro n member
  obtain ⟨g,-,member⟩ := mem_flatMap.mp member
  obtain ⟨t,-,rfl⟩ := mem_map.mp member
  exact ⟨.inr t.addressable,t.valid⟩

theorem TagGroup.src_valid (g : TagGroup logs) : g.srcStartBaddr ≠ invalid := by
  have := (logs.ring g.stageTx).addressable
  have := g.begins.2
  simp only [invalid]
  omega

/-- The passes never abort, and what is dispatched is the last write to each destination. -/
theorem doCheckpointCoalesce_copies (maxBufSize : Nat) (groups : List (TagGroup logs))
    (grouped : Grouped groups) :
    ∃ dispatched, doCheckpointCoalesce logs maxBufSize (tagList groups) = some dispatched ∧
      issuedCopies dispatched = lastWrites (tagWrites groups) := by
  have fresh : ∀ g ∈ groups.head?, invalid ≠ g.srcStartBaddr := fun g _ => g.src_valid.symm
  obtain ⟨fits,meaning⟩ := tagList_meaning groups ⟨invalid,false,0⟩ grouped fresh
  have chain : OneLog (tagList groups) := (tagList_chain groups (invalid,false) grouped fresh).tail
  obtain ⟨optimized,pass3,bounded,chain3,fits3,meaning3⟩ :=
    optimize_slots logs ⟨invalid,false,0⟩ [] (tagList groups) [] (fun n member => (tagList_nodes groups n member).1)
      (fun n member => (tagList_nodes groups n member).2) chain fits rfl
  obtain ⟨same,bounded4⟩ :=
    coalesce_slots logs ⟨invalid,false,0⟩ invalid [] optimized bounded (by simp) chain3 fits3
  rw [reverse_nil,nil_append] at same
  have pass5 := issueLoop_copies logs (2 * (coalesce invalid [] optimized).length) ⟨invalid,false,0⟩ 0
    (coalesce invalid [] optimized) bounded4 (Nat.le_refl _) (same ▸ fits3) fun unknown => absurd rfl unknown
  refine ⟨_,by rw [doCheckpointCoalesce,pass3,Option.map_some],?_⟩
  rw [issuedCopies,batches_flatten,nil_append,pass5,same,meaning3,nil_append]
  exact congrArg lastWrites meaning

section

variable (groups : List (TagGroup logs))

theorem named_iff (d : Nat) : Named groups d ↔ d ∈ (tagWrites groups).map Prod.snd := by
  have dests : (tagWrites groups).map Prod.snd = groups.flatMap TagGroup.dests := by
    simp only [tagWrites,map_flatMap]
    apply flatMap_congr
    intro g _
    apply ext_getElem (by simp [TagGroup.dests])
    simp [TagGroup.dests]
  rw [dests]
  simp only [Named,TagGroup.dests,ETag.dests,mem_flatMap,mem_map,mem_range]
  constructor
  · rintro ⟨g,hg,t,ht,lower,upper⟩
    exact ⟨g,hg,t,ht,d - t.start,by omega,by omega⟩
  · rintro ⟨g,hg,t,ht,i,bound,rfl⟩
    exact ⟨g,hg,t,ht,by omega,by omega⟩

theorem tagWrites_source (w : Nat × Nat) (member : w ∈ tagWrites groups) :
    logs.journal.Holds w.1 ∨ logs.stage.Holds w.1 := by
  obtain ⟨g,-,member⟩ := mem_flatMap.mp member
  obtain ⟨k,bound,rfl⟩ := mem_mapIdx.mp member
  have inside := (logs.ring g.stageTx).block_holds g.begins
    (Nat.lt_of_lt_of_le bound (group_length g))
  cases stage : g.stageTx <;> rw [stage] at inside
  · exact .inl inside
  · exact .inr inside

theorem tagWrites_separate (outside : ∀ d, Named groups d → ¬ logs.journal.Holds d ∧ ¬ logs.stage.Holds d) :
    Separate (tagWrites groups) := by
  intro w hw v hv same
  have apart := outside v.2 ((named_iff groups v.2).mpr (mem_map_of_mem hv))
  rw [← same] at apart
  rcases tagWrites_source groups w hw with journal | stage
  · exact apart.1 journal
  · exact apart.2 stage

end

/-- The coalescing checkpoint is last-writer-wins: each destination a tag names is copied
once, from the log block of the last tag that covers it, nothing else is copied, and any
order of the copies leaves the disk as the tags applied one after another would. -/
theorem doCheckpointCoalesce_last_writer_wins (logs : Logs) (maxBufSize : Nat) (groups : List (TagGroup logs))
    (grouped : Grouped groups) :
    ∃ dispatched, doCheckpointCoalesce logs maxBufSize (tagList groups) = some dispatched ∧
      (∀ d, Named groups d → ∃ s, lastSource (tagWrites groups) d = some s ∧
        ((issuedCopies dispatched).filter fun w => w.2 = d) = [(s,d)]) ∧
      (∀ w ∈ issuedCopies dispatched, Named groups w.2) ∧
      ∀ {γ : Type} (disk : Nat → γ) (order : List (Nat × Nat)),
        (∀ d, Named groups d → ¬ logs.journal.Holds d ∧ ¬ logs.stage.Holds d) →
        order.Perm (issuedCopies dispatched) →
        copies disk order = copies disk (tagWrites groups) := by
  obtain ⟨dispatched,result,issued⟩ := doCheckpointCoalesce_copies maxBufSize groups grouped
  refine ⟨dispatched,result,?_,?_,?_⟩
  · intro d named
    have written := (lastSource_isSome _ _).mpr ((named_iff groups d).mp named)
    obtain ⟨s,source⟩ := Option.isSome_iff_exists.mp written
    refine ⟨s,source,?_⟩
    rw [issued]
    exact filter_dest_of_nodup _ s d (lastWrites_nodup _) ((mem_lastWrites_iff _ s d).mpr source)
  · intro w member
    rw [issued] at member
    exact (named_iff groups w.2).mpr (mem_map_of_mem (lastWrites_subset _ w member))
  · intro γ disk order outside perm
    rw [issued] at perm
    exact copies_perm disk (tagWrites groups) order (tagWrites_separate groups outside) perm

def sampleLogs : Logs :=
  ⟨⟨⟨10,13,by decide⟩,by decide,by decide⟩,⟨⟨20,23,by decide⟩,by decide,by decide⟩⟩

def sampleGroups : List (TagGroup sampleLogs) :=
  [⟨22,true,[⟨100,3,by decide,by decide,by decide⟩],by simp,by decide,by decide⟩,
   ⟨14,false,[⟨101,1,by decide,by decide,by decide⟩,⟨105,2,by decide,by decide,by decide⟩],by simp,
     by decide,by decide⟩]

theorem doCheckpointCoalesce_sample :
    Grouped sampleGroups ∧ ∃ dispatched, doCheckpointCoalesce sampleLogs 8192 (tagList sampleGroups) = some dispatched ∧
      ∀ w ∈ issuedCopies dispatched, Named sampleGroups w.2 := by
  have grouped : Grouped sampleGroups := by simp [Grouped,sampleGroups]
  obtain ⟨dispatched,result,-,only,-⟩ :=
    doCheckpointCoalesce_last_writer_wins sampleLogs 8192 sampleGroups grouped
  exact ⟨grouped,dispatched,result,only⟩

example : (doCheckpointCoalesce sampleLogs 8192 (tagList sampleGroups)).map issuedCopies =
    some [(22,100),(20,102),(10,101),(11,105),(12,106)] := by decide

end Oxbow.DevFS
