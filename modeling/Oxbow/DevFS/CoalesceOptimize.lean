import Mathlib.Data.List.Chain
import Oxbow.DevFS.Coalesce

/-! Pass 3 against the plain meaning of the tags. A node stands for one slot per block it
carries; the pass clears slots that a later tag covers and moves none, so what is live
afterwards is the last write to each destination. -/
namespace Oxbow.DevFS

open Oxbow.Lib List

structure Slot where
  src : Nat
  stageTx : Bool
  dest : Option Nat

def destRun (start n : Nat) : List (Option Nat) := (List.range n).map fun i => some (start + i)

def TagListNode.dests (n : TagListNode) : List (Option Nat) :=
  if n.start = invalid then replicate n.cnt none else destRun n.start n.cnt

def TagListNode.slots (n : TagListNode) : List Slot :=
  n.dests.map fun d => ⟨n.srcStartBaddr,n.stageTx,d⟩

def slots (nodes : List TagListNode) : List Slot := nodes.flatMap TagListNode.slots

def overwrite (start cnt : Nat) (d : Option Nat) : Option Nat :=
  d.filter fun d => d < start ∨ start + cnt ≤ d

def Slot.overwrite (start cnt : Nat) (s : Slot) : Slot :=
  { s with dest := DevFS.overwrite start cnt s.dest }

def TagListNode.Bounded (n : TagListNode) : Prop := n.start = invalid ∨ n.start + n.cnt ≤ invalid

structure Piece (r p : TagListNode) : Prop where
  bounded : p.Bounded
  src : p.srcStartBaddr = r.srcStartBaddr
  stage : p.stageTx = r.stageTx

theorem destRun_add (start a b : Nat) : destRun start (a + b) = destRun start a ++ destRun (start + a) b := by
  simp [destRun,range_add,Function.comp_def,Nat.add_assoc]

theorem overwrite_none (start cnt : Nat) : overwrite start cnt none = none := rfl

theorem destRun_outside (start cnt lo n : Nat) (apart : lo + n ≤ start ∨ start + cnt ≤ lo) :
    (destRun lo n).map (overwrite start cnt) = destRun lo n := by
  simp only [destRun,map_map]
  apply map_congr_left
  intro i member
  have := mem_range.mp member
  simp only [Function.comp_apply,overwrite,Option.filter_some,ite_eq_left_iff,decide_eq_true_eq]
  omega

theorem destRun_inside (start cnt lo n : Nat) (lower : start ≤ lo) (upper : lo + n ≤ start + cnt) :
    (destRun lo n).map (overwrite start cnt) = replicate n none := by
  apply eq_replicate_iff.mpr
  refine ⟨by simp [destRun],?_⟩
  intro d member
  obtain ⟨e,inRun,rfl⟩ := mem_map.mp member
  obtain ⟨i,bound,rfl⟩ := mem_map.mp inRun
  have := mem_range.mp bound
  simp only [overwrite,Option.filter_some,ite_eq_right_iff,decide_eq_true_eq]
  omega

theorem dests_overwrite (start cnt : Nat) (n : TagListNode) (dead : n.start = invalid) :
    n.dests.map (overwrite start cnt) = n.dests := by
  simp [TagListNode.dests,dead,overwrite]

section

variable (r : TagListNode)

theorem slots_of_dests (pieces : List TagListNode) (parts : ∀ p ∈ pieces, Piece r p)
    (f : Option Nat → Option Nat) (dests : pieces.flatMap TagListNode.dests = r.dests.map f) :
    slots pieces = r.slots.map fun s => { s with dest := f s.dest } := by
  have same : ∀ p ∈ pieces, p.slots = p.dests.map fun d => ⟨r.srcStartBaddr,r.stageTx,d⟩ := by
    intro p member
    have piece := parts p member
    simp [TagListNode.slots,piece.src,piece.stage]
  rw [slots,flatMap_congr same,← map_flatMap,dests]
  simp [TagListNode.slots,Function.comp_def]

theorem dests_live (live : r.start ≠ invalid) : r.dests = destRun r.start r.cnt := by
  simp [TagListNode.dests,live]

theorem dests_dead (c : Nat) : TagListNode.dests { r with start := invalid, cnt := c } = replicate c none := by
  simp [TagListNode.dests]

theorem piece_dead (c : Nat) : Piece r { r with start := invalid, cnt := c } :=
  ⟨.inl rfl,rfl,rfl⟩

theorem dests_kept (c : Nat) (live : r.start ≠ invalid) :
    TagListNode.dests { r with start := if c = 0 then invalid else r.start, cnt := c } = destRun r.start c := by
  by_cases empty : c = 0
  · simp [TagListNode.dests,empty,destRun]
  · simp [TagListNode.dests,empty,live]

theorem piece_kept (c : Nat) (room : r.start + c ≤ invalid) :
    Piece r { r with start := if c = 0 then invalid else r.start, cnt := c } := by
  refine ⟨?_,rfl,rfl⟩
  by_cases empty : c = 0
  · exact .inl (if_pos empty)
  · exact .inr (by simpa [empty] using room)

theorem dests_newTag (start c : Nat) (room : start + c ≤ invalid) :
    (newTag r start c).flatMap TagListNode.dests = destRun start c := by
  by_cases some : 0 < c
  · have live : start ≠ invalid := by omega
    simp [newTag,some,TagListNode.dests,live]
  · obtain rfl : c = 0 := by omega
    simp [newTag,destRun]

theorem dests_newTag_dead (c : Nat) : (newTag r invalid c).flatMap TagListNode.dests = replicate c none := by
  by_cases some : 0 < c
  · simp [newTag,some,TagListNode.dests]
  · obtain rfl : c = 0 := by omega
    simp [newTag]

theorem piece_newTag (start c : Nat) (room : start = invalid ∨ start + c ≤ invalid) :
    ∀ p ∈ newTag r start c, Piece r p := by
  intro p member
  by_cases some : 0 < c
  · obtain rfl : p = { r with start := start, cnt := c } := by simpa [newTag,some] using member
    exact ⟨room,rfl,rfl⟩
  · simp [newTag,some] at member

end

/-- A run that a later tag overlaps: some of it before the tag, some under, some behind. -/
theorem destRun_cut (start cnt lo n before under behind : Nat) (total : before + under + behind = n)
    (left : before = 0 ∨ lo + before ≤ start) (lower : start ≤ lo + before)
    (upper : lo + before + under ≤ start + cnt) (right : behind = 0 ∨ lo + before + under = start + cnt) :
    (destRun lo n).map (overwrite start cnt) =
      destRun lo before ++ replicate under none ++ destRun (start + cnt) behind := by
  rw [← total,destRun_add,destRun_add,map_append,map_append,
    destRun_inside start cnt (lo + before) under lower upper]
  congr 1
  · congr 1
    rcases left with rfl | left
    · rfl
    · exact destRun_outside start cnt lo before (.inl left)
  · rcases right with rfl | right
    · rfl
    · rw [← Nat.add_assoc,right]
      exact destRun_outside start cnt (start + cnt) behind (.inr (Nat.le_refl _))

/-- Pass 3 never reaches its abort, and its pieces are the old node less the later tag. -/
theorem optimizeNode_pieces (start cnt : Nat) (r : TagListNode)
    (bounded : r.Bounded) :
    ∃ pieces, optimizeNode start cnt r = some pieces ∧ pieces ≠ [] ∧ (∀ p ∈ pieces, Piece r p) ∧
      pieces.flatMap TagListNode.dests = r.dests.map (overwrite start cnt) := by
  have whole : Piece r r := ⟨bounded,rfl,rfl⟩
  by_cases dead : r.start = invalid
  · refine ⟨[r],by simp [optimizeNode,dead],by simp,by simpa using whole,?_⟩
    simp [dests_overwrite start cnt r dead]
  have room : r.start + r.cnt ≤ invalid := bounded.resolve_left dead
  have cut := destRun_cut start cnt r.start r.cnt
  rw [dests_live r dead]
  unfold optimizeNode
  simp only [if_neg dead]
  split
  next apart =>
    refine ⟨_,rfl,by simp,by simpa using whole,?_⟩
    simp [dests_live r dead,destRun_outside start cnt _ _ apart]
  next overlap =>
  -- every other branch is the same cut, with some of its parts empty
  split
  next same =>
    refine ⟨_,rfl,by simp,by simpa using piece_dead r r.cnt,?_⟩
    rw [cut 0 r.cnt 0 (by omega) (by omega) (by omega) (by omega) (by omega)]
    simp [dests_dead,destRun]
  next =>
  split
  next inside =>
    refine ⟨_,rfl,by simp,?_,?_⟩
    · intro p member
      rcases mem_append.mp member with member | member
      · rcases mem_cons.mp member with rfl | member
        · exact piece_kept r _ (by omega)
        · exact piece_newTag r invalid cnt (.inl rfl) p member
      · exact piece_newTag r _ _ (.inr (by omega)) p member
    · rw [cut (start - r.start) cnt (r.start + r.cnt - (start + cnt)) (by omega) (by omega) (by omega)
        (by omega) (by omega),flatMap_append,flatMap_cons,dests_kept r _ dead]
      exact congrArg₂ (· ++ ·) (congrArg _ (dests_newTag_dead r cnt)) (dests_newTag r _ _ (by omega))
  next =>
  split
  next covered =>
    refine ⟨_,rfl,by simp,by simpa using piece_dead r r.cnt,?_⟩
    rw [cut 0 r.cnt 0 (by omega) (by omega) (by omega) (by omega) (by omega)]
    simp [dests_dead,destRun]
  next =>
  split
  next lower =>
    refine ⟨_,rfl,by simp,?_,?_⟩
    · intro p member
      rcases mem_cons.mp member with rfl | member
      · exact piece_dead r _
      · exact piece_newTag r _ _ (.inr (by omega)) p member
    · rw [cut 0 (start + cnt - r.start) (r.start + r.cnt - (start + cnt)) (by omega) (by omega) (by omega)
        (by omega) (by omega),flatMap_cons,dests_dead]
      exact congrArg _ (dests_newTag r _ _ (by omega))
  next =>
  have upper : r.start < start ∧ r.start + r.cnt < start + cnt := by omega
  rw [if_pos upper]
  refine ⟨_,rfl,by simp,?_,?_⟩
  · intro p member
    rcases mem_cons.mp member with rfl | member
    · exact piece_kept r _ (by omega)
    · exact piece_newTag r invalid _ (.inl rfl) p member
  · rw [cut (start - r.start) (r.start + r.cnt - start) 0 (by omega) (by omega) (by omega) (by omega)
      (by omega),flatMap_cons,dests_kept r _ dead]
    simpa [destRun] using dests_newTag_dead r _

def TagListNode.key (n : TagListNode) : Nat × Bool := (n.srcStartBaddr,n.stageTx)

def Agree (a b : Nat × Bool) : Prop := a.1 = b.1 → a.2 = b.2

def OneLog (nodes : List TagListNode) : Prop := (nodes.map TagListNode.key).IsChain Agree

theorem Agree.stutter (a : Nat × Bool) (k : Nat) (xs ys : List (Nat × Bool))
    (chain : (xs ++ a :: ys).IsChain Agree) : (xs ++ (replicate (k + 1) a ++ ys)).IsChain Agree := by
  induction k with
  | zero => simpa using chain
  | succ k ih =>
    rw [replicate_succ,cons_append,isChain_split] at ih ⊢
    refine ⟨ih.1,?_⟩
    rw [replicate_succ,cons_append,isChain_cons_cons]
    exact ⟨fun _ => rfl,ih.2⟩

theorem OneLog.pieces (r : TagListNode) (pieces before after : List TagListNode) (some : pieces ≠ [])
    (parts : ∀ p ∈ pieces, Piece r p) (chain : OneLog (before ++ r :: after)) :
    OneLog (before ++ (pieces ++ after)) := by
  obtain ⟨k,length⟩ := Nat.exists_eq_succ_of_ne_zero (mt length_eq_zero_iff.mp some)
  have keys : pieces.map TagListNode.key = replicate (k + 1) r.key := by
    apply eq_replicate_iff.mpr
    refine ⟨by simpa using length,?_⟩
    intro key member
    obtain ⟨p,inPieces,rfl⟩ := mem_map.mp member
    have piece := parts p inPieces
    simp [TagListNode.key,piece.src,piece.stage]
  simp only [OneLog,map_append,map_cons,keys] at chain ⊢
  exact Agree.stutter r.key k _ _ chain

theorem optimizeBack_slots (start cnt : Nat) (before after : List TagListNode)
    (bounded : ∀ r ∈ before, r.Bounded) :
    ∃ front, optimizeBack start cnt before after = some (front ++ after) ∧ (∀ p ∈ front, p.Bounded) ∧
      (∀ tail, OneLog (before.reverse ++ tail) → OneLog (front ++ tail)) ∧
      slots front = (slots before.reverse).map (Slot.overwrite start cnt) := by
  induction before generalizing after with
  | nil => exact ⟨[],rfl,by simp,fun _ chain => chain,rfl⟩
  | cons r before ih =>
    obtain ⟨pieces,result,some,parts,dests⟩ :=
      optimizeNode_pieces start cnt r (bounded r mem_cons_self)
    obtain ⟨front,walked,frontBounded,frontChain,cleared⟩ :=
      ih (pieces ++ after) (fun p member => bounded p (mem_cons_of_mem _ member))
    refine ⟨front ++ pieces,?_,?_,?_,?_⟩
    · rw [optimizeBack,result,Option.bind_some,walked,append_assoc]
    · intro p member
      rcases mem_append.mp member with member | member
      · exact frontBounded p member
      · exact (parts p member).bounded
    · intro tail chain
      rw [reverse_cons,append_assoc] at chain
      rw [append_assoc]
      apply frontChain
      exact OneLog.pieces r pieces _ _ some parts chain
    · have here : slots pieces = r.slots.map (Slot.overwrite start cnt) :=
        slots_of_dests r pieces parts _ dests
      simp only [slots,flatMap_append,reverse_cons,map_append,
        flatMap_cons,flatMap_nil,append_nil] at cleared here ⊢
      rw [cleared,here]

structure Cursor where
  src : Nat
  stageTx : Bool
  off : Nat

def Cursor.offset (c : Cursor) (src : Nat) : Nat := if c.src = src then c.off else 0

def Cursor.next (c : Cursor) (s : Slot) : Cursor := ⟨s.src,s.stageTx,c.offset s.src + 1⟩

def locate (logs : Logs) : Cursor → List Slot → List (Nat × Option Nat)
  | _, [] => []
  | c, s :: ss => ((logs.ring s.stageTx).block s.src (c.offset s.src),s.dest) :: locate logs (c.next s) ss

def Fits (logs : Logs) : Cursor → List Slot → Prop
  | _, [] => True
  | c, s :: ss => Agree (c.src,c.stageTx) (s.src,s.stageTx) ∧ (logs.ring s.stageTx).Position s.src ∧
      c.offset s.src < (logs.ring s.stageTx).size ∧ Fits logs (c.next s) ss

def live (located : List (Nat × Option Nat)) : List (Nat × Nat) :=
  located.filterMap fun w => w.2.map fun d => (w.1,d)

theorem locate_overwrite (logs : Logs) (c : Cursor) (ss : List Slot) (start cnt : Nat) :
    locate logs c (ss.map (Slot.overwrite start cnt)) =
      (locate logs c ss).map fun w => (w.1,overwrite start cnt w.2) := by
  induction ss generalizing c with
  | nil => rfl
  | cons s ss ih =>
    simp only [map_cons,locate,ih]
    rfl

theorem fits_overwrite (logs : Logs) (c : Cursor) (ss tail : List Slot) (start cnt : Nat) :
    Fits logs c (ss.map (Slot.overwrite start cnt) ++ tail) ↔ Fits logs c (ss ++ tail) := by
  induction ss generalizing c with
  | nil => rfl
  | cons s ss ih =>
    simp only [map_cons,cons_append,Fits]
    exact and_congr_right fun _ => and_congr_right fun _ => and_congr_right fun _ => ih _

def Cursor.after (c : Cursor) (ss : List Slot) : Cursor := ss.foldl Cursor.next c

theorem locate_append (logs : Logs) (c : Cursor) (ss tail : List Slot) :
    locate logs c (ss ++ tail) = locate logs c ss ++ locate logs (c.after ss) tail := by
  induction ss generalizing c with
  | nil => rfl
  | cons s ss ih => simp only [cons_append,locate,ih,Cursor.after,foldl_cons]

theorem fits_append (logs : Logs) (c : Cursor) (ss tail : List Slot) :
    Fits logs c (ss ++ tail) ↔ Fits logs c ss ∧ Fits logs (c.after ss) tail := by
  induction ss generalizing c with
  | nil => simp [Fits,Cursor.after]
  | cons s ss ih => simp only [cons_append,Fits,ih,Cursor.after,foldl_cons,and_assoc]

theorem after_overwrite (c : Cursor) (ss : List Slot) (start cnt : Nat) :
    c.after (ss.map (Slot.overwrite start cnt)) = c.after ss := by
  rw [Cursor.after,foldl_map]
  rfl

theorem live_append (a b : List (Nat × Option Nat)) : live (a ++ b) = live a ++ live b :=
  filterMap_append

theorem live_none (s : Nat) (l : List (Nat × Option Nat)) : live ((s,none) :: l) = live l := rfl

theorem live_some (s d : Nat) (l : List (Nat × Option Nat)) : live ((s,some d) :: l) = (s,d) :: live l := rfl

theorem live_overwrite (start cnt : Nat) (l : List (Nat × Option Nat)) :
    live (l.map fun w => (w.1,overwrite start cnt w.2)) =
      (live l).filter fun w => w.2 < start ∨ start + cnt ≤ w.2 := by
  induction l with
  | nil => rfl
  | cons w l ih =>
    obtain ⟨s,d⟩ := w
    cases d with
    | none => simpa only [map_cons,overwrite_none,live_none] using ih
    | some d =>
      by_cases outside : d < start ∨ start + cnt ≤ d
      · have kept : overwrite start cnt (some d) = some d := by simp [overwrite,outside]
        simp only [map_cons,kept,live_some,ih]
        rw [filter_cons_of_pos (by simpa using outside)]
      · have lost : overwrite start cnt (some d) = none := by simpa [overwrite] using outside
        simp only [map_cons,lost,live_none,live_some,ih]
        rw [filter_cons_of_neg (by simpa using outside)]

theorem live_dests (logs : Logs) (c : Cursor) (ss : List Slot) :
    (live (locate logs c ss)).map Prod.snd = ss.filterMap Slot.dest := by
  induction ss generalizing c with
  | nil => rfl
  | cons s ss ih =>
    rw [locate]
    cases dest : s.dest with
    | none => rw [live_none,ih,filterMap_cons_none dest]
    | some d => rw [live_some,map_cons,ih,filterMap_cons_some dest]

theorem node_dests (n : TagListNode) (valid : n.start ≠ invalid) :
    n.slots.filterMap Slot.dest = (List.range n.cnt).map (n.start + ·) := by
  rw [TagListNode.slots,dests_live n valid,destRun,map_map,filterMap_map]
  exact congrFun filterMap_eq_map _

/-- One round of pass 3 on the meaning: the new writes come last. -/
theorem live_round (logs : Logs) (c : Cursor) (done front : List TagListNode) (n : TagListNode)
    (W : List (Nat × Nat)) (valid : n.start ≠ invalid)
    (cleared : slots front = (slots done).map (Slot.overwrite n.start n.cnt))
    (kept : live (locate logs c (slots done)) = lastWrites W) :
    live (locate logs c (slots (front ++ [n]))) =
      lastWrites (W ++ live (locate logs (c.after (slots done)) n.slots)) := by
  have dests := (live_dests logs (c.after (slots done)) n.slots).trans (node_dests n valid)
  have distinct : ((live (locate logs (c.after (slots done)) n.slots)).map Prod.snd).Nodup := by
    rw [dests]
    exact nodup_range.map fun _ _ same => Nat.add_left_cancel same
  have split : slots (front ++ [n]) = (slots done).map (Slot.overwrite n.start n.cnt) ++ n.slots := by
    rw [← cleared]
    simp [slots]
  rw [split,locate_append,live_append,locate_overwrite,live_overwrite,after_overwrite,kept,
    lastWrites_append W _ distinct]
  congr 1
  apply filter_congr
  intro w _
  simp only [dests,mem_map,mem_range,decide_eq_decide,not_exists,not_and]
  constructor
  · intro outside i bound same
    omega
  · intro fresh
    by_contra inside
    exact fresh (w.2 - n.start) (by omega) (by omega)

/-- Pass 3 leaves each destination to its last tag and moves no slot. -/
theorem optimize_slots (logs : Logs) (c : Cursor) (done todo : List TagListNode) (W : List (Nat × Nat))
    (bounded : ∀ r ∈ done ++ todo, r.Bounded) (valid : ∀ n ∈ todo, n.start ≠ invalid)
    (chain : OneLog (done ++ todo)) (fits : Fits logs c (slots (done ++ todo)))
    (kept : live (locate logs c (slots done)) = lastWrites W) :
    ∃ result, optimize done todo = some result ∧ (∀ p ∈ result, p.Bounded) ∧ OneLog result ∧
      Fits logs c (slots result) ∧
      live (locate logs c (slots result)) =
        lastWrites (W ++ live (locate logs (c.after (slots done)) (slots todo))) := by
  induction todo generalizing done W with
  | nil =>
    rw [append_nil] at bounded chain fits
    exact ⟨done,rfl,bounded,chain,fits,by simpa [slots,locate,live] using kept⟩
  | cons n todo ih =>
    obtain ⟨front,walked,frontBounded,frontChain,cleared⟩ :=
      optimizeBack_slots n.start n.cnt done.reverse [n] fun r member =>
        bounded r (mem_append_left _ (mem_reverse.mp member))
    rw [reverse_reverse] at frontChain cleared
    have round := live_round logs c done front n W (valid n mem_cons_self) cleared kept
    have place : slots (front ++ [n] ++ todo) =
        (slots done).map (Slot.overwrite n.start n.cnt) ++ slots (n :: todo) := by
      rw [← cleared]
      simp [slots]
    have state : c.after (slots (front ++ [n])) = (c.after (slots done)).after n.slots := by
      rw [← after_overwrite c (slots done) n.start n.cnt,← cleared]
      simp [slots,Cursor.after]
    have bounded' : ∀ p ∈ front ++ [n] ++ todo, p.Bounded := by
      intro p member
      rw [append_assoc] at member
      rcases mem_append.mp member with member | member
      · exact frontBounded p member
      · exact bounded p (mem_append_right _ member)
    have chain' : OneLog (front ++ [n] ++ todo) := by
      rw [append_assoc]
      exact frontChain _ chain
    have fits' : Fits logs c (slots (front ++ [n] ++ todo)) := by
      rw [place,fits_overwrite]
      simpa [slots] using fits
    obtain ⟨result,optimized,resultBounded,resultChain,resultFits,meaning⟩ :=
      ih (front ++ [n]) _ bounded' (fun m member => valid m (mem_cons_of_mem _ member))
        chain' fits' round
    refine ⟨result,by rw [optimize,walked,Option.bind_some,optimized],resultBounded,resultChain,
      resultFits,?_⟩
    rw [meaning,state,append_assoc,← live_append,← locate_append]
    rfl

end Oxbow.DevFS
