import Mathlib.Data.List.Basic
import Mathlib.Data.List.Nodup
import Mathlib.Logic.Function.Basic

/-! Sequences of copies from a source to a destination. The last copy to a destination
decides its content, so the earlier ones can be dropped, and what is left can be applied
in any order provided no source is itself a destination. -/
namespace Oxbow.Lib

open Function List Option

variable {α β : Type} [DecidableEq α]

/-- The entries that no later entry of the list overwrites. -/
def lastWrites : List (β × α) → List (β × α)
  | [] => []
  | w :: ws => if w.2 ∈ ws.map Prod.snd then lastWrites ws else w :: lastWrites ws

def lastSource (ws : List (β × α)) (d : α) : Option β :=
  (ws.reverse.find? (fun w => w.2 = d)).map Prod.fst

theorem mem_lastWrites_dest (ws : List (β × α)) (d : α) :
    d ∈ (lastWrites ws).map Prod.snd ↔ d ∈ ws.map Prod.snd := by
  induction ws with
  | nil => simp [lastWrites]
  | cons w ws ih =>
    simp only [lastWrites]
    split
    next later =>
      rw [ih,map_cons,mem_cons]
      constructor
      · exact Or.inr
      · rintro (rfl | h)
        · exact later
        · exact h
    next => rw [map_cons,map_cons,mem_cons,mem_cons,ih]

theorem lastWrites_nodup (ws : List (β × α)) : ((lastWrites ws).map Prod.snd).Nodup := by
  induction ws with
  | nil => simp [lastWrites]
  | cons w ws ih =>
    simp only [lastWrites]
    split
    next => exact ih
    next fresh =>
      rw [map_cons,nodup_cons]
      exact ⟨fun h => fresh ((mem_lastWrites_dest ws _).mp h),ih⟩

theorem lastSource_cons (w : β × α) (ws : List (β × α)) (d : α) :
    lastSource (w :: ws) d = (lastSource ws d).or (if w.2 = d then some w.1 else none) := by
  simp only [lastSource,reverse_cons,List.find?_append]
  cases ws.reverse.find? (fun w => w.2 = d) with
  | some x => simp
  | none => by_cases h : w.2 = d <;> simp [h]

theorem lastSource_isSome (ws : List (β × α)) (d : α) :
    (lastSource ws d).isSome ↔ d ∈ ws.map Prod.snd := by
  induction ws with
  | nil => simp [lastSource]
  | cons w ws ih =>
    rw [lastSource_cons,map_cons,mem_cons,← ih]
    cases hs : lastSource ws d with
    | some x => simp
    | none =>
      by_cases h : w.2 = d
      · simp [h]
      · simpa [h] using fun e : d = w.2 => h e.symm

/-- A destination is paired with the source of its last write, and with no other. -/
theorem mem_lastWrites_iff (ws : List (β × α)) (s : β) (d : α) :
    (s,d) ∈ lastWrites ws ↔ lastSource ws d = some s := by
  induction ws with
  | nil => simp [lastWrites,lastSource]
  | cons w ws ih =>
    rw [lastSource_cons,lastWrites]
    have isSome := lastSource_isSome ws d
    split
    next later =>
      rw [ih]
      by_cases h : w.2 = d
      · subst h
        obtain ⟨x,hx⟩ := isSome_iff_exists.mp (isSome.mpr later)
        simp [hx]
      · simp [h]
    next fresh =>
      rw [mem_cons,ih]
      by_cases h : w.2 = d
      · subst h
        have none : lastSource ws w.2 = none := by
          simpa using mt isSome.mp fresh
        simp only [none,if_true,or_eq_some_iff,some.injEq,true_and]
        constructor
        · rintro (e | h)
          · exact Or.inr (congrArg Prod.fst e).symm
          · exact absurd h (by simp)
        · rintro (h | rfl)
          · exact absurd h (by simp)
          · exact Or.inl (by cases w; rfl)
      · have : (s,d) ≠ w := fun e => h (by rw [← e])
        simp [h,this]

/-- Appending fresh writes drops the overwritten ones among the old and keeps the rest. -/
theorem lastWrites_append (ws us : List (β × α)) (distinct : (us.map Prod.snd).Nodup) :
    lastWrites (ws ++ us) =
      (lastWrites ws).filter (fun w => w.2 ∉ us.map Prod.snd) ++ us := by
  induction ws with
  | nil =>
    simp only [nil_append,lastWrites,filter_nil]
    induction us with
    | nil => rfl
    | cons u us ih =>
      rw [map_cons,nodup_cons] at distinct
      rw [lastWrites,if_neg distinct.1,ih distinct.2]
  | cons w ws ih =>
    simp only [cons_append,lastWrites,map_append,mem_append]
    by_cases later : w.2 ∈ ws.map Prod.snd
    · rw [if_pos (Or.inl later),if_pos later,ih]
    · by_cases covered : w.2 ∈ us.map Prod.snd
      · rw [if_pos (Or.inr covered),if_neg later,ih,filter_cons]
        simp [covered]
      · rw [if_neg (by tauto),if_neg later,ih,filter_cons]
        simp [covered]

/-- A store after one copy: the destination takes what the source holds now. -/
def copy (store : α → γ) (w : α × α) : α → γ := update store w.2 (store w.1)

def copies (store : α → γ) (ws : List (α × α)) : α → γ := ws.foldl copy store

/-- No source of the sequence is one of its destinations. -/
def Separate (ws : List (α × α)) : Prop := ∀ w ∈ ws, ∀ v ∈ ws, w.1 ≠ v.2

theorem copies_other (store : α → γ) (ws : List (α × α)) (d : α)
    (outside : d ∉ ws.map Prod.snd) : copies store ws d = store d := by
  induction ws generalizing store with
  | nil => rfl
  | cons w ws ih =>
    rw [map_cons,mem_cons,not_or] at outside
    rw [copies,foldl_cons,← copies,ih _ outside.2,copy,update_of_ne outside.1]

/-- With separate sources, a destination ends with what its last source held at first. -/
theorem copies_dest (store : α → γ) (ws : List (α × α)) (separate : Separate ws)
    (last : lastSource ws d = some s) : copies store ws d = store s := by
  induction ws generalizing store with
  | nil => simp [lastSource] at last
  | cons w ws ih =>
    have tail : Separate ws := fun a ha b hb =>
      separate a (mem_cons_of_mem _ ha) b (mem_cons_of_mem _ hb)
    rw [lastSource_cons] at last
    rw [copies,foldl_cons,← copies]
    cases found : lastSource ws d with
    | some x =>
      simp only [found,some_or,some.injEq] at last
      subst last
      obtain ⟨v,hv,rfl⟩ : ∃ v ∈ ws, v.1 = x := by
        obtain ⟨v,hv,hx⟩ := map_eq_some_iff.mp found
        exact ⟨v,mem_reverse.mp (mem_of_find?_eq_some hv),hx⟩
      rw [ih _ tail found,copy,update_of_ne]
      exact separate v (mem_cons_of_mem _ hv) w mem_cons_self
    | none =>
      have absent : d ∉ ws.map Prod.snd := by
        rw [← lastSource_isSome,found]
        simp
      simp only [found,none_or,ite_none_right_eq_some,some.injEq] at last
      obtain ⟨rfl,rfl⟩ := last
      rw [copies_other _ _ _ absent,copy,update_self]

theorem Separate.subset (separate : Separate ws) (sub : ∀ w ∈ vs, w ∈ ws) : Separate vs :=
  fun a ha b hb => separate a (sub a ha) b (sub b hb)

theorem lastWrites_subset (ws : List (β × α)) : ∀ w ∈ lastWrites ws, w ∈ ws := by
  induction ws with
  | nil => simp [lastWrites]
  | cons w ws ih =>
    intro v hv
    rw [lastWrites] at hv
    split at hv
    · exact mem_cons_of_mem _ (ih v hv)
    · rcases mem_cons.mp hv with rfl | h
      · exact mem_cons_self
      · exact mem_cons_of_mem _ (ih v h)

theorem lastSource_of_nodup (ws : List (β × α)) (distinct : (ws.map Prod.snd).Nodup)
    (member : (s,d) ∈ ws) : lastSource ws d = some s := by
  rw [← mem_lastWrites_iff]
  have same := lastWrites_append ([] : List (β × α)) ws distinct
  simp only [nil_append,lastWrites,filter_nil] at same
  rw [same]
  exact member

theorem filter_dest_of_nodup (ws : List (β × α)) (s : β) (d : α) (distinct : (ws.map Prod.snd).Nodup)
    (member : (s,d) ∈ ws) : (ws.filter fun w => w.2 = d) = [(s,d)] := by
  induction ws with
  | nil => simp at member
  | cons w ws ih =>
    rw [map_cons,nodup_cons] at distinct
    rcases mem_cons.mp member with rfl | later
    · have none : (ws.filter fun w => w.2 = d) = [] := by
        apply filter_eq_nil_iff.mpr
        intro v hv same
        exact distinct.1 (mem_map.mpr ⟨v,hv,by simpa using same⟩)
      simp [none]
    · have other : ¬ w.2 = d := fun same => distinct.1 (mem_map.mpr ⟨_,later,same.symm⟩)
      simpa [other] using ih distinct.2 later

/-- Any completion order of the surviving copies gives the store that all the copies,
applied one after another, give. -/
theorem copies_perm (store : α → γ) (ws order : List (α × α)) (separate : Separate ws)
    (perm : order.Perm (lastWrites ws)) : copies store order = copies store ws := by
  funext d
  have distinct : (order.map Prod.snd).Nodup :=
    (perm.map Prod.snd).nodup_iff.mpr (lastWrites_nodup ws)
  have sub : ∀ w ∈ order, w ∈ ws := fun w hw => lastWrites_subset ws w (perm.mem_iff.mp hw)
  have dests : d ∈ order.map Prod.snd ↔ d ∈ ws.map Prod.snd :=
    (perm.map Prod.snd).mem_iff.trans (mem_lastWrites_dest ws d)
  by_cases written : d ∈ ws.map Prod.snd
  · obtain ⟨s,hs⟩ := isSome_iff_exists.mp ((lastSource_isSome ws d).mpr written)
    have kept : (s,d) ∈ order := perm.mem_iff.mpr ((mem_lastWrites_iff ws s d).mpr hs)
    rw [copies_dest store ws separate hs,
      copies_dest store order (separate.subset sub) (lastSource_of_nodup order distinct kept)]
  · rw [copies_other _ _ _ written,copies_other _ _ _ (mt dests.mp written)]

/-- The contents are read from one store and written, in order, to another. -/
def transfer (source store : α → γ) (ws : List (α × α)) : α → γ :=
  ws.foldl (fun st w => update st w.2 (source w.1)) store

theorem transfer_append (source store : α → γ) (ws us : List (α × α)) :
    transfer source store (ws ++ us) = transfer source (transfer source store ws) us := foldl_append

theorem transfer_apply (source store : α → γ) (ws : List (α × α)) (d : α) :
    transfer source store ws d = ((lastSource ws d).map source).getD (store d) := by
  induction ws generalizing store with
  | nil => rfl
  | cons w ws ih =>
    rw [transfer,foldl_cons,← transfer,ih,lastSource_cons]
    cases lastSource ws d with
    | some s => rfl
    | none =>
      by_cases here : w.2 = d
      · simp [here]
      · simp [here,update_of_ne (Ne.symm here)]

theorem transfer_congr (store : α → γ) (ws : List (α × α)) (same : ∀ w ∈ ws, source w.1 = other w.1) :
    transfer source store ws = transfer other store ws := by
  induction ws generalizing store with
  | nil => rfl
  | cons w ws ih =>
    rw [transfer,foldl_cons,← transfer,same w mem_cons_self,ih _ fun v member => same v (mem_cons_of_mem w member)]
    rfl

theorem lastSource_append (ws us : List (β × α)) (d : α) : lastSource (ws ++ us) d = (lastSource us d).or
    (lastSource ws d) := by
  simp only [lastSource,reverse_append,List.find?_append,map_or]

theorem lastSource_eq_none {d : α} : lastSource ws d = none ↔ d ∉ ws.map Prod.snd := by
  rw [← lastSource_isSome]
  cases lastSource ws d <;> simp

theorem mem_of_lastSource {d : α} (last : lastSource ws d = some s) : (s,d) ∈ ws :=
  lastWrites_subset ws _ ((mem_lastWrites_iff ws s d).mpr last)

theorem lastSource_lastWrites (ws : List (β × α)) (d : α) : lastSource (lastWrites ws) d = lastSource ws d := by
  cases last : lastSource ws d with
  | some s => exact lastSource_of_nodup _ (lastWrites_nodup ws) ((mem_lastWrites_iff ws s d).mpr last)
  | none =>
    rw [lastSource_eq_none] at last ⊢
    rwa [mem_lastWrites_dest]

end Oxbow.Lib
