import Mathlib.Data.List.Basic

/-! Runs of a machine given by a partial step function. An invariant kept by every step
that meets a condition holds at the end of every run that meets it; a goal is inevitable
when no run can avoid it, by getting stuck or by going on for ever. -/
namespace Oxbow.Lib

open Option

variable {σ ι : Type} (step : σ → ι → Option σ)

def run (s : σ) : List ι → Option σ
  | [] => some s
  | a :: as => (step s a).bind fun t => run t as

/-- Every step of the run meets the condition in the state it is taken from. -/
def Along (meets : σ → ι → Prop) (s : σ) : List ι → Prop
  | [] => True
  | a :: as => meets s a ∧ ∀ t, step s a = some t → Along meets t as

theorem Along.cons (here : meets s a)
    (next : step s a = some t) (rest : Along step meets t as) : Along step meets s (a :: as) := by
  refine ⟨here,?_⟩
  intro u other
  obtain rfl : t = u := some.inj (next.symm.trans other)
  exact rest

theorem Along.and (one : Along step meets s as)
    (other : Along step also s as) : Along step (fun s a => meets s a ∧ also s a) s as := by
  induction as generalizing s with
  | nil => trivial
  | cons a as ih => exact ⟨⟨one.1,other.1⟩,fun t next => ih (one.2 t next) (other.2 t next)⟩

theorem Along.always (s : σ) (as : List ι) : Along step (fun _ _ => True) s as := by
  induction as generalizing s with
  | nil => trivial
  | cons a as ih => exact ⟨trivial,fun t _ => ih t⟩

instance Along.decidable {meets : σ → ι → Prop} [∀ s a, Decidable (meets s a)] (s : σ) :
    (as : List ι) → Decidable (Along step meets s as)
  | [] => .isTrue trivial
  | a :: as =>
    match next : step s a with
    | none => decidable_of_iff (meets s a) (by simp [Along,next])
    | some t =>
      have : Decidable (Along step meets t as) := Along.decidable t as
      decidable_of_iff (meets s a ∧ Along step meets t as) (by simp [Along,next])

theorem run_cons (first : step s a = some t) (as : List ι) : run step s (a :: as) = run step t as := by
  rw [run,first,bind_some]

theorem run_append (s : σ) (as bs : List ι) :
    run step s (as ++ bs) = (run step s as).bind fun t => run step t bs := by
  induction as generalizing s with
  | nil => rfl
  | cons a as ih =>
    rw [List.cons_append,run,run,bind_assoc]
    congr 1
    funext t
    exact ih t

theorem run_invariant (invariant : σ → Prop) (meets : σ → ι → Prop)
    (preserves : ∀ s a t, invariant s → meets s a → step s a = some t → invariant t)
    (s : σ) (as : List ι) (t : σ) (start : invariant s) (along : Along step meets s as)
    (ran : run step s as = some t) : invariant t := by
  induction as generalizing s with
  | nil =>
    obtain rfl : s = t := by simpa [run] using ran
    exact start
  | cons a as ih =>
    obtain ⟨u,first,rest⟩ := bind_eq_some_iff.mp ran
    exact ih u (preserves s a u start along.1 first) (along.2 u first) rest

/-- If every step that meets the condition can be taken, so can the run. -/
theorem run_reaches (invariant : σ → Prop) (meets : σ → ι → Prop)
    (moves : ∀ s a, invariant s → meets s a → ∃ t, step s a = some t ∧ invariant t)
    (s : σ) (as : List ι) (start : invariant s) (along : Along step meets s as) :
    ∃ t, run step s as = some t ∧ invariant t := by
  induction as generalizing s with
  | nil => exact ⟨s,rfl,start⟩
  | cons a as ih =>
    obtain ⟨u,first,keeps⟩ := moves s a start along.1
    rw [run_cons step first]
    exact ih u keeps (along.2 u first)

/-- What the invariant and the condition give for a step holds for every step of the run. -/
theorem Along.of_invariant (invariant : σ → Prop) (meets safe : σ → ι → Prop)
    (preserves : ∀ s a t, invariant s → meets s a → step s a = some t → invariant t)
    (each : ∀ s a, invariant s → meets s a → safe s a)
    (s : σ) (as : List ι) (start : invariant s) (along : Along step meets s as) :
    Along step safe s as := by
  induction as generalizing s with
  | nil => trivial
  | cons a as ih =>
    refine ⟨each s a start along.1,?_⟩
    intro t next
    exact ih t (preserves s a t start along.1 next) (along.2 t next)

/-- Every action is taken by a step that meets the contract. -/
def Meets (contract : σ → ι → σ → Prop) (s : σ) : List ι → Prop
  | [] => True
  | a :: as => ∃ t, contract s a t ∧ Meets contract t as

/-- If a condition says exactly which steps meet the contract, it says so for runs. -/
theorem meets_iff_along (contract : σ → ι → σ → Prop) (condition : σ → ι → Prop) (invariant : σ → Prop)
    (allowed : ι → Prop) (taken : ∀ s a t, contract s a t → step s a = some t)
    (exactly : ∀ s a, invariant s → allowed a → ((∃ t, contract s a t) ↔ condition s a))
    (keeps : ∀ s a t, invariant s → allowed a → contract s a t → invariant t)
    (s : σ) (as : List ι) (start : invariant s) (all : ∀ a ∈ as, allowed a) :
    Meets contract s as ↔ Along step condition s as := by
  induction as generalizing s with
  | nil => exact Iff.rfl
  | cons a as ih =>
    have here := all a (by simp)
    have later : ∀ b ∈ as, allowed b := fun b member => all b (List.mem_cons_of_mem a member)
    constructor
    · rintro ⟨t,meets,rest⟩
      have after := (ih t (keeps s a t start here meets) later).mp rest
      exact Along.cons step ((exactly s a start here).mp ⟨t,meets⟩) (taken s a t meets) after
    · rintro ⟨condition,rest⟩
      obtain ⟨t,meets⟩ := (exactly s a start here).mpr condition
      exact ⟨t,meets,(ih t (keeps s a t start here meets) later).mpr (rest t (taken s a t meets))⟩

/-- The same for a run that gets to its end: a condition says exactly which of its steps are good. -/
theorem meets_iff_along_of_run (good : σ → ι → σ → Prop) (condition : σ → ι → Prop) (invariant : σ → Prop)
    (exactly : ∀ s a t, invariant s → step s a = some t → (good s a t ↔ condition s a))
    (keeps : ∀ s a t, invariant s → step s a = some t → good s a t → invariant t)
    (s : σ) (as : List ι) (t : σ) (start : invariant s) (ran : run step s as = some t) :
    Meets (fun s a t => step s a = some t ∧ good s a t) s as ↔ Along step condition s as := by
  induction as generalizing s with
  | nil => exact Iff.rfl
  | cons a as ih =>
    obtain ⟨u,first,rest⟩ := bind_eq_some_iff.mp ran
    constructor
    · rintro ⟨v,⟨next,good⟩,later⟩
      obtain rfl : u = v := some.inj (first.symm.trans next)
      have after := (ih u (keeps s a u start first good) rest).mp later
      exact Along.cons step ((exactly s a u start first).mp good) first after
    · rintro ⟨condition,later⟩
      have good := (exactly s a u start first).mpr condition
      exact ⟨u,⟨first,good⟩,(ih u (keeps s a u start first good) rest).mpr (later u first)⟩

def yields {ε : Type} (each : σ → ι → Option ε) (s : σ) : List ι → List ε
  | [] => []
  | a :: as => (each s a).toList ++ ((step s a).elim [] fun t => yields each t as)

theorem yields_append {ε : Type} (each : σ → ι → Option ε) (ran : run step s as = some t) (bs : List ι) :
    yields step each s (as ++ bs) = yields step each s as ++ yields step each t bs := by
  induction as generalizing s with
  | nil =>
    obtain rfl : s = t := by simpa [run] using ran
    rfl
  | cons a as ih =>
    obtain ⟨u,first,rest⟩ := bind_eq_some_iff.mp ran
    simp only [List.cons_append,yields,first,elim_some,ih rest,List.append_assoc]

/-- If every step is matched by a run of the specification that shows the same, so is every run. -/
theorem run_simulated {τ κ ε : Type} (spec : τ → κ → Option τ) (seen : σ → ι → Option ε)
    (shown : τ → κ → Option ε)
    (sim : σ → τ → Prop)
    (each : ∀ s a i t, sim s a → step s i = some t →
      ∃ ks b, run spec a ks = some b ∧ sim t b ∧ yields spec shown a ks = (seen s i).toList)
    (s : σ) (a : τ) (is : List ι) (t : σ) (start : sim s a) (ran : run step s is = some t) :
    ∃ ks b, run spec a ks = some b ∧ sim t b ∧ yields spec shown a ks = yields step seen s is := by
  induction is generalizing s a with
  | nil =>
    obtain rfl : s = t := by simpa [run] using ran
    exact ⟨[],a,rfl,start,rfl⟩
  | cons i is ih =>
    obtain ⟨u,first,rest⟩ := bind_eq_some_iff.mp ran
    obtain ⟨ks,b,matched,here,same⟩ := each s a i u start first
    obtain ⟨ls,c,later,there,rest'⟩ := ih u b here rest
    refine ⟨ks ++ ls,c,?_,there,?_⟩
    · rw [run_append,matched,bind_some,later]
    · rw [yields_append spec shown matched,same,rest',yields,first,elim_some]

/-- If a step changes what is held by what it yields as gained and lost, so does a run. -/
theorem yields_balance {ε : Type} [BEq ε] (gained lost : σ → ι → Option ε) (held : σ → Nat) (e : ε)
    (invariant : σ → Prop) (meets : σ → ι → Prop)
    (preserves : ∀ s a t, invariant s → meets s a → step s a = some t → invariant t)
    (balance : ∀ s a t, invariant s → meets s a → step s a = some t →
      (gained s a).toList.count e + held s = (lost s a).toList.count e + held t)
    (s : σ) (as : List ι) (t : σ) (start : invariant s) (along : Along step meets s as) (ran : run step s as = some t) :
    (yields step gained s as).count e + held s = (yields step lost s as).count e + held t := by
  induction as generalizing s with
  | nil =>
    obtain rfl : s = t := by simpa [run] using ran
    simp [yields]
  | cons a as ih =>
    obtain ⟨u,first,rest⟩ := bind_eq_some_iff.mp ran
    have here := balance s a u start along.1 first
    have later := ih u (preserves s a u start along.1 first) (along.2 u first) rest
    simp only [yields,first,elim_some,List.count_append]
    omega

/-- What the steps yield waits in a list, and what leaves the list is applied to what the state shows. -/
theorem run_applies {τ ω : Type} (each : σ → ι → Option ω) (pending : σ → List ω) (apply : τ → ω → τ)
    (shows : σ → τ → Prop)
    (invariant : σ → Prop) (meets : σ → ι → Prop)
    (preserves : ∀ s a t, invariant s → meets s a → step s a = some t → invariant t)
    (applies : ∀ s a t v, invariant s → meets s a → step s a = some t → shows s v →
      ∃ done, pending s ++ (each s a).toList = done ++ pending t ∧ shows t (done.foldl apply v))
    (s : σ) (as : List ι) (t : σ) (v : τ) (start : invariant s) (along : Along step meets s as)
    (ran : run step s as = some t)
    (shown : shows s v) :
    ∃ done, pending s ++ yields step each s as = done ++ pending t ∧ shows t (done.foldl apply v) := by
  induction as generalizing s v with
  | nil =>
    obtain rfl : s = t := by simpa [run] using ran
    exact ⟨[],by simp [yields],shown⟩
  | cons a as ih =>
    obtain ⟨u,first,rest⟩ := bind_eq_some_iff.mp ran
    obtain ⟨done,here,seen⟩ := applies s a u v start along.1 first shown
    obtain ⟨later,after,last⟩ := ih u _ (preserves s a u start along.1 first) (along.2 u first) rest seen
    refine ⟨done ++ later,?_,?_⟩
    · rw [yields,first,elim_some,← List.append_assoc,here,List.append_assoc,after,List.append_assoc]
    · rwa [List.foldl_append]

/-- The rule for an invariant that every step keeps. -/
theorem run_invariant_always (invariant : σ → Prop)
    (preserves : ∀ s a t, invariant s → step s a = some t → invariant t)
    (s : σ) (as : List ι) (t : σ) (start : invariant s) (ran : run step s as = some t) :
    invariant t := by
  exact run_invariant step invariant (fun _ _ => True) (fun s a t kept _ next => preserves s a t kept next)
    s as t start (Along.always step s as) ran

/-- Every continuation reaches the goal after finitely many steps, and none gets stuck before. -/
inductive Inevitable (goal : σ → Prop) : σ → Prop
  | now (s : σ) (reached : goal s) : Inevitable goal s
  | later (s : σ) (moves : ∃ a t, step s a = some t)
      (rest : ∀ a t, step s a = some t → Inevitable goal t) : Inevitable goal s

variable {step} {goal : σ → Prop}

theorem inevitable_of_measure (invariant : σ → Prop) (measure : σ → Nat)
    (moves : ∀ s, invariant s → goal s ∨ ∃ a t, step s a = some t)
    (decreases : ∀ s a t, invariant s → step s a = some t → invariant t ∧ measure t < measure s)
    (s : σ) (start : invariant s) : Inevitable step goal s := by
  induction size : measure s using Nat.strongRecOn generalizing s with
  | ind n ih =>
    rcases moves s start with reached | moves
    · exact .now s reached
    · refine .later s moves ?_
      intro a t next
      obtain ⟨kept,smaller⟩ := decreases s a t start next
      exact ih (measure t) (size ▸ smaller) t kept rfl

/-- No state from which the goal has become unreachable lies on the way. -/
theorem Inevitable.not_trapped (inevitable : Inevitable step goal s) (trap : σ → Prop)
    (kept : ∀ s a t, trap s → step s a = some t → trap t) (apart : ∀ s, trap s → ¬ goal s) :
    ¬ trap s := by
  intro trapped
  induction inevitable with
  | now s reached => exact apart s trapped reached
  | later s moves _ ih =>
    obtain ⟨a,t,next⟩ := moves
    exact ih a t next (kept s a t trapped next)

end Oxbow.Lib
