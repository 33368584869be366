import Mathlib.Data.List.Range

/-! Loops that count up from zero: what each round keeps holds when the loop is done. Loops that go on while
a condition holds: they come to an end if every round makes something smaller. -/
namespace Oxbow.Lib.Loop

variable {σ ε : Type} {n : Nat} (invariant : Nat → σ → Prop)

theorem foldl_range {round : σ → Nat → σ} (start : invariant 0 s)
    (keeps : ∀ i s, i < n → invariant i s → invariant (i + 1) (round s i)) :
    invariant n ((List.range n).foldl round s) := by
  induction n with
  | zero => exact start
  | succ n ih =>
    have before := ih fun i s below => keeps i s (by omega)
    rw [List.range_succ,List.foldl_append]
    exact keeps n _ (Nat.lt_succ_self n) before

/-- A round can leave the loop; none does from a state in which the invariant holds. -/
theorem foldlM_range {round : σ → Nat → Except ε σ} (start : invariant 0 s)
    (keeps : ∀ i s, i < n → invariant i s → ∃ t, round s i = .ok t ∧ invariant (i + 1) t) :
    ∃ t, (List.range n).foldlM round s = .ok t ∧ invariant n t := by
  induction n with
  | zero => exact ⟨s,rfl,start⟩
  | succ n ih =>
    obtain ⟨t,before,holds⟩ := ih fun i s below => keeps i s (by omega)
    obtain ⟨u,last,done⟩ := keeps n t (Nat.lt_succ_self n) holds
    refine ⟨u,?_,done⟩
    rw [List.range_succ,List.foldlM_append,before]
    change ([n].foldlM round t) = _
    rw [List.foldlM_cons,last]
    rfl

/-- A loop that may take so many rounds; none if it needs more or if a round fails. -/
def whileLoop (goesOn : σ → Prop) [DecidablePred goesOn] (round : σ → Option σ) : Nat → σ → Option σ
  | 0, _ => none
  | rounds + 1, s => if goesOn s then (round s).bind (whileLoop goesOn round rounds) else some s

variable {goesOn : σ → Prop} [DecidablePred goesOn] {round : σ → Option σ} {s t : σ}

theorem whileLoop_invariant (invariant : σ → Prop)
    (keeps : ∀ s t, invariant s → goesOn s → round s = some t → invariant t)
    (start : invariant s) (returned : whileLoop goesOn round rounds s = some t) : invariant t ∧ ¬ goesOn t := by
  induction rounds generalizing s with
  | zero => cases returned
  | succ rounds ih =>
    rw [whileLoop] at returned
    split at returned
    next more =>
      obtain ⟨u,first,rest⟩ := Option.bind_eq_some_iff.mp returned
      exact ih (keeps s u start more first) rest
    next done =>
      obtain rfl := Option.some.inj returned
      exact ⟨start,done⟩

theorem whileLoop_returns (invariant : σ → Prop) (measure : σ → Nat)
    (keeps : ∀ s, invariant s → goesOn s → ∃ t, round s = some t ∧ invariant t ∧ measure t < measure s)
    (start : invariant s) :
    ∃ rounds t, whileLoop goesOn round rounds s = some t ∧ invariant t ∧ ¬ goesOn t := by
  induction size : measure s using Nat.strongRecOn generalizing s with
  | ind n ih =>
    by_cases more : goesOn s
    · obtain ⟨u,first,kept,smaller⟩ := keeps s start more
      obtain ⟨rounds,t,returned,holds⟩ := ih (measure u) (size ▸ smaller) kept rfl
      refine ⟨rounds + 1,t,?_,holds⟩
      rw [whileLoop,if_pos more,first,Option.bind_some,returned]
    · exact ⟨1,s,if_neg more,start,more⟩

end Oxbow.Lib.Loop
