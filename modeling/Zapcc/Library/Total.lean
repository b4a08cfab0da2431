import Mathlib.Logic.Relation

/-!
# Total correctness of a step relation

`Total Step post state` says that every maximal execution of `Step` from `state` is finite and
ends in a state that satisfies `post`. Use `total_of_measure` to prove it from an invariant and
a decreasing measure, and `Total.exists_stop` to read off one complete execution.
-/

namespace Zapcc.Execution

variable {State : Type*} {Step : State → State → Prop} {post : State → Prop}

/-- No step leaves the state. -/
def Stopped (Step : State → State → Prop) (state : State) : Prop :=
  ∀ next, ¬ Step state next

/-- Every execution from the state ends, and it ends in a state that satisfies `post`. -/
inductive Total (Step : State → State → Prop) (post : State → Prop) : State → Prop where
  | done {state : State} : Stopped Step state → post state → Total Step post state
  | step {state : State} : (∃ next, Step state next) →
      (∀ next, Step state next → Total Step post next) → Total Step post state

/-- An invariant whose steps decrease a measure, and which implies the postcondition where no
step is possible, makes every execution end well. -/
theorem total_of_measure (invariant : State → Prop) (measure : State → Nat)
    (hpreserve : ∀ state next, invariant state → Step state next → invariant next)
    (hdecrease : ∀ state next, invariant state → Step state next → measure next < measure state)
    (hpost : ∀ state, invariant state → Stopped Step state → post state)
    {state : State} (h : invariant state) : Total Step post state := by
  induction hn : measure state using Nat.strongRecOn generalizing state with
  | ind n ih =>
    by_cases hstop : Stopped Step state
    · exact .done hstop (hpost state h hstop)
    · have hnext : ∃ next, Step state next := by
        simpa [Stopped] using hstop
      refine .step hnext fun next hstep => ?_
      have hlt := hdecrease state next h hstep
      exact ih (measure next) (hn ▸ hlt) (hpreserve state next h hstep) rfl

/-- A computation that always ends well has a complete execution that ends well. -/
theorem Total.exists_stop {state : State} (h : Total Step post state) :
    ∃ final, Relation.ReflTransGen Step state final ∧ Stopped Step final ∧ post final := by
  induction h with
  | done hstop hpost => exact ⟨_, .refl, hstop, hpost⟩
  | step hnext _ ih =>
    obtain ⟨next, hstep⟩ := hnext
    obtain ⟨final, hrun, hstop, hpost⟩ := ih next hstep
    exact ⟨final, .head hstep hrun, hstop, hpost⟩

theorem invariant_of_run {invariant : State → Prop} {state final : State}
    (hpreserve : ∀ state next, invariant state → Step state next → invariant next)
    (hrun : Relation.ReflTransGen Step state final) (h : invariant state) : invariant final := by
  induction hrun with
  | refl => exact h
  | tail _ hstep ih => exact hpreserve _ _ ih hstep

end Zapcc.Execution
