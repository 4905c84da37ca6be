/-
Runs that cannot go on forever.

A system is a relation between states. If some natural number goes down with
every step, it bounds the length of every run, and whatever the schedule a run
can only end by getting stuck. What remains to be shown of a system is then what
its stuck states look like.
-/
import Mathlib.Logic.Relation
import Mathlib.Order.Nat

set_option autoImplicit false

namespace ProjectsInC.Lib

section Runs

variable {σ : Type*} {r : σ → σ → Prop} {μ : σ → ℕ}

/-- A run of `n` steps. -/
inductive Run (r : σ → σ → Prop) : ℕ → σ → σ → Prop
  | refl (s : σ) : Run r 0 s s
  | tail {n : ℕ} {s t u : σ} (hrun : Run r n s t) (hstep : r t u) : Run r (n + 1) s u

/-- No step leads out of the state. -/
def Stuck (r : σ → σ → Prop) (s : σ) : Prop := ∀ t, ¬ r s t

/-- The measure pays for every step. -/
theorem Run.length_add_le (hμ : ∀ s t, r s t → μ t < μ s) {n : ℕ} {s t : σ} (h : Run r n s t) :
    n + μ t ≤ μ s := by
  induction h with
  | refl s => exact (Nat.zero_add _).le
  | tail _ hstep ih =>
      have hless := hμ _ _ hstep
      omega

/-- Every run can be continued to the point where it gets stuck. -/
theorem exists_stuck (hμ : ∀ s t, r s t → μ t < μ s) (s : σ) :
    ∃ t, Relation.ReflTransGen r s t ∧ Stuck r t := by
  induction hm : μ s using Nat.strong_induction_on generalizing s with
  | _ m ih =>
      by_cases h : Stuck r s
      · exact ⟨s, .refl, h⟩
      · obtain ⟨u, hu⟩ := not_forall_not.mp h
        obtain ⟨t, hlead, ht⟩ := ih (μ u) (hm ▸ hμ s u hu) u rfl
        exact ⟨t, hlead.head hu, ht⟩

end Runs

end ProjectsInC.Lib
