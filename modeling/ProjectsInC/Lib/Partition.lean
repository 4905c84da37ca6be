/-
Lists cut into classes.

Several writers share one queue and each element says which writer it is from.
What such a list is up to reordering is determined by its subsequences, one for
each class, and every count over it is the sum of the counts over them. Stated
for any family of disjoint classes `p k`, `k ∈ K`, that covers the list.
-/
import Mathlib.Algebra.BigOperators.Group.Finset.Piecewise
import Mathlib.Algebra.Order.BigOperators.Group.Finset

set_option autoImplicit false

namespace ProjectsInC.Lib

section Partition

variable {α ι : Type*}

/-- The classes `p k`, `k ∈ K`, are disjoint. -/
def DisjointClasses (K : Finset ι) (p : ι → α → Bool) : Prop :=
  ∀ j ∈ K, ∀ k ∈ K, ∀ a, p j a = true → p k a = true → j = k

/-- Every element of the list lies in one of the classes. -/
def Covers (K : Finset ι) (p : ι → α → Bool) (l : List α) : Prop :=
  ∀ a ∈ l, ∃ k ∈ K, p k a = true

theorem Covers.tail {K : Finset ι} {p : ι → α → Bool} {a : α} {l : List α}
    (h : Covers K p (a :: l)) : Covers K p l := fun b hb => h b (List.mem_cons_of_mem a hb)

/-- A count over a covered list is the sum of the counts over its classes. -/
theorem countP_eq_sum_filter [DecidableEq ι] {K : Finset ι} {p : ι → α → Bool}
    (hp : DisjointClasses K p) (q : α → Bool) {l : List α} (hl : Covers K p l) :
    l.countP q = ∑ k ∈ K, (l.filter (p k)).countP q := by
  induction l with
  | nil => simp
  | cons a l ih =>
      obtain ⟨j, hj, hja⟩ := hl a List.mem_cons_self
      have hclass : ∀ k ∈ K, p k a = true ↔ j = k :=
        fun k hk => ⟨fun hka => hp j hj k hk a hja hka, fun h => h ▸ hja⟩
      have hsplit : ∀ k ∈ K, ((a :: l).filter (p k)).countP q
          = (l.filter (p k)).countP q + (if j = k then (if q a then 1 else 0) else 0) := by
        intro k hk
        by_cases h : j = k
        · rw [List.filter_cons_of_pos ((hclass k hk).mpr h), List.countP_cons, if_pos h]
        · rw [List.filter_cons_of_neg (fun hka => h ((hclass k hk).mp hka)), if_neg h, add_zero]
      rw [List.countP_cons, ih hl.tail, Finset.sum_congr rfl hsplit, Finset.sum_add_distrib,
        Finset.sum_ite_eq K j, if_pos hj]

/-- Two covered lists with the same classes are rearrangements of each other. -/
theorem perm_of_filter_eq [DecidableEq ι] [DecidableEq α] {K : Finset ι} {p : ι → α → Bool}
    (hp : DisjointClasses K p) {l l' : List α} (hl : Covers K p l) (hl' : Covers K p l')
    (h : ∀ k ∈ K, l.filter (p k) = l'.filter (p k)) : l.Perm l' := by
  rw [List.perm_iff_count]
  intro a
  rw [List.count_eq_countP, List.count_eq_countP, countP_eq_sum_filter hp _ hl,
    countP_eq_sum_filter hp _ hl']
  exact Finset.sum_congr rfl (fun k hk => by rw [h k hk])

/-- If each class of a list counts at most as much as the bound allows, and the
total reaches the sum of the bounds, then each class reaches its own. -/
theorem countP_eq_of_sum_le [DecidableEq ι] {K : Finset ι} {p : ι → α → Bool} (q : α → Bool)
    (bound : ι → ℕ) (hp : DisjointClasses K p) {l : List α} (hl : Covers K p l)
    (hle : ∀ k ∈ K, (l.filter (p k)).countP q ≤ bound k)
    (hsum : ∑ k ∈ K, bound k ≤ l.countP q) : ∀ k ∈ K, (l.filter (p k)).countP q = bound k := by
  rw [countP_eq_sum_filter hp q hl] at hsum
  exact (Finset.sum_eq_sum_iff_of_le hle).mp (le_antisymm (Finset.sum_le_sum hle) hsum)

end Partition

end ProjectsInC.Lib
