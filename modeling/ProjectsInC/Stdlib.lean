/-
`qsort`.

The C library promises an array that is a rearrangement of the old one and, if
the comparison function is consistent, ascending; the order of equal elements is
open. A [`Qsort`] is any function that keeps this promise, so a result about all
of them is a result about every order `qsort` may return. Insertion sort is one
of them.
-/
import Mathlib.Data.List.Sort
import ProjectsInC.Machine

set_option autoImplicit false

namespace ProjectsInC

section Qsort

variable {α : Type}

/-- On the elements of the list the comparison function says what the order of
some numbers is. -/
def Consistent (cmp : α → α → CInt) (l : List α) : Prop :=
  ∃ key : α → ℤ, ∀ x ∈ l, ∀ y ∈ l, (cmp x y).toInt ≤ 0 ↔ key x ≤ key y

/-- An implementation of `qsort`. -/
structure Qsort (α : Type) where
  run : (α → α → CInt) → List α → List α
  perm : ∀ cmp l, (run cmp l).Perm l
  sorted : ∀ cmp l, Consistent cmp l → (run cmp l).Pairwise (fun x y => (cmp x y).toInt ≤ 0)

theorem Qsort.mem_run (q : Qsort α) {cmp : α → α → CInt} {l : List α} {x : α} :
    x ∈ q.run cmp l ↔ x ∈ l := (q.perm cmp l).mem_iff

theorem Qsort.length_run (q : Qsort α) (cmp : α → α → CInt) (l : List α) :
    (q.run cmp l).length = l.length := (q.perm cmp l).length_eq

/-- The elements are ascending in the numbers the comparison function is about. -/
theorem Qsort.pairwise_key (q : Qsort α) {cmp : α → α → CInt} {l : List α} {key : α → ℤ}
    (h : ∀ x ∈ l, ∀ y ∈ l, (cmp x y).toInt ≤ 0 ↔ key x ≤ key y) :
    (q.run cmp l).Pairwise (fun x y => key x ≤ key y) := by
  refine (q.sorted cmp l ⟨key, h⟩).imp_of_mem (fun {x y} hx hy hle => ?_)
  exact (h x (q.mem_run.mp hx) y (q.mem_run.mp hy)).mp hle

/-- Insertion sort. -/
def insertionQsort (α : Type) : Qsort α where
  run := fun cmp l => l.insertionSort (fun x y => (cmp x y).toInt ≤ 0)
  perm := fun _ l => List.perm_insertionSort _ l
  sorted := fun cmp l ⟨key, h⟩ => by
    have hmap := List.map_insertionSort (fun x y => (cmp x y).toInt ≤ 0) (· ≤ ·) key l h
    have hsorted : ((l.insertionSort (fun x y => (cmp x y).toInt ≤ 0)).map key).Pairwise
        (· ≤ ·) := by
      rw [hmap]
      exact List.pairwise_insertionSort (· ≤ ·) (l.map key)
    refine (List.pairwise_map.mp hsorted).imp_of_mem (fun {x y} hx hy hle => ?_)
    exact (h x (List.mem_insertionSort _ |>.mp hx) y (List.mem_insertionSort _ |>.mp hy)).mpr hle

end Qsort

end ProjectsInC
