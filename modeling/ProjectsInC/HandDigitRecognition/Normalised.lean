/-
The probabilities add up to one.

A sum over all binary images of a product over the pixels is the product, over the pixels, of the
sum over the two values ([`sum_images_prod`]), which is one. So each digit has a distribution of
images, and the marginal and conditional probabilities are normalised with it
([`probabilities_normalised`]).
-/
import Mathlib.Algebra.BigOperators.Fin
import Mathlib.Algebra.BigOperators.Ring.Finset
import Mathlib.Algebra.BigOperators.Field
import ProjectsInC.HandDigitRecognition.Computations

set_option autoImplicit false

namespace ProjectsInC.HandDigitRecognition

open Lib (ExactDouble)
open Lib.ExactDouble (rat)

/-! ## All binary images -/

/-- The sum over all arrays of bits of a product over their places. -/
theorem sum_images_prod {R : Type*} [CommSemiring R] (H W : ℕ) (f : Fin H → Fin W → Bool → R) :
    ∑ x : Fin H → Fin W → Bool, ∏ i, ∏ j, f i j (x i j) = ∏ i, ∏ j, (f i j true + f i j false) := by
  calc ∑ x : Fin H → Fin W → Bool, ∏ i, ∏ j, f i j (x i j)
      = ∏ i, ∑ row : Fin W → Bool, ∏ j, f i j (row j) :=
        (Fintype.prod_sum (fun i (row : Fin W → Bool) => ∏ j, f i j (row j))).symm
    _ = ∏ i, ∏ j, ∑ b, f i j b :=
        Finset.prod_congr rfl fun i _ => (Fintype.prod_sum (fun j b => f i j b)).symm
    _ = ∏ i, ∏ j, (f i j true + f i j false) := by simp only [Fintype.sum_bool]

/-- An array of bits as an `int[][]`. -/
def imageOf {H W : ℕ} (x : Fin H → Fin W → Bool) : Image :=
  List.ofFn (fun i => List.ofFn (fun j => if x i j then 1 else 0))

section Image

variable {H W : ℕ} (x : Fin H → Fin W → Bool)

theorem length_imageOf : (imageOf x).length = H := List.length_ofFn

theorem row_imageOf (i : Fin H) :
    (imageOf x).row i = List.ofFn (fun j => if x i j then 1 else 0) := by
  unfold Image.row imageOf
  rw [← List.getElem_eq_getD (h := by rw [List.length_ofFn]; exact i.isLt), List.getElem_ofFn]

theorem length_row_imageOf (i : Fin H) : ((imageOf x).row i).length = W := by
  rw [row_imageOf, List.length_ofFn]

theorem pixel_imageOf (i : Fin H) (j : Fin W) :
    (imageOf x).pixel i j = if x i j then 1 else 0 := by
  unfold Image.pixel
  rw [row_imageOf, ← List.getElem_eq_getD (h := by rw [List.length_ofFn]; exact j.isLt),
    List.getElem_ofFn]

end Image

/-! ## The three sums -/

section Sums

variable {M : Model}

theorem imageOf_fits (x : Fin M.H → Fin M.W → Bool) : M.Fits (imageOf x) where
  rows := (length_imageOf x).le
  columns := fun i hi => by
    rw [length_imageOf] at hi
    exact (length_row_imageOf x ⟨i, hi⟩).le

/-- The probability of an array of bits. -/
theorem imageProb_imageOf (x : Fin M.H → Fin M.W → Bool) (d : ℕ) :
    imageProb M (imageOf x) d
      = ∏ i : Fin M.H, ∏ j : Fin M.W, if x i j then M.PXgD d i j else 1 - M.PXgD d i j := by
  unfold imageProb
  rw [length_imageOf, Finset.prod_range]
  apply Finset.prod_congr rfl
  intro i _
  rw [length_row_imageOf, Finset.prod_range]
  apply Finset.prod_congr rfl
  intro j _
  unfold pixelProb
  rw [pixel_imageOf]
  cases x i j <;> rfl

/-- A digit has a distribution of images. -/
theorem sum_imageProb (M : Model) (d : ℕ) :
    ∑ x : Fin M.H → Fin M.W → Bool, imageProb M (imageOf x) d = 1 := by
  simp only [imageProb_imageOf]
  rw [sum_images_prod M.H M.W (fun i j b => if b then M.PXgD d i j else 1 - M.PXgD d i j)]
  apply Finset.prod_eq_one
  intro i _
  apply Finset.prod_eq_one
  intro j _
  exact add_sub_cancel _ _

theorem sum_marginalProb (hprior : ∑ d ∈ Finset.range 10, M.PD d = 1) :
    ∑ x : Fin M.H → Fin M.W → Bool, marginalProb M (imageOf x) = 1 := by
  unfold marginalProb jointProb
  rw [Finset.sum_comm]
  simp only [← Finset.mul_sum, sum_imageProb, mul_one]
  exact hprior

/-- **The probabilities are normalised**: for each digit the probabilities of all binary images, if
the priors are normalised the marginal probabilities of all binary images, and for each image with
a marginal probability other than zero the probabilities of the ten digits. -/
theorem probabilities_normalised (M : Model) :
    (∀ d < 10, ∑ x : Fin M.H → Fin M.W → Bool, conditionalProbabilityXgD M (imageOf x) d = 1) ∧
    (∑ d ∈ Finset.range 10, M.PD d = 1 →
      ∑ x : Fin M.H → Fin M.W → Bool, marginalProbabilityX M (imageOf x) = 1) ∧
    ∀ x : Image, M.Fits x → marginalProbabilityX M x ≠ 0 →
      ∑ d ∈ Finset.range 10, conditionalProbabilityDgX M d x = 1 := by
  refine ⟨?_, ?_, ?_⟩
  · intro d hd
    simp only [fun x => conditionalProbabilityXgD_eq (imageOf_fits x) hd]
    rw [ExactDouble.sum_rat, sum_imageProb, ExactDouble.one_eq]
  · intro hprior
    simp only [fun x => marginalProbabilityX_eq (imageOf_fits x)]
    rw [ExactDouble.sum_rat, sum_marginalProb hprior, ExactDouble.one_eq]
  · intro x hfits hmarginal
    have hne : marginalProb M x ≠ 0 := by
      intro hzero
      rw [marginalProbabilityX_eq hfits, hzero] at hmarginal
      exact hmarginal rfl
    have hquotient : ∀ d ∈ Finset.range 10, conditionalProbabilityDgX M d x
        = rat (jointProb M x d / marginalProb M x) :=
      fun d hd => conditionalProbabilityDgX_eq hfits (Finset.mem_range.mp hd) hne
    rw [Finset.sum_congr rfl hquotient, ExactDouble.sum_rat, ← Finset.sum_div, ExactDouble.one_eq]
    exact congrArg rat (div_self hne)

/-- The 64 images of six pixels, and one of them. -/
theorem probabilities_normalised_slanted :
    ∑ x : Fin 2 → Fin 3 → Bool, conditionalProbabilityXgD slanted (imageOf x) 3 = 1 ∧
      ∑ x : Fin 2 → Fin 3 → Bool, marginalProbabilityX slanted (imageOf x) = 1 ∧
      ∑ d ∈ Finset.range 10, conditionalProbabilityDgX slanted d [[0, 1, 0], [1, 1, 0]] = 1 := by
  obtain ⟨himages, hmarginal, hdigits⟩ := probabilities_normalised slanted
  refine ⟨himages 3 (by decide), hmarginal ?_, hdigits [[0, 1, 0], [1, 1, 0]]
    ⟨by decide, by decide⟩ ?_⟩
  · decide +kernel
  · decide +kernel

end Sums

end ProjectsInC.HandDigitRecognition
