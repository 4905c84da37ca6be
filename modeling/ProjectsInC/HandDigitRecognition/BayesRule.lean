/-
No rule for naming digits is right more often.

Draw a digit with the priors of the model and then the pixels. A rule that names a digit for each
image is right with the sum, over the images, of the joint probabilities of the image and the digit
it names ([`rightProbability`]). `fastClassify` makes each summand as large as it can be, so it is
at least as often right as any rule, and exactly as often only as the rules that make them as large
too.
-/
import Mathlib.Algebra.Order.BigOperators.Group.Finset
import ProjectsInC.HandDigitRecognition.Normalised

set_option autoImplicit false

namespace ProjectsInC.HandDigitRecognition

open Lib (ExactDouble)
open Lib.ExactDouble (rat)

section Rules

variable {M : Model}

/-- The probability that the digit named for the image is the one that was drawn. -/
def rightProbability (M : Model) (rule : (Fin M.H → Fin M.W → Bool) → ℕ) : ExactDouble :=
  ∑ x, jointProbabilityXD M (imageOf x) (rule x)

/-- The same with rational numbers. -/
def rightProb (M : Model) (rule : (Fin M.H → Fin M.W → Bool) → ℕ) : ℚ :=
  ∑ x, jointProb M (imageOf x) (rule x)

/-- `fastClassify` as a rule. -/
def fastRule (M : Model) (x : Fin M.H → Fin M.W → Bool) : ℕ := fastClassify M (imageOf x)

theorem rightProbability_eq {rule : (Fin M.H → Fin M.W → Bool) → ℕ} (hrule : ∀ x, rule x < 10) :
    rightProbability M rule = rat (rightProb M rule) := by
  unfold rightProbability rightProb
  simp only [fun x => jointProbabilityXD_eq (imageOf_fits x) (hrule x)]
  exact ExactDouble.sum_rat _ _

/-- A rule that always names the same digit is right as often as this digit is drawn. -/
theorem rightProb_const (M : Model) (d : ℕ) : rightProb M (fun _ => d) = M.PD d := by
  unfold rightProb jointProb
  rw [← Finset.mul_sum, sum_imageProb, mul_one]

theorem fastRule_leastMax (hvalid : M.Valid) (x : Fin M.H → Fin M.W → Bool) :
    LeastMax (jointProb M (imageOf x)) (fastRule M x) :=
  scan_leastMax (fun _ hd => jointProbabilityXD_eq (imageOf_fits x) hd)
    (fun _ hd => jointProb_nonneg hvalid (imageOf_fits x) hd)

theorem rightProb_le (hvalid : M.Valid) {rule : (Fin M.H → Fin M.W → Bool) → ℕ}
    (hrule : ∀ x, rule x < 10) : rightProb M rule ≤ rightProb M (fastRule M) :=
  Finset.sum_le_sum (fun x _ => (fastRule_leastMax hvalid x).largest _ (hrule x))

/-- Equally often right are the rules that name a most probable digit for every image. -/
theorem rightProb_eq_iff (hvalid : M.Valid) {rule : (Fin M.H → Fin M.W → Bool) → ℕ}
    (hrule : ∀ x, rule x < 10) :
    rightProb M rule = rightProb M (fastRule M) ↔
      ∀ x, ∀ d < 10, jointProb M (imageOf x) d ≤ jointProb M (imageOf x) (rule x) := by
  have hbest := fastRule_leastMax hvalid
  rw [rightProb, rightProb,
    Finset.sum_eq_sum_iff_of_le (fun x _ => (hbest x).largest _ (hrule x))]
  constructor
  · intro heq x d hd
    rw [heq x (Finset.mem_univ x)]
    exact (hbest x).largest d hd
  · intro hall x _
    exact le_antisymm ((hbest x).largest _ (hrule x)) (hall x _ (hbest x).digit)

/-- No rule is right more often than there are images to draw. -/
theorem rightProb_le_one (hvalid : M.Valid) (hprior : ∑ d ∈ Finset.range 10, M.PD d = 1) :
    rightProb M (fastRule M) ≤ 1 := by
  rw [← sum_marginalProb hprior]
  apply Finset.sum_le_sum
  intro x _
  exact Finset.single_le_sum
    (fun d hd => jointProb_nonneg hvalid (imageOf_fits x) (Finset.mem_range.mp hd))
    (Finset.mem_range.mpr (fastRule_leastMax hvalid x).digit)

/-- Ten digits cannot all be drawn in less than one case of ten. -/
theorem tenth_le_rightProb (hvalid : M.Valid) (hprior : ∑ d ∈ Finset.range 10, M.PD d = 1) :
    1 / 10 ≤ rightProb M (fastRule M) := by
  have hdigit : ∀ d ∈ Finset.range 10, M.PD d ≤ rightProb M (fastRule M) := by
    intro d hd
    rw [← rightProb_const M d]
    exact rightProb_le hvalid (fun _ => Finset.mem_range.mp hd)
  have hsum := Finset.sum_le_card_nsmul _ _ _ hdigit
  rw [hprior, Finset.card_range, nsmul_eq_mul, mul_comm] at hsum
  rw [div_le_iff₀ (by norm_num)]
  exact_mod_cast hsum

/-- **`fastClassify` is a best rule.** For every model with probabilities in its tables, whatever
digit a rule names for each binary image, it is right no more often than `fastClassify`, and
equally often if and only if no digit is more probable with an image than the one it names.
`fastClassify` is right at least as often as any one digit is drawn, and, if the priors add up to
one, in at least one case of ten. -/
theorem fastClassify_best (hvalid : M.Valid) (rule : (Fin M.H → Fin M.W → Bool) → ℕ)
    (hrule : ∀ x, rule x < 10) :
    ∃ p q : ℚ, rightProbability M rule = rat p ∧
      rightProbability M (fun x => fastClassify M (imageOf x)) = rat q ∧
      p ≤ q ∧
      (p = q ↔ ∀ x, ∀ d < 10, ¬ jointProbabilityXD M (imageOf x) (rule x)
        < jointProbabilityXD M (imageOf x) d) ∧
      (∀ d < 10, M.PD d ≤ q) ∧
      (∑ d ∈ Finset.range 10, M.PD d = 1 → 1 / 10 ≤ q ∧ q ≤ 1) := by
  refine ⟨rightProb M rule, rightProb M (fastRule M), rightProbability_eq hrule,
    rightProbability_eq (fun x => (fastRule_leastMax hvalid x).digit), rightProb_le hvalid hrule,
    ?_, ?_, ?_⟩
  · rw [rightProb_eq_iff hvalid hrule]
    apply forall_congr'
    intro x
    apply forall₂_congr
    intro d hd
    rw [jointProbabilityXD_eq (imageOf_fits x) (hrule x), jointProbabilityXD_eq (imageOf_fits x) hd,
      ExactDouble.rat_lt_rat, not_lt]
  · intro d hd
    rw [← rightProb_const M d]
    exact rightProb_le hvalid (fun _ => hd)
  · exact fun hprior => ⟨tenth_le_rightProb hvalid hprior, rightProb_le_one hvalid hprior⟩

/-- The rule that always names the digit drawn most often: it is right less often, since the image
of zeros is more likely a 3. -/
theorem fastClassify_best_nine :
    ∃ p q : ℚ, rightProbability slanted (fun _ => 9) = rat p ∧
      rightProbability slanted (fun x => fastClassify slanted (imageOf x)) = rat q ∧
      p < q ∧ 10 / 55 ≤ q ∧ q ≤ 1 := by
  obtain ⟨p, q, hp, hq, hle, hiff, hdigit, hone⟩ :=
    fastClassify_best slanted_valid (fun _ => 9) (fun _ => by decide)
  have hne : p ≠ q := by
    intro heq
    exact hiff.mp heq (fun _ _ => false) 3 (by decide) (by decide +kernel)
  have hnine : slanted.PD 9 = 10 / 55 := by decide +kernel
  refine ⟨p, q, hp, hq, lt_of_le_of_ne hle hne, hnine ▸ hdigit 9 (by decide), (hone ?_).2⟩
  decide +kernel

end Rules

end ProjectsInC.HandDigitRecognition
