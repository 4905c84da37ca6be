/-
`Computations.java` and `Model.java`: which digit an image shows.

The numbers are `double`s without rounding. A model of any size has the probabilities of the ten
digits and, for each digit, of each pixel; on an image that fits it the computations are those with
rational numbers ([`jointProbabilityXD_eq`], [`marginalProbabilityX_eq`],
[`conditionalProbabilityDgX_eq`]). `classify` divides the joint probabilities by their sum and
`fastClassify` does not, and both look for the first largest value ([`classify_eq_fastClassify`]).
-/
import Mathlib.Algebra.Order.BigOperators.Ring.Finset
import Mathlib.Tactic.NormNum
import ProjectsInC.Lib.ExactDouble
import ProjectsInC.Machine

set_option autoImplicit false

namespace ProjectsInC.HandDigitRecognition

open Lib (ExactDouble)
open Lib.ExactDouble (rat nan)

/-! ## `Model.java` -/

/-- `Model`: the tables `PXgD` and `PD`, and the size of the images. -/
structure Model where
  PXgD : ℕ → ℕ → ℕ → ℚ
  PD : ℕ → ℚ
  W : ℕ
  H : ℕ

/-- The field `D` of every model. -/
def D : ℕ := 10

/-- `getPXijeq1gD` -/
def Model.getPXijeq1gD (M : Model) (i j d : ℕ) : ExactDouble :=
  if i < M.H ∧ j < M.W ∧ d < D then rat (M.PXgD d i j) else nan

/-- `getPD` -/
def Model.getPD (M : Model) (d : ℕ) : ExactDouble := if d < D then rat (M.PD d) else nan

/-! ## `Computations.java` -/

/-- An `int[][]`. -/
abbrev Image := List (List CInt)

/-- `x[i]` -/
def Image.row (x : Image) (i : ℕ) : List CInt := x.getD i []

/-- `x[i][j]` -/
def Image.pixel (x : Image) (i j : ℕ) : CInt := (x.row i).getD j 0

/-- `conditionalProbabilityXijgD` -/
def conditionalProbabilityXijgD (M : Model) (i j : ℕ) (x : CInt) (d : ℕ) : ExactDouble :=
  let cond := M.getPXijeq1gD i j d
  if x = 1 then cond else 1 - cond

/-- `conditionalProbabilityXgD` -/
def conditionalProbabilityXgD (M : Model) (x : Image) (d : ℕ) : ExactDouble :=
  (List.range x.length).foldl (fun tot i =>
    (List.range (x.row i).length).foldl (fun tot j =>
      tot * conditionalProbabilityXijgD M i j (x.pixel i j) d) tot) 1

/-- `jointProbabilityXD` -/
def jointProbabilityXD (M : Model) (x : Image) (d : ℕ) : ExactDouble :=
  M.getPD d * conditionalProbabilityXgD M x d

/-- `marginalProbabilityX` -/
def marginalProbabilityX (M : Model) (x : Image) : ExactDouble :=
  (List.range 10).foldl (fun tot k => tot + jointProbabilityXD M x k) 0

/-- `conditionalProbabilityDgX` -/
def conditionalProbabilityDgX (M : Model) (d : ℕ) (x : Image) : ExactDouble :=
  jointProbabilityXD M x d / marginalProbabilityX M x

/-- The loop of `classify` and `fastClassify`: the variables `high` and `digit` after `n` rounds. -/
def scan (score : ℕ → ExactDouble) (n : ℕ) : ExactDouble × ℕ :=
  (List.range n).foldl (fun st i => if st.1 < score i then (score i, i) else st) (0, 0)

/-- `classify` -/
def classify (M : Model) (x : Image) : ℕ := (scan (fun i => conditionalProbabilityDgX M i x) 10).2

/-- `fastClassify` -/
def fastClassify (M : Model) (x : Image) : ℕ := (scan (fun i => jointProbabilityXD M x i) 10).2

/-! ## The computations with rational numbers -/

/-- An image inside the size of the model. -/
structure Model.Fits (M : Model) (x : Image) : Prop where
  rows : x.length ≤ M.H
  columns : ∀ i < x.length, (x.row i).length ≤ M.W

/-- The probability of a pixel. -/
def pixelProb (M : Model) (x : Image) (d i j : ℕ) : ℚ :=
  if x.pixel i j = 1 then M.PXgD d i j else 1 - M.PXgD d i j

/-- The probability of the image, given the digit. -/
def imageProb (M : Model) (x : Image) (d : ℕ) : ℚ :=
  ∏ i ∈ Finset.range x.length, ∏ j ∈ Finset.range (x.row i).length, pixelProb M x d i j

/-- The probability of image and digit. -/
def jointProb (M : Model) (x : Image) (d : ℕ) : ℚ := M.PD d * imageProb M x d

/-- The probability of the image. -/
def marginalProb (M : Model) (x : Image) : ℚ := ∑ d ∈ Finset.range 10, jointProb M x d

section Values

variable {M : Model} {x : Image}

theorem conditionalProbabilityXijgD_eq (hfits : M.Fits x) {d : ℕ} (hd : d < 10) {i j : ℕ}
    (hi : i < x.length) (hj : j < (x.row i).length) :
    conditionalProbabilityXijgD M i j (x.pixel i j) d = rat (pixelProb M x d i j) := by
  have hinside : i < M.H ∧ j < M.W ∧ d < D :=
    ⟨hi.trans_le hfits.rows, hj.trans_le (hfits.columns i hi), hd⟩
  unfold conditionalProbabilityXijgD Model.getPXijeq1gD pixelProb
  rw [if_pos hinside]
  split_ifs
  · rfl
  · exact ExactDouble.rat_sub_rat 1 _

theorem conditionalProbabilityXgD_eq (hfits : M.Fits x) {d : ℕ} (hd : d < 10) :
    conditionalProbabilityXgD M x d = rat (imageProb M x d) := by
  have hrow : ∀ i < x.length, ∀ t : ℚ,
      (List.range (x.row i).length).foldl (fun tot j =>
        tot * conditionalProbabilityXijgD M i j (x.pixel i j) d) (rat t)
        = rat (t * ∏ j ∈ Finset.range (x.row i).length, pixelProb M x d i j) := by
    intro i hi t
    apply ExactDouble.foldl_rat_mul
    intro j hj t
    rw [conditionalProbabilityXijgD_eq hfits hd hi hj, ExactDouble.rat_mul_rat]
  unfold conditionalProbabilityXgD imageProb
  rw [ExactDouble.one_eq, ExactDouble.foldl_rat_mul hrow, one_mul]

theorem jointProbabilityXD_eq (hfits : M.Fits x) {d : ℕ} (hd : d < 10) :
    jointProbabilityXD M x d = rat (jointProb M x d) := by
  have hprior : M.getPD d = rat (M.PD d) := if_pos hd
  rw [jointProbabilityXD, hprior, conditionalProbabilityXgD_eq hfits hd, ExactDouble.rat_mul_rat]
  rfl

theorem marginalProbabilityX_eq (hfits : M.Fits x) :
    marginalProbabilityX M x = rat (marginalProb M x) := by
  unfold marginalProbabilityX marginalProb
  rw [ExactDouble.zero_eq, ExactDouble.foldl_rat_add, zero_add]
  intro k hk t
  rw [jointProbabilityXD_eq hfits hk, ExactDouble.rat_add_rat]

theorem conditionalProbabilityDgX_eq (hfits : M.Fits x) {d : ℕ} (hd : d < 10)
    (hmarginal : marginalProb M x ≠ 0) :
    conditionalProbabilityDgX M d x = rat (jointProb M x d / marginalProb M x) := by
  rw [conditionalProbabilityDgX, jointProbabilityXD_eq hfits hd, marginalProbabilityX_eq hfits,
    ExactDouble.rat_div_rat _ hmarginal]

/-- Zero divided by zero. -/
theorem conditionalProbabilityDgX_nan (hfits : M.Fits x) {d : ℕ} (hd : d < 10)
    (hjoint : jointProb M x d = 0) (hmarginal : marginalProb M x = 0) :
    conditionalProbabilityDgX M d x = nan := by
  rw [conditionalProbabilityDgX, jointProbabilityXD_eq hfits hd, marginalProbabilityX_eq hfits,
    hjoint, hmarginal, ExactDouble.zero_div_zero]

end Values

/-! ## The first largest value -/

/-- The least of the ten digits with the largest value. -/
structure LeastMax (value : ℕ → ℚ) (best : ℕ) : Prop where
  digit : best < 10
  largest : ∀ d < 10, value d ≤ value best
  least : ∀ d < best, value d < value best

theorem LeastMax.unique {value : ℕ → ℚ} {best best' : ℕ} (h : LeastMax value best)
    (h' : LeastMax value best') : best = best' := by
  rcases lt_trichotomy best best' with hlt | heq | hlt
  · exact absurd (h'.least best hlt) (not_lt.mpr (h.largest best' h'.digit))
  · exact heq
  · exact absurd (h.least best' hlt) (not_lt.mpr (h'.largest best h.digit))

/-- Dividing by a positive number changes nothing. -/
theorem LeastMax.of_div {value : ℕ → ℚ} {best : ℕ} {q : ℚ} (hq : 0 < q)
    (h : LeastMax (fun d => value d / q) best) : LeastMax value best where
  digit := h.digit
  largest := fun d hd => (div_le_div_iff_of_pos_right hq).mp (h.largest d hd)
  least := fun d hd => (div_lt_div_iff_of_pos_right hq).mp (h.least d hd)

/-- The variables of the loop: `high` is the largest value so far and `digit` the first place
where it occurs, or no value has been above zero. -/
structure Scanned (value : ℕ → ℚ) (n : ℕ) (high : ℚ) (digit : ℕ) : Prop where
  reached : high = 0 ∧ digit = 0 ∨ digit < n ∧ value digit = high
  nonneg : 0 ≤ high
  largest : ∀ d < n, value d ≤ high
  least : ∀ d < digit, value d < high

section Scan

variable {score : ℕ → ExactDouble} {value : ℕ → ℚ}

theorem scan_succ (score : ℕ → ExactDouble) (n : ℕ) :
    scan score (n + 1)
      = if (scan score n).1 < score n then (score n, n) else scan score n := by
  rw [scan, List.range_succ, List.foldl_append]
  rfl

/-- One round keeps what the variables say. -/
theorem Scanned.round {n : ℕ} {high : ℚ} {digit : ℕ} (h : Scanned value n high digit) :
    Scanned value (n + 1) (if high < value n then value n else high)
      (if high < value n then n else digit) := by
  by_cases hlt : high < value n
  · -- a new largest value, above all the others
    rw [if_pos hlt, if_pos hlt]
    refine ⟨.inr ⟨Nat.lt_succ_self n, rfl⟩, (h.nonneg.trans_lt hlt).le, ?_, ?_⟩
    · intro d hd
      rcases Nat.lt_succ_iff_lt_or_eq.mp hd with hold | rfl
      · exact (h.largest d hold).trans hlt.le
      · exact le_rfl
    · exact fun d hd => (h.largest d hd).trans_lt hlt
  · -- an equal value further back does not count
    rw [if_neg hlt, if_neg hlt]
    refine ⟨h.reached.imp_right fun hr => ⟨Nat.lt_succ_of_lt hr.1, hr.2⟩, h.nonneg, ?_, h.least⟩
    intro d hd
    rcases Nat.lt_succ_iff_lt_or_eq.mp hd with hold | rfl
    · exact h.largest d hold
    · exact not_lt.mp hlt

theorem scan_scanned {n : ℕ} (hscore : ∀ i < n, score i = rat (value i)) :
    ∃ high, (scan score n).1 = rat high ∧ Scanned value n high (scan score n).2 := by
  induction n with
  | zero =>
      refine ⟨0, rfl, .inl ⟨rfl, rfl⟩, le_rfl, ?_, ?_⟩
      · exact fun d hd => absurd hd (Nat.not_lt_zero d)
      · exact fun d hd => absurd hd (Nat.not_lt_zero d)
  | succ n ih =>
      obtain ⟨high, hhigh, h⟩ := ih (fun i hi => hscore i (Nat.lt_succ_of_lt hi))
      have hround := h.round
      have hstep := scan_succ score n
      rw [hscore n (Nat.lt_succ_self n), hhigh] at hstep
      by_cases hlt : high < value n
      · rw [if_pos (ExactDouble.rat_lt_rat.mpr hlt)] at hstep
        rw [if_pos hlt, if_pos hlt] at hround
        rw [hstep]
        exact ⟨value n, rfl, hround⟩
      · rw [if_neg (mt ExactDouble.rat_lt_rat.mp hlt)] at hstep
        rw [if_neg hlt, if_neg hlt] at hround
        rw [hstep]
        exact ⟨high, hhigh, hround⟩

/-- **The loop** finds the least digit with the largest value. -/
theorem scan_leastMax (hscore : ∀ i < 10, score i = rat (value i)) (hnonneg : ∀ i < 10, 0 ≤ value i) :
    LeastMax value (scan score 10).2 := by
  obtain ⟨high, -, h⟩ := scan_scanned hscore
  rcases h.reached with ⟨hzero, hdigit⟩ | ⟨hdigit, hvalue⟩
  · -- every value is zero
    rw [hdigit]
    refine ⟨by decide, ?_, fun d hd => absurd hd (Nat.not_lt_zero d)⟩
    intro d hd
    have hle := h.largest d hd
    rw [hzero] at hle
    exact hle.trans (hnonneg 0 (by decide))
  · refine ⟨hdigit, ?_, ?_⟩
    · rw [hvalue]
      exact h.largest
    · rw [hvalue]
      exact h.least

/-- Where all values are NaN the loop finds nothing. -/
theorem scan_nan (hscore : ∀ i < 10, score i = nan) : (scan score 10).2 = 0 := by
  have hstays : ∀ n ≤ 10, scan score n = (0, 0) := by
    intro n hn
    induction n with
    | zero => rfl
    | succ n ih =>
        rw [scan_succ, ih (Nat.le_of_succ_le hn), hscore n hn, if_neg (ExactDouble.not_lt_nan _)]
  rw [hstays 10 le_rfl]

end Scan

/-! ## The two classifications -/

/-- The tables hold probabilities. -/
structure Model.Valid (M : Model) : Prop where
  prior : ∀ d < 10, 0 ≤ M.PD d
  pixel : ∀ d < 10, ∀ i < M.H, ∀ j < M.W, 0 ≤ M.PXgD d i j ∧ M.PXgD d i j ≤ 1

section Classify

variable {M : Model} {x : Image}

theorem jointProb_nonneg (hvalid : M.Valid) (hfits : M.Fits x) {d : ℕ} (hd : d < 10) :
    0 ≤ jointProb M x d := by
  refine mul_nonneg (hvalid.prior d hd) (Finset.prod_nonneg fun i hi => Finset.prod_nonneg fun j hj => ?_)
  have hi' := Finset.mem_range.mp hi
  have hbounds := hvalid.pixel d hd i (hi'.trans_le hfits.rows) j
    ((Finset.mem_range.mp hj).trans_le (hfits.columns i hi'))
  unfold pixelProb
  split_ifs
  · exact hbounds.1
  · exact sub_nonneg.mpr hbounds.2

/-- **`fastClassify` agrees with `classify`**: both return the least digit with the largest joint
probability, also where the image has the probability zero. -/
theorem classify_eq_fastClassify (hvalid : M.Valid) (hfits : M.Fits x) :
    classify M x = fastClassify M x ∧ ∃ joint : ℕ → ℚ,
      (∀ d < 10, jointProbabilityXD M x d = rat (joint d)) ∧ LeastMax joint (classify M x) := by
  have hjoint : ∀ d < 10, jointProbabilityXD M x d = rat (jointProb M x d) :=
    fun d hd => jointProbabilityXD_eq hfits hd
  have hnonneg : ∀ d < 10, 0 ≤ jointProb M x d := fun d hd => jointProb_nonneg hvalid hfits hd
  have hfast : LeastMax (jointProb M x) (fastClassify M x) := scan_leastMax hjoint hnonneg
  have hsum : 0 ≤ marginalProb M x :=
    Finset.sum_nonneg fun d hd => hnonneg d (Finset.mem_range.mp hd)
  have hslow : LeastMax (jointProb M x) (classify M x) := by
    rcases hsum.lt_or_eq with hpos | hzero
    · -- the quotients are ordered as the joint probabilities are
      refine LeastMax.of_div hpos (scan_leastMax ?_ ?_)
      · exact fun d hd => conditionalProbabilityDgX_eq hfits hd hpos.ne'
      · exact fun d hd => div_nonneg (hnonneg d hd) hsum
    · -- every joint probability is zero, and every quotient NaN
      have hall : ∀ d < 10, jointProb M x d = 0 := fun d hd =>
        (Finset.sum_eq_zero_iff_of_nonneg fun d hd => hnonneg d (Finset.mem_range.mp hd)).mp
          hzero.symm d (Finset.mem_range.mpr hd)
      have hfirst : classify M x = 0 := scan_nan fun d hd =>
        conditionalProbabilityDgX_nan hfits hd (hall d hd) hzero.symm
      rw [hfirst]
      refine ⟨by decide, fun d hd => ?_, fun d hd => absurd hd (Nat.not_lt_zero d)⟩
      rw [hall d hd, hall 0 (by decide)]
  exact ⟨hslow.unique hfast, _, hjoint, hslow⟩

/-- A model of two rows of three pixels, the first of which is never 1. The greater digits have
more ones in the second row and are drawn more often. -/
def slanted : Model where
  PXgD := fun d i j => (d * i + j : ℕ) / 16
  PD := fun d => (d + 1 : ℕ) / 55
  W := 3
  H := 2

theorem slanted_valid : slanted.Valid where
  prior := fun _ _ => div_nonneg (Nat.cast_nonneg _) (by norm_num)
  pixel := by
    intro d hd i hi j hj
    have hi' : i ≤ 1 := Nat.le_of_lt_succ hi
    have hj' : j ≤ 2 := Nat.le_of_lt_succ hj
    have hpixel : d * i + j ≤ 9 * 1 + 2 :=
      Nat.add_le_add (Nat.mul_le_mul (Nat.le_of_lt_succ hd) hi') hj'
    have hsixteenths : ((d * i + j : ℕ) : ℚ) ≤ 16 := by
      exact_mod_cast hpixel.trans (by norm_num)
    exact ⟨div_nonneg (Nat.cast_nonneg _) (by norm_num), div_le_one_of_le₀ hsixteenths (by norm_num)⟩

/-- The image of zeros, which is most likely a 3, and an image that cannot occur. -/
theorem classify_eq_fastClassify_slanted :
    (classify slanted [[0, 0, 0], [0, 0, 0]] = fastClassify slanted [[0, 0, 0], [0, 0, 0]] ∧
      fastClassify slanted [[0, 0, 0], [0, 0, 0]] = 3) ∧
    classify slanted [[1, 0, 0], [0, 1, 1]] = fastClassify slanted [[1, 0, 0], [0, 1, 1]] ∧
      marginalProbabilityX slanted [[1, 0, 0], [0, 1, 1]] = 0 :=
  ⟨⟨(classify_eq_fastClassify slanted_valid ⟨by decide, by decide⟩).1, by decide +kernel⟩,
    (classify_eq_fastClassify slanted_valid ⟨by decide, by decide⟩).1, by decide +kernel⟩

end Classify

end ProjectsInC.HandDigitRecognition
