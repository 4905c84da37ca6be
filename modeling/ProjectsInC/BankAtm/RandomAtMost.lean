/-
`random_at_most` of `twriter.c` prefers none of its results.

The loop accepts the values of `rand()` below the greatest multiple of `max + 1` that is at most
`RAND_MAX + 1`, and the quotient by the bin size cuts these into `max + 1` blocks of one length
([`blocks`]); so each result comes from the same number of values ([`random_at_most_unbiased`]).
-/
import Mathlib.Data.Finset.Card
import Mathlib.Order.Interval.Finset.Nat
import ProjectsInC.BankAtm.Twriter

set_option autoImplicit false

namespace ProjectsInC.BankAtm

/-! ## Blocks of one length -/

/-- The numbers whose quotient by `b` is `r` are a block of `b` numbers. -/
theorem blocks {b n r : ℕ} (hb : 0 < b) (hr : r < n) :
    (Finset.range (n * b)).filter (fun x => x / b = r) = Finset.Ico (r * b) (r * b + b) := by
  ext x
  rw [Finset.mem_filter, Finset.mem_range, Finset.mem_Ico, Nat.div_eq_iff hb]
  constructor
  · rintro ⟨-, hlow, hhigh⟩
    omega
  · rintro ⟨hlow, hhigh⟩
    have hend : (r + 1) * b ≤ n * b := Nat.mul_le_mul_right b hr
    rw [Nat.succ_mul] at hend
    omega

/-! ## The variables of `random_at_most` -/

/-- `num_bins` -/
def num_bins (max : ℤ) : ℕ := (ulong max + 1) % 2 ^ 64

/-- `num_rand` -/
def num_rand (RAND_MAX : ℕ) : ℕ := (RAND_MAX + 1) % 2 ^ 64

/-- `bin_size` -/
def bin_size (RAND_MAX : ℕ) (max : ℤ) : ℕ := num_rand RAND_MAX / num_bins max

/-- `defect` -/
def defect (RAND_MAX : ℕ) (max : ℤ) : ℕ := num_rand RAND_MAX % num_bins max

section Range

variable {RAND_MAX max : ℕ}

/-- The comment in the source: `max + 1` and `RAND_MAX + 1` do not wrap around. -/
theorem num_bins_eq (hrand : RAND_MAX + 1 < 2 ^ 64) (hmax : max ≤ RAND_MAX) :
    num_bins max = max + 1 := by
  rw [num_bins, ulong]
  omega

theorem num_rand_eq (hrand : RAND_MAX + 1 < 2 ^ 64) : num_rand RAND_MAX = RAND_MAX + 1 :=
  Nat.mod_eq_of_lt hrand

theorem bin_size_eq (hrand : RAND_MAX + 1 < 2 ^ 64) (hmax : max ≤ RAND_MAX) :
    bin_size RAND_MAX max = (RAND_MAX + 1) / (max + 1) := by
  rw [bin_size, num_rand_eq hrand, num_bins_eq hrand hmax]

theorem bin_size_pos (hrand : RAND_MAX + 1 < 2 ^ 64) (hmax : max ≤ RAND_MAX) :
    0 < bin_size RAND_MAX max := by
  rw [bin_size_eq hrand hmax]
  exact Nat.div_pos (Nat.succ_le_succ hmax) (Nat.succ_pos max)

/-- The loop stops at a multiple of the number of bins. -/
theorem limit_eq (hrand : RAND_MAX + 1 < 2 ^ 64) (hmax : max ≤ RAND_MAX) :
    num_rand RAND_MAX - defect RAND_MAX max = (max + 1) * bin_size RAND_MAX max := by
  have hdiv := Nat.div_add_mod (RAND_MAX + 1) (max + 1)
  rw [bin_size_eq hrand hmax, defect, num_rand_eq hrand, num_bins_eq hrand hmax]
  omega

/-- One value of `rand()`. -/
theorem random_at_most_cons (hrand : RAND_MAX + 1 < 2 ^ 64) (hmax : max ≤ RAND_MAX) (x : ℕ)
    (rands : List ℕ) :
    random_at_most RAND_MAX max (x :: rands)
      = if x < (max + 1) * bin_size RAND_MAX max
        then some (BitVec.ofNat 32 (x / bin_size RAND_MAX max), rands)
        else random_at_most RAND_MAX max rands := by
  have hlimit := limit_eq hrand hmax
  have hunfold (rands : List ℕ) : random_at_most RAND_MAX max rands
      = (rejectAbove (num_rand RAND_MAX - defect RAND_MAX max) rands).map
        (fun r => (BitVec.ofNat 32 (r.1 / bin_size RAND_MAX max), r.2)) := rfl
  rw [hunfold, hunfold, hlimit, rejectAbove]
  rcases Nat.lt_or_ge x ((max + 1) * bin_size RAND_MAX max) with haccept | hreject
  · rw [if_neg (not_le.mpr haccept), if_pos haccept, Option.map_some]
  · rw [if_pos hreject, if_neg (not_lt.mpr hreject)]

/-- The accepted values that are mapped to `r`. -/
theorem card_preimages (hrand : RAND_MAX + 1 < 2 ^ 64) (hmax : max ≤ RAND_MAX) {r : ℕ}
    (hr : r ≤ max) :
    ((Finset.range (RAND_MAX + 1)).filter (fun x => x < (max + 1) * bin_size RAND_MAX max ∧
      x / bin_size RAND_MAX max = r)).card = bin_size RAND_MAX max := by
  have hlimit : (max + 1) * bin_size RAND_MAX max ≤ RAND_MAX + 1 := by
    rw [bin_size_eq hrand hmax]
    exact Nat.mul_div_le _ _
  have haccepted : (Finset.range (RAND_MAX + 1)).filter
      (fun x => x < (max + 1) * bin_size RAND_MAX max ∧ x / bin_size RAND_MAX max = r)
      = (Finset.range ((max + 1) * bin_size RAND_MAX max)).filter
        (fun x => x / bin_size RAND_MAX max = r) := by
    ext x
    simp only [Finset.mem_filter, Finset.mem_range]
    constructor
    · rintro ⟨-, hx⟩
      exact hx
    · rintro ⟨hx, hquot⟩
      exact ⟨hx.trans_le hlimit, hx, hquot⟩
  -- of the values below the limit one block is mapped to `r`
  rw [haccepted, blocks (bin_size_pos hrand hmax) (Nat.lt_succ_of_le hr), Nat.card_Ico,
    Nat.add_sub_cancel_left]

/-- What a single value of `rand()`, an `int`, gives. -/
theorem random_at_most_singleton_iff (hrand : RAND_MAX < 2 ^ 31) (hmax : max ≤ RAND_MAX) {x : ℕ}
    (hx : x ≤ RAND_MAX) {r : CInt} (hr : 0 ≤ r.toInt) :
    random_at_most RAND_MAX max [x] = some (r, []) ↔
      x < (max + 1) * bin_size RAND_MAX max ∧ x / bin_size RAND_MAX max = r.toInt.toNat := by
  -- no two quotients become the same `int`
  have hquot : x / bin_size RAND_MAX max < 2 ^ 31 :=
    (Nat.div_le_self _ _).trans_lt (hx.trans_lt hrand)
  have hint := toInt_ofNat_of_lt hquot
  rw [random_at_most_cons (by omega) hmax]
  rcases Nat.lt_or_ge x ((max + 1) * bin_size RAND_MAX max) with haccept | hreject
  · rw [if_pos haccept, Option.some.injEq, Prod.mk.injEq, and_iff_left rfl, and_iff_right haccept]
    constructor
    · rintro rfl
      rw [hint, Int.toNat_natCast]
    · intro h
      apply BitVec.eq_of_toInt_eq
      rw [hint, h, Int.toNat_of_nonneg hr]
  · rw [if_neg (not_lt.mpr hreject)]
    constructor
    · intro h
      cases h
    · rintro ⟨haccept, -⟩
      exact absurd haccept (not_lt.mpr hreject)

end Range

/-! ## The numbers drawn are unbiased -/

/-- What is to be said of a draw: `rand()` gives the numbers up to `RAND_MAX`. -/
structure Unbiased (RAND_MAX max : ℕ) : Prop where
  /-- The loop goes on exactly for the values from `(max + 1) * ((RAND_MAX + 1) / (max + 1))` on. -/
  accepts : ∀ (x : ℕ) (rands : List ℕ), random_at_most RAND_MAX max (x :: rands)
    = if x < (max + 1) * ((RAND_MAX + 1) / (max + 1))
      then some (BitVec.ofNat 32 (x / bin_size RAND_MAX max), rands)
      else random_at_most RAND_MAX max rands
  /-- The quotient of an accepted value is in the range. -/
  range : ∀ x : ℕ, x < (max + 1) * ((RAND_MAX + 1) / (max + 1)) → x / bin_size RAND_MAX max ≤ max
  /-- The quotients of an `int` are not changed by the conversion to `int`. -/
  result : ∀ x : ℕ, x < 2 ^ 31 →
    (BitVec.ofNat 32 (x / bin_size RAND_MAX max)).toInt = (x / bin_size RAND_MAX max : ℕ)
  /-- Every quotient in the range has the same number of accepted values. -/
  preimages : ∀ r ≤ max, ((Finset.range (RAND_MAX + 1)).filter (fun x =>
    x < (max + 1) * ((RAND_MAX + 1) / (max + 1)) ∧ x / bin_size RAND_MAX max = r)).card
    = (RAND_MAX + 1) / (max + 1)
  /-- And so has every result, where the values of `rand()` are `int`s. -/
  results : RAND_MAX < 2 ^ 31 → ∀ r : CInt, 0 ≤ r.toInt → r.toInt ≤ max →
    ((Finset.range (RAND_MAX + 1)).filter
      (fun x => random_at_most RAND_MAX max [x] = some (r, []))).card
    = (RAND_MAX + 1) / (max + 1)
  /-- The sums do not wrap around. -/
  sums : num_bins max = max + 1 ∧ num_rand RAND_MAX = RAND_MAX + 1
  /-- Neither does the difference. -/
  difference : defect RAND_MAX max ≤ num_rand RAND_MAX
  /-- Nothing is divided by zero. -/
  divisors : num_bins max ≠ 0 ∧ bin_size RAND_MAX max ≠ 0

/-- **`random_at_most`** is unbiased and in its range, for every `RAND_MAX` that an
`unsigned long` can count to and every `max` up to it. -/
theorem random_at_most_unbiased {RAND_MAX max : ℕ} (hrand : RAND_MAX + 1 < 2 ^ 64)
    (hmax : max ≤ RAND_MAX) : Unbiased RAND_MAX max := by
  have hbin := bin_size_eq hrand hmax
  have hpos := bin_size_pos hrand hmax
  have hbins := num_bins_eq hrand hmax
  refine ⟨?_, ?_, ?_, ?_, ?_, ⟨hbins, num_rand_eq hrand⟩, Nat.mod_le _ _, ?_, ne_of_gt hpos⟩
  · intro x rands
    rw [← hbin]
    exact random_at_most_cons hrand hmax x rands
  · intro x hx
    rw [← hbin] at hx
    exact Nat.lt_succ_iff.mp (Nat.div_lt_of_lt_mul (by rwa [Nat.mul_comm]))
  · intro x hx
    exact toInt_ofNat_of_lt ((Nat.div_le_self _ _).trans_lt hx)
  · intro r hr
    rw [← hbin]
    exact card_preimages hrand hmax hr
  · intro hint r hlow hhigh
    have hr : r.toInt.toNat ≤ max := by omega
    have hsame : (Finset.range (RAND_MAX + 1)).filter
        (fun x => random_at_most RAND_MAX max [x] = some (r, []))
        = (Finset.range (RAND_MAX + 1)).filter (fun x =>
          x < (max + 1) * bin_size RAND_MAX max ∧ x / bin_size RAND_MAX max = r.toInt.toNat) := by
      apply Finset.filter_congr
      intro x hx
      exact random_at_most_singleton_iff hint hmax (Nat.lt_succ_iff.mp (Finset.mem_range.mp hx)) hlow
    rw [hsame, card_preimages hrand hmax hr, hbin]
  · rw [hbins]
    exact Nat.succ_ne_zero max

/-- The amounts of `twriter` where `RAND_MAX` is the least the standard allows. -/
theorem random_at_most_unbiased_amount : Unbiased 32767 200 :=
  random_at_most_unbiased (by decide) (by decide)

end ProjectsInC.BankAtm
