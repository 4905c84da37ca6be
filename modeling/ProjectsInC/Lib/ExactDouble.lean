/-
Numbers of floating-point programs, without the rounding.

An [`ExactDouble`] is a rational number, an infinity or NaN, with the rules of IEEE 754 for the
special values and exact arithmetic for the rest; there is one zero, a positive one. On rational
numbers a loop that multiplies or adds computes the product or the sum
([`foldl_rat_mul`], [`foldl_rat_add`]).
-/
import Mathlib.Algebra.BigOperators.Ring.Finset
import Mathlib.Algebra.Order.Field.Rat
import Mathlib.Data.Sign.Basic

set_option autoImplicit false

namespace ProjectsInC.Lib

/-- A `double` without rounding. -/
inductive ExactDouble
  | rat (q : ℚ)
  | inf (negative : Bool)
  | nan
deriving DecidableEq, Repr

namespace ExactDouble

/-! ## Arithmetic -/

/-- The sign of a number. -/
def sign : ExactDouble → SignType
  | rat q => SignType.sign q
  | inf negative => if negative then -1 else 1
  | nan => 0

/-- The infinity of a sign; without a sign there is none. -/
def ofSign : SignType → ExactDouble
  | .zero => nan
  | .pos => inf false
  | .neg => inf true

/-- `x + y` -/
def add : ExactDouble → ExactDouble → ExactDouble
  | rat p, rat q => rat (p + q)
  | rat _, inf s => inf s
  | inf s, rat _ => inf s
  | inf s, inf t => if s = t then inf s else nan
  | nan, _ => nan
  | _, nan => nan

/-- `-x` -/
def neg : ExactDouble → ExactDouble
  | rat q => rat (-q)
  | inf s => inf (!s)
  | nan => nan

/-- `x * y` -/
def mul : ExactDouble → ExactDouble → ExactDouble
  | rat p, rat q => rat (p * q)
  | nan, _ => nan
  | _, nan => nan
  | x, y => ofSign (x.sign * y.sign)

/-- `x / y` -/
def div : ExactDouble → ExactDouble → ExactDouble
  | rat p, rat q => if q = 0 then ofSign (SignType.sign p) else rat (p / q)
  | rat _, inf _ => rat 0
  | inf s, rat q => if q = 0 then inf s else ofSign ((inf s).sign * SignType.sign q)
  | inf _, inf _ => nan
  | nan, _ => nan
  | _, nan => nan

/-- `x < y` -/
def lt : ExactDouble → ExactDouble → Bool
  | rat p, rat q => p < q
  | rat _, inf s => !s
  | inf s, rat _ => s
  | inf s, inf t => s && !t
  | nan, _ => false
  | _, nan => false

instance : Zero ExactDouble := ⟨rat 0⟩
instance : One ExactDouble := ⟨rat 1⟩
instance : Add ExactDouble := ⟨add⟩
instance : Neg ExactDouble := ⟨neg⟩
instance : Sub ExactDouble := ⟨fun x y => x + -y⟩
instance : Mul ExactDouble := ⟨mul⟩
instance : Div ExactDouble := ⟨div⟩
instance : LT ExactDouble := ⟨fun x y => lt x y = true⟩
instance (x y : ExactDouble) : Decidable (x < y) := inferInstanceAs (Decidable (lt x y = true))

theorem zero_eq : (0 : ExactDouble) = rat 0 := rfl

theorem one_eq : (1 : ExactDouble) = rat 1 := rfl

@[simp] theorem rat_add_rat (p q : ℚ) : rat p + rat q = rat (p + q) := rfl

@[simp] theorem rat_sub_rat (p q : ℚ) : rat p - rat q = rat (p - q) := by
  rw [sub_eq_add_neg]
  rfl

@[simp] theorem rat_mul_rat (p q : ℚ) : rat p * rat q = rat (p * q) := rfl

theorem rat_div_rat (p : ℚ) {q : ℚ} (hq : q ≠ 0) : rat p / rat q = rat (p / q) := if_neg hq

/-- `0.0 / 0.0` -/
theorem zero_div_zero : rat 0 / rat 0 = nan := by decide +kernel

@[simp] theorem rat_lt_rat {p q : ℚ} : rat p < rat q ↔ p < q := decide_eq_true_iff

/-- A comparison with NaN is false. -/
@[simp] theorem not_lt_nan (x : ExactDouble) : ¬ x < nan := by
  cases x <;> exact Bool.false_ne_true

/-! ## Sums and products -/

/-- Additions may be made in any order. -/
instance : AddCommMonoid ExactDouble where
  add_assoc := by
    rintro (p | s | -) (q | t | -) (r | u | -)
    case rat.rat.rat => exact congrArg rat (add_assoc p q r)
    case inf.inf.inf => cases s <;> cases t <;> cases u <;> rfl
    case rat.inf.inf => cases t <;> cases u <;> rfl
    case inf.inf.rat => cases s <;> cases t <;> rfl
    case inf.rat.inf => cases s <;> cases u <;> rfl
    case inf.inf.nan => cases s <;> cases t <;> rfl
    all_goals rfl
  add_comm := by
    rintro (p | s | -) (q | t | -)
    case rat.rat => exact congrArg rat (add_comm p q)
    case inf.inf => cases s <;> cases t <;> rfl
    all_goals rfl
  zero_add := by
    rintro (p | s | -)
    case rat => exact congrArg rat (zero_add p)
    all_goals rfl
  add_zero := by
    rintro (p | s | -)
    case rat => exact congrArg rat (add_zero p)
    all_goals rfl
  nsmul := nsmulRec

/-- The sum of rational numbers. -/
theorem sum_rat {ι : Type*} (s : Finset ι) (g : ι → ℚ) :
    ∑ i ∈ s, rat (g i) = rat (∑ i ∈ s, g i) := by
  classical
  induction s using Finset.induction_on with
  | empty => rfl
  | insert i s hi ih => rw [Finset.sum_insert hi, Finset.sum_insert hi, ih, rat_add_rat]

section Loops

variable {step : ExactDouble → ℕ → ExactDouble} {g : ℕ → ℚ} {n : ℕ}

/-- A loop that multiplies. -/
theorem foldl_rat_mul (hstep : ∀ i < n, ∀ t, step (rat t) i = rat (t * g i)) (t : ℚ) :
    (List.range n).foldl step (rat t) = rat (t * ∏ i ∈ Finset.range n, g i) := by
  induction n with
  | zero => rw [Finset.prod_range_zero, mul_one]; rfl
  | succ n ih =>
      rw [List.range_succ, List.foldl_append, ih (fun i hi => hstep i (Nat.lt_succ_of_lt hi)),
        List.foldl_cons, List.foldl_nil, hstep n (Nat.lt_succ_self n), Finset.prod_range_succ,
        mul_assoc]

/-- A loop that adds. -/
theorem foldl_rat_add (hstep : ∀ i < n, ∀ t, step (rat t) i = rat (t + g i)) (t : ℚ) :
    (List.range n).foldl step (rat t) = rat (t + ∑ i ∈ Finset.range n, g i) := by
  induction n with
  | zero => rw [Finset.sum_range_zero, add_zero]; rfl
  | succ n ih =>
      rw [List.range_succ, List.foldl_append, ih (fun i hi => hstep i (Nat.lt_succ_of_lt hi)),
        List.foldl_cons, List.foldl_nil, hstep n (Nat.lt_succ_self n), Finset.sum_range_succ,
        add_assoc]

end Loops

end ExactDouble

end ProjectsInC.Lib
