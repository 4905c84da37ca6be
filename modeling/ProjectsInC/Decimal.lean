/-
`%d`: the decimal form of an `int` in `printf` and `scanf`.

The text of a number is its digits behind an optional minus sign. `scanf` skips
white space, takes a sign and the longest run of digits, and leaves what follows;
so a printed number is read back if no digit follows it ([`scanInt_intText`]). What
it stores for a number too wide for an `int` the C standard leaves open; here and wherever
a file is scanned that is the parameter `wide`.
-/
import Mathlib.Data.Nat.Digits.Lemmas
import ProjectsInC.Machine

set_option autoImplicit false

namespace ProjectsInC

/-! ## Printing -/

/-- The digit characters of a natural number, most significant first. -/
def natText (n : ℕ) : List Byte :=
  if n = 0 then [48] else ((Nat.digits 10 n).reverse).map (fun d => BitVec.ofNat 8 (48 + d))

/-- What `%d` prints. -/
def intText (x : CInt) : List Byte :=
  if x.toInt < 0 then 45 :: natText x.toInt.natAbs else natText x.toInt.natAbs

/-! ## Scanning -/

/-- `isspace` -/
def isSpace (b : Byte) : Bool := b = 32 || (9 ≤ b.toNat && b.toNat ≤ 13)

/-- `isdigit` -/
def isDigit (b : Byte) : Bool := 48 ≤ b.toNat && b.toNat ≤ 57

/-- The number a run of digit characters stands for. -/
def digitsValue (ds : List Byte) : ℕ := ds.foldl (fun acc d => 10 * acc + (d.toNat - 48)) 0

/-- The digits of a `%d` conversion; `none` if there are none. -/
def scanNat (s : List Byte) : Option (ℕ × List Byte) :=
  if s.takeWhile isDigit = [] then none
  else some (digitsValue (s.takeWhile isDigit), s.dropWhile isDigit)

/-- What `%d` stores for a number. -/
def storeInt (wide : ℤ → CInt) (n : ℤ) : CInt :=
  if -2 ^ 31 ≤ n ∧ n < 2 ^ 31 then BitVec.ofInt 32 n else wide n

/-- What `%d` reads; `none` if the conversion fails. -/
def scanInt (wide : ℤ → CInt) (s : List Byte) : Option (CInt × List Byte) :=
  match s.dropWhile isSpace with
  | [] => none
  | b :: rest =>
      if b = 45 then (scanNat rest).map (fun r => (storeInt wide (-r.1), r.2))
      else if b = 43 then (scanNat rest).map (fun r => (storeInt wide r.1, r.2))
      else (scanNat (b :: rest)).map (fun r => (storeInt wide r.1, r.2))

/-- A library that converts to 64 bits, where larger numbers are cut off at both ends, and
stores the low half. -/
def saturate (n : ℤ) : CInt := BitVec.ofInt 32 (max (-2 ^ 63) (min n (2 ^ 63 - 1)))

variable {wide : ℤ → CInt}

/-! ## Reading back -/

/-- What follows a number so that it ends there. -/
def NoDigit (s : List Byte) : Prop := ∀ b ∈ s.head?, isDigit b = false

theorem digit_byte {d : ℕ} (hd : d < 10) : (BitVec.ofNat 8 (48 + d) : Byte).toNat = 48 + d := by
  rw [BitVec.toNat_ofNat]
  omega

theorem natText_digits (n : ℕ) : ∀ b ∈ natText n, isDigit b = true := by
  intro b hb
  rw [natText] at hb
  split_ifs at hb with h0
  · rw [List.mem_singleton.mp hb]
    decide
  · obtain ⟨d, hd, rfl⟩ := List.mem_map.mp hb
    have hlt := Nat.digits_lt_base (by omega : 1 < 10) (List.mem_reverse.mp hd)
    simp only [isDigit, digit_byte hlt, Bool.and_eq_true, decide_eq_true_eq]
    omega

theorem natText_ne_nil (n : ℕ) : natText n ≠ [] := by
  rw [natText]
  split_ifs with h0
  · exact List.cons_ne_nil _ _
  · intro hnil
    rw [List.map_eq_nil_iff, List.reverse_eq_nil_iff] at hnil
    exact Nat.digits_ne_nil_iff_ne_zero.mpr h0 hnil

/-- The digits of a number have its value. -/
theorem digitsValue_natText (n : ℕ) : digitsValue (natText n) = n := by
  rw [natText]
  split_ifs with h0
  · rw [h0]
    decide
  · -- `Nat.digits` has the least significant digit first, the text has it last
    have hfold : ∀ l : List ℕ, (∀ d ∈ l, d < 10) →
        digitsValue (l.reverse.map (fun d => BitVec.ofNat 8 (48 + d))) = Nat.ofDigits 10 l := by
      intro l hl
      induction l with
      | nil => rfl
      | cons d l ih =>
          have hrest := ih (fun d' hd' => hl d' (List.mem_cons_of_mem d hd'))
          rw [digitsValue] at hrest ⊢
          rw [List.reverse_cons, List.map_append, List.foldl_append, hrest, List.map_singleton,
            List.foldl_cons, List.foldl_nil, digit_byte (hl d List.mem_cons_self), Nat.ofDigits_cons]
          rw [Nat.add_sub_cancel_left, Nat.add_comm]
    rw [hfold _ (fun d hd => Nat.digits_lt_base (by omega) hd), Nat.ofDigits_digits]

theorem scanNat_natText (n : ℕ) {rest : List Byte} (hrest : NoDigit rest) :
    scanNat (natText n ++ rest) = some (n, rest) := by
  have hrest' : rest.takeWhile isDigit = [] ∧ rest.dropWhile isDigit = rest := by
    cases rest with
    | nil => exact ⟨rfl, rfl⟩
    | cons b rest =>
        have hb : isDigit b = false := hrest b rfl
        exact ⟨List.takeWhile_cons_of_neg (by simp [hb]), List.dropWhile_cons_of_neg (by simp [hb])⟩
  have htake : (natText n ++ rest).takeWhile isDigit = natText n := by
    rw [List.takeWhile_append_of_pos (natText_digits n), hrest'.1, List.append_nil]
  have hdrop : (natText n ++ rest).dropWhile isDigit = rest := by
    rw [List.dropWhile_append_of_pos (natText_digits n), hrest'.2]
  rw [scanNat, htake, hdrop, if_neg (natText_ne_nil n), digitsValue_natText]

/-- A digit is neither white space nor a sign. -/
theorem isDigit_spec : ∀ b : Byte, isDigit b = true → isSpace b = false ∧ b ≠ 45 ∧ b ≠ 43 := by
  decide

theorem storeInt_toInt (x : CInt) : storeInt wide x.toInt = x := by
  rw [storeInt, if_pos (toInt_bounds x), BitVec.ofInt_toInt]

/-- **A printed number is read back**, white space before it or not. -/
theorem scanInt_intText (x : CInt) {rest : List Byte} (hrest : NoDigit rest) :
    scanInt wide (intText x ++ rest) = some (x, rest) := by
  have habs : (x.toInt.natAbs : ℤ) = |x.toInt| := Int.natCast_natAbs _
  rw [intText]
  by_cases hneg : x.toInt < 0
  · -- this includes the least `int`, whose absolute value is none
    have hx : -(x.toInt.natAbs : ℤ) = x.toInt := by omega
    rw [if_pos hneg, scanInt, List.cons_append, List.dropWhile_cons_of_neg (by decide)]
    simp only [if_true, scanNat_natText _ hrest, Option.map_some, hx, storeInt_toInt]
  · have hx : (x.toInt.natAbs : ℤ) = x.toInt := by omega
    rw [if_neg hneg]
    obtain ⟨b, ds, hds⟩ := List.exists_cons_of_ne_nil (natText_ne_nil x.toInt.natAbs)
    have hb := isDigit_spec b (natText_digits x.toInt.natAbs b (hds ▸ List.mem_cons_self))
    have hscan := scanNat_natText x.toInt.natAbs hrest
    rw [hds, List.cons_append] at hscan ⊢
    rw [scanInt, List.dropWhile_cons_of_neg (by simp [hb.1])]
    simp only [hb.2.1, hb.2.2, if_false, hscan, Option.map_some, hx, storeInt_toInt]

theorem scanInt_space_intText (x : CInt) {rest : List Byte} (hrest : NoDigit rest) :
    scanInt wide (32 :: (intText x ++ rest)) = some (x, rest) := by
  rw [← scanInt_intText x hrest, scanInt, scanInt, List.dropWhile_cons_of_pos (by decide)]

/-- An `int` has at most eleven characters. -/
theorem length_intText_le (x : CInt) : (intText x).length ≤ 11 := by
  have hbounds := toInt_bounds x
  have hnat : (natText x.toInt.natAbs).length ≤ 10 := by
    rw [natText]
    split_ifs with h0
    · decide
    · rw [List.length_map, List.length_reverse, Nat.digits_length_le_iff (by omega)]
      omega
  rw [intText]
  split_ifs
  · rw [List.length_cons]
    omega
  · omega

theorem scanNat_shorter {s rest : List Byte} {n : ℕ} (h : scanNat s = some (n, rest)) :
    rest.length < s.length := by
  unfold scanNat at h
  split_ifs at h with hnone
  obtain ⟨-, rfl⟩ := Prod.mk.inj (Option.some.inj h)
  have hlen := congrArg List.length (List.takeWhile_append_dropWhile (p := isDigit) (l := s))
  have hpos := List.length_pos_iff.mpr hnone
  rw [List.length_append] at hlen
  omega

/-- A number takes a byte at least. -/
theorem scanInt_shorter {s rest : List Byte} {x : CInt} (h : scanInt wide s = some (x, rest)) :
    rest.length < s.length := by
  have hskip : (s.dropWhile isSpace).length ≤ s.length := (List.dropWhile_suffix isSpace).length_le
  unfold scanInt at h
  cases hs : s.dropWhile isSpace with
  | nil =>
      rw [hs] at h
      cases h
  | cons b tail =>
      rw [hs] at h hskip
      have hcons : (b :: tail).length = tail.length + 1 := rfl
      simp only at h
      split_ifs at h
      all_goals
        obtain ⟨⟨n, left⟩, hscan, heq⟩ := Option.map_eq_some_iff.mp h
        obtain ⟨-, rfl⟩ := Prod.mk.inj heq
        have hshort : left.length < _ := scanNat_shorter hscan
        change left.length < s.length
        omega

end ProjectsInC
