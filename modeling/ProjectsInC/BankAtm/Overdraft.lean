/-
When can a balance be negative?

WITHDRAW and TRANSFER compare the balance with the amount before they subtract,
DEPOSIT compares nothing, and the amount is whatever four bytes the message
holds. So a negative DEPOSIT takes money out unchecked, and an amount near
either end of `int` can carry a balance over the top. [`Fits`] lists what one
command must satisfy, in terms of the balances before it; the theorem at the
end says that a run keeps every balance non-negative exactly when each of its
commands does.
-/
import ProjectsInC.BankAtm.Ledger

set_option autoImplicit false

namespace ProjectsInC.BankAtm

open Status

/-- Every account of the array, read as an `int`, is non-negative. -/
def NoOverdraft (b : Bank) : Prop :=
  ∀ k : ℕ, (k : ℤ) < b.account_count.toInt → 0 ≤ (b.accounts k).toInt

/-- The balance of account `i`, as an integer. -/
abbrev Bank.balance (b : Bank) (i : CInt) : ℤ := (b.accounts i.toNat).toInt

/-- What a command must satisfy for its additions and subtractions to stay in
`[0, 2^31)`. The funds check covers the lower end of a subtraction; what it
leaves open is the upper end, and both ends of an addition. -/
structure Fits (b : Bank) (m : Fields) : Prop where
  deposit : b.ValidAtm m.i → m.c = DEPOSIT → b.ValidAccount m.t →
    -b.balance m.t ≤ m.a.toInt ∧ m.a.toInt < 2 ^ 31 - b.balance m.t
  withdraw : b.ValidAtm m.i → m.c = WITHDRAW → b.ValidAccount m.f →
    m.a.toInt ≤ b.balance m.f → b.balance m.f - 2 ^ 31 < m.a.toInt
  transfer : b.ValidAtm m.i → m.c = TRANSFER → b.ValidAccount m.f → b.ValidAccount m.t →
    m.f ≠ m.t → m.a.toInt ≤ b.balance m.f →
    b.balance m.f - 2 ^ 31 < m.a.toInt ∧
      -b.balance m.t ≤ m.a.toInt ∧ m.a.toInt < 2 ^ 31 - b.balance m.t

/-! ## One addition, one subtraction -/

/-- Adding to a non-negative `int` gives a non-negative `int` exactly when the
exact sum is one: below zero it stays negative, from `2^31` on it wraps. -/
theorem add_nonneg_iff {x a : CInt} (hx : 0 ≤ x.toInt) :
    0 ≤ (x + a).toInt ↔ -x.toInt ≤ a.toInt ∧ a.toInt < 2 ^ 31 - x.toInt := by
  have hxb := toInt_bounds x
  have hab := toInt_bounds a
  rw [BitVec.toInt_add, Int.bmod]
  norm_num at *
  split_ifs <;> omega

/-- Subtracting no more than what is there wraps only past the upper end. -/
theorem sub_nonneg_iff {x a : CInt} (hx : 0 ≤ x.toInt) (ha : a.toInt ≤ x.toInt) :
    0 ≤ (x - a).toInt ↔ x.toInt - 2 ^ 31 < a.toInt := by
  have hxb := toInt_bounds x
  have hab := toInt_bounds a
  rw [BitVec.toInt_sub, Int.bmod]
  norm_num at *
  split_ifs <;> omega

/-! ## One command -/

/-- A post-state differs from the bank before it at the slots with an entry
only, so only those need looking at. -/
theorem noOverdraft_post_iff {b : Bank} {m : Fields} (hb : NoOverdraft b)
    (hok : answer b m = OK) :
    NoOverdraft (b.post m) ↔
      ∀ k : ℕ, (k : ℤ) < b.account_count.toInt → entry m k ≠ 0 →
        0 ≤ (b.accounts k + entry m k).toInt := by
  unfold NoOverdraft
  rw [post_account_count]
  simp only [post_accounts, if_pos hok]
  constructor
  · intro h k hk _
    exact h k hk
  · intro h k hk
    by_cases hz : entry m k = 0
    · rw [hz, add_zero]; exact hb k hk
    · exact h k hk hz

/-- An account field that passed the check is an index of the array. -/
theorem validAccount_index {b : Bank} {i : CInt} (h : b.ValidAccount i) :
    (i.toNat : ℤ) < b.account_count.toInt := by
  rw [← toInt_eq_toNat_of_nonneg h.1]; exact h.2

theorem balance_nonneg {b : Bank} {i : CInt} (hb : NoOverdraft b) (h : b.ValidAccount i) :
    0 ≤ b.balance i := hb _ (validAccount_index h)

theorem noOverdraft_deposit {b : Bank} {m : Fields} (hb : NoOverdraft b)
    (hc : m.c = DEPOSIT) (ht : b.ValidAccount m.t) :
    NoOverdraft (b.post m) ↔
      -b.balance m.t ≤ m.a.toInt ∧ m.a.toInt < 2 ^ 31 - b.balance m.t := by
  have hok : answer b m = OK := by rw [answer_deposit hc, if_pos ht]
  have hadd : 0 ≤ (b.accounts m.t.toNat + m.a).toInt ↔
      -b.balance m.t ≤ m.a.toInt ∧ m.a.toInt < 2 ^ 31 - b.balance m.t :=
    add_nonneg_iff (balance_nonneg hb ht)
  rw [noOverdraft_post_iff hb hok, ← hadd]
  simp only [entry_deposit hc]
  constructor
  · intro h
    by_cases hz : m.a = 0
    · rw [hz, add_zero]; exact balance_nonneg hb ht
    · simpa using h m.t.toNat (validAccount_index ht) (by simpa using hz)
  · intro h k _ hne
    by_cases hk : m.t.toNat = k
    · subst hk; simpa using h
    · simp [hk] at hne

theorem noOverdraft_withdraw {b : Bank} {m : Fields} (hb : NoOverdraft b)
    (hc : m.c = WITHDRAW) (hf : b.ValidAccount m.f) (hfunds : m.a.toInt ≤ b.balance m.f) :
    NoOverdraft (b.post m) ↔ b.balance m.f - 2 ^ 31 < m.a.toInt := by
  have hok : answer b m = OK := by rw [answer_withdraw hc, if_pos hf, if_pos hfunds]
  have hsub : 0 ≤ (b.accounts m.f.toNat - m.a).toInt ↔ b.balance m.f - 2 ^ 31 < m.a.toInt :=
    sub_nonneg_iff (balance_nonneg hb hf) hfunds
  rw [noOverdraft_post_iff hb hok, ← hsub]
  simp only [entry_withdraw hc]
  constructor
  · intro h
    by_cases hz : m.a = 0
    · rw [hz, sub_zero]; exact balance_nonneg hb hf
    · have := h m.f.toNat (validAccount_index hf) (by simpa using hz)
      simpa [sub_eq_add_neg] using this
  · intro h k _ hne
    by_cases hk : m.f.toNat = k
    · subst hk; simpa [sub_eq_add_neg] using h
    · simp [hk] at hne

/-- A transfer from an account to itself has no entry anywhere. -/
theorem noOverdraft_self_transfer {b : Bank} {m : Fields} (hb : NoOverdraft b)
    (hc : m.c = TRANSFER) (hft : m.f = m.t) : NoOverdraft (b.post m) := by
  have hentry : ∀ k, entry m k = 0 := fun k => by rw [entry_transfer hc, hft, sub_self]
  rw [post_of_no_entry hentry]
  exact hb

theorem noOverdraft_transfer {b : Bank} {m : Fields} (hb : NoOverdraft b)
    (hc : m.c = TRANSFER) (hf : b.ValidAccount m.f) (ht : b.ValidAccount m.t)
    (hft : m.f ≠ m.t) (hfunds : m.a.toInt ≤ b.balance m.f) :
    NoOverdraft (b.post m) ↔ b.balance m.f - 2 ^ 31 < m.a.toInt ∧
      -b.balance m.t ≤ m.a.toInt ∧ m.a.toInt < 2 ^ 31 - b.balance m.t := by
  have hok : answer b m = OK := by
    rw [answer_transfer hc, if_pos ⟨hf, ht⟩, if_pos hfunds]
  have hslots : m.f.toNat ≠ m.t.toNat := fun h => hft (BitVec.eq_of_toNat_eq h)
  have hsub : 0 ≤ (b.accounts m.f.toNat - m.a).toInt ↔ b.balance m.f - 2 ^ 31 < m.a.toInt :=
    sub_nonneg_iff (balance_nonneg hb hf) hfunds
  have hadd : 0 ≤ (b.accounts m.t.toNat + m.a).toInt ↔
      -b.balance m.t ≤ m.a.toInt ∧ m.a.toInt < 2 ^ 31 - b.balance m.t :=
    add_nonneg_iff (balance_nonneg hb ht)
  rw [noOverdraft_post_iff hb hok, ← hsub, ← hadd]
  simp only [entry_transfer hc]
  constructor
  · intro h
    by_cases hz : m.a = 0
    · rw [hz, sub_zero, add_zero]
      exact ⟨balance_nonneg hb hf, balance_nonneg hb ht⟩
    · have h1 := h m.f.toNat (validAccount_index hf) (by simpa [hslots.symm] using hz)
      have h2 := h m.t.toNat (validAccount_index ht) (by simpa [hslots] using hz)
      exact ⟨by simpa [hslots.symm, sub_eq_add_neg] using h1, by simpa [hslots] using h2⟩
  · rintro ⟨h1, h2⟩ k _ hne
    by_cases hkf : m.f.toNat = k
    · subst hkf; simpa [hslots.symm, sub_eq_add_neg] using h1
    · by_cases hkt : m.t.toNat = k
      · subst hkt; simpa [hslots] using h2
      · simp [hkf, hkt] at hne

/-! ## Which clause of `Fits` speaks -/

theorem fits_deposit_iff {b : Bank} {m : Fields} (hi : b.ValidAtm m.i) (hc : m.c = DEPOSIT)
    (ht : b.ValidAccount m.t) :
    Fits b m ↔ -b.balance m.t ≤ m.a.toInt ∧ m.a.toInt < 2 ^ 31 - b.balance m.t := by
  constructor
  · intro h
    exact h.deposit hi hc ht
  · intro h
    exact ⟨fun _ _ _ => h, fun _ hw => absurd (hc.symm.trans hw) money_codes_ne.1,
      fun _ hw => absurd (hc.symm.trans hw) money_codes_ne.2.1⟩

theorem fits_withdraw_iff {b : Bank} {m : Fields} (hi : b.ValidAtm m.i) (hc : m.c = WITHDRAW)
    (hf : b.ValidAccount m.f) (hfunds : m.a.toInt ≤ b.balance m.f) :
    Fits b m ↔ b.balance m.f - 2 ^ 31 < m.a.toInt := by
  constructor
  · intro h
    exact h.withdraw hi hc hf hfunds
  · intro h
    exact ⟨fun _ hd => absurd (hd.symm.trans hc) money_codes_ne.1, fun _ _ _ _ => h,
      fun _ ht => absurd (hc.symm.trans ht) money_codes_ne.2.2⟩

theorem fits_transfer_iff {b : Bank} {m : Fields} (hi : b.ValidAtm m.i) (hc : m.c = TRANSFER)
    (hf : b.ValidAccount m.f) (ht : b.ValidAccount m.t) (hfunds : m.a.toInt ≤ b.balance m.f) :
    Fits b m ↔ (m.f ≠ m.t → b.balance m.f - 2 ^ 31 < m.a.toInt ∧
      -b.balance m.t ≤ m.a.toInt ∧ m.a.toInt < 2 ^ 31 - b.balance m.t) := by
  constructor
  · intro h hft
    exact h.transfer hi hc hf ht hft hfunds
  · intro h
    exact ⟨fun _ hd => absurd (hd.symm.trans hc) money_codes_ne.2.1,
      fun _ hw => absurd (hw.symm.trans hc) money_codes_ne.2.2, fun _ _ _ _ hft _ => h hft⟩

/-- A command that is not accepted fits, whatever it is. -/
theorem fits_of_not_ok {b : Bank} {m : Fields} (h : answer b m ≠ OK) : Fits b m := by
  refine ⟨fun _ hc ht => ?_, fun _ hc hf hfunds => ?_, fun _ hc hf ht _ hfunds => ?_⟩
  · exact absurd (by rw [answer_deposit hc, if_pos ht]) h
  · exact absurd (by rw [answer_withdraw hc, if_pos hf]; exact if_pos hfunds) h
  · exact absurd (by rw [answer_transfer hc, if_pos ⟨hf, ht⟩]; exact if_pos hfunds) h

/-- An accepted command has passed its funds check. -/
theorem funds_of_ok {b : Bank} {m : Fields} (hok : answer b m = OK)
    (hc : m.c = WITHDRAW ∨ m.c = TRANSFER) : m.a.toInt ≤ b.balance m.f := by
  have hne : NOFUNDS ≠ OK := by decide
  have hknows : b.Knows m := (answer_eq_ok_iff (by rw [hok]; decide)).mp hok
  by_contra hno
  apply hne
  rw [← hok]
  rcases hc with hc | hc
  · rw [answer_withdraw hc, if_pos (hknows.2.1 hc)]
    exact (if_neg hno).symm
  · rw [answer_transfer hc, if_pos (hknows.2.2.1 hc)]
    exact (if_neg hno).symm

/-- From a bank without overdrafts, one command keeps it so exactly when it
[`Fits`]. -/
theorem noOverdraft_step_iff (env : Env) {b : Bank} (n : CInt) (cmd : Command)
    (hb : NoOverdraft b) :
    NoOverdraft (bank env b n cmd).bank ↔ Fits b (cmd_unpack cmd) := by
  rw [bank_bank]
  generalize cmd_unpack cmd = m
  by_cases hi : b.ValidAtm m.i
  swap
  · -- dropped: nothing is posted and every clause of `Fits` is vacuous
    rw [if_neg (fun h => hi h.1)]
    exact iff_of_true hb ⟨fun h => absurd h hi, fun h => absurd h hi, fun h => absurd h hi⟩
  by_cases hok : answer b m = OK
  swap
  · -- refused: again nothing is posted, and acceptance is what the clauses assume
    rw [answer_not_ok_post hok, ite_self]
    exact iff_of_true hb (fits_of_not_ok hok)
  have hknows : b.Knows m := (answer_eq_ok_iff (by rw [hok]; decide)).mp hok
  by_cases h1 : m.c = DEPOSIT
  · have ht := hknows.1 h1
    rw [if_pos ⟨hi, by rw [h1]; decide⟩, noOverdraft_deposit hb h1 ht, fits_deposit_iff hi h1 ht]
  by_cases h2 : m.c = WITHDRAW
  · have hf := hknows.2.1 h2
    have hfunds := funds_of_ok hok (.inl h2)
    rw [if_pos ⟨hi, by rw [h2]; decide⟩, noOverdraft_withdraw hb h2 hf hfunds,
      fits_withdraw_iff hi h2 hf hfunds]
  by_cases h3 : m.c = TRANSFER
  · obtain ⟨hf, ht⟩ := hknows.2.2.1 h3
    have hfunds := funds_of_ok hok (.inr h3)
    rw [if_pos ⟨hi, by rw [h3]; decide⟩, fits_transfer_iff hi h3 hf ht hfunds]
    by_cases hft : m.f = m.t
    · -- from an account to itself: the two entries cancel, and `Fits` asks for nothing
      exact iff_of_true (noOverdraft_self_transfer hb h3 hft) (fun hne => absurd hft hne)
    · rw [noOverdraft_transfer hb h3 hf ht hft hfunds]
      exact ⟨fun h _ => h, fun h => h hft⟩
  · -- a request without an entry
    rw [post_of_no_entry (entry_eq_zero ⟨h1, h2, h3⟩), ite_self]
    exact iff_of_true hb
      ⟨fun _ hc => absurd hc h1, fun _ hc => absurd hc h2, fun _ hc => absurd hc h3⟩

/-! ## Runs -/

theorem noOverdraft_open (garbage : ℕ → CInt) (n m : CInt) :
    NoOverdraft (bank_open garbage n m) := by
  intro k hk
  have hz : (bank_open garbage n m).accounts k = 0 := if_pos hk
  rw [hz]
  decide

/-- **The exact overdraft law.** In a run from `bank_open` every state reached
is free of overdrafts if and only if every command of the run [`Fits`] the
state it is served in. -/
theorem no_overdraft_iff (garbage : ℕ → CInt) (n m : CInt) (xs : List Input) :
    (∀ ys, ys <+: xs → NoOverdraft (bankRun (bank_open garbage n m) n ys)) ↔
      ∀ ys x, ys ++ [x] <+: xs →
        Fits (bankRun (bank_open garbage n m) n ys) (cmd_unpack x.cmd) := by
  constructor
  · intro h ys x hx
    have hbefore := h ys ((List.prefix_append ys [x]).trans hx)
    have hafter := h (ys ++ [x]) hx
    rw [bankRun_concat] at hafter
    exact (noOverdraft_step_iff _ _ _ hbefore).mp hafter
  · intro h ys
    -- the prefix grows by one command at the end, which is the order of the run
    induction ys using List.reverseRecOn with
    | nil => intro _; exact noOverdraft_open garbage n m
    | append_singleton ys x ih =>
        intro hx
        rw [bankRun_concat]
        exact (noOverdraft_step_iff _ _ _ (ih ((List.prefix_append ys [x]).trans hx))).mpr
          (h ys x hx)

/-- A DEPOSIT of `-5` into a fresh account leaves `-5` in it. -/
theorem overdraft_by_deposit :
    ¬ ∀ (garbage : ℕ → CInt) (n m : CInt) (xs : List Input),
        NoOverdraft (bankRun (bank_open garbage n m) n xs) := by
  intro h
  have h0 := h (fun _ => 0) 1 1 [⟨fun _ => 0, MSG_DEPOSIT 0 0 (-5)⟩] 0 (by decide)
  exact absurd h0 (by decide)

end ProjectsInC.BankAtm
