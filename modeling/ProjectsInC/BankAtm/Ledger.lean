/-
Runs of `bank`: the ledger law and the overdraft law.

A run is a list of commands served one after another from `bank_open`. Two
questions about it are settled here. The first is bookkeeping: the balances are
what the replies say they are. The second is whether a balance can be negative;
the funds check guards only the two commands that subtract, and [`Fits`] is the
exact condition on one command under which it is enough.
-/
import Mathlib.Algebra.BigOperators.Group.Finset.Piecewise
import ProjectsInC.BankAtm.Bank

set_option autoImplicit false

namespace ProjectsInC.BankAtm

open Status

/-! ## Runs -/

/-- One message of a run, with what lay beside the accounts array when it was
served. -/
structure Input where
  stray : CInt → CInt
  cmd : Command

/-- The call that serves one message, its reply written whole. -/
def Input.serve (x : Input) (b : Bank) (n : CInt) : Call := bank (Env.reliable x.stray) b n x.cmd

/-- The bank after a list of messages. -/
def bankRun (b : Bank) (n : CInt) : List Input → Bank
  | [] => b
  | x :: xs => bankRun (x.serve b n).bank (x.serve b n).atm_cnt xs

/-- The messages of a run, each with the code it was answered, if any. -/
def bankLog (b : Bank) (n : CInt) : List Input → List (Fields × Option Byte)
  | [] => []
  | x :: xs =>
      (cmd_unpack x.cmd, (x.serve b n).code) :: bankLog (x.serve b n).bank (x.serve b n).atm_cnt xs

/-- The counter `*atm_cnt` after a list of messages. -/
def bankCount (b : Bank) (n : CInt) : List Input → CInt
  | [] => n
  | x :: xs => bankCount (x.serve b n).bank (x.serve b n).atm_cnt xs

theorem bankRun_append (b : Bank) (n : CInt) (xs ys : List Input) :
    bankRun b n (xs ++ ys) = bankRun (bankRun b n xs) (bankCount b n xs) ys := by
  induction xs generalizing b n with
  | nil => rfl
  | cons x xs ih => simp only [List.cons_append, bankRun, bankCount, ih]

theorem bankRun_concat (b : Bank) (n : CInt) (xs : List Input) (x : Input) :
    bankRun b n (xs ++ [x]) = (x.serve (bankRun b n xs) (bankCount b n xs)).bank := by
  rw [bankRun_append]; rfl

theorem bankRun_account_count (b : Bank) (n : CInt) (xs : List Input) :
    (bankRun b n xs).account_count = b.account_count := by
  induction xs generalizing b n with
  | nil => rfl
  | cons x xs ih => rw [bankRun, ih]; exact bank_account_count _ _ _ _

/-! ## The ledger law -/

/-- The amounts of the accepted commands of a log that name account `k` on the
receiving side: DEPOSITs and TRANSFERs to it. -/
def credited (k : ℕ) (log : List (Fields × Option Byte)) : CInt :=
  ((log.filter (fun e => e.2 = some OK ∧ (e.1.c = DEPOSIT ∨ e.1.c = TRANSFER) ∧
    e.1.t.toInt = (k : ℤ))).map (fun e => e.1.a)).sum

/-- The amounts of the accepted commands of a log that name account `k` on the
paying side: WITHDRAWs and TRANSFERs from it. -/
def debited (k : ℕ) (log : List (Fields × Option Byte)) : CInt :=
  ((log.filter (fun e => e.2 = some OK ∧ (e.1.c = WITHDRAW ∨ e.1.c = TRANSFER) ∧
    e.1.f.toInt = (k : ℤ))).map (fun e => e.1.a)).sum

/-- Below `2^31` an `int` is an array index exactly when its bits are. -/
theorem toInt_eq_index_iff {x : CInt} {k : ℕ} (hk : k < 2 ^ 31) :
    x.toInt = (k : ℤ) ↔ x.toNat = k := by
  have h := BitVec.toInt_eq_toNat_cond x
  have hlt := x.isLt
  constructor
  · intro hx
    rw [toInt_eq_toNat_of_nonneg (by omega)] at hx
    exact_mod_cast hx
  · intro hx
    rw [h, if_pos (by omega), hx]

/-- What one accepted entry contributes is its credit minus its debit. -/
theorem entry_eq_credit_sub_debit {k : ℕ} (hk : k < 2 ^ 31) (m : Fields) :
    entry m k = credited k [(m, some OK)] - debited k [(m, some OK)] := by
  have hne := money_codes_ne
  simp only [credited, debited, toInt_eq_index_iff hk, entry]
  by_cases h1 : m.c = DEPOSIT
  · by_cases ht : m.t.toNat = k <;> simp [h1, ht, hne]
  by_cases h2 : m.c = WITHDRAW
  · by_cases hf : m.f.toNat = k <;> simp [h2, hf, hne, hne.1.symm]
  by_cases h3 : m.c = TRANSFER
  · by_cases ht : m.t.toNat = k <;> by_cases hf : m.f.toNat = k <;>
      simp [h3, ht, hf, hne.2.1.symm, hne.2.2.symm]
  · simp [h1, h2, h3]

theorem credited_cons (k : ℕ) (e : Fields × Option Byte) (log : List (Fields × Option Byte)) :
    credited k (e :: log) = credited k [e] + credited k log := by
  unfold credited
  rw [← List.singleton_append, List.filter_append, List.map_append, List.sum_append]

theorem debited_cons (k : ℕ) (e : Fields × Option Byte) (log : List (Fields × Option Byte)) :
    debited k (e :: log) = debited k [e] + debited k log := by
  unfold debited
  rw [← List.singleton_append, List.filter_append, List.map_append, List.sum_append]

/-- One call adds to each account what its log entry says. -/
theorem serve_accounts {k : ℕ} (hk : k < 2 ^ 31) (x : Input) (b : Bank) (n : CInt) :
    (x.serve b n).bank.accounts k
      = b.accounts k + (credited k [(cmd_unpack x.cmd, (x.serve b n).code)]
          - debited k [(cmd_unpack x.cmd, (x.serve b n).code)]) := by
  -- a message that was not answered OK is on neither side of the ledger
  have hzero : ∀ (m : Fields) (code : Option Byte), code ≠ some OK →
      credited k [(m, code)] - debited k [(m, code)] = 0 := by
    intro m code hcode
    simp [credited, debited, hcode]
  unfold Input.serve
  rw [bank_bank, bank_code]
  by_cases hs : b.ValidAtm (cmd_unpack x.cmd).i ∧ isRequest (cmd_unpack x.cmd).c = true
  · rw [if_pos hs, if_pos hs, post_accounts]
    by_cases hok : answer b (cmd_unpack x.cmd) = OK
    · rw [if_pos hok, hok, entry_eq_credit_sub_debit hk]
    · rw [if_neg hok, hzero _ _ (by simpa using hok)]
  · rw [if_neg hs, if_neg hs, hzero _ _ (by simp), add_zero]

/-- The ledger of a run, from any bank: a balance has grown by what was
credited and shrunk by what was debited. -/
theorem bankRun_accounts {k : ℕ} (hk : k < 2 ^ 31) (b : Bank) (n : CInt) (xs : List Input) :
    (bankRun b n xs).accounts k
      = b.accounts k + (credited k (bankLog b n xs) - debited k (bankLog b n xs)) := by
  induction xs generalizing b n with
  | nil => simp [bankRun, bankLog, credited, debited]
  | cons x xs ih =>
      rw [bankRun, ih, serve_accounts hk, bankLog, credited_cons k _ (bankLog _ _ _),
        debited_cons k _ (bankLog _ _ _)]
      ring

/-- The two sides of an accepted transfer cancel in the total. -/
theorem sum_entry_transfer {b : Bank} {m : Fields} (hc : m.c = TRANSFER) (hk : b.Knows m) :
    ∑ k ∈ Finset.range b.account_count.toInt.toNat, entry m k = 0 := by
  have hmem : ∀ i : CInt, b.ValidAccount i →
      i.toNat ∈ Finset.range b.account_count.toInt.toNat := by
    intro i hi
    have := toInt_eq_toNat_of_nonneg hi.1
    rw [Finset.mem_range]
    have := hi.2
    omega
  obtain ⟨hf, ht⟩ := hk.2.2.1 hc
  simp only [entry_transfer hc, Finset.sum_sub_distrib, Finset.sum_ite_eq, hmem _ ht, hmem _ hf,
    if_true, sub_self]

/-- A transfer keeps the total of the accounts, accepted or not. -/
theorem total_transfer (env : Env) (b : Bank) (n : CInt) (cmd : Command)
    (hc : (cmd_unpack cmd).c = TRANSFER) :
    ∑ k ∈ Finset.range b.account_count.toInt.toNat, (bank env b n cmd).bank.accounts k
      = ∑ k ∈ Finset.range b.account_count.toInt.toNat, b.accounts k := by
  rw [bank_bank]
  split_ifs with hs
  · simp only [post_accounts, Finset.sum_add_distrib]
    by_cases hok : answer b (cmd_unpack cmd) = OK
    · have hk : b.Knows (cmd_unpack cmd) :=
        (answer_eq_ok_iff (by rw [hok]; decide)).mp hok
      simp only [hok, if_true, sum_entry_transfer hc hk, add_zero]
    · simp only [hok, if_false, Finset.sum_const_zero, add_zero]
  · rfl

/-- **The ledger law.** After any run from `bank_open` every balance is, modulo
`2^32`, the accepted amounts to it minus the accepted amounts from it. A
transfer keeps the total, and a message that is not one of the three money
commands answered OK changes no account. -/
theorem ledger_law (garbage : ℕ → CInt) (n m : CInt) (xs : List Input) :
    (∀ k : ℕ, (k : ℤ) < m.toInt →
      (bankRun (bank_open garbage n m) n xs).accounts k
        = credited k (bankLog (bank_open garbage n m) n xs)
          - debited k (bankLog (bank_open garbage n m) n xs)) ∧
    (∀ x : Input, (cmd_unpack x.cmd).c = TRANSFER →
      ∑ k ∈ Finset.range m.toInt.toNat,
          (bankRun (bank_open garbage n m) n (xs ++ [x])).accounts k
        = ∑ k ∈ Finset.range m.toInt.toNat,
          (bankRun (bank_open garbage n m) n xs).accounts k) ∧
    (∀ x : Input,
      ¬ (((cmd_unpack x.cmd).c = DEPOSIT ∨ (cmd_unpack x.cmd).c = WITHDRAW ∨
            (cmd_unpack x.cmd).c = TRANSFER) ∧
          (x.serve (bankRun (bank_open garbage n m) n xs)
            (bankCount (bank_open garbage n m) n xs)).code = some OK) →
      (bankRun (bank_open garbage n m) n (xs ++ [x])).accounts
        = (bankRun (bank_open garbage n m) n xs).accounts) := by
  refine ⟨?_, ?_, ?_⟩
  · intro k hk
    have hlt : k < 2 ^ 31 := by have := (toInt_bounds m).2; omega
    rw [bankRun_accounts hlt]
    simp only [bank_open, if_pos hk, zero_add]
  · -- a transfer keeps the total
    intro x hx
    have hcount : (bankRun (bank_open garbage n m) n xs).account_count = m :=
      bankRun_account_count _ _ _
    have h := total_transfer (Env.reliable x.stray) (bankRun (bank_open garbage n m) n xs)
      (bankCount (bank_open garbage n m) n xs) x.cmd hx
    rw [hcount] at h
    rw [bankRun_concat]
    exact h
  · -- what is not an accepted money command changes nothing
    intro x hx
    rw [bankRun_concat]
    revert hx
    generalize bankRun (bank_open garbage n m) n xs = b
    generalize bankCount (bank_open garbage n m) n xs = cnt
    unfold Input.serve
    rw [bank_code, bank_bank]
    intro hx
    split_ifs at hx ⊢ with hs
    · funext k
      rw [post_accounts]
      by_cases hok : answer b (cmd_unpack x.cmd) = OK
      · have hmoney : ¬ ((cmd_unpack x.cmd).c = DEPOSIT ∨ (cmd_unpack x.cmd).c = WITHDRAW ∨
            (cmd_unpack x.cmd).c = TRANSFER) := fun h => hx ⟨h, by rw [hok]⟩
        simp only [not_or] at hmoney
        rw [if_pos hok, entry_eq_zero hmoney, add_zero]
      · rw [if_neg hok, add_zero]
    · rfl

/-- Five into account 0 and three of them on to account 1. -/
def paid : List Input :=
  [⟨0, MSG_CONNECT 0⟩, ⟨0, MSG_DEPOSIT 0 0 5⟩, ⟨0, MSG_TRANSFER 0 0 1 3⟩]

/-- Another transfer keeps the total, and a withdrawal that is refused changes nothing. -/
theorem ledger_law_paid :
    (bankRun (bank_open (fun _ => 7) 1 2) 1 paid).accounts 1
        = credited 1 (bankLog (bank_open (fun _ => 7) 1 2) 1 paid)
          - debited 1 (bankLog (bank_open (fun _ => 7) 1 2) 1 paid) ∧
      (bankRun (bank_open (fun _ => 7) 1 2) 1 paid).accounts 1 = 3 ∧
      ∑ k ∈ Finset.range 2, (bankRun (bank_open (fun _ => 7) 1 2) 1
          (paid ++ [⟨0, MSG_TRANSFER 0 1 0 2⟩])).accounts k
        = ∑ k ∈ Finset.range 2, (bankRun (bank_open (fun _ => 7) 1 2) 1 paid).accounts k ∧
      (bankRun (bank_open (fun _ => 7) 1 2) 1 (paid ++ [⟨0, MSG_WITHDRAW 0 1 9⟩])).accounts
        = (bankRun (bank_open (fun _ => 7) 1 2) 1 paid).accounts := by
  obtain ⟨hledger, htransfer, hrefused⟩ := ledger_law (fun _ => 7) 1 2 paid
  exact ⟨hledger 1 (by decide), by decide, htransfer ⟨0, MSG_TRANSFER 0 1 0 2⟩ (by decide),
    hrefused ⟨0, MSG_WITHDRAW 0 1 9⟩ (by decide)⟩

end ProjectsInC.BankAtm
