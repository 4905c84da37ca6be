/-
`bank.c`: the account table and the function that serves one command.

[`bank`] is the C function line by line: six independent tests on the command
byte, each of which may change the accounts and writes one reply, then the test
for a byte that is none of the six. What the function is handed from outside is
an [`Env`]: the result of the reply's `write`, and the words that lie next to
the accounts array, which a BALANCE can read.

The second half says once what a call can do. [`answer`] is the code of the
reply and [`entry`] what an accepted command adds to one account; the theorem
[`bank_request`] ties both to the function, and no later file unfolds `bank`.
-/
import Mathlib.Logic.Function.Basic
import Mathlib.Algebra.Group.Basic
import ProjectsInC.BankAtm.Command

set_option autoImplicit false

namespace ProjectsInC.BankAtm

/-! ## `errors.h` -/

/-- The status codes of `errors.h`. -/
inductive Status
  | SUCCESS
  | ERR_UNKNOWN_CMD
  | ERR_PIPE_READ_ERR
  | ERR_PIPE_WRITE_ERR
  | ERR_UNKNOWN_ACCOUNT
  | ERR_UNKNOWN_ATM
  | ERR_BAD_TRACE_FILE
  | ERR_NOFUNDS
deriving DecidableEq, Repr

open Status

/-- `check_pipe_write` (the same text in `bank.c` and `atm.c`). -/
def check_pipe_write (result : ℤ) : Status :=
  if result < 0 then ERR_PIPE_WRITE_ERR
  else if result < MESSAGE_SIZE then ERR_PIPE_WRITE_ERR
  else SUCCESS

/-- `check_pipe_read` (the same text in `bank.c` and `atm.c`). -/
def check_pipe_read (result : ℤ) : Status :=
  if result < 0 then ERR_PIPE_READ_ERR
  else if result < MESSAGE_SIZE then ERR_PIPE_READ_ERR
  else SUCCESS

@[simp] theorem check_pipe_write_whole : check_pipe_write MESSAGE_SIZE = SUCCESS := rfl

@[simp] theorem check_pipe_read_whole : check_pipe_read MESSAGE_SIZE = SUCCESS := rfl

/-! ## The static state -/

/-- The statics of `bank.c`; `accounts` is the memory the pointer leads to. -/
structure Bank where
  accounts : ℕ → CInt
  account_count : CInt
  atm_count : CInt

/-- What one call of `bank` meets outside its own state: the value `write`
returns for each ATM's pipe, and what `accounts[i]` reads where `i` is not an
index of the array. -/
structure Env where
  write : CInt → ℤ
  stray : CInt → CInt

/-- An environment whose pipes take every message whole. -/
def Env.reliable (stray : CInt → CInt) : Env := ⟨fun _ => MESSAGE_SIZE, stray⟩

/-- `check_valid_atm` -/
def check_valid_atm (s : Bank) (atmid : CInt) : Status :=
  if 0 ≤ atmid.toInt ∧ atmid.toInt < s.atm_count.toInt then SUCCESS else ERR_UNKNOWN_ATM

/-- `check_valid_account` -/
def check_valid_account (s : Bank) (accountid : CInt) : Status :=
  if 0 ≤ accountid.toInt ∧ accountid.toInt < s.account_count.toInt then SUCCESS
  else ERR_UNKNOWN_ACCOUNT

/-- The value of `accounts[i]`. -/
def Bank.load (env : Env) (s : Bank) (i : CInt) : CInt :=
  if 0 ≤ i.toInt ∧ i.toInt < s.account_count.toInt then s.accounts i.toNat else env.stray i

/-- `accounts[i] = v` -/
def Bank.store (s : Bank) (i v : CInt) : Bank :=
  { s with accounts := Function.update s.accounts i.toNat v }

/-- `bank_open`; `garbage` is what `malloc` returned. -/
def bank_open (garbage : ℕ → CInt) (atm_cnt account_cnt : CInt) : Bank where
  atm_count := atm_cnt
  account_count := account_cnt
  accounts := fun i => if (i : ℤ) < account_cnt.toInt then 0 else garbage i

/-! ## `bank` -/

/-- A call of `bank` under way: the statics, the caller's `*atm_cnt`, the local
`result`, and the message written to `atm_out_fd[i]`, if any. -/
structure Call where
  bank : Bank
  atm_cnt : CInt
  result : Status
  reply : Option Command

/-- `result = check_pipe_write(write(atm_out_fd[i],&bankcmd,MESSAGE_SIZE))` -/
def Call.send (env : Env) (i : CInt) (bankcmd : Command) (s : Call) : Call :=
  { s with result := check_pipe_write (env.write i), reply := some bankcmd }

/-- The CONNECT block. -/
def bank_connect (env : Env) (m : Fields) (s : Call) : Call :=
  s.send env m.i (MSG_OK 0 m.f m.t m.a)

/-- The EXIT block. -/
def bank_exit (env : Env) (m : Fields) (s : Call) : Call :=
  Call.send env m.i (MSG_OK 0 m.f m.t m.a) { s with atm_cnt := s.atm_cnt - 1 }

/-- The DEPOSIT block. -/
def bank_deposit (env : Env) (m : Fields) (s : Call) : Call :=
  if check_valid_account s.bank m.t = SUCCESS then
    Call.send env m.i (MSG_OK 0 m.f m.t m.a)
      { s with bank := s.bank.store m.t (s.bank.load env m.t + m.a) }
  else
    s.send env m.i (MSG_ACCUNKN 0 m.t)

/-- The WITHDRAW block; its ACCUNKN reply names the `to` field. -/
def bank_withdraw (env : Env) (m : Fields) (s : Call) : Call :=
  if check_valid_account s.bank m.f = SUCCESS then
    if m.a.toInt ≤ (s.bank.load env m.f).toInt then
      Call.send env m.i (MSG_OK 0 m.f m.t m.a)
        { s with bank := s.bank.store m.f (s.bank.load env m.f - m.a) }
    else
      s.send env m.i (MSG_NOFUNDS 0 m.f m.a)
  else
    s.send env m.i (MSG_ACCUNKN 0 m.t)

/-- The TRANSFER block: two sequential writes, the second of which reads what
the first one left. -/
def bank_transfer (env : Env) (m : Fields) (s : Call) : Call :=
  if check_valid_account s.bank m.f ≠ SUCCESS then
    s.send env m.i (MSG_ACCUNKN 0 m.f)
  else if check_valid_account s.bank m.t ≠ SUCCESS then
    s.send env m.i (MSG_ACCUNKN 0 m.t)
  else if (s.bank.load env m.f).toInt < m.a.toInt then
    s.send env m.i (MSG_NOFUNDS 0 m.f m.a)
  else
    -- with `from = to` the second load sees the amount already taken off
    let paid := s.bank.store m.f (s.bank.load env m.f - m.a)
    Call.send env m.i (MSG_OK 0 m.f m.t m.a)
      { s with bank := paid.store m.t (paid.load env m.t + m.a) }

/-- The BALANCE block: it checks `from` and reads the account whose number is
the ATM's. -/
def bank_balance (env : Env) (m : Fields) (s : Call) : Call :=
  if check_valid_account s.bank m.f ≠ SUCCESS then
    s.send env m.i (MSG_ACCUNKN 0 m.t)
  else
    -- the index is the ATM's number, which nobody has compared with `account_count`
    s.send env m.i (MSG_OK 0 m.f m.t (s.bank.load env m.i))

/-- `bank` -/
def bank (env : Env) (b : Bank) (atm_cnt : CInt) (cmd : Command) : Call :=
  let m := cmd_unpack cmd
  let s : Call := ⟨b, atm_cnt, SUCCESS, none⟩
  if check_valid_atm b m.i ≠ SUCCESS then { s with result := ERR_UNKNOWN_ATM }
  else
    -- six separate `if`s; the bytes differ, so a message passes at most one of them
    let s := if m.c = CONNECT then bank_connect env m s else s
    let s := if m.c = EXIT then bank_exit env m s else s
    let s := if m.c = DEPOSIT then bank_deposit env m s else s
    let s := if m.c = WITHDRAW then bank_withdraw env m s else s
    let s := if m.c = TRANSFER then bank_transfer env m s else s
    let s := if m.c = BALANCE then bank_balance env m s else s
    if m.c ≠ CONNECT ∧ m.c ≠ EXIT ∧ m.c ≠ DEPOSIT ∧ m.c ≠ TRANSFER ∧ m.c ≠ BALANCE ∧
        m.c ≠ WITHDRAW then
      { s with result := ERR_UNKNOWN_CMD }
    else s

/-! ## What one call does

The two validity checks as propositions, and the pure content of a call: which
code it answers and what the accepted command adds to each account. -/

/-- The test of [`check_valid_atm`]. -/
def Bank.ValidAtm (b : Bank) (i : CInt) : Prop := 0 ≤ i.toInt ∧ i.toInt < b.atm_count.toInt

/-- The test of [`check_valid_account`]. -/
def Bank.ValidAccount (b : Bank) (i : CInt) : Prop :=
  0 ≤ i.toInt ∧ i.toInt < b.account_count.toInt

instance (b : Bank) (i : CInt) : Decidable (b.ValidAtm i) := by
  unfold Bank.ValidAtm; infer_instance

instance (b : Bank) (i : CInt) : Decidable (b.ValidAccount i) := by
  unfold Bank.ValidAccount; infer_instance

theorem check_valid_atm_iff (b : Bank) (i : CInt) :
    check_valid_atm b i = SUCCESS ↔ b.ValidAtm i := by
  unfold check_valid_atm Bank.ValidAtm
  split_ifs with h <;> simp [h]

theorem check_valid_account_iff (b : Bank) (i : CInt) :
    check_valid_account b i = SUCCESS ↔ b.ValidAccount i := by
  unfold check_valid_account Bank.ValidAccount
  split_ifs with h <;> simp [h]

theorem load_of_valid (env : Env) {b : Bank} {i : CInt} (h : b.ValidAccount i) :
    b.load env i = b.accounts i.toNat := if_pos h

theorem load_of_not_valid (env : Env) {b : Bank} {i : CInt} (h : ¬ b.ValidAccount i) :
    b.load env i = env.stray i := if_neg h

/-- The code of the reply to a request of a known ATM. -/
def answer (b : Bank) (m : Fields) : Byte :=
  if m.c = DEPOSIT then
    if b.ValidAccount m.t then OK else ACCUNKN
  else if m.c = WITHDRAW then
    if b.ValidAccount m.f then
      if m.a.toInt ≤ (b.accounts m.f.toNat).toInt then OK else NOFUNDS
    else ACCUNKN
  else if m.c = TRANSFER then
    if b.ValidAccount m.f ∧ b.ValidAccount m.t then
      if m.a.toInt ≤ (b.accounts m.f.toNat).toInt then OK else NOFUNDS
    else ACCUNKN
  else if m.c = BALANCE then
    if b.ValidAccount m.f then OK else ACCUNKN
  else OK

/-- What an accepted command adds to account `k`. -/
def entry (m : Fields) (k : ℕ) : CInt :=
  if m.c = DEPOSIT then (if m.t.toNat = k then m.a else 0)
  else if m.c = WITHDRAW then (if m.f.toNat = k then -m.a else 0)
  else if m.c = TRANSFER then
    (if m.t.toNat = k then m.a else 0) - (if m.f.toNat = k then m.a else 0)
  else 0

theorem money_codes_ne : DEPOSIT ≠ WITHDRAW ∧ DEPOSIT ≠ TRANSFER ∧ WITHDRAW ≠ TRANSFER := by
  decide

/-! The equations of the two, one for each command that has its own. -/

theorem answer_deposit {b : Bank} {m : Fields} (hc : m.c = DEPOSIT) :
    answer b m = if b.ValidAccount m.t then OK else ACCUNKN := if_pos hc

theorem answer_withdraw {b : Bank} {m : Fields} (hc : m.c = WITHDRAW) :
    answer b m = if b.ValidAccount m.f then
        if m.a.toInt ≤ (b.accounts m.f.toNat).toInt then OK else NOFUNDS
      else ACCUNKN := by
  rw [answer, if_neg (by rw [hc]; decide), if_pos hc]

theorem answer_transfer {b : Bank} {m : Fields} (hc : m.c = TRANSFER) :
    answer b m = if b.ValidAccount m.f ∧ b.ValidAccount m.t then
        if m.a.toInt ≤ (b.accounts m.f.toNat).toInt then OK else NOFUNDS
      else ACCUNKN := by
  rw [answer, if_neg (by rw [hc]; decide), if_neg (by rw [hc]; decide), if_pos hc]

theorem answer_balance {b : Bank} {m : Fields} (hc : m.c = BALANCE) :
    answer b m = if b.ValidAccount m.f then OK else ACCUNKN := by
  rw [answer, if_neg (by rw [hc]; decide), if_neg (by rw [hc]; decide),
    if_neg (by rw [hc]; decide), if_pos hc]

theorem entry_deposit {m : Fields} (hc : m.c = DEPOSIT) (k : ℕ) :
    entry m k = if m.t.toNat = k then m.a else 0 := if_pos hc

theorem entry_withdraw {m : Fields} (hc : m.c = WITHDRAW) (k : ℕ) :
    entry m k = if m.f.toNat = k then -m.a else 0 := by
  rw [entry, if_neg (by rw [hc]; decide), if_pos hc]

theorem entry_transfer {m : Fields} (hc : m.c = TRANSFER) (k : ℕ) :
    entry m k = (if m.t.toNat = k then m.a else 0) - (if m.f.toNat = k then m.a else 0) := by
  rw [entry, if_neg (by rw [hc]; decide), if_neg (by rw [hc]; decide), if_pos hc]

/-- Only the three money commands have an entry. -/
theorem entry_eq_zero {m : Fields} (h : m.c ≠ DEPOSIT ∧ m.c ≠ WITHDRAW ∧ m.c ≠ TRANSFER)
    (k : ℕ) : entry m k = 0 := by
  rw [entry, if_neg h.1, if_neg h.2.1, if_neg h.2.2]

/-- The bank after a request: every account has received its entry if the
answer is OK, and none has otherwise. -/
def Bank.post (b : Bank) (m : Fields) : Bank :=
  if answer b m = OK then { b with accounts := fun k => b.accounts k + entry m k } else b

@[simp] theorem post_account_count (b : Bank) (m : Fields) :
    (b.post m).account_count = b.account_count := by
  unfold Bank.post; split_ifs <;> rfl

@[simp] theorem post_atm_count (b : Bank) (m : Fields) :
    (b.post m).atm_count = b.atm_count := by
  unfold Bank.post; split_ifs <;> rfl

theorem post_accounts (b : Bank) (m : Fields) (k : ℕ) :
    (b.post m).accounts k
      = b.accounts k + (if answer b m = OK then entry m k else 0) := by
  unfold Bank.post; split_ifs <;> simp

/-- Storing `accounts[i] + v` is adding `v` at `i` alone. -/
theorem store_add (b : Bank) (i v : CInt) :
    b.store i (b.accounts i.toNat + v)
      = { b with accounts := fun k => b.accounts k + (if i.toNat = k then v else 0) } := by
  simp only [Bank.store]
  congr 1
  funext k
  by_cases h : k = i.toNat
  · rw [h, Function.update_self, if_pos rfl]
  · rw [Function.update_of_ne h, if_neg (fun e => h e.symm), add_zero]

/-- What a call that serves a request leaves behind. -/
structure Served (env : Env) (b : Bank) (n : CInt) (m : Fields) (r : Call) : Prop where
  bank : r.bank = b.post m
  atm_cnt : r.atm_cnt = n
  result : r.result = check_pipe_write (env.write m.i)
  reply : ∃ reply, r.reply = some reply ∧ (cmd_unpack reply).c = answer b m

theorem send_served (env : Env) {b b' : Bank} {n : CInt} {m : Fields} {msg : Command}
    {res : Status} {old : Option Command} (hb : b' = b.post m)
    (hc : (cmd_unpack msg).c = answer b m) :
    Served env b n m (Call.send env m.i msg ⟨b', n, res, old⟩) :=
  ⟨hb, rfl, rfl, msg, rfl, hc⟩

/-! ### The six blocks

One lemma for each block, all of the same shape; the only one with an argument
is the transfer, where the second write may hit the slot of the first. -/

theorem answer_ok_post {b : Bank} {m : Fields} (h : answer b m = OK) :
    b.post m = { b with accounts := fun k => b.accounts k + entry m k } := if_pos h

theorem answer_not_ok_post {b : Bank} {m : Fields} (h : answer b m ≠ OK) : b.post m = b :=
  if_neg h

theorem post_of_no_entry {b : Bank} {m : Fields} (h : ∀ k, entry m k = 0) : b.post m = b := by
  unfold Bank.post
  split_ifs
  · simp only [h, add_zero]
  · rfl

/-- The end of a branch that accepts the command. -/
theorem send_accepted (env : Env) {b b' : Bank} {n : CInt} {m : Fields} {msg : Command}
    {res : Status} {old : Option Command} (hans : answer b m = OK)
    (hb : b' = { b with accounts := fun k => b.accounts k + entry m k })
    (hc : (cmd_unpack msg).c = OK) :
    Served env b n m (Call.send env m.i msg ⟨b', n, res, old⟩) := by
  apply send_served env
  · rw [answer_ok_post hans, hb]
  · rw [hans, hc]

/-- The end of a branch that refuses it. -/
theorem send_refused (env : Env) {b : Bank} {n : CInt} {m : Fields} {msg : Command}
    {res : Status} {old : Option Command} {code : Byte} (hans : answer b m = code)
    (hne : code ≠ OK) (hc : (cmd_unpack msg).c = code) :
    Served env b n m (Call.send env m.i msg ⟨b, n, res, old⟩) := by
  apply send_served env
  · rw [answer_not_ok_post (by rwa [hans])]
  · rw [hans, hc]

theorem bank_connect_served (env : Env) (b : Bank) (n : CInt) (m : Fields)
    (hc : m.c = CONNECT) : Served env b n m (bank_connect env m ⟨b, n, SUCCESS, none⟩) := by
  have hentry : ∀ k, entry m k = 0 := entry_eq_zero (by rw [hc]; decide)
  apply send_served env (post_of_no_entry hentry).symm
  simp [answer, hc, MSG_OK, CONNECT, DEPOSIT, WITHDRAW, TRANSFER, BALANCE]

theorem bank_exit_served (env : Env) (b : Bank) (n : CInt) (m : Fields)
    (hc : m.c = EXIT) : Served env b (n - 1) m (bank_exit env m ⟨b, n, SUCCESS, none⟩) := by
  have hentry : ∀ k, entry m k = 0 := entry_eq_zero (by rw [hc]; decide)
  apply send_served env (post_of_no_entry hentry).symm
  simp [answer, hc, MSG_OK, EXIT, DEPOSIT, WITHDRAW, TRANSFER, BALANCE]

theorem bank_deposit_served (env : Env) (b : Bank) (n : CInt) (m : Fields)
    (hc : m.c = DEPOSIT) : Served env b n m (bank_deposit env m ⟨b, n, SUCCESS, none⟩) := by
  unfold bank_deposit
  simp only [check_valid_account_iff]
  by_cases ht : b.ValidAccount m.t
  · have hans : answer b m = OK := by rw [answer_deposit hc, if_pos ht]
    rw [if_pos ht]
    refine send_accepted env hans ?_ (by simp [MSG_OK])
    rw [load_of_valid env ht, store_add]
    simp only [entry_deposit hc]
  · have hans : answer b m = ACCUNKN := by rw [answer_deposit hc, if_neg ht]
    rw [if_neg ht]
    exact send_refused env hans (by decide) (by simp [MSG_ACCUNKN])

theorem bank_withdraw_served (env : Env) (b : Bank) (n : CInt) (m : Fields)
    (hc : m.c = WITHDRAW) : Served env b n m (bank_withdraw env m ⟨b, n, SUCCESS, none⟩) := by
  unfold bank_withdraw
  simp only [check_valid_account_iff]
  by_cases hf : b.ValidAccount m.f
  · rw [if_pos hf, load_of_valid env hf]
    by_cases hfunds : m.a.toInt ≤ (b.accounts m.f.toNat).toInt
    · have hans : answer b m = OK := by rw [answer_withdraw hc, if_pos hf, if_pos hfunds]
      rw [if_pos hfunds]
      refine send_accepted env hans ?_ (by simp [MSG_OK])
      rw [sub_eq_add_neg, store_add]
      simp only [entry_withdraw hc]
    · have hans : answer b m = NOFUNDS := by
        rw [answer_withdraw hc, if_pos hf, if_neg hfunds]
      rw [if_neg hfunds]
      exact send_refused env hans (by decide) (by simp [MSG_NOFUNDS])
  · have hans : answer b m = ACCUNKN := by rw [answer_withdraw hc, if_neg hf]
    rw [if_neg hf]
    exact send_refused env hans (by decide) (by simp [MSG_ACCUNKN])

/-- Paying `v` out of `f` and then into `t`, where `t` is read after the first
write: also when the two are one account, each slot has got its two entries. -/
theorem store_transfer (env : Env) {b : Bank} {f t v : CInt}
    (hf : b.ValidAccount f) (ht : b.ValidAccount t) :
    (b.store f (b.load env f - v)).store t ((b.store f (b.load env f - v)).load env t + v)
      = { b with accounts := fun k =>
            b.accounts k + ((if t.toNat = k then v else 0) - (if f.toNat = k then v else 0)) } := by
  -- the first write leaves the size of the array as it is
  have ht' : (b.store f (b.load env f - v)).ValidAccount t := ht
  rw [load_of_valid env ht', store_add, load_of_valid env hf, sub_eq_add_neg, store_add]
  simp only [Bank.mk.injEq, and_true]
  funext k
  by_cases h : f.toNat = k
  · simp only [if_pos h]; ring
  · simp only [if_neg h]; ring

theorem bank_transfer_served (env : Env) (b : Bank) (n : CInt) (m : Fields)
    (hc : m.c = TRANSFER) : Served env b n m (bank_transfer env m ⟨b, n, SUCCESS, none⟩) := by
  unfold bank_transfer
  simp only [ne_eq, check_valid_account_iff]
  by_cases hf : b.ValidAccount m.f
  · rw [if_neg (not_not.mpr hf)]
    by_cases ht : b.ValidAccount m.t
    · rw [if_neg (not_not.mpr ht)]
      by_cases hfunds : (b.load env m.f).toInt < m.a.toInt
      · have hans : answer b m = NOFUNDS := by
          rw [load_of_valid env hf] at hfunds
          rw [answer_transfer hc, if_pos ⟨hf, ht⟩, if_neg (not_le.mpr hfunds)]
        rw [if_pos hfunds]
        exact send_refused env hans (by decide) (by simp [MSG_NOFUNDS])
      · have hans : answer b m = OK := by
          rw [load_of_valid env hf] at hfunds
          rw [answer_transfer hc, if_pos ⟨hf, ht⟩, if_pos (not_lt.mp hfunds)]
        rw [if_neg hfunds]
        refine send_accepted env hans ?_ (by simp [MSG_OK])
        rw [store_transfer env hf ht]
        simp only [entry_transfer hc]
    · have hans : answer b m = ACCUNKN := by
        rw [answer_transfer hc, if_neg (fun h => ht h.2)]
      rw [if_pos ht]
      exact send_refused env hans (by decide) (by simp [MSG_ACCUNKN])
  · have hans : answer b m = ACCUNKN := by
      rw [answer_transfer hc, if_neg (fun h => hf h.1)]
    rw [if_pos hf]
    exact send_refused env hans (by decide) (by simp [MSG_ACCUNKN])

theorem bank_balance_served (env : Env) (b : Bank) (n : CInt) (m : Fields)
    (hc : m.c = BALANCE) : Served env b n m (bank_balance env m ⟨b, n, SUCCESS, none⟩) := by
  have hentry : ∀ k, entry m k = 0 := entry_eq_zero (by rw [hc]; decide)
  unfold bank_balance
  simp only [ne_eq, check_valid_account_iff]
  by_cases hf : b.ValidAccount m.f
  · rw [if_neg (not_not.mpr hf)]
    apply send_served env (post_of_no_entry hentry).symm
    rw [answer_balance hc, if_pos hf]; simp [MSG_OK]
  · rw [if_pos hf]
    apply send_served env (post_of_no_entry hentry).symm
    rw [answer_balance hc, if_neg hf]; simp [MSG_ACCUNKN]

/-! ### The three kinds of message -/

/-- A message with an unknown ATM id is dropped. -/
theorem bank_unknown_atm (env : Env) {b : Bank} (n : CInt) {cmd : Command}
    (h : ¬ b.ValidAtm (cmd_unpack cmd).i) :
    bank env b n cmd = ⟨b, n, ERR_UNKNOWN_ATM, none⟩ := by
  simp only [bank, ne_eq, check_valid_atm_iff]
  rw [if_pos h]

/-- A message of a known ATM whose command byte is none of the six changes
nothing and gets no reply. -/
theorem bank_unknown_cmd (env : Env) {b : Bank} (n : CInt) {cmd : Command}
    (hi : b.ValidAtm (cmd_unpack cmd).i) (hc : isRequest (cmd_unpack cmd).c = false) :
    bank env b n cmd = ⟨b, n, ERR_UNKNOWN_CMD, none⟩ := by
  simp only [isRequest, Bool.or_eq_false_iff, beq_eq_false_iff_ne, ne_eq] at hc
  obtain ⟨⟨⟨⟨⟨h1, h2⟩, h3⟩, h4⟩, h5⟩, h6⟩ := hc
  simp only [bank, ne_eq, check_valid_atm_iff]
  rw [if_neg (not_not.mpr hi)]
  simp [h1, h2, h3, h4, h5, h6]

/-- The counter `*atm_cnt` after a request. -/
def countdown (n : CInt) (m : Fields) : CInt := if m.c = EXIT then n - 1 else n

/-- A request of a known ATM goes through the block of its command and through no other. -/
theorem bank_blocks (env : Env) {b : Bank} (n : CInt) {cmd : Command}
    (hi : b.ValidAtm (cmd_unpack cmd).i) (hc : isRequest (cmd_unpack cmd).c = true) :
    let m := cmd_unpack cmd
    let s : Call := ⟨b, n, SUCCESS, none⟩
    (m.c = CONNECT ∧ bank env b n cmd = bank_connect env m s) ∨
    (m.c = EXIT ∧ bank env b n cmd = bank_exit env m s) ∨
    (m.c = DEPOSIT ∧ bank env b n cmd = bank_deposit env m s) ∨
    (m.c = WITHDRAW ∧ bank env b n cmd = bank_withdraw env m s) ∨
    (m.c = TRANSFER ∧ bank env b n cmd = bank_transfer env m s) ∨
    (m.c = BALANCE ∧ bank env b n cmd = bank_balance env m s) := by
  simp only [isRequest, Bool.or_eq_true, beq_iff_eq] at hc
  simp only [bank, ne_eq, check_valid_atm_iff]
  rw [if_neg (not_not.mpr hi)]
  -- in each case the other five tests fail on the value of the byte
  rcases hc with ((((hc | hc) | hc) | hc) | hc) | hc
  all_goals simp [hc, CONNECT, EXIT, DEPOSIT, WITHDRAW, TRANSFER, BALANCE]

/-- **A request of a known ATM is served**: exactly one of the six blocks runs,
and what it does is [`Served`]. -/
theorem bank_request (env : Env) {b : Bank} (n : CInt) {cmd : Command}
    (hi : b.ValidAtm (cmd_unpack cmd).i) (hc : isRequest (cmd_unpack cmd).c = true) :
    Served env b (countdown n (cmd_unpack cmd)) (cmd_unpack cmd) (bank env b n cmd) := by
  have hstay : (cmd_unpack cmd).c ≠ EXIT → countdown n (cmd_unpack cmd) = n :=
    fun h => if_neg h
  rcases bank_blocks env n hi hc with ⟨hc, hbank⟩ | ⟨hc, hbank⟩ | ⟨hc, hbank⟩ | ⟨hc, hbank⟩ |
    ⟨hc, hbank⟩ | ⟨hc, hbank⟩
  · rw [hbank, hstay (by rw [hc]; decide)]
    exact bank_connect_served env b n _ hc
  · rw [hbank, countdown, if_pos hc]
    exact bank_exit_served env b n _ hc
  · rw [hbank, hstay (by rw [hc]; decide)]
    exact bank_deposit_served env b n _ hc
  · rw [hbank, hstay (by rw [hc]; decide)]
    exact bank_withdraw_served env b n _ hc
  · rw [hbank, hstay (by rw [hc]; decide)]
    exact bank_transfer_served env b n _ hc
  · rw [hbank, hstay (by rw [hc]; decide)]
    exact bank_balance_served env b n _ hc

/-- A call changes the accounts of the bank exactly when it serves a request,
and then as [`Bank.post`] says; the outcome of the reply's `write` plays no part. -/
theorem bank_bank (env : Env) (b : Bank) (n : CInt) (cmd : Command) :
    (bank env b n cmd).bank
      = if b.ValidAtm (cmd_unpack cmd).i ∧ isRequest (cmd_unpack cmd).c = true
        then b.post (cmd_unpack cmd) else b := by
  by_cases hi : b.ValidAtm (cmd_unpack cmd).i
  · by_cases hc : isRequest (cmd_unpack cmd).c = true
    · rw [if_pos ⟨hi, hc⟩, (bank_request env n hi hc).bank]
    · rw [if_neg (fun h => hc h.2), bank_unknown_cmd env n hi (by simpa using hc)]
  · rw [if_neg (fun h => hi h.1), bank_unknown_atm env n hi]

/-- The code of the reply a call writes, if it writes one. -/
def Call.code (r : Call) : Option Byte := r.reply.map (fun msg => (cmd_unpack msg).c)

/-- A call answers exactly the requests of known ATMs, with the code [`answer`]. -/
theorem bank_code (env : Env) (b : Bank) (n : CInt) (cmd : Command) :
    (bank env b n cmd).code
      = if b.ValidAtm (cmd_unpack cmd).i ∧ isRequest (cmd_unpack cmd).c = true
        then some (answer b (cmd_unpack cmd)) else none := by
  by_cases hi : b.ValidAtm (cmd_unpack cmd).i
  · by_cases hc : isRequest (cmd_unpack cmd).c = true
    · obtain ⟨msg, hmsg, hcode⟩ := (bank_request env n hi hc).reply
      rw [if_pos ⟨hi, hc⟩, Call.code, hmsg, Option.map_some, hcode]
    · rw [if_neg (fun h => hc h.2), bank_unknown_cmd env n hi (by simpa using hc)]
      rfl
  · rw [if_neg (fun h => hi h.1), bank_unknown_atm env n hi]
    rfl

@[simp] theorem bank_account_count (env : Env) (b : Bank) (n : CInt) (cmd : Command) :
    (bank env b n cmd).bank.account_count = b.account_count := by
  rw [bank_bank]; split_ifs <;> simp

@[simp] theorem bank_atm_count (env : Env) (b : Bank) (n : CInt) (cmd : Command) :
    (bank env b n cmd).bank.atm_count = b.atm_count := by
  rw [bank_bank]; split_ifs <;> simp

/-! ### Which accounts a request names -/

/-- The account fields the command reads are indices of the array. -/
def Bank.Knows (b : Bank) (m : Fields) : Prop :=
  (m.c = DEPOSIT → b.ValidAccount m.t) ∧ (m.c = WITHDRAW → b.ValidAccount m.f) ∧
  (m.c = TRANSFER → b.ValidAccount m.f ∧ b.ValidAccount m.t) ∧
  (m.c = BALANCE → b.ValidAccount m.f)

instance (b : Bank) (m : Fields) : Decidable (b.Knows m) := by
  unfold Bank.Knows; infer_instance

/-- The reply is ACCUNKN exactly when a checked account is out of range. -/
theorem answer_eq_accunkn_iff (b : Bank) (m : Fields) : answer b m = ACCUNKN ↔ ¬ b.Knows m := by
  unfold answer Bank.Knows
  have h1 : OK ≠ ACCUNKN := by decide
  have h2 : NOFUNDS ≠ ACCUNKN := by decide
  have h3 : DEPOSIT ≠ WITHDRAW ∧ DEPOSIT ≠ TRANSFER ∧ DEPOSIT ≠ BALANCE ∧ WITHDRAW ≠ TRANSFER ∧
    WITHDRAW ≠ BALANCE ∧ TRANSFER ≠ BALANCE := by decide
  grind

/-- There is no fourth code. -/
theorem answer_cases (b : Bank) (m : Fields) :
    answer b m = OK ∨ answer b m = NOFUNDS ∨ answer b m = ACCUNKN := by
  unfold answer
  split_ifs <;> simp

/-- With the funds there, acceptance is a matter of the account numbers alone. -/
theorem answer_eq_ok_iff {b : Bank} {m : Fields} (h : answer b m ≠ NOFUNDS) :
    answer b m = OK ↔ b.Knows m := by
  have hne : OK ≠ ACCUNKN := by decide
  constructor
  · intro hok
    by_contra hk
    rw [← answer_eq_accunkn_iff, hok] at hk
    exact hne hk
  · intro hk
    rcases answer_cases b m with hok | hno | hacc
    · exact hok
    · exact absurd hno h
    · exact absurd hk ((answer_eq_accunkn_iff b m).mp hacc)

end ProjectsInC.BankAtm
