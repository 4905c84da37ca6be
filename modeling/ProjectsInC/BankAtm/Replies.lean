/-
What the bank answers, and what a call that fails leaves behind.

The code of a reply is [`answer`]; here it is the other fields. A BALANCE is answered with the
account whose number is the ATM's, and an ACCUNKN names the `to` field but for a TRANSFER, so
that a reply is right exactly when these happen to be the accounts of the command
([`bank_faithful_iff`]). The accounts are changed before the reply is written, so that a reply
that is not written whole undoes nothing ([`bank_failed`]).
-/
import ProjectsInC.BankAtm.Bank

set_option autoImplicit false

namespace ProjectsInC.BankAtm

open Status

/-! ## Which accounts are checked -/

/-- The accounts a command hands to `check_valid_account`, in this order. -/
def checked (m : Fields) : List CInt :=
  if m.c = DEPOSIT then [m.t]
  else if m.c = WITHDRAW then [m.f]
  else if m.c = TRANSFER then [m.f, m.t]
  else if m.c = BALANCE then [m.f]
  else []

/-- The first of them that fails the check. -/
def failedAccount (b : Bank) (m : Fields) : Option CInt :=
  (checked m).find? (fun i => ¬ b.ValidAccount i)

/-- The account that an ACCUNKN names. -/
def namedAccount (b : Bank) (m : Fields) : CInt :=
  if m.c = TRANSFER ∧ ¬ b.ValidAccount m.f then m.f else m.t

/-- Only a WITHDRAW and a BALANCE name another account than the one that failed. -/
theorem failedAccount_eq_namedAccount_iff {b : Bank} {m : Fields} (h : ¬ b.Knows m) :
    failedAccount b m = some (namedAccount b m) ↔
      (m.c = WITHDRAW ∨ m.c = BALANCE → m.t = m.f) := by
  have hne : WITHDRAW ≠ DEPOSIT ∧ TRANSFER ≠ DEPOSIT ∧ BALANCE ≠ DEPOSIT ∧ TRANSFER ≠ WITHDRAW ∧
    BALANCE ≠ WITHDRAW ∧ BALANCE ≠ TRANSFER := by decide
  unfold Bank.Knows at h
  unfold failedAccount checked namedAccount
  grind

/-! ## The fields of the reply -/

section Blocks

variable (env : Env) (b : Bank) (n : CInt) (m : Fields)

/-- A WITHDRAW and a BALANCE look at the `from` field only. -/
theorem knows_iff_from {b : Bank} {m : Fields} (hc : m.c = WITHDRAW ∨ m.c = BALANCE) :
    b.Knows m ↔ b.ValidAccount m.f := by
  have hne : WITHDRAW ≠ DEPOSIT ∧ BALANCE ≠ DEPOSIT ∧ WITHDRAW ≠ TRANSFER ∧ BALANCE ≠ TRANSFER ∧
    WITHDRAW ≠ BALANCE := by decide
  unfold Bank.Knows
  grind

/-- The message a call has written, if it is an ACCUNKN, names this account. -/
def Names (account : CInt) (r : Call) : Prop :=
  ∀ reply, r.reply = some reply → (cmd_unpack reply).c = ACCUNKN → (cmd_unpack reply).t = account

theorem names_accunkn (account : CInt) (s : Call) :
    Names account (s.send env m.i (MSG_ACCUNKN 0 account)) := by
  intro reply hreply _
  obtain rfl := Option.some.inj hreply
  rw [MSG_ACCUNKN, cmd_unpack_pack]

theorem names_of_code {account : CInt} {msg : Command} (s : Call)
    (hcode : (cmd_unpack msg).c ≠ ACCUNKN) : Names account (s.send env m.i msg) := by
  intro reply hreply hcode'
  obtain rfl := Option.some.inj hreply
  exact absurd hcode' hcode

/-- An OK is not an ACCUNKN, whatever it carries. -/
theorem names_ok {account id f t a : CInt} (s : Call) :
    Names account (s.send env m.i (MSG_OK id f t a)) := by
  apply names_of_code env m s
  rw [MSG_OK, cmd_unpack_pack]
  exact (by decide : OK ≠ ACCUNKN)

theorem names_nofunds {account id f a : CInt} (s : Call) :
    Names account (s.send env m.i (MSG_NOFUNDS id f a)) := by
  apply names_of_code env m s
  rw [MSG_NOFUNDS, cmd_unpack_pack]
  exact (by decide : NOFUNDS ≠ ACCUNKN)

theorem bank_deposit_names : Names m.t (bank_deposit env m ⟨b, n, SUCCESS, none⟩) := by
  unfold bank_deposit
  split_ifs
  · exact names_ok env m _
  · exact names_accunkn env m _ _

theorem bank_withdraw_names : Names m.t (bank_withdraw env m ⟨b, n, SUCCESS, none⟩) := by
  unfold bank_withdraw
  split_ifs
  · exact names_ok env m _
  · exact names_nofunds env m _
  · exact names_accunkn env m _ _

theorem bank_transfer_names (hc : m.c = TRANSFER) :
    Names (namedAccount b m) (bank_transfer env m ⟨b, n, SUCCESS, none⟩) := by
  unfold bank_transfer namedAccount
  simp only [ne_eq, check_valid_account_iff]
  by_cases hf : b.ValidAccount m.f
  · rw [if_neg (not_not.mpr hf), if_neg (fun h => h.2 hf)]
    split_ifs
    · exact names_nofunds env m _
    · exact names_ok env m _
    · exact names_accunkn env m _ _
  · rw [if_pos hf, if_pos ⟨hc, hf⟩]
    exact names_accunkn env m _ _

theorem bank_balance_names : Names m.t (bank_balance env m ⟨b, n, SUCCESS, none⟩) := by
  unfold bank_balance
  split_ifs
  · exact names_accunkn env m _ _
  · exact names_ok env m _

end Blocks

/-- The account an ACCUNKN names. -/
theorem bank_names (env : Env) {b : Bank} (n : CInt) {cmd : Command}
    (hi : b.ValidAtm (cmd_unpack cmd).i) :
    Names (namedAccount b (cmd_unpack cmd)) (bank env b n cmd) := by
  by_cases hreq : isRequest (cmd_unpack cmd).c = true
  · have ht : (cmd_unpack cmd).c ≠ TRANSFER →
        namedAccount b (cmd_unpack cmd) = (cmd_unpack cmd).t := fun hne =>
      if_neg (fun h => hne h.1)
    rcases bank_blocks env n hi hreq with ⟨hc, hbank⟩ | ⟨hc, hbank⟩ | ⟨hc, hbank⟩ | ⟨hc, hbank⟩ |
      ⟨hc, hbank⟩ | ⟨hc, hbank⟩
    · rw [hbank]
      exact names_ok env _ _
    · rw [hbank]
      exact names_ok env _ _
    · rw [hbank, ht (by rw [hc]; decide)]
      exact bank_deposit_names env b n _
    · rw [hbank, ht (by rw [hc]; decide)]
      exact bank_withdraw_names env b n _
    · rw [hbank]
      exact bank_transfer_names env b n _ hc
    · rw [hbank, ht (by rw [hc]; decide)]
      exact bank_balance_names env b n _
  · rw [bank_unknown_cmd env n hi (by simpa using hreq)]
    intro reply hreply
    cases hreply

/-- A BALANCE of a valid account is answered with the account of the ATM's number. -/
theorem bank_balance_reply (env : Env) {b : Bank} (n : CInt) {cmd : Command}
    (hi : b.ValidAtm (cmd_unpack cmd).i) (hc : (cmd_unpack cmd).c = BALANCE)
    (hf : b.ValidAccount (cmd_unpack cmd).f) :
    bank env b n cmd = Call.send env (cmd_unpack cmd).i (MSG_OK 0 (cmd_unpack cmd).f
      (cmd_unpack cmd).t (b.load env (cmd_unpack cmd).i)) ⟨b, n, SUCCESS, none⟩ := by
  have hreq : isRequest (cmd_unpack cmd).c = true := by
    rw [hc]
    decide
  rcases bank_blocks env n hi hreq with ⟨hc', -⟩ | ⟨hc', -⟩ | ⟨hc', -⟩ | ⟨hc', -⟩ | ⟨hc', -⟩ |
    ⟨-, hbank⟩
  · exact absurd (hc.symm.trans hc') (by decide)
  · exact absurd (hc.symm.trans hc') (by decide)
  · exact absurd (hc.symm.trans hc') (by decide)
  · exact absurd (hc.symm.trans hc') (by decide)
  · exact absurd (hc.symm.trans hc') (by decide)
  · rw [hbank, bank_balance, if_neg]
    rw [ne_eq, not_not, check_valid_account_iff]
    exact hf

/-! ## Faithful replies -/

/-- What a reply should say: a BALANCE of a valid account is answered OK with its balance, and
the call goes the same way whatever lies next to the array; and an ACCUNKN names the account
that failed the check. -/
structure Faithful (b : Bank) (cmd : Command) : Prop where
  balance : (cmd_unpack cmd).c = BALANCE → b.ValidAccount (cmd_unpack cmd).f → ∀ env n,
    ∃ reply, (bank env b n cmd).reply = some reply ∧ (cmd_unpack reply).c = OK ∧
      (cmd_unpack reply).a = b.accounts (cmd_unpack cmd).f.toNat
  inside : (cmd_unpack cmd).c = BALANCE → b.ValidAccount (cmd_unpack cmd).f →
    ∀ write stray stray' n, bank ⟨write, stray⟩ b n cmd = bank ⟨write, stray'⟩ b n cmd
  unknown : ∀ env n reply, (bank env b n cmd).reply = some reply →
    (cmd_unpack reply).c = ACCUNKN → failedAccount b (cmd_unpack cmd) = some (cmd_unpack reply).t

/-- The balance that is asked for is the one at the ATM's number. -/
def ReadsOwn (b : Bank) (m : Fields) : Prop :=
  b.ValidAccount m.i ∧ b.accounts m.i.toNat = b.accounts m.f.toNat

/-- **The replies are faithful** exactly to the commands of which this is true: a BALANCE of a
valid account finds, at the ATM's own number, an account with the same balance; and a WITHDRAW
or BALANCE of an unknown account has the same number in its `to` field. -/
theorem bank_faithful_iff (b : Bank) (cmd : Command) (hi : b.ValidAtm (cmd_unpack cmd).i) :
    Faithful b cmd ↔
      ((cmd_unpack cmd).c = BALANCE → b.ValidAccount (cmd_unpack cmd).f →
        ReadsOwn b (cmd_unpack cmd)) ∧
      ((cmd_unpack cmd).c = WITHDRAW ∨ (cmd_unpack cmd).c = BALANCE →
        ¬ b.ValidAccount (cmd_unpack cmd).f → (cmd_unpack cmd).t = (cmd_unpack cmd).f) := by
  constructor
  · intro h
    constructor
    · intro hc hf
      -- whatever lies next to the array is not the balance of the account
      have hreply : ∀ stray, b.load (Env.reliable stray) (cmd_unpack cmd).i
          = b.accounts (cmd_unpack cmd).f.toNat := by
        intro stray
        obtain ⟨reply, hreply, -, hamt⟩ := h.balance hc hf (Env.reliable stray) 0
        rw [bank_balance_reply _ 0 hi hc hf] at hreply
        obtain rfl := Option.some.inj hreply
        rw [MSG_OK, cmd_unpack_pack] at hamt
        exact hamt
      by_cases hown : b.ValidAccount (cmd_unpack cmd).i
      · refine ⟨hown, ?_⟩
        rw [← hreply (fun _ => 0), load_of_valid _ hown]
      · have hstray := hreply (fun _ => b.accounts (cmd_unpack cmd).f.toNat + 1)
        rw [load_of_not_valid _ hown] at hstray
        exact absurd hstray (by simp [Env.reliable])
    · intro hc hf
      have hknows : ¬ b.Knows (cmd_unpack cmd) := mt (knows_iff_from hc).mp hf
      have hreq : isRequest (cmd_unpack cmd).c = true := by
        rcases hc with hc | hc <;> rw [hc] <;> decide
      obtain ⟨reply, hreply, hcode⟩ := (bank_request (Env.reliable fun _ => 0) 0 hi hreq).reply
      rw [(answer_eq_accunkn_iff b _).mpr hknows] at hcode
      have hfailed := h.unknown _ _ reply hreply hcode
      rw [bank_names _ 0 hi reply hreply hcode] at hfailed
      exact (failedAccount_eq_namedAccount_iff hknows).mp hfailed hc
  · rintro ⟨hbalance, hunknown⟩
    refine ⟨?_, ?_, ?_⟩
    · intro hc hf env n
      obtain ⟨hown, heq⟩ := hbalance hc hf
      refine ⟨_, congrArg Call.reply (bank_balance_reply env n hi hc hf), ?_, ?_⟩
      · rw [MSG_OK, cmd_unpack_pack]
      · rw [MSG_OK, cmd_unpack_pack, load_of_valid env hown]
        exact heq
    · intro hc hf write stray stray' n
      obtain ⟨hown, -⟩ := hbalance hc hf
      rw [bank_balance_reply _ n hi hc hf, bank_balance_reply _ n hi hc hf, load_of_valid _ hown,
        load_of_valid _ hown]
      rfl
    · intro env n reply hreply hcode
      have hans : answer b (cmd_unpack cmd) = ACCUNKN := by
        have hbank := bank_code env b n cmd
        rw [Call.code, hreply, Option.map_some, hcode] at hbank
        split_ifs at hbank with hserved
        exact (Option.some.inj hbank).symm
      have hknows := (answer_eq_accunkn_iff b _).mp hans
      rw [bank_names env n hi reply hreply hcode]
      apply (failedAccount_eq_namedAccount_iff hknows).mpr
      intro hc
      exact hunknown hc (mt (knows_iff_from hc).mpr hknows)

/-- A bank with two ATMs and two accounts, of which the first holds 5. -/
def twoAccounts : Bank := ⟨fun k => if k = 0 then 5 else 0, 2, 2⟩

/-- ATM 0 may ask for account 0. -/
theorem bank_faithful_iff_own : Faithful twoAccounts (MSG_BALANCE 0 0) := by
  refine (bank_faithful_iff twoAccounts (MSG_BALANCE 0 0) (by decide)).mpr ⟨?_, ?_⟩
  · intro _ _
    exact ⟨by decide, by decide⟩
  · intro _ hf
    exact absurd (by decide) hf

/-- ATM 1 asks for account 0 and is told of account 1; and a WITHDRAW from account 7 is answered
with the unknown account -1, the `to` field of the command. -/
theorem bank_unfaithful :
    (∀ stray, (bank (Env.reliable stray) twoAccounts 2 (MSG_BALANCE 1 0)).reply
      = some (MSG_OK 0 0 (-1) 0)) ∧
    ¬ Faithful twoAccounts (MSG_BALANCE 1 0) ∧
    (∀ stray, (bank (Env.reliable stray) twoAccounts 2 (MSG_WITHDRAW 0 7 1)).reply
      = some (MSG_ACCUNKN 0 (-1))) ∧
    ¬ Faithful twoAccounts (MSG_WITHDRAW 0 7 1) := by
  have hbalance : ∀ stray, (bank (Env.reliable stray) twoAccounts 2 (MSG_BALANCE 1 0)).reply
      = some (MSG_OK 0 0 (-1) 0) := fun _ => rfl
  have hwithdraw : ∀ stray, (bank (Env.reliable stray) twoAccounts 2 (MSG_WITHDRAW 0 7 1)).reply
      = some (MSG_ACCUNKN 0 (-1)) := fun _ => rfl
  refine ⟨hbalance, ?_, hwithdraw, ?_⟩
  · intro h
    obtain ⟨reply, hreply, -, hamt⟩ := h.balance (by decide) (by decide) (Env.reliable 0) 2
    rw [hbalance] at hreply
    obtain rfl := Option.some.inj hreply
    exact absurd hamt (by decide)
  · intro h
    exact absurd (h.unknown _ _ _ (hwithdraw 0) (by decide)) (by decide)

/-! ## Calls that fail -/

/-- The update comes before the reply: the accounts and the counter are the same whether the
reply is written whole or not. -/
theorem bank_write (env env' : Env) (b : Bank) (n : CInt) (cmd : Command) :
    (bank env b n cmd).bank = (bank env' b n cmd).bank ∧
      (bank env b n cmd).atm_cnt = (bank env' b n cmd).atm_cnt := by
  refine ⟨by rw [bank_bank, bank_bank], ?_⟩
  by_cases hi : b.ValidAtm (cmd_unpack cmd).i
  · by_cases hc : isRequest (cmd_unpack cmd).c = true
    · rw [(bank_request env n hi hc).atm_cnt, (bank_request env' n hi hc).atm_cnt]
    · have hc' : isRequest (cmd_unpack cmd).c = false := by simpa using hc
      rw [bank_unknown_cmd env n hi hc', bank_unknown_cmd env' n hi hc']
  · rw [bank_unknown_atm env n hi, bank_unknown_atm env' n hi]

/-- A command that changes something if it is accepted: the three that move money, and EXIT. -/
def Updates (b : Bank) (m : Fields) : Prop :=
  m.c = EXIT ∨ (answer b m = OK ∧ (m.c = DEPOSIT ∨ m.c = WITHDRAW ∨ m.c = TRANSFER))

theorem post_of_not_updates {b : Bank} {m : Fields} (h : ¬ Updates b m) : b.post m = b := by
  unfold Updates at h
  rw [not_or, not_and_or] at h
  rcases h.2 with hans | hc
  · exact answer_not_ok_post hans
  · rw [not_or, not_or] at hc
    exact post_of_no_entry (entry_eq_zero hc)

/-- **A call that fails** leaves the bank as it was, unless it is the reply to an update that was
not written whole; and then the accounts and the counter are what they are when the reply is. -/
theorem bank_failed (env : Env) (b : Bank) (n : CInt) (cmd : Command)
    (hfail : (bank env b n cmd).result ≠ SUCCESS) :
    (¬ ((bank env b n cmd).result = ERR_PIPE_WRITE_ERR ∧ Updates b (cmd_unpack cmd)) →
      (bank env b n cmd).bank = b ∧ (bank env b n cmd).atm_cnt = n) ∧
    (bank env b n cmd).bank = (bank (Env.reliable env.stray) b n cmd).bank ∧
      (bank env b n cmd).atm_cnt = (bank (Env.reliable env.stray) b n cmd).atm_cnt := by
  refine ⟨?_, bank_write env _ b n cmd⟩
  intro hupdate
  by_cases hi : b.ValidAtm (cmd_unpack cmd).i
  · by_cases hc : isRequest (cmd_unpack cmd).c = true
    · have hserved := bank_request env n hi hc
      have hwrite : check_pipe_write (env.write (cmd_unpack cmd).i) = ERR_PIPE_WRITE_ERR := by
        rw [hserved.result] at hfail
        unfold check_pipe_write at hfail ⊢
        split_ifs at hfail ⊢
        · rfl
        · rfl
        · exact absurd rfl hfail
      rw [hserved.result] at hupdate
      have hnot : ¬ Updates b (cmd_unpack cmd) := fun h => hupdate ⟨hwrite, h⟩
      refine ⟨?_, ?_⟩
      · rw [hserved.bank, post_of_not_updates hnot]
      · rw [hserved.atm_cnt, countdown, if_neg (fun hexit => hnot (.inl hexit))]
    · rw [bank_unknown_cmd env n hi (by simpa using hc)]
      exact ⟨rfl, rfl⟩
  · rw [bank_unknown_atm env n hi]
    exact ⟨rfl, rfl⟩

/-- A WITHDRAW that is refused, with a reply that is not written. -/
theorem bank_failed_withdraw :
    (bank ⟨fun _ => -1, 0⟩ twoAccounts 2 (MSG_WITHDRAW 0 1 3)).bank = twoAccounts := by
  have hfailed := bank_failed ⟨fun _ => -1, 0⟩ twoAccounts 2 (MSG_WITHDRAW 0 1 3) (by decide)
  refine (hfailed.1 ?_).1
  rintro ⟨-, hexit | ⟨hans, -⟩⟩
  · exact absurd hexit (by decide)
  · exact absurd hans (by decide)

/-- A DEPOSIT whose reply is not written: the call fails and the account has got the money. -/
theorem bank_failed_deposit :
    (bank ⟨fun _ => -1, 0⟩ twoAccounts 2 (MSG_DEPOSIT 0 1 3)).result = ERR_PIPE_WRITE_ERR ∧
      (bank ⟨fun _ => -1, 0⟩ twoAccounts 2 (MSG_DEPOSIT 0 1 3)).bank.accounts 1 = 3 ∧
      ¬ (bank ⟨fun _ => -1, 0⟩ twoAccounts 2 (MSG_DEPOSIT 0 1 3)).bank = twoAccounts := by
  have hpaid : (bank ⟨fun _ => -1, 0⟩ twoAccounts 2 (MSG_DEPOSIT 0 1 3)).bank.accounts 1 = 3 := by
    decide
  refine ⟨by decide, hpaid, ?_⟩
  intro h
  rw [h] at hpaid
  exact absurd hpaid (by decide)

end ProjectsInC.BankAtm
