/-
Does the schedule matter?

The only place where the order of the commands shows is the funds check. If it
never fails, acceptance is a matter of the account numbers alone
([`answer_eq_ok_iff`]), every accepted command adds its [`entry`] whatever the
balances are, and addition commutes. So the final accounts are a sum over the
messages the bank has taken, and two complete runs have taken the same ones in
a different order.
-/
import ProjectsInC.BankAtm.Shutdown

set_option autoImplicit false

namespace ProjectsInC.BankAtm

open Status

/-- The code of a logged reply. -/
def replyCode (reply : Option Command) : Option Byte := reply.map (fun msg => (cmd_unpack msg).c)

/-- What a logged message has added to account `k`. -/
def posted (k : ℕ) (e : Command × Option Command) : CInt :=
  if replyCode e.2 = some OK then entry (cmd_unpack e.1) k else 0

/-- The account fields the command reads are accounts of the trace's bank. -/
def Trace.Knows (tr : Trace) (m : Fields) : Prop :=
  (bank_open (fun _ => 0) tr.atm_cnt tr.account_cnt).Knows m

instance (tr : Trace) (m : Fields) : Decidable (tr.Knows m) := by
  unfold Trace.Knows; infer_instance

/-- What a message adds to account `k` if no funds check stands in its way. -/
def due (tr : Trace) (k : ℕ) (cmd : Command) : CInt :=
  if tr.Knows (cmd_unpack cmd) then entry (cmd_unpack cmd) k else 0

/-- The range check reads the account count only. -/
theorem knows_congr {b b' : Bank} (h : b.account_count = b'.account_count) (m : Fields) :
    b.Knows m ↔ b'.Knows m := by
  simp only [Bank.Knows, Bank.ValidAccount, h]

/-- The balances are what the log has posted, and a logged reply other than
NOFUNDS is OK exactly if the accounts exist. -/
structure PostInv (tr : Trace) (s : Sim) : Prop where
  account_count : s.bank.account_count = tr.account_cnt
  accounts : ∀ k : ℕ, (k : ℤ) < tr.account_cnt.toInt →
    s.bank.accounts k = (s.log.map (posted k)).sum
  codes : ∀ e ∈ s.log, replyCode e.2 ≠ some NOFUNDS →
    (replyCode e.2 = some OK ↔ tr.Knows (cmd_unpack e.1))

theorem postInv_init (garbage : ℕ → CInt) (tr : Trace) : PostInv tr (Sim.init garbage tr) where
  account_count := rfl
  accounts := fun k hk => by simp [Sim.init, bank_open, hk]
  codes := fun e h => absurd h List.not_mem_nil

theorem Step.postInv {tr : Trace} {s s' : Sim} (hs : Inv tr s) (hp : PostInv tr s)
    (h : Step tr s s') : PostInv tr s' := by
  cases h with
  | atm k hk h =>
      cases atmStep_cases h <;> exact ⟨hp.account_count, hp.accounts, hp.codes⟩
  | bank stray h =>
      cases bankStep_cases h with
      | close hr hz => exact ⟨hp.account_count, hp.accounts, hp.codes⟩
      | serve cmd rest hr hz hb =>
          have hserved := hs.served_head hb stray
          obtain ⟨msg, hmsg, hcode⟩ := hserved.reply
          have hreply : replyCode (BankAtm.bank (Env.reliable stray) s.bank s.atm_cnt cmd).reply
              = some (answer s.bank (cmd_unpack cmd)) := by
            rw [hmsg, replyCode, Option.map_some, hcode]
          -- the balances grow by what the new entry of the log posts
          refine ⟨?_, fun k hk => ?_, fun e he hne => ?_⟩
          · exact (bank_account_count _ _ _ _).trans hp.account_count
          · simp only [List.map_append, List.map_cons, List.map_nil, List.sum_append,
              List.sum_cons, List.sum_nil, add_zero, posted, hreply, Option.some.injEq]
            rw [hserved.bank, post_accounts, hp.accounts k hk]
          · rcases List.mem_append.mp he with hold | hnew
            · exact hp.codes e hold hne
            · rw [List.mem_singleton.mp hnew] at hne ⊢
              simp only [hreply, ne_eq, Option.some.injEq] at hne ⊢
              rw [answer_eq_ok_iff hne]
              exact knows_congr hp.account_count _

theorem Reachable.postInv {garbage : ℕ → CInt} {tr : Trace} {s : Sim}
    (h : Reachable garbage tr s) : PostInv tr s :=
  h.induct_inv (postInv_init garbage tr) (fun _ _ hs hp hst => hst.postInv hs hp)

/-- No command has been answered NOFUNDS. -/
def Funded (s : Sim) : Prop := ∀ e ∈ s.log, replyCode e.2 ≠ some NOFUNDS

/-- The bank has processed every command of every ATM. -/
def Complete (tr : Trace) (s : Sim) : Prop :=
  ∀ k : ℕ, (k : ℤ) < tr.atm_cnt.toInt → (s.served k).map Prod.fst = mine k tr.cmds

/-- Without a NOFUNDS, a balance is a sum over the messages taken, and nothing
in a summand depends on when it was taken. -/
theorem PostInv.accounts_eq_due {tr : Trace} {s : Sim} (hp : PostInv tr s) (hf : Funded s)
    {k : ℕ} (hk : (k : ℤ) < tr.account_cnt.toInt) :
    s.bank.accounts k = (s.processed.map (due tr k)).sum := by
  rw [hp.accounts k hk, Sim.processed, List.map_map]
  congr 1
  apply List.map_congr_left
  intro e he
  have hcode := hp.codes e he (hf e he)
  simp only [posted, due, Function.comp_apply]
  by_cases h : tr.Knows (cmd_unpack e.1)
  · rw [if_pos (hcode.mpr h), if_pos h]
  · rw [if_neg (fun hok => h (hcode.mp hok)), if_neg h]

/-- Two complete runs of one trace have taken the same messages. -/
theorem processed_perm {tr : Trace} {s s' : Sim} (hs : Inv tr s) (hs' : Inv tr s')
    (hc : Complete tr s) (hc' : Complete tr s') : s.processed.Perm s'.processed := by
  refine Lib.perm_of_filter_eq (classes_disjoint tr) hs.processed_covered hs'.processed_covered
    (fun k hk => ?_)
  have hk' := Trace.mem_atms.mp hk
  have h := (hc k hk').trans (hc' k hk').symm
  rw [served_map_fst, served_map_fst] at h
  exact h

/-- **Schedule independence.** Two complete runs of one trace in which no
command is answered NOFUNDS end with the same accounts. -/
theorem schedule_independence (garbage garbage' : ℕ → CInt) (tr : Trace) (s s' : Sim)
    (hs : Reachable garbage tr s) (hs' : Reachable garbage' tr s')
    (hc : Complete tr s) (hc' : Complete tr s') (hf : Funded s) (hf' : Funded s')
    (k : ℕ) (hk : (k : ℤ) < tr.account_cnt.toInt) :
    s.bank.accounts k = s'.bank.accounts k := by
  rw [hs.postInv.accounts_eq_due hf hk, hs'.postInv.accounts_eq_due hf' hk]
  exact ((processed_perm hs.inv hs'.inv hc hc').map _).sum_eq

/-- Two ATMs that pay into one account. -/
def twoDeposits : Trace where
  atm_cnt := 2
  account_cnt := 1
  cmds := [MSG_DEPOSIT 0 0 5, MSG_DEPOSIT 1 0 7]

/-- The run in trace order. -/
def inOrder : Option Sim :=
  (Sim.init (fun _ => 0) twoDeposits).follow twoDeposits
    [.atm 0, .bank, .atm 1, .atm 1, .bank]

/-- The run with the second ATM first. -/
def reversed : Option Sim :=
  (Sim.init (fun _ => 0) twoDeposits).follow twoDeposits
    [.atm 1, .atm 1, .atm 0, .bank, .bank]

theorem schedule_independence_deposits :
    (inOrder.get (by decide)).bank.accounts 0 = (reversed.get (by decide)).bank.accounts 0 := by
  have hatms : twoDeposits.atm_cnt.toInt = 2 := by decide
  have hcases : ∀ k : ℕ, (k : ℤ) < twoDeposits.atm_cnt.toInt → k = 0 ∨ k = 1 := by
    intro k hk
    omega
  refine schedule_independence _ _ twoDeposits _ _
    (reachable_follow [.atm 0, .bank, .atm 1, .atm 1, .bank]
      Relation.ReflTransGen.refl (Option.some_get _).symm)
    (reachable_follow [.atm 1, .atm 1, .atm 0, .bank, .bank]
      Relation.ReflTransGen.refl (Option.some_get _).symm)
    ?_ ?_ ?_ ?_ 0 (by decide)
  · intro k hk
    rcases hcases k hk with rfl | rfl <;> decide
  · intro k hk
    rcases hcases k hk with rfl | rfl <;> decide
  · unfold Funded; decide
  · unfold Funded; decide

end ProjectsInC.BankAtm
