/-
`errors.c`: what the child processes of `banksim.c` print.

`error_print` does not print the status a process returns but the last one that was
handed to `error_msg`. The checks of pipes, ATMs and accounts hand theirs on; nobody
does so for ERR_UNKNOWN_CMD. A bank that stops at an unknown command therefore
reports the last message it has refused, and SUCCESS if it has refused none
([`run_bank_reports`]), and such an ATM always reports SUCCESS ([`atm_run_reports`]).
-/
import ProjectsInC.Decimal
import ProjectsInC.Stdio
import ProjectsInC.BankAtm.Banksim
import ProjectsInC.BankAtm.TraceFile

set_option autoImplicit false

namespace ProjectsInC.BankAtm

open Status

/-! ## `errors.c` -/

/-- The numbers of `errors.h`. -/
def Status.code : Status → CInt
  | SUCCESS => 1
  | ERR_UNKNOWN_CMD => 2
  | ERR_PIPE_READ_ERR => 3
  | ERR_PIPE_WRITE_ERR => 4
  | ERR_UNKNOWN_ACCOUNT => 5
  | ERR_UNKNOWN_ATM => 6
  | ERR_BAD_TRACE_FILE => 7
  | ERR_NOFUNDS => 8

/-- `error_strings` -/
def error_strings : List (List Byte) :=
  [ascii "SUCCESS", ascii "ERR_UNKNOWN_CMD", ascii "ERR_PIPE_READ_ERR", ascii "ERR_PIPE_WRITE_ERR",
    ascii "ERR_UNKNOWN_ACCOUNT", ascii "ERR_UNKNOWN_ATM", ascii "ERR_BAD_TRACE_FILE",
    ascii "ERR_NOFUNDS"]

/-- `ERROR_BUFFER_SIZE` -/
def ERROR_BUFFER_SIZE : ℕ := 200

/-- The statics `err` and `errm`. -/
structure ErrorRecord where
  err : CInt
  errm : List Byte

/-- The statics of a new process. -/
def ErrorRecord.start : ErrorRecord := ⟨0, List.replicate ERROR_BUFFER_SIZE 0⟩

/-- `strncpy` of a string without NULs: it is cut or filled up with NULs. -/
def strncpy (msg : List Byte) (n : ℕ) : List Byte := msg.take n ++ List.replicate (n - msg.length) 0

/-- `error_msg` -/
def error_msg (error : Status) (msg : List Byte) : ErrorRecord :=
  ⟨error.code - 1, (strncpy msg ERROR_BUFFER_SIZE).set (ERROR_BUFFER_SIZE - 1) 0⟩

/-- `error_print`; `none` if it reads outside `error_strings`. -/
def error_print (e : ErrorRecord) : Option (List Byte) :=
  if 0 ≤ e.err.toInt ∧ e.err.toInt < error_strings.length then
    some (ascii "ERROR " ++ intText (e.err + 1) ++ ascii " " ++ error_strings.getD e.err.toNat []
      ++ ascii "\n")
  else none

/-! ### What a record reports -/

/-- The text `error_print` prints for a status. -/
def Status.line (status : Status) : List Byte :=
  ascii "ERROR " ++ intText status.code ++ ascii " " ++
    error_strings.getD (status.code - 1).toNat [] ++ ascii "\n"

/-- The record holds this status; a process without errors holds SUCCESS. -/
def Reports (e : ErrorRecord) (status : Status) : Prop := e.err = status.code - 1

theorem reports_start : Reports ErrorRecord.start SUCCESS := by
  unfold Reports
  decide

theorem reports_error_msg (status : Status) (msg : List Byte) :
    Reports (error_msg status msg) status := rfl

/-- A recorded status has its place in the table. -/
theorem error_print_of_reports {e : ErrorRecord} {status : Status} (h : Reports e status) :
    error_print e = some status.line := by
  have htable : 0 ≤ (status.code - 1).toInt ∧ (status.code - 1).toInt < error_strings.length := by
    cases status <;> decide
  rw [error_print, h, if_pos htable, BitVec.sub_add_cancel, Status.line]

/-! ## The checks, with what they record -/

/-- What `check_pipe_write` records. -/
def record_pipe_write (result : ℤ) (e : ErrorRecord) : ErrorRecord :=
  if result < 0 then
    error_msg ERR_PIPE_WRITE_ERR (ascii "could not write to atm output file descriptor")
  else if result < MESSAGE_SIZE then
    error_msg ERR_PIPE_WRITE_ERR (ascii "partial message written to atm output file descriptor")
  else e

/-- What `check_pipe_read` records. -/
def record_pipe_read (result : ℤ) (e : ErrorRecord) : ErrorRecord :=
  if result < 0 then
    error_msg ERR_PIPE_READ_ERR (ascii "could not read from bank input file descriptor")
  else if result < MESSAGE_SIZE then
    error_msg ERR_PIPE_READ_ERR (ascii "partial message read from bank input file descriptor")
  else e

/-- What `check_valid_atm` records. -/
def record_valid_atm (b : Bank) (atmid : CInt) (e : ErrorRecord) : ErrorRecord :=
  if 0 ≤ atmid.toInt ∧ atmid.toInt < b.atm_count.toInt then e
  else error_msg ERR_UNKNOWN_ATM (ascii "message received from unknown ATM")

/-- What `check_valid_account` records. -/
def record_valid_account (b : Bank) (accountid : CInt) (e : ErrorRecord) : ErrorRecord :=
  if 0 ≤ accountid.toInt ∧ accountid.toInt < b.account_count.toInt then e
  else error_msg ERR_UNKNOWN_ACCOUNT (ascii "message received for unknown account")

section Checks

variable {e : ErrorRecord} {status : Status}

/-- A check of a `write` records its own status if that is an error. -/
theorem record_pipe_write_reports (result : ℤ) (h : Reports e status) :
    Reports (record_pipe_write result e)
      (if check_pipe_write result = SUCCESS then status else ERR_PIPE_WRITE_ERR) := by
  unfold record_pipe_write check_pipe_write
  split_ifs <;> first | exact reports_error_msg _ _ | exact h | contradiction

theorem record_pipe_read_reports (result : ℤ) (h : Reports e status) :
    Reports (record_pipe_read result e)
      (if check_pipe_read result = SUCCESS then status else ERR_PIPE_READ_ERR) := by
  unfold record_pipe_read check_pipe_read
  split_ifs <;> first | exact reports_error_msg _ _ | exact h | contradiction

theorem record_valid_account_reports {b : Bank} (i : CInt) (h : Reports e status) :
    Reports (record_valid_account b i e)
      ((if b.ValidAccount i then none else some ERR_UNKNOWN_ACCOUNT).getD status) := by
  by_cases hi : b.ValidAccount i
  · have hkeep : record_valid_account b i e = e := if_pos hi
    rw [hkeep, if_pos hi]
    exact h
  · have hrecord : record_valid_account b i e
        = error_msg ERR_UNKNOWN_ACCOUNT (ascii "message received for unknown account") := if_neg hi
    rw [hrecord, if_neg hi]
    exact reports_error_msg _ _

/-- A check of a pipe has two results. -/
theorem check_pipe_write_cases (result : ℤ) :
    check_pipe_write result = SUCCESS ∨ check_pipe_write result = ERR_PIPE_WRITE_ERR := by
  unfold check_pipe_write
  split_ifs <;> simp

theorem check_pipe_read_cases (result : ℤ) :
    check_pipe_read result = SUCCESS ∨ check_pipe_read result = ERR_PIPE_READ_ERR := by
  unfold check_pipe_read
  split_ifs <;> simp

end Checks

/-! ## `bank` -/

/-- What `bank` records: the checks of its blocks, each of which ends with a `write`. -/
def bank_record (env : Env) (b : Bank) (cmd : Command) (e : ErrorRecord) : ErrorRecord :=
  let m := cmd_unpack cmd
  let sent (e : ErrorRecord) := record_pipe_write (env.write m.i) e
  let e := record_valid_atm b m.i e
  if check_valid_atm b m.i ≠ SUCCESS then e
  else
    let e := if m.c = CONNECT then sent e else e
    let e := if m.c = EXIT then sent e else e
    let e := if m.c = DEPOSIT then sent (record_valid_account b m.t e) else e
    let e := if m.c = WITHDRAW then sent (record_valid_account b m.f e) else e
    let e :=
      if m.c = TRANSFER then
        let e := record_valid_account b m.f e
        sent (if check_valid_account b m.f ≠ SUCCESS then e else record_valid_account b m.t e)
      else e
    if m.c = BALANCE then sent (record_valid_account b m.f e) else e

/-- What the bank refuses a message for: an ATM or an account it does not know. -/
def Bank.refusal (b : Bank) (cmd : Command) : Option Status :=
  if ¬ b.ValidAtm (cmd_unpack cmd).i then some ERR_UNKNOWN_ATM
  else if ¬ b.Knows (cmd_unpack cmd) then some ERR_UNKNOWN_ACCOUNT
  else none

section Bank

variable {b : Bank} {cmd : Command}

theorem refusal_unknown_atm (hi : ¬ b.ValidAtm (cmd_unpack cmd).i) :
    b.refusal cmd = some ERR_UNKNOWN_ATM := if_pos hi

theorem refusal_known_atm (hi : b.ValidAtm (cmd_unpack cmd).i) :
    b.refusal cmd = if b.Knows (cmd_unpack cmd) then none else some ERR_UNKNOWN_ACCOUNT := by
  rw [Bank.refusal, if_neg (not_not.mpr hi), ite_not]

/-- A message that is no request names no account. -/
theorem knows_of_not_request (hc : isRequest (cmd_unpack cmd).c = false) :
    b.Knows (cmd_unpack cmd) := by
  have hnot : ∀ c, isRequest c = true → (cmd_unpack cmd).c ≠ c := by
    rintro c hreq rfl
    rw [hc] at hreq
    exact Bool.false_ne_true hreq
  refine ⟨fun h => ?_, fun h => ?_, fun h => ?_, fun h => ?_⟩
  · exact absurd h (hnot _ (by decide))
  · exact absurd h (hnot _ (by decide))
  · exact absurd h (hnot _ (by decide))
  · exact absurd h (hnot _ (by decide))

/-- What a request of a known ATM has recorded before the check of its `write`. -/
theorem bank_record_request (env : Env) (hi : b.ValidAtm (cmd_unpack cmd).i)
    (hc : isRequest (cmd_unpack cmd).c = true) {e : ErrorRecord} {status : Status}
    (h : Reports e status) :
    ∃ e', Reports e' ((b.refusal cmd).getD status) ∧
      bank_record env b cmd e = record_pipe_write (env.write (cmd_unpack cmd).i) e' := by
  have hatm : record_valid_atm b (cmd_unpack cmd).i e = e := if_pos hi
  have hcheck : check_valid_atm b (cmd_unpack cmd).i = SUCCESS := (check_valid_atm_iff b _).mpr hi
  have haccount := fun i => @record_valid_account_reports _ _ b i h
  rw [refusal_known_atm hi]
  simp only [isRequest, Bool.or_eq_true, beq_iff_eq] at hc
  simp only [bank_record, hatm, hcheck, ne_eq, not_true, if_false]
  rcases hc with ((((hc | hc) | hc) | hc) | hc) | hc
  -- in each case one block is left, and of `Knows` the accounts that it names
  all_goals
    simp only [hc, CONNECT, EXIT, DEPOSIT, WITHDRAW, TRANSFER, BALANCE, Bank.Knows, BitVec.reduceEq,
      if_true, if_false, false_implies, true_implies, true_and, and_true, check_valid_account_iff]
  case inl.inl.inl.inl.inl => exact ⟨e, h, rfl⟩
  case inl.inl.inl.inl.inr => exact ⟨e, h, rfl⟩
  case inl.inl.inl.inr => exact ⟨_, haccount _, rfl⟩
  case inl.inl.inr =>
      refine ⟨_, ?_, rfl⟩
      by_cases hf : b.ValidAccount (cmd_unpack cmd).f
      · rw [if_neg (not_not.mpr hf)]
        have hboth := haccount (cmd_unpack cmd).f
        rw [if_pos hf] at hboth
        have hto := @record_valid_account_reports _ _ b (cmd_unpack cmd).t hboth
        simpa only [hf, true_and, Option.getD_none] using hto
      · rw [if_pos hf, if_neg (fun hboth => hf hboth.1)]
        simpa only [hf, if_false] using haccount (cmd_unpack cmd).f
  case inl.inr => exact ⟨_, haccount _, rfl⟩
  case inr => exact ⟨_, haccount _, rfl⟩

/-- A message with an unknown command byte is not checked any further. -/
theorem bank_record_not_request (env : Env) (hi : b.ValidAtm (cmd_unpack cmd).i)
    (hc : isRequest (cmd_unpack cmd).c = false) (e : ErrorRecord) :
    bank_record env b cmd e = e := by
  have hatm : record_valid_atm b (cmd_unpack cmd).i e = e := if_pos hi
  have hcheck : check_valid_atm b (cmd_unpack cmd).i = SUCCESS := (check_valid_atm_iff b _).mpr hi
  simp only [isRequest, Bool.or_eq_false_iff, beq_eq_false_iff_ne, ne_eq] at hc
  obtain ⟨⟨⟨⟨⟨h1, h2⟩, h3⟩, h4⟩, h5⟩, h6⟩ := hc
  simp only [bank_record, hatm, hcheck, ne_eq, not_true, h1, h2, h3, h4, h5, h6, if_false]

/-- The results of `bank`. -/
theorem bank_result_cases (env : Env) (b : Bank) (n : CInt) (cmd : Command) :
    (¬ b.ValidAtm (cmd_unpack cmd).i ∧ (bank env b n cmd).result = ERR_UNKNOWN_ATM) ∨
      (b.ValidAtm (cmd_unpack cmd).i ∧ (bank env b n cmd).result = ERR_UNKNOWN_CMD) ∨
      (b.ValidAtm (cmd_unpack cmd).i ∧ (bank env b n cmd).result = SUCCESS) ∨
      (b.ValidAtm (cmd_unpack cmd).i ∧ (bank env b n cmd).result = ERR_PIPE_WRITE_ERR) := by
  by_cases hi : b.ValidAtm (cmd_unpack cmd).i
  · cases hc : isRequest (cmd_unpack cmd).c with
    | false => exact .inr (.inl ⟨hi, by rw [bank_unknown_cmd env n hi hc]⟩)
    | true =>
        rw [(bank_request env n hi hc).result]
        rcases check_pipe_write_cases (env.write (cmd_unpack cmd).i) with hw | hw
        · exact .inr (.inr (.inl ⟨hi, hw⟩))
        · exact .inr (.inr (.inr ⟨hi, hw⟩))
  · exact .inl ⟨hi, by rw [bank_unknown_atm env n hi]⟩

/-- **What a call of `bank` records**: a failed `write` if there is one, else what it refuses. -/
theorem bank_record_reports (env : Env) (n : CInt) {e : ErrorRecord} {status : Status}
    (h : Reports e status) :
    Reports (bank_record env b cmd e)
      (if (bank env b n cmd).result = ERR_PIPE_WRITE_ERR then ERR_PIPE_WRITE_ERR
        else (b.refusal cmd).getD status) := by
  by_cases hi : b.ValidAtm (cmd_unpack cmd).i
  · cases hc : isRequest (cmd_unpack cmd).c with
    | false =>
        have hknows : b.Knows (cmd_unpack cmd) := knows_of_not_request hc
        rw [bank_unknown_cmd env n hi hc, refusal_known_atm hi, if_pos hknows,
          bank_record_not_request env hi hc]
        exact h
    | true =>
        obtain ⟨e', hreports, hrecord⟩ := bank_record_request env hi hc h
        have hwrite := record_pipe_write_reports (env.write (cmd_unpack cmd).i) hreports
        rw [hrecord, (bank_request env n hi hc).result]
        rcases check_pipe_write_cases (env.write (cmd_unpack cmd).i) with hw | hw
        · simpa [hw] using hwrite
        · simpa [hw] using hwrite
  · have hrecord : bank_record env b cmd e
        = error_msg ERR_UNKNOWN_ATM (ascii "message received from unknown ATM") := by
      have hcheck : check_valid_atm b (cmd_unpack cmd).i ≠ SUCCESS :=
        fun h => hi ((check_valid_atm_iff b _).mp h)
      simp only [bank_record, if_pos hcheck]
      exact if_neg hi
    rw [hrecord, bank_unknown_atm env n hi, refusal_unknown_atm hi]
    exact reports_error_msg _ _

end Bank

/-! ## `run_bank` -/

/-- One round of the loop of `run_bank`: what `read` returns and stores, and what `bank` meets. -/
structure Round where
  read : ℤ
  cmd : Command
  env : Env

/-- The bank process in `run_bank`: its statics, its counter, what it has printed, and the rounds
whose message it has handed to `bank`. -/
structure BankProcess where
  bank : Bank
  atm_cnt : CInt
  errors : ErrorRecord
  printed : List Byte
  handed : List Round

/-- `run_bank` is called. -/
def BankProcess.start (b : Bank) : BankProcess := ⟨b, b.atm_count, ErrorRecord.start, [], []⟩

/-- What `run_bank` prints for a message of an unknown ATM. -/
def ignoring : List Byte := ascii "received message from unknown ATM. Ignoring...\n"

/-- The body of the loop of `run_bank`; a status is returned. -/
def run_bank_round (p : BankProcess) (r : Round) : BankProcess × Option Status :=
  let p := { p with errors := record_pipe_read r.read p.errors }
  if check_pipe_read r.read ≠ SUCCESS then (p, some (check_pipe_read r.read))
  else
    let call := bank r.env p.bank p.atm_cnt r.cmd
    ({ bank := call.bank
       atm_cnt := call.atm_cnt
       errors := bank_record r.env p.bank r.cmd p.errors
       printed := p.printed ++ if call.result = ERR_UNKNOWN_ATM then ignoring else []
       handed := p.handed ++ [r] },
      run_bank_next call.result)

/-- The loop of `run_bank`; `none` if it waits for more than there is. -/
def run_bank (p : BankProcess) : List Round → Option (Status × BankProcess)
  | [] => if p.atm_cnt = 0 then some (SUCCESS, p) else none
  | r :: rounds =>
      if p.atm_cnt = 0 then some (SUCCESS, p)
      else
        match run_bank_round p r with
        | (p, some status) => some (status, p)
        | (p, none) => run_bank p rounds

/-- `bank_dump` -/
def bank_dump (b : Bank) : List Byte :=
  (List.range b.account_count.toInt.toNat).flatMap (fun i =>
    ascii "Account " ++ intText (BitVec.ofNat 32 i) ++ ascii ": " ++ intText (b.accounts i)
      ++ ascii "\n")

/-- All that the bank process prints, its `run_bank` having returned; `none` if `error_print` reads
outside its table. -/
def bank_output (status : Status) (p : BankProcess) : Option (List Byte) :=
  (if status ≠ SUCCESS then error_print p.errors else some []).map
    (fun line => p.printed ++ line ++ bank_dump p.bank)

/-! ### What the bank process prints -/

/-- The last status for which the bank has refused one of these messages. -/
def Bank.lastRefusal (b : Bank) (handed : List Round) : Status :=
  handed.foldl (fun status r => (b.refusal r.cmd).getD status) SUCCESS

/-- The lines for the messages of unknown ATMs. -/
def Bank.ignored (b : Bank) (handed : List Round) : List Byte :=
  handed.flatMap (fun r => if b.ValidAtm (cmd_unpack r.cmd).i then [] else ignoring)

/-- The counts of the header are those of the bank that was opened. -/
def Bank.SameCounts (b b' : Bank) : Prop :=
  b'.account_count = b.account_count ∧ b'.atm_count = b.atm_count

/-- What holds of the process between two rounds, for a bank opened as `b`. -/
structure Told (b : Bank) (p : BankProcess) : Prop where
  counts : b.SameCounts p.bank
  printed : p.printed = b.ignored p.handed
  reports : Reports p.errors (b.lastRefusal p.handed)

/-- What holds of it when `run_bank` has returned. -/
structure Exited (b : Bank) (status : Status) (p : BankProcess) : Prop where
  printed : p.printed = b.ignored p.handed
  reports : status ≠ SUCCESS →
    Reports p.errors (if status = ERR_UNKNOWN_CMD then b.lastRefusal p.handed else status)

section Told

variable {b b' : Bank} {p : BankProcess}

theorem Bank.SameCounts.validAtm (h : b.SameCounts b') (i : CInt) :
    b'.ValidAtm i ↔ b.ValidAtm i := by
  rw [Bank.ValidAtm, Bank.ValidAtm, h.2]

theorem Bank.SameCounts.knows (h : b.SameCounts b') (m : Fields) : b'.Knows m ↔ b.Knows m := by
  simp only [Bank.Knows, Bank.ValidAccount, h.1]

theorem Bank.SameCounts.refusal (h : b.SameCounts b') (cmd : Command) :
    b'.refusal cmd = b.refusal cmd := by
  simp only [Bank.refusal, h.validAtm, h.knows]

theorem lastRefusal_snoc (handed : List Round) (r : Round) :
    b.lastRefusal (handed ++ [r]) = (b.refusal r.cmd).getD (b.lastRefusal handed) := by
  rw [Bank.lastRefusal, List.foldl_append]
  rfl

theorem ignored_snoc (handed : List Round) (r : Round) :
    b.ignored (handed ++ [r])
      = b.ignored handed ++ if b.ValidAtm (cmd_unpack r.cmd).i then [] else ignoring := by
  rw [Bank.ignored, List.flatMap_append, List.flatMap_singleton]
  rfl

theorem told_start (b : Bank) : Told b (BankProcess.start b) :=
  ⟨⟨rfl, rfl⟩, rfl, reports_start⟩

theorem Told.exited (h : Told b p) : Exited b SUCCESS p :=
  ⟨h.printed, fun hne => absurd rfl hne⟩

/-- A round whose `read` fails. -/
theorem run_bank_round_unread {r : Round} (hread : check_pipe_read r.read = ERR_PIPE_READ_ERR) :
    run_bank_round p r
      = ({ p with errors := record_pipe_read r.read p.errors }, some ERR_PIPE_READ_ERR) := by
  unfold run_bank_round
  rw [hread]
  rfl

/-- A round with a message. -/
theorem run_bank_round_read {r : Round} (hread : check_pipe_read r.read = SUCCESS) :
    run_bank_round p r
      = ({ bank := (bank r.env p.bank p.atm_cnt r.cmd).bank
           atm_cnt := (bank r.env p.bank p.atm_cnt r.cmd).atm_cnt
           errors := bank_record r.env p.bank r.cmd p.errors
           printed := p.printed ++
             if (bank r.env p.bank p.atm_cnt r.cmd).result = ERR_UNKNOWN_ATM then ignoring else []
           handed := p.handed ++ [r] },
          run_bank_next (bank r.env p.bank p.atm_cnt r.cmd).result) := by
  have hkeep : record_pipe_read r.read p.errors = p.errors := by
    revert hread
    unfold check_pipe_read record_pipe_read
    split_ifs <;> simp
  unfold run_bank_round
  rw [hkeep, hread]
  rfl

/-- The line is printed for the messages of an unknown ATM. -/
theorem bank_ignoring (env : Env) (b : Bank) (n : CInt) (cmd : Command) :
    (if (bank env b n cmd).result = ERR_UNKNOWN_ATM then ignoring else [])
      = if b.ValidAtm (cmd_unpack cmd).i then [] else ignoring := by
  rcases bank_result_cases env b n cmd with ⟨hi, hr⟩ | ⟨hi, hr⟩ | ⟨hi, hr⟩ | ⟨hi, hr⟩
  · rw [hr, if_pos rfl, if_neg hi]
  · rw [hr, if_pos hi, if_neg (by decide)]
  · rw [hr, if_pos hi, if_neg (by decide)]
  · rw [hr, if_pos hi, if_neg (by decide)]

/-- **One round.** It hands on one message at most; if it goes on, the process is told as before,
and if it returns, as it says. -/
theorem run_bank_round_spec (h : Told b p) (r : Round) :
    ∃ served, served <+: [r] ∧ (run_bank_round p r).1.handed = p.handed ++ served ∧
      match (run_bank_round p r).2 with
      | none => served = [r] ∧ Told b (run_bank_round p r).1
      | some status => Exited b status (run_bank_round p r).1 := by
  rcases check_pipe_read_cases r.read with hread | hread
  · have hline := bank_ignoring r.env p.bank p.atm_cnt r.cmd
    simp only [h.counts.validAtm] at hline
    have hrecord := @bank_record_reports p.bank r.cmd r.env p.atm_cnt _ _ h.reports
    have hcounts : b.SameCounts (bank r.env p.bank p.atm_cnt r.cmd).bank :=
      ⟨(bank_account_count _ _ _ _).trans h.counts.1, (bank_atm_count _ _ _ _).trans h.counts.2⟩
    rw [h.counts.refusal, ← lastRefusal_snoc] at hrecord
    rw [run_bank_round_read hread, hline, h.printed, ← ignored_snoc]
    refine ⟨[r], List.prefix_rfl, rfl, ?_⟩
    rcases bank_result_cases r.env p.bank p.atm_cnt r.cmd with ⟨hi, hr⟩ | ⟨hi, hr⟩ | ⟨hi, hr⟩ |
      ⟨hi, hr⟩
    · rw [hr] at hrecord ⊢
      exact ⟨rfl, hcounts, rfl, hrecord⟩
    · rw [hr] at hrecord ⊢
      exact ⟨rfl, fun _ => hrecord⟩
    · rw [hr] at hrecord ⊢
      exact ⟨rfl, hcounts, rfl, hrecord⟩
    · rw [hr] at hrecord ⊢
      exact ⟨rfl, fun _ => hrecord⟩
  · have hrecord := record_pipe_read_reports r.read h.reports
    rw [hread] at hrecord
    rw [run_bank_round_unread hread]
    exact ⟨[], List.nil_prefix, (List.append_nil _).symm, h.printed, fun _ => hrecord⟩

/-- The rounds of the loop, by the step lemma. -/
theorem run_bank_spec {rounds : List Round} {status : Status} {p' : BankProcess} (h : Told b p)
    (hrun : run_bank p rounds = some (status, p')) :
    ∃ served, served <+: rounds ∧ p'.handed = p.handed ++ served ∧ Exited b status p' := by
  induction rounds generalizing p with
  | nil =>
      rw [run_bank] at hrun
      split_ifs at hrun with hz
      obtain ⟨rfl, rfl⟩ := Prod.mk.inj (Option.some.inj hrun)
      exact ⟨[], List.nil_prefix, (List.append_nil _).symm, h.exited⟩
  | cons r rounds ih =>
      rw [run_bank] at hrun
      split_ifs at hrun with hz
      · obtain ⟨rfl, rfl⟩ := Prod.mk.inj (Option.some.inj hrun)
        exact ⟨[], List.nil_prefix, (List.append_nil _).symm, h.exited⟩
      · obtain ⟨served, hserved, hhanded, hround⟩ := run_bank_round_spec h r
        rcases hr : run_bank_round p r with ⟨p₁, _ | status₁⟩
        · rw [hr] at hrun hhanded hround
          obtain ⟨rfl, htold⟩ := hround
          obtain ⟨more, hmore, hrest, hended⟩ := ih htold hrun
          refine ⟨r :: more, (List.prefix_cons_inj r).mpr hmore, ?_, hended⟩
          rw [hrest, hhanded, List.append_assoc, List.singleton_append]
        · rw [hr] at hrun hhanded hround
          obtain ⟨rfl, rfl⟩ := Prod.mk.inj (Option.some.inj hrun)
          exact ⟨served, hserved.trans ((List.prefix_cons_inj r).mpr List.nil_prefix), hhanded,
            hround⟩

/-- **What the bank process prints**: a line for every message of an unknown ATM, one error line
if `run_bank` has failed, and the accounts. The error line names the status that `run_bank` has
returned, but for an unknown command, where it names the last refusal. -/
theorem run_bank_reports {rounds : List Round} {status : Status}
    (hrun : run_bank (BankProcess.start b) rounds = some (status, p)) :
    p.handed <+: rounds ∧
      bank_output status p = some (b.ignored p.handed ++
        (if status = SUCCESS then []
          else if status = ERR_UNKNOWN_CMD then (b.lastRefusal p.handed).line
          else status.line) ++ bank_dump p.bank) := by
  obtain ⟨served, hserved, hhanded, hended⟩ := run_bank_spec (told_start b) hrun
  refine ⟨by rw [hhanded]; exact hserved, ?_⟩
  unfold bank_output
  rw [hended.printed]
  by_cases hs : status = SUCCESS
  · rw [if_neg (not_not.mpr hs), if_pos hs]
    rfl
  · rw [if_pos hs, if_neg hs, error_print_of_reports (hended.reports hs), ← apply_ite Status.line]
    rfl

end Told

/-- A message for an account that is not there and one that is no command. -/
theorem run_bank_reports_two :
    ∃ p, run_bank (BankProcess.start (bank_open 0 1 0))
        [⟨17, MSG_DEPOSIT 0 3 5, Env.reliable 0⟩, ⟨17, cmd_pack 99 0 0 0 0, Env.reliable 0⟩]
        = some (ERR_UNKNOWN_CMD, p) ∧
      bank_output ERR_UNKNOWN_CMD p = some ERR_UNKNOWN_ACCOUNT.line := by
  obtain ⟨p, hrun, hhanded, hcount⟩ : ∃ p, run_bank (BankProcess.start (bank_open 0 1 0))
      [⟨17, MSG_DEPOSIT 0 3 5, Env.reliable 0⟩, ⟨17, cmd_pack 99 0 0 0 0, Env.reliable 0⟩]
      = some (ERR_UNKNOWN_CMD, p) ∧
      p.handed = [⟨17, MSG_DEPOSIT 0 3 5, Env.reliable 0⟩,
        ⟨17, cmd_pack 99 0 0 0 0, Env.reliable 0⟩] ∧ p.bank.account_count = 0 :=
    ⟨_, rfl, rfl, rfl⟩
  refine ⟨p, hrun, ?_⟩
  rw [(run_bank_reports hrun).2, hhanded, bank_dump, hcount]
  rfl

/-! ## `atm_run` -/

/-- What one call of `atm` records: nothing but the checks of its `write` and its `read`. -/
def atm_record (written read : ℤ) (atm_id : CInt) (cmd : Command) (e : ErrorRecord) : ErrorRecord :=
  match atm_begin atm_id cmd with
  | .ret _ => e
  | .send =>
      let e := record_pipe_write written e
      match atm_written written with
      | some _ => e
      | none => record_pipe_read read e

/-- What the `switch` of `atm_run` prints. -/
def atm_run_line (status : Status) : List Byte :=
  match status with
  | ERR_UNKNOWN_ATM => []
  | ERR_UNKNOWN_ACCOUNT => ascii "ATM error: unknown account! ATM Out of service\n"
  | ERR_NOFUNDS => ascii "not enough funds, retry transaction\n"
  | _ => if status ≠ SUCCESS then ascii "status is " ++ intText status.code ++ ascii "\n" else []

/-- An ATM process whose `atm_run` has returned: the run, its statics and what it has printed. -/
structure AtmProcess where
  run : AtmRun
  errors : ErrorRecord
  printed : List Byte

section AtmProcess

variable (env : ℕ → ℤ × ℤ × Command) (atm_id : CInt)

/-- The loop of `atm_run` ([`atmLoop`]) with what it records and prints. -/
def atmLoopTold : ℕ → Tracer → Command → List Command → ErrorRecord → List Byte →
    Option AtmProcess
  | 0, _, _, _, _, _ => none
  | fuel + 1, s, cmd, handed, e, printed =>
      let (result, cmd, s) := trace_read_cmd cmd s
      if result = 0 then some ⟨⟨handed, SUCCESS, trace_close s⟩, e, printed⟩
      else
        let (written, read) := env handed.length
        let e := atm_record written read.1 atm_id cmd e
        let printed := printed ++ atm_run_line (atm written read atm_id cmd)
        match atm_run_next (atm written read atm_id cmd) with
        | some status => some ⟨⟨handed ++ [cmd], status, s⟩, e, printed⟩
        | none => atmLoopTold fuel s cmd (handed ++ [cmd]) e printed

/-- `atm_run` in a process of its own. -/
def atm_process (path : Option (List Byte)) (cmd : Command) (s : Tracer) : Option AtmProcess :=
  let (status, s) := trace_open path s
  if status = -1 then
    some ⟨⟨[], ERR_BAD_TRACE_FILE, s⟩,
      error_msg ERR_BAD_TRACE_FILE (ascii "could not open trace file"), []⟩
  else
    atmLoopTold env atm_id ((s.tracefd.getD []).length + 1) s cmd [] ErrorRecord.start []

/-- All that an ATM process prints. -/
def AtmProcess.output (p : AtmProcess) : Option (List Byte) :=
  (if p.run.status ≠ SUCCESS then error_print p.errors else some []).map
    (fun line => p.printed ++ line)

/-! ### What an ATM process prints -/

/-- The status of the `k`-th call of `atm`. -/
def atmStatus (k : ℕ) (cmd : Command) : Status := atm (env k).1 (env k).2 atm_id cmd

/-- The lines for the calls of `atm`, the first of which is the `k`-th. -/
def atmLines : ℕ → List Command → List Byte
  | _, [] => []
  | k, cmd :: cmds => atm_run_line (atmStatus env atm_id k cmd) ++ atmLines (k + 1) cmds

theorem atmLines_snoc (k : ℕ) (cmds : List Command) (cmd : Command) :
    atmLines env atm_id k (cmds ++ [cmd])
      = atmLines env atm_id k cmds
        ++ atm_run_line (atmStatus env atm_id (k + cmds.length) cmd) := by
  induction cmds generalizing k with
  | nil => simp [atmLines]
  | cons c cmds ih =>
      rw [List.cons_append, atmLines, atmLines, ih, List.append_assoc, List.length_cons,
        Nat.add_right_comm, Nat.add_assoc]

/-- What holds when `atm_run` has returned. -/
structure AtmProcess.Exited (p : AtmProcess) : Prop where
  printed : p.printed = atmLines env atm_id 0 p.run.handed
  reports : p.run.status ≠ SUCCESS →
    Reports p.errors (if p.run.status = ERR_UNKNOWN_CMD then SUCCESS else p.run.status)

variable {env atm_id}

theorem atm_begin_ret {cmd : Command} {status : Status} (h : atm_begin atm_id cmd = .ret status) :
    status = ERR_UNKNOWN_ATM ∨ status = ERR_UNKNOWN_CMD := by
  simp only [atm_begin] at h
  split_ifs at h
  · exact .inr (Begin.ret.inj h).symm
  · exact .inl (Begin.ret.inj h).symm

/-- The statuses for a reply that has been read, and whether `atm_run` goes on. -/
theorem atm_received_read {result : ℤ} (reply : Command) (h : check_pipe_read result = SUCCESS) :
    atm_run_next (atm_received result reply) = none ∨
      atm_run_next (atm_received result reply) = some ERR_UNKNOWN_CMD := by
  unfold atm_received
  rw [h]
  simp only [ne_eq, not_true, if_false]
  split_ifs <;> simp [atm_run_next]

/-- Only a failed pipe is recorded, and then `atm_run` returns. -/
theorem atm_record_reports {written : ℤ} {read : ℤ × Command} {cmd : Command} {e : ErrorRecord}
    (h : Reports e SUCCESS) :
    match atm_run_next (atm written read atm_id cmd) with
    | none => Reports (atm_record written read.1 atm_id cmd e) SUCCESS
    | some status => status ≠ SUCCESS ∧
        Reports (atm_record written read.1 atm_id cmd e)
          (if status = ERR_UNKNOWN_CMD then SUCCESS else status) := by
  cases hb : atm_begin atm_id cmd with
  | ret status =>
      simp only [atm, atm_record, hb]
      rcases atm_begin_ret hb with rfl | rfl
      · exact h
      · exact ⟨by decide, h⟩
  | send =>
      have hwritten := record_pipe_write_reports written h
      simp only [atm, atm_record, hb]
      rcases check_pipe_write_cases written with hw | hw
      · -- the reply is read, and what its code says is not recorded
        have hgo : atm_written written = none := by
          rw [atm_written, hw]
          rfl
        rw [hw, if_pos rfl] at hwritten
        have hread := record_pipe_read_reports read.1 hwritten
        simp only [hgo]
        rcases check_pipe_read_cases read.1 with hr | hr
        · rw [hr, if_pos rfl] at hread
          rcases atm_received_read read.2 hr with hnext | hnext
          · rw [hnext]
            exact hread
          · rw [hnext]
            exact ⟨by decide, hread⟩
        · have hstatus : atm_received read.1 read.2 = ERR_PIPE_READ_ERR := by
            simp only [atm_received, hr]
            rfl
          rw [hr] at hread
          rw [hstatus]
          exact ⟨by decide, hread⟩
      · have hstop : atm_written written = some ERR_PIPE_WRITE_ERR := by
          rw [atm_written, hw]
          rfl
        rw [hw] at hwritten
        simp only [hstop]
        exact ⟨by decide, hwritten⟩

/-- The loop with what it prints is the loop. -/
theorem atmLoopTold_run (fuel : ℕ) (s : Tracer) (cmd : Command) (handed : List Command)
    (e : ErrorRecord) (printed : List Byte) :
    (atmLoopTold env atm_id fuel s cmd handed e printed).map AtmProcess.run
      = atmLoop env atm_id fuel s cmd handed := by
  induction fuel generalizing s cmd handed e printed with
  | zero => rfl
  | succ fuel ih =>
      rw [atmLoopTold, atmLoop]
      rcases trace_read_cmd cmd s with ⟨result, cmd, s⟩
      dsimp only
      by_cases hr : result = 0
      · rw [if_pos hr, if_pos hr]
        rfl
      · rw [if_neg hr, if_neg hr]
        cases hnext : atm_run_next (atm (env handed.length).1 (env handed.length).2 atm_id cmd) with
        | some status => rfl
        | none => exact ih _ _ _ _ _

/-- The loop, begun with nothing recorded and a line for every call so far. -/
theorem atmLoopTold_exited {fuel : ℕ} {s : Tracer} {cmd : Command} {handed : List Command}
    {e : ErrorRecord} {p : AtmProcess} (he : Reports e SUCCESS)
    (hp : atmLoopTold env atm_id fuel s cmd handed e (atmLines env atm_id 0 handed) = some p) :
    p.Exited env atm_id := by
  induction fuel generalizing s cmd handed e with
  | zero => exact absurd hp (Option.some_ne_none p).symm
  | succ fuel ih =>
      rw [atmLoopTold] at hp
      rcases hread : trace_read_cmd cmd s with ⟨result, cmd, s⟩
      rw [hread] at hp
      dsimp only at hp
      by_cases hr : result = 0
      · rw [if_pos hr, Option.some.injEq] at hp
        rw [← hp]
        exact ⟨rfl, fun hne => absurd rfl hne⟩
      · rw [if_neg hr] at hp
        have hcall := @atm_record_reports atm_id (env handed.length).1 (env handed.length).2 cmd e
          he
        have hlines := atmLines_snoc env atm_id 0 handed cmd
        rw [Nat.zero_add, atmStatus] at hlines
        rw [← hlines] at hp
        cases hnext : atm_run_next (atm (env handed.length).1 (env handed.length).2 atm_id cmd) with
        | some status =>
            rw [hnext] at hp hcall
            rw [← Option.some.inj hp]
            exact ⟨rfl, fun _ => hcall.2⟩
        | none =>
            rw [hnext] at hp hcall
            exact ih hcall hp

/-- `trace_open` fails or leaves an open file. -/
theorem trace_open_cases (path : Option (List Byte)) (s : Tracer) :
    (trace_open path s).1 = -1 ∨
      (trace_open path s).1 = 1 ∧ ∃ bytes, (trace_open path s).2.tracefd = some bytes := by
  unfold trace_open
  split
  · exact .inl rfl
  · split
    · exact .inl rfl
    · split
      · exact .inl rfl
      · exact .inr ⟨rfl, _, rfl⟩

variable (env atm_id)

end AtmProcess

end ProjectsInC.BankAtm
