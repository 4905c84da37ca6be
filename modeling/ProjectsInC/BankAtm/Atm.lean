/-
`atm.c`: what one ATM does with one record of the trace.

[`atm`] makes two system calls, a `write` and then a blocking `read`. For the
simulation it has to be cut where it blocks, so its body is given in the three
pieces between the calls ([`atm_begin`], [`atm_written`], [`atm_received`]) and
[`atm`] is their composition, given the results of the two calls. The switch of
`atm_run` on the returned status is [`atm_run_next`].
-/
import ProjectsInC.BankAtm.Bank

set_option autoImplicit false

namespace ProjectsInC.BankAtm

open Status

/-- Where `atm` stands after looking at a record: it returns, or it writes the
record to the bank. -/
inductive Begin
  | ret (status : Status)
  | send
deriving DecidableEq, Repr

/-- `atm` up to its `write`: the record must carry this ATM's id and one of the
six command bytes. -/
def atm_begin (atm_id : CInt) (cmd : Command) : Begin :=
  let m := cmd_unpack cmd
  if atm_id = m.i then
    if isRequest m.c then .send else .ret ERR_UNKNOWN_CMD
  else .ret ERR_UNKNOWN_ATM

/-- `atm` after its `write`: `some` is an early return. -/
def atm_written (result : ℤ) : Option Status :=
  if check_pipe_write result ≠ SUCCESS then some (check_pipe_write result) else none

/-- `atm` after its `read`: the status for the code of the reply. -/
def atm_received (result : ℤ) (atmcmd : Command) : Status :=
  let status := check_pipe_read result
  if status ≠ SUCCESS then status
  else
    let c := (cmd_unpack atmcmd).c
    let status := if c = OK then SUCCESS else status
    let status := if c = NOFUNDS then ERR_NOFUNDS else status
    if c = ACCUNKN then ERR_UNKNOWN_ACCOUNT
    else if c ≠ OK ∧ c ≠ NOFUNDS ∧ c ≠ ACCUNKN then ERR_UNKNOWN_CMD
    else status

/-- `atm`, given what its `write` and its `read` return. -/
def atm (written : ℤ) (read : ℤ × Command) (atm_id : CInt) (cmd : Command) : Status :=
  match atm_begin atm_id cmd with
  | .ret status => status
  | .send =>
      match atm_written written with
      | some status => status
      | none => atm_received read.1 read.2

/-- The `switch` of `atm_run`: `none` goes on to the next record, `some` returns
the status. -/
def atm_run_next (status : Status) : Option Status :=
  match status with
  | ERR_UNKNOWN_ATM => none
  | ERR_UNKNOWN_ACCOUNT => none
  | ERR_NOFUNDS => none
  | _ => if status ≠ SUCCESS then some status else none

/-! ## What each piece does -/

theorem atm_begin_of_other {atm_id : CInt} {cmd : Command} (h : (cmd_unpack cmd).i ≠ atm_id) :
    atm_begin atm_id cmd = .ret ERR_UNKNOWN_ATM := if_neg (Ne.symm h)

theorem atm_begin_of_mine {atm_id : CInt} {cmd : Command} (h : (cmd_unpack cmd).i = atm_id) :
    atm_begin atm_id cmd
      = if isRequest (cmd_unpack cmd).c then .send else .ret ERR_UNKNOWN_CMD := if_pos h.symm

/-- Where messages are written and read whole, `atm` is its first piece and then its
last, which is how the simulation takes it apart. -/
theorem atm_whole (reply : Command) (atm_id : CInt) (cmd : Command) :
    atm MESSAGE_SIZE (MESSAGE_SIZE, reply) atm_id cmd
      = match atm_begin atm_id cmd with
        | .ret status => status
        | .send => atm_received MESSAGE_SIZE reply := by
  have hwritten : atm_written MESSAGE_SIZE = none := if_neg (not_not.mpr check_pipe_write_whole)
  unfold atm
  cases atm_begin atm_id cmd with
  | ret status => rfl
  | send => simp only [hwritten]

/-- The three codes the bank answers lead to three statuses, and an ATM goes on
after each of them. -/
theorem atm_received_answer {reply : Command} (h : (cmd_unpack reply).c = OK ∨
      (cmd_unpack reply).c = NOFUNDS ∨ (cmd_unpack reply).c = ACCUNKN) :
    (atm_received MESSAGE_SIZE reply = SUCCESS ∨ atm_received MESSAGE_SIZE reply = ERR_NOFUNDS ∨
      atm_received MESSAGE_SIZE reply = ERR_UNKNOWN_ACCOUNT) ∧
    atm_run_next (atm_received MESSAGE_SIZE reply) = none := by
  have hne : OK ≠ NOFUNDS ∧ OK ≠ ACCUNKN ∧ NOFUNDS ≠ OK ∧ NOFUNDS ≠ ACCUNKN := by decide
  rcases h with h | h | h <;> simp [atm_received, h, hne, atm_run_next]

end ProjectsInC.BankAtm
