/-
`banksim.c`: the ATM processes, the bank process and the pipes between them.

One state of the simulation is what every process still has to do and what
every pipe holds. A pipe is a list of whole messages, oldest first; `main`
keeps both ends of every pipe open until all children are gone, so a `write`
never fails and a `read` on an empty pipe waits. A step is one ATM running to
its next system call ([`atmStep`]), or the bank taking one message through
[`bank`] or leaving the loop of `run_bank` ([`bankStep`]); any enabled process
may move, which is every schedule.

Three fields are history the C programs do not keep: what an ATM has sent, what
it has read, and the log of the bank.
-/
import Mathlib.Logic.Relation
import ProjectsInC.BankAtm.Atm

set_option autoImplicit false

namespace ProjectsInC.BankAtm

open Status

/-! ## States -/

/-- A trace file: the two counts of its header, and its records. -/
structure Trace where
  atm_cnt : CInt
  account_cnt : CInt
  cmds : List Command

/-- Where an ATM process is in `atm_run`. -/
inductive Phase
  /-- About to read the next record. -/
  | reading
  /-- In `atm`, waiting for the reply. -/
  | waiting
  /-- `atm_run` has returned. -/
  | returned (status : Status)
deriving DecidableEq, Repr

/-- An ATM process. `unread` is the rest of the trace; `sent`, `got` and
`statuses` are the history of its writes, its reads and the results of `atm`. -/
structure Atm where
  unread : List Command
  phase : Phase
  sent : List Command
  got : List Command
  statuses : List Status

/-- The simulation. -/
structure Sim where
  atm : ℕ → Atm
  bankfd : List Command
  atmfd : ℕ → List Command
  bank : Bank
  atm_cnt : CInt
  ret : Option Status
  log : List (Command × Option Command)

/-- The state after `main` has forked all its children. -/
def Sim.init (garbage : ℕ → CInt) (tr : Trace) : Sim where
  atm := fun _ => ⟨tr.cmds, .reading, [], [], []⟩
  bankfd := []
  atmfd := fun _ => []
  bank := bank_open garbage tr.atm_cnt tr.account_cnt
  atm_cnt := tr.atm_cnt
  ret := none
  log := []

/-! ## Steps -/

/-- The phase `atm_run` goes on in after `atm` returned `status`. -/
def phaseAfter (status : Status) : Phase :=
  match atm_run_next status with
  | none => .reading
  | some status => .returned status

/-- Replace the process of ATM `k`. -/
def Sim.setAtm (s : Sim) (k : ℕ) (a : Atm) : Sim := { s with atm := Function.update s.atm k a }

/-- The id `main` passes to the `k`-th ATM it forks. -/
def atmId (k : ℕ) : CInt := BitVec.ofNat 32 k

/-- ATM `k` runs to its next system call; `none` if it has returned or waits on
an empty pipe. -/
def atmStep (k : ℕ) (s : Sim) : Option Sim :=
  let a := s.atm k
  match a.phase with
  | .reading =>
      match a.unread with
      | [] => some (s.setAtm k { a with phase := .returned SUCCESS })
      | cmd :: rest =>
          match atm_begin (atmId k) cmd with
          -- nothing is written; the status decides whether the loop goes on
          | .ret status =>
              some (s.setAtm k { a with unread := rest, phase := phaseAfter status,
                                        statuses := a.statuses ++ [status] })
          | .send =>
              some { s.setAtm k { a with unread := rest, phase := .waiting,
                                         sent := a.sent ++ [cmd] } with
                bankfd := s.bankfd ++ [cmd] }
  | .waiting =>
      match s.atmfd k with
      | [] => none
      | reply :: more =>
          -- messages are read whole, so the `read` returns their size
          let status := atm_received MESSAGE_SIZE reply
          some { s.setAtm k { a with phase := phaseAfter status, got := a.got ++ [reply],
                                     statuses := a.statuses ++ [status] } with
            atmfd := Function.update s.atmfd k more }
  | .returned _ => none

/-- Put a reply, if there is one, into the pipe of ATM `i`. -/
def deliver (i : ℕ) (reply : Option Command) (atmfd : ℕ → List Command) : ℕ → List Command :=
  match reply with
  | none => atmfd
  | some msg => Function.update atmfd i (atmfd i ++ [msg])

/-- What `run_bank` does with the result of `bank`: ignore an unknown ATM, go
on after success, return anything else. -/
def run_bank_next (result : Status) : Option Status :=
  if result = ERR_UNKNOWN_ATM then none
  else if result ≠ SUCCESS then some result
  else none

/-- One turn of the loop of `run_bank`; `none` if it has returned or waits on an
empty pipe. -/
def bankStep (stray : CInt → CInt) (s : Sim) : Option Sim :=
  match s.ret with
  | some _ => none
  | none =>
      -- "while (atm_cnt != 0)": the counter is looked at before the pipe
      if s.atm_cnt = 0 then some { s with ret := some SUCCESS }
      else
        match s.bankfd with
        | [] => none
        | cmd :: rest =>
            let r := bank (Env.reliable stray) s.bank s.atm_cnt cmd
            some { s with
              bankfd := rest
              bank := r.bank
              atm_cnt := r.atm_cnt
              ret := run_bank_next r.result
              atmfd := deliver (cmd_unpack cmd).i.toNat r.reply s.atmfd
              log := s.log ++ [(cmd, r.reply)] }

/-- One step of the simulation of a trace: some ATM below the count of its
header moves, or the bank does. -/
inductive Step (tr : Trace) (s s' : Sim) : Prop
  | atm (k : ℕ) (hk : (k : ℤ) < tr.atm_cnt.toInt) (h : atmStep k s = some s')
  | bank (stray : CInt → CInt) (h : bankStep stray s = some s')

/-- The states some schedule reaches. -/
def Reachable (garbage : ℕ → CInt) (tr : Trace) (s : Sim) : Prop :=
  Relation.ReflTransGen (Step tr) (Sim.init garbage tr) s

/-- The rule of induction over a run: what holds at the start and is kept by
every step holds of every state reached. -/
theorem Reachable.induct {garbage : ℕ → CInt} {tr : Trace} {P : Sim → Prop}
    (hinit : P (Sim.init garbage tr)) (hstep : ∀ s s', P s → Step tr s s' → P s')
    {s : Sim} (h : Reachable garbage tr s) : P s := by
  induction h with
  | refl => exact hinit
  | tail _ hst ih => exact hstep _ _ ih hst

/-- Whose turn it is. -/
inductive Turn
  | atm (k : ℕ)
  | bank
deriving DecidableEq, Repr

/-- Run the simulation by a given schedule; `none` if a process is scheduled
that cannot move. -/
def Sim.follow (tr : Trace) (s : Sim) : List Turn → Option Sim
  | [] => some s
  | .atm k :: turns =>
      if (k : ℤ) < tr.atm_cnt.toInt then (atmStep k s).bind (fun s' => s'.follow tr turns)
      else none
  | .bank :: turns => (bankStep 0 s).bind (fun s' => s'.follow tr turns)

/-- What a schedule leads to is reachable. -/
theorem reachable_follow {garbage : ℕ → CInt} {tr : Trace} (turns : List Turn) {s s' : Sim}
    (hs : Reachable garbage tr s) (h : s.follow tr turns = some s') : Reachable garbage tr s' := by
  induction turns generalizing s with
  | nil =>
      rw [Sim.follow, Option.some.injEq] at h
      exact h ▸ hs
  | cons turn turns ih =>
      cases turn with
      | atm k =>
          rw [Sim.follow] at h
          split_ifs at h with hk
          obtain ⟨s₁, hstep, hrest⟩ := Option.bind_eq_some_iff.mp h
          exact ih (hs.tail (.atm k hk hstep)) hrest
      | bank =>
          rw [Sim.follow] at h
          obtain ⟨s₁, hstep, hrest⟩ := Option.bind_eq_some_iff.mp h
          exact ih (hs.tail (.bank 0 hstep)) hrest

/-! ## What one step does

The five moves of an ATM and the two of the bank, each with everything it
leaves unchanged. -/

/-- The moves of an ATM. -/
inductive AtmMove (k : ℕ) (s : Sim) : Sim → Prop
  /-- The trace is at its end. -/
  | finish (hp : (s.atm k).phase = .reading) (hu : (s.atm k).unread = []) :
      AtmMove k s (s.setAtm k { s.atm k with unread := [], phase := .returned SUCCESS })
  /-- A record of another ATM is skipped. -/
  | skip (cmd : Command) (rest : List Command) (hp : (s.atm k).phase = .reading)
      (hu : (s.atm k).unread = cmd :: rest) (hi : (cmd_unpack cmd).i ≠ atmId k) :
      AtmMove k s (s.setAtm k { s.atm k with
        unread := rest, phase := .reading,
        statuses := (s.atm k).statuses ++ [ERR_UNKNOWN_ATM] })
  /-- An own record with an unknown command byte ends the ATM. -/
  | reject (cmd : Command) (rest : List Command) (hp : (s.atm k).phase = .reading)
      (hu : (s.atm k).unread = cmd :: rest) (hi : (cmd_unpack cmd).i = atmId k)
      (hc : isRequest (cmd_unpack cmd).c = false) :
      AtmMove k s (s.setAtm k { s.atm k with
        unread := rest, phase := .returned ERR_UNKNOWN_CMD,
        statuses := (s.atm k).statuses ++ [ERR_UNKNOWN_CMD] })
  /-- An own request goes into the pipe of the bank. -/
  | send (cmd : Command) (rest : List Command) (hp : (s.atm k).phase = .reading)
      (hu : (s.atm k).unread = cmd :: rest) (hi : (cmd_unpack cmd).i = atmId k)
      (hc : isRequest (cmd_unpack cmd).c = true) :
      AtmMove k s { s.setAtm k { s.atm k with
          unread := rest, phase := .waiting, sent := (s.atm k).sent ++ [cmd] } with
        bankfd := s.bankfd ++ [cmd] }
  /-- The reply is read. -/
  | receive (reply : Command) (more : List Command) (hp : (s.atm k).phase = .waiting)
      (hr : s.atmfd k = reply :: more) :
      AtmMove k s { s.setAtm k { s.atm k with
          phase := phaseAfter (atm_received MESSAGE_SIZE reply), got := (s.atm k).got ++ [reply],
          statuses := (s.atm k).statuses ++ [atm_received MESSAGE_SIZE reply] } with
        atmfd := Function.update s.atmfd k more }

theorem atmStep_cases {k : ℕ} {s s' : Sim} (h : atmStep k s = some s') : AtmMove k s s' := by
  unfold atmStep at h
  cases hp : (s.atm k).phase with
  | returned status => simp [hp] at h
  | waiting =>
      cases hr : s.atmfd k with
      | nil => simp [hp, hr] at h
      | cons reply more =>
          simp only [hp, hr, Option.some.injEq] at h
          rw [← h]
          exact .receive reply more hp hr
  | reading =>
      cases hu : (s.atm k).unread with
      | nil =>
          simp only [hp, hu, Option.some.injEq] at h
          rw [← h]
          exact .finish hp hu
      | cons cmd rest =>
          simp only [hp, hu] at h
          by_cases hi : (cmd_unpack cmd).i = atmId k
          · by_cases hc : isRequest (cmd_unpack cmd).c = true
            · rw [atm_begin_of_mine hi, if_pos hc] at h
              simp only [Option.some.injEq] at h
              rw [← h]
              exact .send cmd rest hp hu hi hc
            · have hc' : isRequest (cmd_unpack cmd).c = false := by simpa using hc
              rw [atm_begin_of_mine hi, if_neg hc] at h
              simp only [Option.some.injEq] at h
              rw [← h]
              exact .reject cmd rest hp hu hi hc'
          · rw [atm_begin_of_other hi] at h
            simp only [Option.some.injEq] at h
            rw [← h]
            exact .skip cmd rest hp hu hi

/-- Conversely each of these moves is one the ATM makes. -/
theorem AtmMove.step {k : ℕ} {s s' : Sim} (h : AtmMove k s s') : atmStep k s = some s' := by
  cases h with
  | finish hp hu => simp only [atmStep, hp, hu]
  | skip cmd rest hp hu hi => simp only [atmStep, hp, hu, atm_begin_of_other hi]; rfl
  | reject cmd rest hp hu hi hc =>
      simp only [atmStep, hp, hu, atm_begin_of_mine hi, hc, Bool.false_eq_true, if_false]; rfl
  | send cmd rest hp hu hi hc =>
      simp only [atmStep, hp, hu, atm_begin_of_mine hi, hc, if_true]
  | receive reply more hp hr => simp only [atmStep, hp, hr]

/-- The moves of the bank. -/
inductive BankMove (stray : CInt → CInt) (s : Sim) : Sim → Prop
  /-- The counter is at zero and `run_bank` returns. -/
  | close (hr : s.ret = none) (hz : s.atm_cnt = 0) :
      BankMove stray s { s with ret := some SUCCESS }
  /-- A message is taken through `bank`. -/
  | serve (cmd : Command) (rest : List Command) (hr : s.ret = none) (hz : s.atm_cnt ≠ 0)
      (hb : s.bankfd = cmd :: rest) :
      BankMove stray s { s with
        bankfd := rest
        bank := (bank (Env.reliable stray) s.bank s.atm_cnt cmd).bank
        atm_cnt := (bank (Env.reliable stray) s.bank s.atm_cnt cmd).atm_cnt
        ret := run_bank_next (bank (Env.reliable stray) s.bank s.atm_cnt cmd).result
        atmfd := deliver (cmd_unpack cmd).i.toNat
          (bank (Env.reliable stray) s.bank s.atm_cnt cmd).reply s.atmfd
        log := s.log ++ [(cmd, (bank (Env.reliable stray) s.bank s.atm_cnt cmd).reply)] }

theorem bankStep_cases {stray : CInt → CInt} {s s' : Sim} (h : bankStep stray s = some s') :
    BankMove stray s s' := by
  unfold bankStep at h
  cases hr : s.ret with
  | some status => simp [hr] at h
  | none =>
      simp only [hr] at h
      by_cases hz : s.atm_cnt = 0
      · rw [if_pos hz, Option.some.injEq] at h
        rw [← h]
        exact .close hr hz
      · rw [if_neg hz] at h
        cases hb : s.bankfd with
        | nil => simp [hb] at h
        | cons cmd rest =>
            simp only [hb, Option.some.injEq] at h
            rw [← h]
            exact .serve cmd rest hr hz hb

theorem BankMove.step {stray : CInt → CInt} {s s' : Sim} (h : BankMove stray s s') :
    bankStep stray s = some s' := by
  cases h with
  | close hr hz => simp only [bankStep, hr, hz, if_true]
  | serve cmd rest hr hz hb => simp only [bankStep, hr, hb, if_neg hz]

end ProjectsInC.BankAtm
