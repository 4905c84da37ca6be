/-
The request/reply protocol between the ATMs and the bank.

All ATMs write into one pipe and the bank routes its replies by the id field of
the request alone, so that nothing is lost, doubled or misrouted has to be an
invariant of the whole simulation. [`AtmInv`] is what holds of one ATM: its
commands are a run through its own records, split into what the bank has
logged and what is still in the pipe, and its replies are the bank's replies to
them, split into what it has read and what is still in its own pipe.
-/
import ProjectsInC.BankAtm.Banksim

set_option autoImplicit false

namespace ProjectsInC.BankAtm

open Status

/-! ## The records of one ATM -/

/-- The record carries the id of ATM `k`. -/
def ofAtm (k : ℕ) (cmd : Command) : Bool := (cmd_unpack cmd).i == atmId k

/-- The records of ATM `k`, in order. -/
def mine (k : ℕ) (cmds : List Command) : List Command := cmds.filter (ofAtm k)

/-- The part of the log that is about ATM `k`. -/
def Sim.served (s : Sim) (k : ℕ) : List (Command × Option Command) :=
  s.log.filter (fun e => ofAtm k e.1)

theorem ofAtm_iff {k : ℕ} {cmd : Command} : ofAtm k cmd = true ↔ (cmd_unpack cmd).i = atmId k :=
  beq_iff_eq

@[simp] theorem atmId_toNat {k : ℕ} (hk : k < 2 ^ 31) : (atmId k).toNat = k := by
  rw [atmId, BitVec.toNat_ofNat]
  exact Nat.mod_eq_of_lt (by omega)

theorem atmId_injective {j k : ℕ} (hj : j < 2 ^ 31) (hk : k < 2 ^ 31) (h : atmId j = atmId k) :
    j = k := by
  rw [← atmId_toNat hj, h, atmId_toNat hk]

/-- The number of ATMs is an `int`, so the indices below it are. -/
theorem index_lt {n : CInt} {k : ℕ} (hk : (k : ℤ) < n.toInt) : k < 2 ^ 31 := by
  have := (toInt_bounds n).2
  omega

/-- A record belongs to at most one ATM. -/
theorem ofAtm_unique {n : CInt} {j k : ℕ} {cmd : Command} (hj : (j : ℤ) < n.toInt)
    (hk : (k : ℤ) < n.toInt) (h : ofAtm j cmd = true) (h' : ofAtm k cmd = true) : j = k := by
  rw [ofAtm_iff] at h h'
  exact atmId_injective (index_lt hj) (index_lt hk) (h.symm.trans h')

theorem ofAtm_other {n : CInt} {j k : ℕ} {cmd : Command} (hj : (j : ℤ) < n.toInt)
    (hk : (k : ℤ) < n.toInt) (hne : j ≠ k) (h : ofAtm k cmd = true) : ofAtm j cmd = false := by
  by_contra hmine
  apply hne
  exact ofAtm_unique hj hk (by simpa using hmine) h

@[simp] theorem mine_nil (k : ℕ) : mine k [] = [] := rfl

theorem mine_cons_of_mine {k : ℕ} {cmd : Command} (h : ofAtm k cmd = true)
    (cmds : List Command) : mine k (cmd :: cmds) = cmd :: mine k cmds := by
  simp [mine, h]

theorem mine_cons_of_other {k : ℕ} {cmd : Command} (h : ofAtm k cmd = false)
    (cmds : List Command) : mine k (cmd :: cmds) = mine k cmds := by
  simp [mine, h]

@[simp] theorem mine_append (k : ℕ) (xs ys : List Command) :
    mine k (xs ++ ys) = mine k xs ++ mine k ys := List.filter_append ..

/-! ## The invariant -/

/-- What holds of one ATM, given its messages in the bank's pipe (`queued`), the
messages in its own pipe (`replies`) and the part of the log about it. -/
structure AtmInv (tr : Trace) (k : ℕ) (a : Atm) (queued replies : List Command)
    (served : List (Command × Option Command)) : Prop where
  /-- It works through its records in order. -/
  sent : a.sent <+: mine k tr.cmds
  /-- As long as it runs, what it has not sent is what it has not read. -/
  ahead : (∀ status, a.phase ≠ .returned status) → a.sent ++ mine k a.unread = mine k tr.cmds
  /-- Its commands are the logged ones, then the queued ones. -/
  processed : served.map Prod.fst ++ queued = a.sent
  /-- The replies to them are the ones it has read, then the ones in its pipe. -/
  replied : served.map Prod.snd = (a.got ++ replies).map some
  /-- It has read one reply for each command, but for the one it waits on. -/
  pending : a.sent.length = a.got.length + (if a.phase = .waiting then 1 else 0)

/-- A message the bank will serve: a request of an existing ATM. -/
def Routed (tr : Trace) (cmd : Command) : Prop :=
  (∃ k : ℕ, (k : ℤ) < tr.atm_cnt.toInt ∧ ofAtm k cmd = true) ∧ isRequest (cmd_unpack cmd).c = true

/-- The reply was written and carries one of the three codes of [`answer`]. -/
def Answered (reply : Option Command) : Prop :=
  ∃ msg, reply = some msg ∧
    ((cmd_unpack msg).c = OK ∨ (cmd_unpack msg).c = NOFUNDS ∨ (cmd_unpack msg).c = ACCUNKN)

/-- The invariant of the simulation. -/
structure Inv (tr : Trace) (s : Sim) : Prop where
  atm : ∀ k : ℕ, (k : ℤ) < tr.atm_cnt.toInt →
    AtmInv tr k (s.atm k) (mine k s.bankfd) (s.atmfd k) (s.served k)
  queued : ∀ cmd ∈ s.bankfd, Routed tr cmd
  logged : ∀ e ∈ s.log, Routed tr e.1 ∧ Answered e.2
  atm_count : s.bank.atm_count = tr.atm_cnt

/-- Between two commands an ATM has read as many replies as it has sent commands. -/
theorem AtmInv.pending_reading {tr : Trace} {k : ℕ} {a : Atm} {queued replies : List Command}
    {served : List (Command × Option Command)} (h : AtmInv tr k a queued replies served)
    (hp : a.phase = .reading) : a.sent.length = a.got.length := by
  have hpending := h.pending
  rw [hp] at hpending
  simpa using hpending

theorem AtmInv.pending_waiting {tr : Trace} {k : ℕ} {a : Atm} {queued replies : List Command}
    {served : List (Command × Option Command)} (h : AtmInv tr k a queued replies served)
    (hp : a.phase = .waiting) : a.sent.length = a.got.length + 1 := by
  have hpending := h.pending
  rwa [if_pos hp] at hpending

/-- A reply in the pipe of an ATM is one the bank logged. -/
theorem Inv.reply_answered {tr : Trace} {s : Sim} (hs : Inv tr s) {k : ℕ}
    (hk : (k : ℤ) < tr.atm_cnt.toInt) {reply : Command} {more : List Command}
    (hr : s.atmfd k = reply :: more) : Answered (some reply) := by
  have hreplied := (hs.atm k hk).replied
  rw [hr] at hreplied
  have hmem : some reply ∈ (s.served k).map Prod.snd := by rw [hreplied]; simp
  obtain ⟨e, he, hereply⟩ := List.mem_map.mp hmem
  exact hereply ▸ (hs.logged e (List.mem_of_mem_filter he)).2

theorem inv_init (garbage : ℕ → CInt) (tr : Trace) : Inv tr (Sim.init garbage tr) where
  atm := fun k _ => by
    refine ⟨List.nil_prefix, fun _ => rfl, rfl, rfl, rfl⟩
  queued := fun cmd h => absurd h List.not_mem_nil
  logged := fun e h => absurd h List.not_mem_nil
  atm_count := rfl

/-! ## An ATM moves -/

@[simp] theorem setAtm_self (s : Sim) (k : ℕ) (a : Atm) : (s.setAtm k a).atm k = a :=
  Function.update_self ..

theorem setAtm_other (s : Sim) {j k : ℕ} (a : Atm) (h : j ≠ k) : (s.setAtm k a).atm j = s.atm j :=
  Function.update_of_ne h ..

/-- An ATM that only moves inside the trace keeps the invariant if its own part
does: the pipes and the log are as they were. -/
theorem inv_setAtm {tr : Trace} {s : Sim} {k : ℕ} {a : Atm} (hs : Inv tr s)
    (ha : AtmInv tr k a (mine k s.bankfd) (s.atmfd k) (s.served k)) : Inv tr (s.setAtm k a) where
  atm := fun j hj => by
    by_cases h : j = k
    · subst h
      rw [setAtm_self]
      exact ha
    · rw [setAtm_other s a h]
      exact hs.atm j hj
  queued := hs.queued
  logged := hs.logged
  atm_count := hs.atm_count

theorem AtmMove.inv {tr : Trace} {k : ℕ} {s s' : Sim} (hk : (k : ℤ) < tr.atm_cnt.toInt)
    (hs : Inv tr s) (h : AtmMove k s s') : Inv tr s' := by
  have ha := hs.atm k hk
  cases h with
  | finish hp hu =>
      have hpend := ha.pending_reading hp
      exact inv_setAtm hs ⟨ha.sent, fun h => absurd rfl (h _), ha.processed, ha.replied,
        by simpa using hpend⟩
  | skip cmd rest hp hu hi =>
      -- the record is not one of its own, so what is ahead of it is the same
      have hother : ofAtm k cmd = false := by simpa [ofAtm] using hi
      have hpend := ha.pending_reading hp
      have hahead := ha.ahead (by simp [hp])
      rw [hu, mine_cons_of_other hother] at hahead
      exact inv_setAtm hs ⟨ha.sent, fun _ => hahead, ha.processed, ha.replied,
        by simpa using hpend⟩
  | reject cmd rest hp hu hi hc =>
      have hpend := ha.pending_reading hp
      exact inv_setAtm hs ⟨ha.sent, fun h => absurd rfl (h _), ha.processed, ha.replied,
        by simpa using hpend⟩
  | send cmd rest hp hu hi hc =>
      -- the first record ahead becomes the last one sent and the last one queued
      have hmine : ofAtm k cmd = true := ofAtm_iff.mpr hi
      have hpend := ha.pending_reading hp
      have hahead := ha.ahead (by simp [hp])
      rw [hu, mine_cons_of_mine hmine] at hahead
      have hahead' : ((s.atm k).sent ++ [cmd]) ++ mine k rest = mine k tr.cmds := by
        rw [List.append_assoc]; exact hahead
      refine ⟨fun j hj => ?_, ?_, hs.logged, hs.atm_count⟩
      · by_cases h : j = k
        · subst h
          simp only [setAtm_self, mine_append, mine_cons_of_mine hmine, mine_nil]
          refine ⟨⟨_, hahead'⟩, fun _ => hahead', ?_, ha.replied, by simp [hpend]⟩
          rw [← List.append_assoc]
          exact congrArg (· ++ [cmd]) ha.processed
        · -- another ATM does not see it: it is none of its messages
          have hother := ofAtm_other hj hk h hmine
          simp only [setAtm_other s _ h, mine_append, mine_cons_of_other hother, mine_nil,
            List.append_nil]
          exact hs.atm j hj
      · intro c hcmem
        rcases List.mem_append.mp hcmem with hold | hnew
        · exact hs.queued c hold
        · rw [List.mem_singleton.mp hnew]
          exact ⟨⟨k, hk, hmine⟩, hc⟩
  | receive reply more hp hr =>
      have hpend := ha.pending_waiting hp
      have hreplied := ha.replied
      rw [hr] at hreplied
      -- the reply is one the bank logged, so its code lets the ATM go on
      obtain ⟨msg, hmsg, hcode⟩ := hs.reply_answered hk hr
      rw [← Option.some.inj hmsg] at hcode
      have hnext : phaseAfter (atm_received MESSAGE_SIZE reply) = .reading := by
        rw [phaseAfter, (atm_received_answer hcode).2]
      refine ⟨fun j hj => ?_, hs.queued, hs.logged, hs.atm_count⟩
      by_cases h : j = k
      · subst h
        simp only [setAtm_self, Function.update_self, hnext]
        refine ⟨ha.sent, fun _ => ha.ahead (by simp [hp]), ha.processed, ?_, by simpa using hpend⟩
        rw [List.append_assoc]
        exact hreplied
      · simp only [setAtm_other s _ h, Function.update_of_ne h]
        exact hs.atm j hj

/-! ## The bank moves -/

/-- The bank serves every message an ATM can have sent. -/
theorem Routed.served {tr : Trace} {b : Bank} {cmd : Command} (h : Routed tr cmd)
    (hb : b.atm_count = tr.atm_cnt) (env : Env) (n : CInt) :
    Served env b (countdown n (cmd_unpack cmd)) (cmd_unpack cmd) (bank env b n cmd) := by
  obtain ⟨⟨k, hk, hmine⟩, hc⟩ := h
  refine bank_request env n ?_ hc
  rw [ofAtm_iff.mp hmine, Bank.ValidAtm, hb, atmId, toInt_ofNat_of_lt (index_lt hk)]
  exact ⟨Int.natCast_nonneg k, hk⟩

theorem Served.answered {env : Env} {b : Bank} {n : CInt} {m : Fields} {r : Call}
    (h : Served env b n m r) : Answered r.reply := by
  obtain ⟨msg, hmsg, hcode⟩ := h.reply
  exact ⟨msg, hmsg, by rw [hcode]; exact answer_cases b m⟩

/-- In particular the one at the front of its pipe. -/
theorem Inv.served_head {tr : Trace} {s : Sim} (hs : Inv tr s) {cmd : Command}
    {rest : List Command} (hb : s.bankfd = cmd :: rest) (stray : CInt → CInt) :
    Served (Env.reliable stray) s.bank (countdown s.atm_cnt (cmd_unpack cmd)) (cmd_unpack cmd)
      (bank (Env.reliable stray) s.bank s.atm_cnt cmd) := by
  have hrouted : Routed tr cmd := hs.queued cmd (by rw [hb]; exact List.mem_cons_self)
  exact hrouted.served hs.atm_count _ _

theorem BankMove.inv {tr : Trace} {stray : CInt → CInt} {s s' : Sim} (hs : Inv tr s)
    (h : BankMove stray s s') : Inv tr s' := by
  cases h with
  | close hr hz => exact ⟨hs.atm, hs.queued, hs.logged, hs.atm_count⟩
  | serve cmd rest hr hz hb =>
      have hrouted : Routed tr cmd := hs.queued cmd (by rw [hb]; exact List.mem_cons_self)
      have hserved := hs.served_head hb stray
      have hanswered := hserved.answered
      obtain ⟨msg, hmsg, -⟩ := hserved.answered
      obtain ⟨k, hk, hmine⟩ := hrouted.1
      -- the reply goes where the id field of the request says, and that is the sender
      have hslot : (cmd_unpack cmd).i.toNat = k := by
        rw [ofAtm_iff.mp hmine, atmId_toNat (index_lt hk)]
      refine ⟨fun j hj => ?_, fun c hc => hs.queued c (by rw [hb]; exact List.mem_cons_of_mem _ hc),
        ?_, ?_⟩
      · have ha := hs.atm j hj
        rw [hb] at ha
        simp only [Sim.served, List.filter_append, deliver, hmsg, hslot]
        by_cases h : j = k
        · -- the sender: its first queued command moves into the log, its reply into its pipe
          subst h
          rw [mine_cons_of_mine hmine] at ha
          simp only [Function.update_self, List.filter_cons, hmine, if_true, List.filter_nil]
          refine ⟨ha.sent, ha.ahead, ?_, ?_, ha.pending⟩
          · rw [List.map_append, List.append_assoc]
            exact ha.processed
          · have hreplied := ha.replied
            rw [Sim.served] at hreplied
            rw [List.map_append, hreplied]
            simp
        · -- for another ATM neither the pipes nor the log have changed
          have hother := ofAtm_other hj hk h hmine
          rw [mine_cons_of_other hother] at ha
          simp only [Function.update_of_ne h, List.filter_cons, hother, List.filter_nil,
            Bool.false_eq_true, if_false, List.append_nil]
          exact ha
      · intro e he
        rcases List.mem_append.mp he with hold | hnew
        · exact hs.logged e hold
        · rw [List.mem_singleton.mp hnew]
          exact ⟨hrouted, hanswered⟩
      · exact (bank_atm_count _ _ _ _).trans hs.atm_count

/-- Every step keeps the invariant. -/
theorem Step.inv {tr : Trace} {s s' : Sim} (hs : Inv tr s) (h : Step tr s s') : Inv tr s' := by
  cases h with
  | atm k hk h => exact (atmStep_cases h).inv hk hs
  | bank stray h => exact (bankStep_cases h).inv hs

/-- The invariant holds in every state any schedule reaches. -/
theorem Reachable.inv {garbage : ℕ → CInt} {tr : Trace} {s : Sim} (h : Reachable garbage tr s) :
    Inv tr s :=
  h.induct (inv_init garbage tr) (fun _ _ hs hst => hst.inv hs)

/-- A property that a step keeps in the states of the invariant. -/
theorem Reachable.induct_inv {garbage : ℕ → CInt} {tr : Trace} {P : Sim → Prop}
    (hinit : P (Sim.init garbage tr)) (hstep : ∀ s s', Inv tr s → P s → Step tr s s' → P s')
    {s : Sim} (h : Reachable garbage tr s) : P s := by
  have hboth : Inv tr s ∧ P s :=
    h.induct (P := fun s => Inv tr s ∧ P s) ⟨inv_init garbage tr, hinit⟩
      (fun s s' hs hst => ⟨hst.inv hs.1, hstep s s' hs.1 hs.2 hst⟩)
  exact hboth.2

/-! ## What the invariant says -/

/-- At most one command of an ATM is unanswered. -/
theorem AtmInv.unanswered_le_one {tr : Trace} {k : ℕ} {a : Atm} {queued replies : List Command}
    {served : List (Command × Option Command)} (h : AtmInv tr k a queued replies served) :
    queued.length + replies.length ≤ 1 := by
  have h1 := congrArg List.length h.processed
  have h2 := congrArg List.length h.replied
  have h3 := h.pending
  simp only [List.length_append, List.length_map] at h1 h2
  split_ifs at h3 <;> omega

/-- **Safety of the protocol.** In every reachable state and for every ATM `k`:
at most one command of `k` is in the bank's pipe or answered but unread; what
the bank has served of `k` is a prefix of the records of `k`; and the `j`-th
reply `k` has read is the reply the bank gave to the `j`-th record of `k`. -/
theorem request_reply_safety (garbage : ℕ → CInt) (tr : Trace) (s : Sim)
    (hs : Reachable garbage tr s) (k : ℕ) (hk : (k : ℤ) < tr.atm_cnt.toInt) :
    (mine k s.bankfd).length + (s.atmfd k).length ≤ 1 ∧
    (s.served k).map Prod.fst <+: mine k tr.cmds ∧
    ∀ (j : ℕ) (reply : Command), (s.atm k).got[j]? = some reply →
      ∃ cmd, (mine k tr.cmds)[j]? = some cmd ∧ (s.served k)[j]? = some (cmd, some reply) := by
  have ha := hs.inv.atm k hk
  have hpre : (s.served k).map Prod.fst <+: mine k tr.cmds :=
    (List.prefix_append _ _).trans (ha.processed ▸ ha.sent)
  refine ⟨ha.unanswered_le_one, hpre, ?_⟩
  intro j reply hj
  -- replies read and replies logged are numbered alike, and so are commands and log
  have hreply : ((s.served k).map Prod.snd)[j]? = some (some reply) := by
    rw [ha.replied, List.getElem?_map, List.getElem?_append_left
      (List.getElem?_eq_some_iff.mp hj).1, hj]
    rfl
  rw [List.getElem?_map, Option.map_eq_some_iff] at hreply
  obtain ⟨⟨cmd, r⟩, hentry, hr⟩ := hreply
  have hr' : r = some reply := hr
  subst hr'
  refine ⟨cmd, ?_, hentry⟩
  have hcmd : ((s.served k).map Prod.fst)[j]? = some cmd := by
    rw [List.getElem?_map, hentry]; rfl
  obtain ⟨rest, hrest⟩ := hpre
  rw [← hrest, List.getElem?_append_left (List.getElem?_eq_some_iff.mp hcmd).1, hcmd]

/-- One ATM that connects and deposits. -/
def oneDeposit : Trace where
  atm_cnt := 1
  account_cnt := 1
  cmds := [MSG_CONNECT 0, MSG_DEPOSIT 0 0 5]

/-- Two ATMs that connect; one of them deposits and the other one asks for the balance. -/
def twoAtms : Trace where
  atm_cnt := 2
  account_cnt := 1
  cmds := [MSG_CONNECT 0, MSG_CONNECT 1, MSG_DEPOSIT 0 0 5, MSG_BALANCE 1 0]

/-- ATM 0 has read the answer to its CONNECT and sent its DEPOSIT, and ATM 1 has been answered
but has not read it. -/
def bothUnderWay : Option Sim :=
  (Sim.init (fun _ => 0) twoAtms).follow twoAtms
    [.atm 0, .atm 1, .atm 1, .bank, .atm 0, .bank, .atm 0, .atm 0]

theorem request_reply_safety_both :
    ∃ s, bothUnderWay = some s ∧
      (mine 0 s.bankfd).length + (s.atmfd 0).length ≤ 1 ∧
      (mine 1 s.bankfd).length + (s.atmfd 1).length ≤ 1 ∧
      (s.served 1).map Prod.fst <+: [MSG_CONNECT 1, MSG_BALANCE 1 0] ∧
      (s.atm 0).got = [MSG_OK 0 (-1) (-1) (-1)] ∧
      ∃ cmd, (mine 0 twoAtms.cmds)[0]? = some cmd ∧
        (s.served 0)[0]? = some (cmd, some (MSG_OK 0 (-1) (-1) (-1))) := by
  have hgot : bothUnderWay.map (fun s => (s.atm 0).got) = some [MSG_OK 0 (-1) (-1) (-1)] := by
    decide
  obtain ⟨s, hs, hgot⟩ := Option.map_eq_some_iff.mp hgot
  have hreach := reachable_follow _ Relation.ReflTransGen.refl hs
  obtain ⟨hone, -, hreplies⟩ := request_reply_safety _ twoAtms s hreach 0 (by decide)
  obtain ⟨hone', hserved, -⟩ := request_reply_safety _ twoAtms s hreach 1 (by decide)
  exact ⟨s, hs, hone, hone', hserved, hgot, hreplies 0 _ (by rw [hgot]; rfl)⟩

end ProjectsInC.BankAtm
