/-
Does the simulation end?

`main` of `banksim.c` forks the bank and the ATMs and waits for all of them. A
run cannot go on forever: every step uses up a record, a message or a process.
It can get stuck, though, with the bank waiting for a command nobody will send
or an ATM waiting for a reply of a bank that has closed. [`Balanced`] is the
exact condition on the trace under which no schedule ends like that: the EXITs
are as many as the ATMs, and each ATM's last command is one.
-/
import Mathlib.Data.List.TakeWhile
import ProjectsInC.Lib.Runs
import ProjectsInC.BankAtm.Clean

set_option autoImplicit false

namespace ProjectsInC.BankAtm

open Status

/-! ## Every run ends -/

/-- What an ATM can still do: up to three steps for a record (one to send, one of
the bank, one to receive), and the step in which it returns. -/
def Atm.fuel (a : Atm) : ℕ :=
  3 * a.unread.length +
    match a.phase with
    | .reading => 1
    | .waiting => 2
    | .returned _ => 0

/-- What all processes of the simulation can still do. -/
def Sim.fuel (tr : Trace) (s : Sim) : ℕ :=
  ∑ k ∈ Finset.range tr.atms, (s.atm k).fuel + s.bankfd.length +
    (if s.ret = none then 1 else 0)

/-- Back at its trace or returned, an ATM has at most one step left besides its
records. -/
theorem fuel_phaseAfter_le (status : Status) (unread sent got : List Command)
    (statuses : List Status) :
    (Atm.mk unread (phaseAfter status) sent got statuses).fuel ≤ 3 * unread.length + 1 := by
  unfold phaseAfter
  cases atm_run_next status with
  | none => exact le_rfl
  | some status' => exact Nat.le_succ _

/-- If only ATM `k` has moved, it is enough to look at what it and the pipe of the
bank still hold. -/
theorem fuel_lt_of_atm {tr : Trace} {k : ℕ} {s s' : Sim} (hk : (k : ℤ) < tr.atm_cnt.toInt)
    (hothers : ∀ j, j ≠ k → s'.atm j = s.atm j) (hret : s'.ret = s.ret)
    (hless : (s'.atm k).fuel + s'.bankfd.length < (s.atm k).fuel + s.bankfd.length) :
    s'.fuel tr < s.fuel tr := by
  have hmem := Trace.mem_atms.mpr hk
  have hsame : ∑ j ∈ (Finset.range tr.atms).erase k, (s'.atm j).fuel
      = ∑ j ∈ (Finset.range tr.atms).erase k, (s.atm j).fuel :=
    Finset.sum_congr rfl (fun j hj => by rw [hothers j (Finset.ne_of_mem_erase hj)])
  simp only [Sim.fuel, hret]
  rw [← Finset.add_sum_erase _ _ hmem, ← Finset.add_sum_erase _ (fun j => (s.atm j).fuel) hmem,
    hsame]
  omega

@[simp] theorem setAtm_bankfd (s : Sim) (k : ℕ) (a : Atm) : (s.setAtm k a).bankfd = s.bankfd := rfl

theorem AtmMove.fuel_lt {tr : Trace} {k : ℕ} {s s' : Sim} (hk : (k : ℤ) < tr.atm_cnt.toInt)
    (h : AtmMove k s s') : s'.fuel tr < s.fuel tr := by
  have hothers : ∀ (a : Atm) (j : ℕ), j ≠ k → (s.setAtm k a).atm j = s.atm j :=
    fun a j hj => setAtm_other s a hj
  cases h with
  | finish hp hu =>
      apply fuel_lt_of_atm hk (hothers _) rfl
      simp only [setAtm_self, setAtm_bankfd, Atm.fuel, hp, hu]
      omega
  | skip cmd rest hp hu hi =>
      apply fuel_lt_of_atm hk (hothers _) rfl
      simp only [setAtm_self, setAtm_bankfd, Atm.fuel, hp, hu, List.length_cons]
      omega
  | reject cmd rest hp hu hi hc =>
      apply fuel_lt_of_atm hk (hothers _) rfl
      simp only [setAtm_self, setAtm_bankfd, Atm.fuel, hp, hu, List.length_cons]
      omega
  | send cmd rest hp hu hi hc =>
      -- the message counts in the pipe, and the reply is still to come
      refine fuel_lt_of_atm hk (hothers _) rfl ?_
      simp only [setAtm_self, Atm.fuel, hp, hu, List.length_cons, List.length_append,
        List.length_nil]
      omega
  | receive reply more hp hr =>
      refine fuel_lt_of_atm hk (hothers _) rfl ?_
      have hnew := fuel_phaseAfter_le (atm_received MESSAGE_SIZE reply) (s.atm k).unread
        (s.atm k).sent ((s.atm k).got ++ [reply])
        ((s.atm k).statuses ++ [atm_received MESSAGE_SIZE reply])
      have hold : (s.atm k).fuel = 3 * (s.atm k).unread.length + 2 := by rw [Atm.fuel, hp]
      simp only [setAtm_self, setAtm_bankfd]
      omega

/-- Every step of the simulation uses something up. -/
theorem Step.fuel_lt {tr : Trace} {s s' : Sim} (h : Step tr s s') : s'.fuel tr < s.fuel tr := by
  cases h with
  | atm k hk h => exact (atmStep_cases h).fuel_lt hk
  | bank stray h =>
      cases bankStep_cases h with
      | close hr hz => simp [Sim.fuel, hr]
      | serve cmd rest hr hz hb =>
          simp only [Sim.fuel, hr, hb, List.length_cons, if_true]
          split_ifs <;> omega

/-- **Every run ends**, after at most three steps for each record and ATM, one for
each ATM and one for the bank. -/
theorem run_length_le (garbage : ℕ → CInt) (tr : Trace) (n : ℕ) (s : Sim)
    (h : Lib.Run (Step tr) n (Sim.init garbage tr) s) :
    n ≤ tr.atms * (3 * tr.cmds.length + 1) + 1 := by
  have hle := h.length_add_le (μ := Sim.fuel tr) (fun _ _ hst => hst.fuel_lt)
  have hinit : (Sim.init garbage tr).fuel tr = tr.atms * (3 * tr.cmds.length + 1) + 1 := by
    simp [Sim.fuel, Sim.init, Atm.fuel]
  omega

/-- The first two steps of one ATM that connects and deposits. -/
theorem run_length_le_deposit :
    ∃ s, Lib.Run (Step oneDeposit) 2 (Sim.init (fun _ => 0) oneDeposit) s ∧
      2 ≤ oneDeposit.atms * (3 * oneDeposit.cmds.length + 1) + 1 := by
  obtain ⟨s₁, h₁⟩ := Option.isSome_iff_exists.mp
    (show (atmStep 0 (Sim.init (fun _ => 0) oneDeposit)).isSome by decide)
  obtain ⟨s₂, h₂⟩ := Option.isSome_iff_exists.mp
    (show ((atmStep 0 (Sim.init (fun _ => 0) oneDeposit)).bind (bankStep 0)).isSome by decide)
  rw [h₁, Option.bind_some] at h₂
  have hfirst : Step oneDeposit _ s₁ := .atm 0 (by decide) h₁
  have hrun := ((Lib.Run.refl _).tail hfirst).tail (Step.bank 0 h₂)
  exact ⟨s₂, hrun, run_length_le _ oneDeposit 2 s₂ hrun⟩

/-! ## How an ATM ends -/

/-- The status an ATM that is never stopped from outside returns. -/
def exitStatus (tr : Trace) (k : ℕ) : Status :=
  if program tr k = mine k tr.cmds then SUCCESS else ERR_UNKNOWN_CMD

/-- An ATM that has returned has sent its whole program. -/
def Ended (tr : Trace) (s : Sim) : Prop :=
  ∀ k : ℕ, (k : ℤ) < tr.atm_cnt.toInt → ∀ status, (s.atm k).phase = .returned status →
    (s.atm k).sent = program tr k ∧ status = exitStatus tr k

/-- At the end of the trace an ATM has sent all its records. -/
theorem Inv.sent_of_finish {tr : Trace} {s : Sim} (hs : Inv tr s) {k : ℕ}
    (hk : (k : ℤ) < tr.atm_cnt.toInt) (hp : (s.atm k).phase = .reading)
    (hu : (s.atm k).unread = []) :
    (s.atm k).sent = program tr k ∧ SUCCESS = exitStatus tr k := by
  have hall := (hs.atm k hk).ahead (by simp [hp])
  rw [hu, mine_nil, List.append_nil] at hall
  have hstart := hs.sent_prefix_program hk
  have hshort : program tr k <+: mine k tr.cmds := List.takeWhile_prefix _
  have heq : program tr k = mine k tr.cmds := by
    apply List.IsPrefix.eq_of_length_le hshort
    rw [← hall]
    exact hstart.length_le
  exact ⟨hall.trans heq.symm, by rw [exitStatus, if_pos heq]⟩

theorem Inv.sent_requests {tr : Trace} {s : Sim} (hs : Inv tr s) {k : ℕ}
    (hk : (k : ℤ) < tr.atm_cnt.toInt) :
    ∀ cmd ∈ (s.atm k).sent, isRequest (cmd_unpack cmd).c = true :=
  fun _ hcmd => List.mem_takeWhile_imp (p := fun cmd => isRequest (cmd_unpack cmd).c)
    ((hs.sent_prefix_program hk).subset hcmd)

/-- In front of a record it rejects an ATM has sent its program and no more. -/
theorem Inv.sent_of_reject {tr : Trace} {s : Sim} (hs : Inv tr s) {k : ℕ}
    (hk : (k : ℤ) < tr.atm_cnt.toInt) (hp : (s.atm k).phase = .reading) {cmd : Command}
    {rest : List Command} (hu : (s.atm k).unread = cmd :: rest) (hmine : ofAtm k cmd = true)
    (hc : isRequest (cmd_unpack cmd).c = false) :
    (s.atm k).sent = program tr k ∧ ERR_UNKNOWN_CMD = exitStatus tr k := by
  have hall := (hs.atm k hk).ahead (by simp [hp])
  rw [hu, mine_cons_of_mine hmine] at hall
  have hprogram : program tr k = (s.atm k).sent := by
    rw [program, ← hall, List.takeWhile_append_of_pos (hs.sent_requests hk),
      List.takeWhile_cons_of_neg (by simp [hc]), List.append_nil]
  refine ⟨hprogram.symm, ?_⟩
  rw [exitStatus, if_neg]
  intro heq
  rw [hprogram, ← hall] at heq
  simp at heq

theorem Step.ended {tr : Trace} {s s' : Sim} (hs : Inv tr s) (he : Ended tr s) (h : Step tr s s') :
    Ended tr s' := by
  cases h with
  | bank stray h => cases bankStep_cases h <;> exact he
  | atm k hk h =>
      -- only the new phase of ATM `k` has to be looked at
      have hmove : ∀ {a : Atm} {s'' : Sim}, s''.atm = (s.setAtm k a).atm →
          (∀ status, a.phase = .returned status →
            a.sent = program tr k ∧ status = exitStatus tr k) → Ended tr s'' := by
        intro a s'' hatm ha j hj
        rw [hatm]
        by_cases hjk : j = k
        · rw [hjk, setAtm_self]
          exact ha
        · rw [setAtm_other s a hjk]
          exact he j hj
      cases atmStep_cases h with
      | finish hp hu =>
          apply hmove rfl
          intro status hstatus
          rw [← Phase.returned.inj hstatus]
          exact hs.sent_of_finish hk hp hu
      | skip cmd rest hp hu hi =>
          apply hmove rfl
          intro status hstatus
          exact absurd hstatus (by simp)
      | reject cmd rest hp hu hi hc =>
          apply hmove rfl
          intro status hstatus
          rw [← Phase.returned.inj hstatus]
          exact hs.sent_of_reject hk hp hu (ofAtm_iff.mpr hi) hc
      | send cmd rest hp hu hi hc =>
          apply hmove rfl
          intro status hstatus
          exact absurd hstatus (by simp)
      | receive reply more hp hr =>
          -- the bank answers with a code after which the ATM goes on
          obtain ⟨msg, hmsg, hcode⟩ := hs.reply_answered hk hr
          rw [← Option.some.inj hmsg] at hcode
          apply hmove rfl
          intro status hstatus
          simp only [phaseAfter, (atm_received_answer hcode).2] at hstatus
          exact absurd hstatus (by simp)

theorem Reachable.ended {garbage : ℕ → CInt} {tr : Trace} {s : Sim} (h : Reachable garbage tr s) :
    Ended tr s :=
  h.induct_inv (fun _ _ status hstatus => absurd hstatus (by simp [Sim.init]))
    (fun _ _ hs he hst => hst.ended hs he)

/-! ## Stuck states -/

/-- No process can move. -/
def Deadlock (tr : Trace) (s : Sim) : Prop := Lib.Stuck (Step tr) s

/-- `main` sees the end of its children: every ATM and the bank have returned. -/
def Finished (tr : Trace) (s : Sim) : Prop :=
  (∃ status, s.ret = some status) ∧
    ∀ k : ℕ, (k : ℤ) < tr.atm_cnt.toInt → ∃ status, (s.atm k).phase = .returned status

/-- The trace has as many EXITs to send as there are ATMs, and whatever an ATM
sends ends with one. -/
def Balanced (tr : Trace) : Prop :=
  ((∑ k ∈ Finset.range tr.atms, exits tr k : ℕ) : ℤ) = tr.atm_cnt.toInt ∧
    ∀ k : ℕ, (k : ℤ) < tr.atm_cnt.toInt → ∀ cmd ∈ (program tr k).getLast?, isExit cmd = true

/-- An ATM at its trace can always go on. -/
theorem atmStep_of_reading {k : ℕ} {s : Sim} (hp : (s.atm k).phase = .reading) :
    ∃ s', atmStep k s = some s' := by
  cases hu : (s.atm k).unread with
  | nil => exact ⟨_, (AtmMove.finish hp hu).step⟩
  | cons cmd rest =>
      by_cases hi : (cmd_unpack cmd).i = atmId k
      · cases hc : isRequest (cmd_unpack cmd).c with
        | true => exact ⟨_, (AtmMove.send cmd rest hp hu hi hc).step⟩
        | false => exact ⟨_, (AtmMove.reject cmd rest hp hu hi hc).step⟩
      · exact ⟨_, (AtmMove.skip cmd rest hp hu hi).step⟩

/-- Where nobody can move, an ATM that has not returned waits on an empty pipe. -/
theorem Deadlock.waiting {tr : Trace} {s : Sim} (hd : Deadlock tr s) {k : ℕ}
    (hk : (k : ℤ) < tr.atm_cnt.toInt) :
    (∃ status, (s.atm k).phase = .returned status) ∨
      (s.atm k).phase = .waiting ∧ s.atmfd k = [] := by
  cases hp : (s.atm k).phase with
  | returned status => exact .inl ⟨status, rfl⟩
  | reading =>
      obtain ⟨s', hs'⟩ := atmStep_of_reading hp
      exact absurd (.atm k hk hs') (hd s')
  | waiting =>
      refine .inr ⟨rfl, ?_⟩
      cases hr : s.atmfd k with
      | nil => rfl
      | cons reply more => exact absurd (.atm k hk (AtmMove.receive reply more hp hr).step) (hd _)

/-- And a bank that has not returned waits for another command. -/
theorem Deadlock.bank {tr : Trace} {s : Sim} (hd : Deadlock tr s) (hret : s.ret = none) :
    s.atm_cnt ≠ 0 ∧ s.bankfd = [] := by
  have hz : s.atm_cnt ≠ 0 :=
    fun hz => hd _ (.bank 0 (BankMove.close hret hz).step)
  refine ⟨hz, ?_⟩
  cases hb : s.bankfd with
  | nil => rfl
  | cons cmd rest => exact absurd (.bank 0 (BankMove.serve cmd rest hret hz hb).step) (hd _)

/-- The one unanswered command of a waiting ATM is in one of the two pipes. -/
theorem AtmInv.in_flight {tr : Trace} {k : ℕ} {a : Atm} {queued replies : List Command}
    {served : List (Command × Option Command)} (h : AtmInv tr k a queued replies served) :
    queued.length + replies.length = if a.phase = .waiting then 1 else 0 := by
  have h1 := congrArg List.length h.processed
  have h2 := congrArg List.length h.replied
  have h3 := h.pending
  simp only [List.length_append, List.length_map] at h1 h2
  omega

/-- An ATM that has returned has been served its whole program. -/
theorem Reachable.processed_of_returned {garbage : ℕ → CInt} {tr : Trace} {s : Sim}
    (hs : Reachable garbage tr s) {k : ℕ} (hk : (k : ℤ) < tr.atm_cnt.toInt) {status : Status}
    (hp : (s.atm k).phase = .returned status) :
    mine k s.processed = program tr k ∧ mine k s.bankfd = [] ∧ s.atmfd k = [] := by
  have ha := hs.inv.atm k hk
  have hnone := ha.in_flight
  rw [hp, if_neg (by simp)] at hnone
  have hqueued : mine k s.bankfd = [] := List.length_eq_zero_iff.mp (by omega)
  have hprocessed := ha.processed
  rw [hqueued, List.append_nil, served_map_fst] at hprocessed
  exact ⟨hprocessed.trans (hs.ended k hk status hp).1, hqueued,
    List.length_eq_zero_iff.mp (by omega)⟩

/-- If every ATM has been served its program, the EXITs taken are all there are. -/
theorem Inv.countP_processed {tr : Trace} {s : Sim} (hs : Inv tr s)
    (hall : ∀ k : ℕ, (k : ℤ) < tr.atm_cnt.toInt → mine k s.processed = program tr k) :
    s.processed.countP isExit = ∑ k ∈ Finset.range tr.atms, exits tr k := by
  rw [Lib.countP_eq_sum_filter (classes_disjoint tr) isExit hs.processed_covered]
  apply Finset.sum_congr rfl
  intro k hk
  rw [exits, ← hall k (Trace.mem_atms.mp hk), mine]

/-! ## Enough: a balanced trace runs to its end -/

/-- A prefix with all the hits of a list whose last element is one is the whole list. -/
theorem prefix_eq_of_countP {α : Type} {p : α → Bool} {xs ys : List α} (h : xs <+: ys)
    (hlast : ∀ y ∈ ys.getLast?, p y = true) (hcount : xs.countP p = ys.countP p) : xs = ys := by
  obtain ⟨zs, rfl⟩ := h
  cases hz : zs.getLast? with
  | none => rw [List.getLast?_eq_none_iff.mp hz, List.append_nil]
  | some z =>
      have hmem : z ∈ zs := List.mem_of_getLast? hz
      have hhit : p z = true := hlast z (by rw [List.getLast?_append, hz]; rfl)
      have hpos : 0 < zs.countP p := List.countP_pos_iff.mpr ⟨z, hmem, hhit⟩
      rw [List.countP_append] at hcount
      omega

/-- When the bank of a balanced trace closes it has taken every program. -/
theorem Balanced.processed_of_closed {garbage : ℕ → CInt} {tr : Trace} (htr : Balanced tr)
    {s : Sim} (hs : Reachable garbage tr s) (hret : s.ret = some SUCCESS) {k : ℕ}
    (hk : (k : ℤ) < tr.atm_cnt.toInt) : mine k s.processed = program tr k := by
  have hclosed := (hs.countInv (by omega)).exits_of_closed hret
  have hstart : ∀ j ∈ Finset.range tr.atms, s.processed.filter (ofAtm j) <+: program tr j :=
    fun j hj => (hs.inv.processed_prefix_sent (Trace.mem_atms.mp hj)).trans
      (hs.inv.sent_prefix_program (Trace.mem_atms.mp hj))
  have hsum : ∑ j ∈ Finset.range tr.atms, exits tr j = tr.atms := by
    have htotal := htr.1
    rw [Trace.atms] at htotal ⊢
    omega
  -- the bank has counted every EXIT, so none is missing of any ATM
  have hcount := Lib.countP_eq_of_sum_le isExit (exits tr) (classes_disjoint tr)
    hs.inv.processed_covered (fun j hj => (hstart j hj).sublist.countP_le)
    (by rw [hsum, hclosed])
  have hmem := Trace.mem_atms.mpr hk
  exact prefix_eq_of_countP (hstart k hmem) (htr.2 k hk) (hcount k hmem)

theorem Balanced.finished {garbage : ℕ → CInt} {tr : Trace} (htr : Balanced tr) {s : Sim}
    (hs : Reachable garbage tr s) (hd : Deadlock tr s) : Finished tr s := by
  have hn : 0 ≤ tr.atm_cnt.toInt := htr.1 ▸ Int.natCast_nonneg _
  cases hret : s.ret with
  | some status =>
      -- the bank has taken every program: whoever waits has its reply
      have hclosed := ((hs.countInv hn).closed status hret).1
      refine ⟨⟨status, hret⟩, fun k hk => ?_⟩
      rcases hd.waiting hk with hreturned | ⟨hp, hempty⟩
      · exact hreturned
      · have ha := hs.inv.atm k hk
        have hflight := ha.in_flight
        rw [hp, if_pos rfl, hempty, List.length_nil] at hflight
        have hsent := ha.processed
        rw [served_map_fst, htr.processed_of_closed hs (hclosed ▸ hret) hk] at hsent
        have hlen := (hs.inv.sent_prefix_program hk).length_le
        rw [← hsent, List.length_append] at hlen
        omega
  | none =>
      -- nothing is under way, so every ATM has returned and the counter is at zero
      obtain ⟨hz, hempty⟩ := hd.bank hret
      have hall : ∀ k : ℕ, (k : ℤ) < tr.atm_cnt.toInt → mine k s.processed = program tr k := by
        intro k hk
        rcases hd.waiting hk with ⟨status, hp⟩ | ⟨hp, hreplies⟩
        · exact (hs.processed_of_returned hk hp).1
        · have hflight := (hs.inv.atm k hk).in_flight
          rw [hp, if_pos rfl, hempty, hreplies] at hflight
          simp at hflight
      have hcount := (hs.countInv hn).count
      rw [hs.inv.countP_processed hall] at hcount
      have htotal := htr.1
      have hzero : s.atm_cnt.toNat = 0 := by
        rw [Trace.atms] at hcount htotal
        omega
      exact absurd (BitVec.eq_of_toNat_eq (by simpa using hzero)) hz

/-- How a balanced simulation ends: the bank with SUCCESS and every ATM with the
status its records call for, every program served, and no message left over. -/
theorem Balanced.outcome {garbage : ℕ → CInt} {tr : Trace} (htr : Balanced tr) {s : Sim}
    (hs : Reachable garbage tr s) (hd : Deadlock tr s) :
    s.ret = some SUCCESS ∧ s.bankfd = [] ∧
      ∀ k : ℕ, (k : ℤ) < tr.atm_cnt.toInt →
        (s.atm k).phase = .returned (exitStatus tr k) ∧ s.atmfd k = [] ∧
          mine k s.processed = program tr k := by
  obtain ⟨⟨status, hret⟩, hreturned⟩ := htr.finished hs hd
  have hn : 0 ≤ tr.atm_cnt.toInt := htr.1 ▸ Int.natCast_nonneg _
  have hall : ∀ k : ℕ, (k : ℤ) < tr.atm_cnt.toInt →
      mine k s.processed = program tr k ∧ mine k s.bankfd = [] ∧ s.atmfd k = [] :=
    fun k hk => hs.processed_of_returned hk (hreturned k hk).choose_spec
  refine ⟨by rw [hret, ((hs.countInv hn).closed status hret).1], ?_, fun k hk => ?_⟩
  · -- a message in the pipe would be one of an ATM of the trace
    apply List.eq_nil_iff_forall_not_mem.mpr
    intro cmd hcmd
    obtain ⟨⟨k, hk, hmine⟩, -⟩ := hs.inv.queued cmd hcmd
    have hmem : cmd ∈ mine k s.bankfd := List.mem_filter.mpr ⟨hcmd, hmine⟩
    rw [(hall k hk).2.1] at hmem
    exact absurd hmem List.not_mem_nil
  · obtain ⟨status', hp⟩ := hreturned k hk
    rw [hp, (hs.ended k hk status' hp).2]
    exact ⟨rfl, (hall k hk).2.2, (hall k hk).1⟩

/-! ## Necessary: a schedule in which the bank closes on somebody

Suppose the last command of some ATM is no EXIT. Run the others first, then this
one: the counter reaches zero while it still has that command ahead. -/

/-- A closed bank takes nothing more. -/
theorem leads_closed {tr : Trace} {s s' : Sim} {status : Status} (h : Leads tr s s')
    (hret : s.ret = some status) : s'.ret = some status ∧ s'.processed = s.processed := by
  induction h with
  | refl => exact ⟨hret, rfl⟩
  | tail _ hst ih =>
      obtain ⟨hret', hsame⟩ := ih
      cases hst with
      | atm k hk h => cases atmStep_cases h <;> exact ⟨hret', hsame⟩
      | bank stray h => cases bankStep_cases h <;> simp_all

/-- Every run comes to a point where nobody can move. -/
theorem exists_deadlock (tr : Trace) (s : Sim) : ∃ s', Leads tr s s' ∧ Deadlock tr s' := by
  apply Lib.exists_stuck (μ := Sim.fuel tr)
  intro s s' hst
  exact hst.fuel_lt

/-- A run in which the bank has closed before an ATM had sent its program leaves
that ATM waiting. -/
theorem exists_unfinished {garbage : ℕ → CInt} {tr : Trace} {s : Sim}
    (hs : Reachable garbage tr s) (hret : s.ret = some SUCCESS) {k : ℕ}
    (hk : (k : ℤ) < tr.atm_cnt.toInt) (hshort : (s.atm k).sent.length < (program tr k).length) :
    ∃ s', Reachable garbage tr s' ∧ Deadlock tr s' ∧ ¬ Finished tr s' := by
  obtain ⟨s', hlead, hd⟩ := exists_deadlock tr s
  have hs' : Reachable garbage tr s' := hs.trans hlead
  refine ⟨s', hs', hd, ?_⟩
  intro hf
  obtain ⟨status, hp⟩ := hf.2 k hk
  have hall := (hs'.processed_of_returned hk hp).1
  rw [(leads_closed hlead hret).2] at hall
  have hle := (hs.inv.processed_prefix_sent hk).length_le
  rw [hall] at hle
  omega

/-- The part of the program of ATM `k` in the records `cmds`. -/
def programIn (k : ℕ) (cmds : List Command) : List Command :=
  (mine k cmds).takeWhile (fun cmd => isRequest (cmd_unpack cmd).c)

theorem programIn_cons_of_other {k : ℕ} {cmd : Command} (h : ofAtm k cmd = false)
    (cmds : List Command) : programIn k (cmd :: cmds) = programIn k cmds := by
  rw [programIn, mine_cons_of_other h, programIn]

theorem programIn_cons_of_request {k : ℕ} {cmd : Command} (h : ofAtm k cmd = true)
    (hc : isRequest (cmd_unpack cmd).c = true) (cmds : List Command) :
    programIn k (cmd :: cmds) = cmd :: programIn k cmds := by
  rw [programIn, mine_cons_of_mine h, List.takeWhile_cons_of_pos (by simpa using hc), programIn]

theorem programIn_cons_of_reject {k : ℕ} {cmd : Command} (h : ofAtm k cmd = true)
    (hc : isRequest (cmd_unpack cmd).c = false) (cmds : List Command) :
    programIn k (cmd :: cmds) = [] := by
  rw [programIn, mine_cons_of_mine h, List.takeWhile_cons_of_neg (by simp [hc])]

/-- What an ATM at its trace has sent and what is left of its program. -/
theorem Inv.sent_append_programIn {tr : Trace} {s : Sim} (hs : Inv tr s) {k : ℕ}
    (hk : (k : ℤ) < tr.atm_cnt.toInt) (hp : (s.atm k).phase = .reading) :
    (s.atm k).sent ++ programIn k (s.atm k).unread = program tr k := by
  have hall := (hs.atm k hk).ahead (by simp [hp])
  rw [program, ← hall, List.takeWhile_append_of_pos (hs.sent_requests hk), programIn]

/-- If the counter is down to the EXITs of one program and the program goes on
after the last of them, some schedule closes the bank in front of the rest. -/
theorem exists_closed_early {tr : Trace} {k : ℕ} (hk : (k : ℤ) < tr.atm_cnt.toInt)
    (unread : List Command) (s : Sim) (hq : Quiet tr s) (hp : (s.atm k).phase = .reading)
    (hu : (s.atm k).unread = unread)
    (hcnt : s.atm_cnt.toNat = (programIn k unread).countP isExit)
    (hlast : ∃ cmd ∈ (programIn k unread).getLast?, isExit cmd = false) :
    ∃ s', Leads tr s s' ∧ s'.ret = some SUCCESS ∧ (s'.atm k).phase = .reading ∧
      programIn k (s'.atm k).unread ≠ [] := by
  induction unread generalizing s with
  | nil =>
      obtain ⟨cmd, hcmd, -⟩ := hlast
      simp [programIn] at hcmd
  | cons cmd rest ih =>
      by_cases hz : s.atm_cnt = 0
      · -- nothing left to count: the bank closes here
        refine ⟨_, .single (.bank 0 (BankMove.close hq.open_ hz).step), rfl, hp, ?_⟩
        intro hempty
        obtain ⟨last, hmem, -⟩ := hlast
        rw [← hu, hempty] at hmem
        simp at hmem
      obtain ⟨last, hmem, hno⟩ := hlast
      by_cases hi : ofAtm k cmd = true
      swap
      · have hother : ofAtm k cmd = false := by simpa using hi
        have hskip := AtmMove.skip cmd rest hp hu (fun h => hi (ofAtm_iff.mpr h))
        rw [programIn_cons_of_other hother] at hcnt hmem
        obtain ⟨s', hlead, hend⟩ := ih (s.setAtm k { s.atm k with
          unread := rest, phase := .reading,
          statuses := (s.atm k).statuses ++ [ERR_UNKNOWN_ATM] })
          ⟨hq.open_, hq.bankfd, hq.atmfd, hq.atm_count⟩ (by simp) (by simp) hcnt ⟨last, hmem, hno⟩
        exact ⟨s', hlead.head (.atm k hk hskip.step), hend⟩
      cases hc : isRequest (cmd_unpack cmd).c with
      | false => simp [programIn_cons_of_reject hi hc] at hmem
      | true =>
          -- one transaction; the counter and the EXITs ahead go down together
          obtain ⟨s₁, hlead₁, hq₁, -, hp₁, hu₁, hcnt₁⟩ := leads_transaction hk hq hz hp hu hi hc
          have hdown := countdown_toNat hz cmd
          rw [programIn_cons_of_request hi hc] at hcnt hmem
          rw [List.countP_cons] at hcnt
          have hrest : programIn k rest ≠ [] := by
            -- otherwise this command, no EXIT, is the last one, and the counter is at zero
            intro hempty
            rw [hempty] at hcnt hmem
            have hsame : cmd = last := by simpa using hmem
            rw [hsame, hno] at hcnt
            simp only [List.countP_nil, Bool.false_eq_true, if_false] at hcnt
            exact hz (BitVec.eq_of_toNat_eq (by simpa using hcnt))
          rw [List.getLast?_cons_of_ne_nil hrest] at hmem
          obtain ⟨s', hlead, hend⟩ := ih s₁ hq₁ hp₁ hu₁ (by rw [hcnt₁]; omega) ⟨last, hmem, hno⟩
          exact ⟨s', hlead₁.trans hlead, hend⟩

/-- With no ATM to wait for, a negative count leaves the bank waiting. -/
theorem deadlock_init_of_neg (garbage : ℕ → CInt) {tr : Trace} (hn : tr.atm_cnt.toInt < 0) :
    Deadlock tr (Sim.init garbage tr) := by
  intro s' hst
  cases hst with
  | atm k hk h => omega
  | bank stray h =>
      cases bankStep_cases h with
      | close hr hz =>
          have hzero : tr.atm_cnt = 0 := hz
          rw [hzero] at hn
          exact absurd hn (by decide)
      | serve cmd rest hr hz hb => exact absurd hb (by simp [Sim.init])

theorem balanced_of_finished {garbage : ℕ → CInt} {tr : Trace}
    (h : ∀ s, Reachable garbage tr s → Deadlock tr s → Finished tr s) : Balanced tr := by
  have hn : 0 ≤ tr.atm_cnt.toInt := by
    by_contra hneg
    obtain ⟨status, hstatus⟩ := (h _ .refl (deadlock_init_of_neg garbage (by omega))).1
    simp [Sim.init] at hstatus
  -- any schedule, followed to its end, counts the EXITs of all programs
  have hsum : ∑ k ∈ Finset.range tr.atms, exits tr k = tr.atms := by
    obtain ⟨s, hlead, hd⟩ := exists_deadlock tr (Sim.init garbage tr)
    have hs : Reachable garbage tr s := hlead
    obtain ⟨⟨status, hret⟩, hreturned⟩ := h s hs hd
    rw [← hs.inv.countP_processed (fun k hk =>
      (hs.processed_of_returned hk (hreturned k hk).choose_spec).1)]
    apply (hs.countInv hn).exits_of_closed
    rw [hret, ((hs.countInv hn).closed status hret).1]
  refine ⟨by rw [hsum, Trace.atms]; omega, fun k hk last hlast => ?_⟩
  by_contra hno
  have hmem := Trace.mem_atms.mpr hk
  obtain ⟨s₁, hlead₁, hothers₁, hend₁⟩ := exists_drained_atms
    ((Finset.range tr.atms).erase k).toList (Finset.nodup_toList _)
    (fun j hj => Trace.mem_atms.mp (Finset.mem_of_mem_erase (Finset.mem_toList.mp hj)))
    (Sim.init garbage tr) (quiet_init garbage tr) (fun _ _ => ⟨rfl, rfl⟩)
  have hfresh : s₁.atm k = (Sim.init garbage tr).atm k := hothers₁ k (by simp)
  have hbad : ∃ s₂, Leads tr s₁ s₂ ∧ s₂.ret = some SUCCESS ∧ (s₂.atm k).phase = .reading ∧
      programIn k (s₂.atm k).unread ≠ [] := by
    have hahead : programIn k tr.cmds = program tr k := rfl
    rcases hend₁ with hret | ⟨hq, hcnt⟩
    · refine ⟨s₁, .refl, hret, by rw [hfresh]; rfl, ?_⟩
      rw [hfresh]
      intro hempty
      have hnil : program tr k = [] := hempty
      rw [hnil] at hlast
      simp at hlast
    · apply exists_closed_early hk tr.cmds s₁ hq (by rw [hfresh]; rfl) (by rw [hfresh]; rfl)
      · have hinit : (Sim.init garbage tr).atm_cnt.toNat = tr.atms := by
          have hpos := toInt_eq_toNat_of_nonneg hn
          simp only [Sim.init, Trace.atms]
          omega
        rw [Finset.sum_map_toList, hinit] at hcnt
        have hsplit : exits tr k + ((Finset.range tr.atms).erase k).sum (exits tr) = tr.atms :=
          (Finset.add_sum_erase _ (exits tr) hmem).trans hsum
        rw [hahead, ← exits]
        omega
      · exact ⟨last, by rwa [hahead], by simpa using hno⟩
  obtain ⟨s₂, hlead₂, hret, hp, hpending⟩ := hbad
  have hs₂ : Reachable garbage tr s₂ := Relation.ReflTransGen.trans hlead₁ hlead₂
  have hshort : (s₂.atm k).sent.length < (program tr k).length := by
    have hpos := List.length_pos_iff.mpr hpending
    rw [← hs₂.inv.sent_append_programIn hk hp, List.length_append]
    omega
  obtain ⟨s₃, hs₃, hd, hunfinished⟩ := exists_unfinished hs₂ hret hk hshort
  exact hunfinished (h s₃ hs₃ hd)

/-- **The exact completion law.** Every run of the simulation of a trace, however
it is scheduled, ends with the bank and all ATMs returned, if and only if the
trace is balanced. -/
theorem finished_iff_balanced (garbage : ℕ → CInt) (tr : Trace) :
    (∀ s, Reachable garbage tr s → Deadlock tr s → Finished tr s) ↔ Balanced tr :=
  ⟨balanced_of_finished, fun htr _ hs hd => htr.finished hs hd⟩

/-! ## Generated traces -/

/-- On proper records an ATM sends everything it has. -/
theorem Proper.program_eq {tr : Trace} (htr : Proper tr) (k : ℕ) :
    program tr k = mine k tr.cmds := by
  apply List.takeWhile_eq_self_iff.mpr
  intro cmd hcmd
  exact (htr cmd (List.mem_of_mem_filter hcmd)).1.2

theorem Framed.exits_eq {tr : Trace} {k : ℕ} (h : Framed tr k)
    (hall : program tr k = mine k tr.cmds) :
    exits tr k = 1 ∧ ∀ cmd ∈ (program tr k).getLast?, isExit cmd = true := by
  obtain ⟨mid, hframe, hmid⟩ := h
  have hexit : isExit (MSG_EXIT (atmId k)) = true := by simp [isExit, MSG_EXIT]
  rw [exits, hall, hframe]
  refine ⟨?_, fun cmd hcmd => ?_⟩
  · rw [List.countP_append, exits_front hmid, List.countP_singleton, if_pos hexit]
  · rw [List.getLast?_append_of_ne_nil _ (List.cons_ne_nil _ _), List.getLast?_singleton,
      Option.mem_some_iff] at hcmd
    exact hcmd ▸ hexit

theorem balanced_of_framed {tr : Trace} (htr : Proper tr) (hn : 0 ≤ tr.atm_cnt.toInt)
    (hframed : ∀ k : ℕ, (k : ℤ) < tr.atm_cnt.toInt → Framed tr k) : Balanced tr := by
  have hexits : ∀ k : ℕ, (k : ℤ) < tr.atm_cnt.toInt →
      exits tr k = 1 ∧ ∀ cmd ∈ (program tr k).getLast?, isExit cmd = true :=
    fun k hk => (hframed k hk).exits_eq (htr.program_eq k)
  refine ⟨?_, fun k hk => (hexits k hk).2⟩
  rw [Finset.sum_congr rfl (fun k hk => (hexits k (Trace.mem_atms.mp hk)).1),
    ← Finset.card_eq_sum_ones, Finset.card_range, Trace.atms]
  omega

end ProjectsInC.BankAtm
