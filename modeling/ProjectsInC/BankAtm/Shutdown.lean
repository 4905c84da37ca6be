/-
When does `run_bank` stop?

Activity is one anonymous counter: it starts at the number of ATMs and every
EXIT message takes one off. If each ATM sends one EXIT that is the number of
active ATMs; but an ATM that goes on reading the trace after its own EXIT can
send another, and then the bank closes while somebody else is still at work.
[`ExitsBounded`] is the exact condition on the trace: without any one of the
ATMs, the others together cannot bring the counter to zero.
-/
import ProjectsInC.Lib.Partition
import ProjectsInC.BankAtm.Protocol

set_option autoImplicit false

namespace ProjectsInC.BankAtm

open Status

/-! ## EXITs in the trace -/

/-- The message is an EXIT. -/
def isExit (cmd : Command) : Bool := (cmd_unpack cmd).c == EXIT

/-- The records ATM `k` will send if it is never stopped from outside: its own,
up to the first one whose command byte it rejects. -/
def program (tr : Trace) (k : ℕ) : List Command :=
  (mine k tr.cmds).takeWhile (fun cmd => isRequest (cmd_unpack cmd).c)

/-- How many EXITs ATM `k` has to send. -/
def exits (tr : Trace) (k : ℕ) : ℕ := (program tr k).countP isExit

/-- The number of ATMs `main` forks. -/
def Trace.atms (tr : Trace) : ℕ := tr.atm_cnt.toInt.toNat

theorem Trace.mem_atms {tr : Trace} {k : ℕ} :
    k ∈ Finset.range tr.atms ↔ (k : ℤ) < tr.atm_cnt.toInt := by
  rw [Finset.mem_range, Trace.atms]
  omega

/-- Whichever ATM is left out, the others have fewer EXITs than there are ATMs. -/
def ExitsBounded (tr : Trace) : Prop :=
  ∀ j : ℕ, (j : ℤ) < tr.atm_cnt.toInt →
    ∑ k ∈ (Finset.range tr.atms).erase j, exits tr k < tr.atms

/-! ## The log, cut by ATM -/

/-- The messages the bank has taken, in order. -/
def Sim.processed (s : Sim) : List Command := s.log.map Prod.fst

theorem served_map_fst (s : Sim) (k : ℕ) :
    (s.served k).map Prod.fst = mine k s.processed := by
  rw [Sim.served, Sim.processed, mine, List.filter_map]
  rfl

theorem classes_disjoint (tr : Trace) : Lib.DisjointClasses (Finset.range tr.atms) ofAtm :=
  fun _ hj _ hk _ h h' => ofAtm_unique (Trace.mem_atms.mp hj) (Trace.mem_atms.mp hk) h h'

theorem Inv.processed_covered {tr : Trace} {s : Sim} (hs : Inv tr s) :
    Lib.Covers (Finset.range tr.atms) ofAtm s.processed := by
  intro cmd hcmd
  obtain ⟨e, he, rfl⟩ := List.mem_map.mp hcmd
  obtain ⟨k, hk, hmine⟩ := (hs.logged e he).1.1
  exact ⟨k, Trace.mem_atms.mpr hk, hmine⟩

/-- What the bank has taken of an ATM is a prefix of what the ATM has sent. -/
theorem Inv.processed_prefix_sent {tr : Trace} {s : Sim} (hs : Inv tr s) {k : ℕ}
    (hk : (k : ℤ) < tr.atm_cnt.toInt) : mine k s.processed <+: (s.atm k).sent := by
  rw [← served_map_fst, ← (hs.atm k hk).processed]
  exact List.prefix_append _ _

/-- A prefix made of elements that pass the test lies in `takeWhile`. -/
theorem prefix_takeWhile {α : Type} {p : α → Bool} {xs ys : List α} (h : xs <+: ys)
    (hp : ∀ x ∈ xs, p x = true) : xs <+: ys.takeWhile p := by
  obtain ⟨zs, rfl⟩ := h
  rw [List.takeWhile_append_of_pos hp]
  exact List.prefix_append _ _

/-- An ATM sends a prefix of its program. -/
theorem Inv.sent_prefix_program {tr : Trace} {s : Sim} (hs : Inv tr s) {k : ℕ}
    (hk : (k : ℤ) < tr.atm_cnt.toInt) : (s.atm k).sent <+: program tr k := by
  apply prefix_takeWhile (hs.atm k hk).sent
  intro cmd hcmd
  rw [← (hs.atm k hk).processed, List.mem_append] at hcmd
  rcases hcmd with hlog | hqueue
  · obtain ⟨e, he, rfl⟩ := List.mem_map.mp hlog
    exact (hs.logged e (List.mem_of_mem_filter he)).1.2
  · exact (hs.queued cmd (List.mem_of_mem_filter hqueue)).2

/-! ## The counter -/

/-- The counter of `run_bank` and the EXITs taken so far add up to the number of
ATMs, and `run_bank` has returned only with the counter at zero. -/
structure CountInv (tr : Trace) (s : Sim) : Prop where
  count : s.atm_cnt.toNat + s.processed.countP isExit = tr.atms
  closed : ∀ status, s.ret = some status → status = SUCCESS ∧ s.atm_cnt = 0

theorem countInv_init (garbage : ℕ → CInt) {tr : Trace} (hn : 0 ≤ tr.atm_cnt.toInt) :
    CountInv tr (Sim.init garbage tr) where
  count := by
    have h := toInt_eq_toNat_of_nonneg hn
    simp only [Sim.init, Sim.processed, List.map_nil, List.countP_nil, Trace.atms]
    omega
  closed := fun status h => absurd h (by simp [Sim.init])

/-- An EXIT takes one off a counter that is not zero. -/
theorem countdown_toNat {n : CInt} (hn : n ≠ 0) (cmd : Command) :
    (countdown n (cmd_unpack cmd)).toNat + (if isExit cmd then 1 else 0) = n.toNat := by
  have hpos : n.toNat ≠ 0 := fun h => hn (BitVec.eq_of_toNat_eq (by simpa using h))
  have hlt := n.isLt
  unfold countdown isExit
  by_cases h : (cmd_unpack cmd).c = EXIT
  · rw [if_pos h, if_pos (by simpa using h), BitVec.toNat_sub]
    have hone : (1 : CInt).toNat = 1 := rfl
    omega
  · rw [if_neg h, if_neg (by simpa using h), add_zero]

theorem Step.countInv {tr : Trace} {s s' : Sim} (hs : Inv tr s) (hc : CountInv tr s)
    (h : Step tr s s') : CountInv tr s' := by
  cases h with
  | atm k hk h =>
      -- an ATM touches neither the counter nor the log
      cases atmStep_cases h <;> exact ⟨hc.count, hc.closed⟩
  | bank stray h =>
      cases bankStep_cases h with
      | close hr hz =>
          refine ⟨hc.count, fun status h => ?_⟩
          exact ⟨(Option.some.inj h).symm, hz⟩
      | serve cmd rest hr hz hb =>
          -- the message goes into the log, and off the counter if it is an EXIT
          have hserved := hs.served_head hb stray
          have hcount := hc.count
          have hdown := countdown_toNat hz cmd
          refine ⟨?_, fun status h => ?_⟩
          · simp only [Sim.processed, List.map_append, List.countP_append, List.map_cons,
              List.map_nil, List.countP_singleton, hserved.atm_cnt]
            simp only [Sim.processed] at hcount
            omega
          · have hgo : run_bank_next
                (BankAtm.bank (Env.reliable stray) s.bank s.atm_cnt cmd).result = none := by
              rw [hserved.result]; rfl
            exact absurd (hgo.symm.trans h) (by simp)

theorem Reachable.countInv {garbage : ℕ → CInt} {tr : Trace} {s : Sim}
    (h : Reachable garbage tr s) (hn : 0 ≤ tr.atm_cnt.toInt) : CountInv tr s :=
  h.induct_inv (countInv_init garbage hn) (fun _ _ hs hc hst => hst.countInv hs hc)

/-- When the bank has closed, it has taken as many EXITs as there are ATMs. -/
theorem CountInv.exits_of_closed {tr : Trace} {s : Sim} (h : CountInv tr s)
    (hret : s.ret = some SUCCESS) : s.processed.countP isExit = tr.atms := by
  have hz := (h.closed _ hret).2
  have hcount := h.count
  rw [hz] at hcount
  simpa using hcount

/-! ## Enough: nobody is missing at the end -/

/-- Every ATM has sent an EXIT. -/
def AllExited (tr : Trace) (s : Sim) : Prop :=
  ∀ k : ℕ, (k : ℤ) < tr.atm_cnt.toInt → ∃ cmd ∈ (s.atm k).sent, isExit cmd = true

theorem allExited_of_bounded {garbage : ℕ → CInt} {tr : Trace} (htr : ExitsBounded tr) {s : Sim}
    (hs : Reachable garbage tr s) (hret : s.ret = some SUCCESS) : AllExited tr s := by
  intro j hj
  by_contra hnone
  have hinv := hs.inv
  have hclosed := (hs.countInv (by omega)).exits_of_closed hret
  rw [Lib.countP_eq_sum_filter (classes_disjoint tr) isExit hinv.processed_covered] at hclosed
  -- `j` contributes nothing to the EXITs the bank has taken
  have hzero : (s.processed.filter (ofAtm j)).countP isExit = 0 := by
    rw [List.countP_eq_zero]
    intro cmd hcmd hexit
    exact hnone ⟨cmd, (hinv.processed_prefix_sent hj).subset hcmd, hexit⟩
  have hle : ∀ k ∈ (Finset.range tr.atms).erase j,
      (s.processed.filter (ofAtm k)).countP isExit ≤ exits tr k := by
    intro k hk
    have hk' := Trace.mem_atms.mp (Finset.mem_of_mem_erase hk)
    exact (((hinv.processed_prefix_sent hk').trans (hinv.sent_prefix_program hk')).sublist).countP_le
  have hsum := Finset.sum_le_sum hle
  rw [← Finset.add_sum_erase _ _ (Trace.mem_atms.mpr hj), hzero] at hclosed
  have := htr j hj
  omega

/-! ## Necessary: a schedule that leaves one ATM out

If the other ATMs do have the EXITs, let them run one after another, each
served at once, and never schedule the one that is left out. Nothing waits, so
the counter runs down to zero. -/

/-- Some schedule leads from the first state to the second. -/
def Leads (tr : Trace) (s s' : Sim) : Prop := Relation.ReflTransGen (Step tr) s s'

/-- No message is under way and the bank is open. -/
structure Quiet (tr : Trace) (s : Sim) : Prop where
  open_ : s.ret = none
  bankfd : s.bankfd = []
  atmfd : ∀ k, s.atmfd k = []
  atm_count : s.bank.atm_count = tr.atm_cnt

theorem quiet_init (garbage : ℕ → CInt) (tr : Trace) : Quiet tr (Sim.init garbage tr) :=
  ⟨rfl, rfl, fun _ => rfl, rfl⟩

/-- One request sent, served and its reply read: the ATM is back at its trace,
the pipes are empty again, and nobody else has moved. -/
theorem leads_transaction {tr : Trace} {s : Sim} {k : ℕ} (hk : (k : ℤ) < tr.atm_cnt.toInt)
    (hq : Quiet tr s) (hz : s.atm_cnt ≠ 0) {cmd : Command} {rest : List Command}
    (hp : (s.atm k).phase = .reading) (hu : (s.atm k).unread = cmd :: rest)
    (hi : ofAtm k cmd = true) (hc : isRequest (cmd_unpack cmd).c = true) :
    ∃ s', Leads tr s s' ∧ Quiet tr s' ∧ (∀ j, j ≠ k → s'.atm j = s.atm j) ∧
      (s'.atm k).phase = .reading ∧ (s'.atm k).unread = rest ∧
      s'.atm_cnt = countdown s.atm_cnt (cmd_unpack cmd) := by
  have hrouted : Routed tr cmd := ⟨⟨k, hk, hi⟩, hc⟩
  have hserved := hrouted.served hq.atm_count (Env.reliable 0) s.atm_cnt
  obtain ⟨msg, hmsg, hcode⟩ := hserved.answered
  have hslot : (cmd_unpack cmd).i.toNat = k := by
    rw [ofAtm_iff.mp hi, atmId_toNat (index_lt hk)]
  have hnext : run_bank_next (bank (Env.reliable 0) s.bank s.atm_cnt cmd).result = none := by
    rw [hserved.result]; rfl
  -- the three moves; the pipe of the bank holds this message only
  have hsend := AtmMove.send cmd rest hp hu (ofAtm_iff.mp hi) hc
  have hserve := @BankMove.serve 0 { s.setAtm k { s.atm k with
      unread := rest, phase := .waiting, sent := (s.atm k).sent ++ [cmd] } with
    bankfd := s.bankfd ++ [cmd] } cmd [] hq.open_ hz (by rw [hq.bankfd]; rfl)
  have hget := AtmMove.receive (k := k) (s := { s.setAtm k { s.atm k with
      unread := rest, phase := .waiting, sent := (s.atm k).sent ++ [cmd] } with
    bankfd := []
    bank := (bank (Env.reliable 0) s.bank s.atm_cnt cmd).bank
    atm_cnt := (bank (Env.reliable 0) s.bank s.atm_cnt cmd).atm_cnt
    ret := run_bank_next (bank (Env.reliable 0) s.bank s.atm_cnt cmd).result
    atmfd := deliver (cmd_unpack cmd).i.toNat
      (bank (Env.reliable 0) s.bank s.atm_cnt cmd).reply s.atmfd
    log := s.log ++ [(cmd, (bank (Env.reliable 0) s.bank s.atm_cnt cmd).reply)] }) msg []
    (by simp) (by simp only [deliver, hmsg, hslot, Function.update_self, hq.atmfd k]; rfl)
  refine ⟨_, ((Relation.ReflTransGen.single (.atm k hk hsend.step)).tail
    (.bank 0 hserve.step)).tail (.atm k hk hget.step), ⟨hnext, rfl, fun j => ?_, ?_⟩, ?_, ?_, ?_,
    hserved.atm_cnt⟩
  · by_cases h : j = k
    · subst h
      exact Function.update_self ..
    · simp only [Function.update_of_ne h, deliver, hmsg, hslot]
      exact hq.atmfd j
  · exact (bank_atm_count _ _ _ _).trans hq.atm_count
  · intro j h
    simp only [Sim.setAtm, Function.update_of_ne h]
  · simp only [setAtm_self, phaseAfter, (atm_received_answer hcode).2]
  · simp only [setAtm_self]

/-- What an ATM does from quiet to quiet, or to the closing of the bank:
nobody else has moved, and the counter has gone down by the EXITs of its
program. -/
def Drained (tr : Trace) (s s' : Sim) (others : ℕ → Prop) (gone : ℕ) : Prop :=
  Leads tr s s' ∧ (∀ j, others j → s'.atm j = s.atm j) ∧
    (s'.ret = some SUCCESS ∨ Quiet tr s' ∧ s'.atm_cnt.toNat + gone = s.atm_cnt.toNat)

/-- Some schedule runs ATM `k` alone to the end of its program, unless the bank
closes before that. -/
theorem exists_drained_atm {tr : Trace} {k : ℕ} (hk : (k : ℤ) < tr.atm_cnt.toInt)
    (unread : List Command) (s : Sim) (hq : Quiet tr s) (hp : (s.atm k).phase = .reading)
    (hu : (s.atm k).unread = unread) :
    ∃ s', Drained tr s s' (· ≠ k)
      (((mine k unread).takeWhile (fun cmd => isRequest (cmd_unpack cmd).c)).countP isExit) := by
  induction unread generalizing s with
  | nil => exact ⟨s, .refl, fun _ _ => rfl, .inr ⟨hq, by simp⟩⟩
  | cons cmd rest ih =>
      by_cases hi : ofAtm k cmd = true
      swap
      · -- a record of another ATM: one step inside the trace
        have hother : ofAtm k cmd = false := by simpa using hi
        have hskip := AtmMove.skip cmd rest hp hu (fun h => hi (ofAtm_iff.mpr h))
        obtain ⟨s', hlead, hothers, hend⟩ := ih (s.setAtm k { s.atm k with
          unread := rest, phase := .reading,
          statuses := (s.atm k).statuses ++ [ERR_UNKNOWN_ATM] })
          ⟨hq.open_, hq.bankfd, hq.atmfd, hq.atm_count⟩ (by simp) (by simp)
        refine ⟨s', hlead.head (.atm k hk hskip.step), fun j hj => ?_, ?_⟩
        · rw [hothers j hj, setAtm_other s _ hj]
        · rwa [mine_cons_of_other hother]
      rw [mine_cons_of_mine hi]
      by_cases hc : isRequest (cmd_unpack cmd).c = true
      swap
      · -- the program ends in front of a record with an unknown command byte
        exact ⟨s, .refl, fun _ _ => rfl, .inr ⟨hq, by simp [hc]⟩⟩
      by_cases hz : s.atm_cnt = 0
      · -- the counter is already at zero: the bank closes
        have hclose := @BankMove.close 0 _ hq.open_ hz
        exact ⟨_, .single (.bank 0 hclose.step), fun _ _ => rfl, .inl rfl⟩
      · -- one transaction, then the rest of the trace from the quiet state behind it
        obtain ⟨s₁, hlead₁, hq₁, hothers₁, hp₁, hu₁, hcnt₁⟩ :=
          leads_transaction hk hq hz hp hu hi hc
        obtain ⟨s', hlead, hothers, hend⟩ := ih s₁ hq₁ hp₁ hu₁
        refine ⟨s', hlead₁.trans hlead, fun j hj => (hothers j hj).trans (hothers₁ j hj), ?_⟩
        rcases hend with hret | ⟨hq', hcnt⟩
        · exact .inl hret
        · refine .inr ⟨hq', ?_⟩
          have hdown := countdown_toNat hz cmd
          rw [hcnt₁] at hcnt
          rw [List.takeWhile_cons, if_pos hc, List.countP_cons]
          omega

/-- Some schedule runs the ATMs of a list one after another. -/
theorem exists_drained_atms {tr : Trace} (ks : List ℕ) (hnodup : ks.Nodup)
    (hks : ∀ k ∈ ks, (k : ℤ) < tr.atm_cnt.toInt) (s : Sim) (hq : Quiet tr s)
    (hfresh : ∀ k ∈ ks, (s.atm k).phase = .reading ∧ (s.atm k).unread = tr.cmds) :
    ∃ s', Drained tr s s' (· ∉ ks) (ks.map (exits tr)).sum := by
  induction ks generalizing s with
  | nil => exact ⟨s, .refl, fun _ _ => rfl, .inr ⟨hq, by simp⟩⟩
  | cons k ks ih =>
      obtain ⟨hkmem, hnodup'⟩ := List.nodup_cons.mp hnodup
      obtain ⟨hp, hu⟩ := hfresh k List.mem_cons_self
      obtain ⟨s₁, hlead₁, hothers₁, hend₁⟩ :=
        exists_drained_atm (hks k List.mem_cons_self) tr.cmds s hq hp hu
      rcases hend₁ with hret | ⟨hq₁, hcnt₁⟩
      · -- the bank has closed already: the others need not run
        exact ⟨s₁, hlead₁, fun j hj => hothers₁ j (fun h => hj (h ▸ List.mem_cons_self)), .inl hret⟩
      · obtain ⟨s', hlead, hothers, hend⟩ := ih hnodup'
          (fun j hj => hks j (List.mem_cons_of_mem k hj)) s₁ hq₁ (fun j hj => by
            rw [hothers₁ j (fun h => hkmem (h ▸ hj))]
            exact hfresh j (List.mem_cons_of_mem k hj))
        refine ⟨s', hlead₁.trans hlead, fun j hj => ?_, ?_⟩
        · rw [hothers j (fun h => hj (List.mem_cons_of_mem k h)),
            hothers₁ j (fun h => hj (h ▸ List.mem_cons_self))]
        · rcases hend with hret | ⟨hq', hcnt⟩
          · exact .inl hret
          · refine .inr ⟨hq', ?_⟩
            rw [List.map_cons, List.sum_cons]
            simp only [exits, program] at hcnt ⊢
            omega

theorem bounded_of_allExited {garbage : ℕ → CInt} {tr : Trace}
    (h : ∀ s, Reachable garbage tr s → s.ret = some SUCCESS → AllExited tr s) :
    ExitsBounded tr := by
  intro j hj
  by_contra hmany
  -- run everybody but `j`
  have hmem : ∀ k, k ∈ ((Finset.range tr.atms).erase j).toList → (k : ℤ) < tr.atm_cnt.toInt :=
    fun k hk => Trace.mem_atms.mp (Finset.mem_of_mem_erase (Finset.mem_toList.mp hk))
  obtain ⟨s, hlead, hothers, hend⟩ := exists_drained_atms ((Finset.range tr.atms).erase j).toList
    (Finset.nodup_toList _) hmem (Sim.init garbage tr) (quiet_init garbage tr)
    (fun _ _ => ⟨rfl, rfl⟩)
  -- it has sent nothing, so a closed bank would contradict the assumption
  have hj' : (s.atm j).sent = [] := by rw [hothers j (by simp)]; rfl
  have hno : ∀ s', s'.atm j = s.atm j → Reachable garbage tr s' → s'.ret ≠ some SUCCESS := by
    intro s' hsame hreach hret
    obtain ⟨cmd, hcmd, -⟩ := h s' hreach hret j hj
    rw [hsame, hj'] at hcmd
    exact absurd hcmd List.not_mem_nil
  rcases hend with hret | ⟨hq, hcnt⟩
  · exact hno s rfl hlead hret
  · -- the counter has run out, so the bank can close
    have hinit : (Sim.init garbage tr).atm_cnt.toNat = tr.atms := by
      have hpos := toInt_eq_toNat_of_nonneg (x := tr.atm_cnt) (by omega)
      simp only [Sim.init, Trace.atms]
      omega
    have henough : tr.atms ≤ ((Finset.range tr.atms).erase j).sum (exits tr) := not_lt.mp hmany
    rw [Finset.sum_map_toList, hinit] at hcnt
    have hz : s.atm_cnt = 0 := BitVec.eq_of_toNat_eq (by
      have hzero : (0 : CInt).toNat = 0 := rfl
      omega)
    have hclose := @BankMove.close 0 _ hq.open_ hz
    exact hno { s with ret := some SUCCESS } rfl (hlead.tail (.bank 0 hclose.step)) rfl

/-- **The exact closing law.** On a trace, `run_bank` returns SUCCESS only after
every ATM has sent an EXIT, under every schedule, if and only if no `n - 1` of
the `n` ATMs have `n` EXITs between them. -/
theorem close_after_exits_iff (garbage : ℕ → CInt) (tr : Trace) :
    (∀ s, Reachable garbage tr s → s.ret = some SUCCESS → AllExited tr s) ↔ ExitsBounded tr :=
  ⟨bounded_of_allExited, fun htr _ hs hret => allExited_of_bounded htr hs hret⟩

/-- Two ATMs, of which the first exits twice before the second has begun. -/
def doubleExit : Trace where
  atm_cnt := 2
  account_cnt := 2
  cmds := [MSG_EXIT 0, MSG_EXIT 0, MSG_CONNECT 1, MSG_DEPOSIT 1 1 50, MSG_EXIT 1]

/-- On this trace the bank can return SUCCESS before the second ATM has sent
anything. -/
theorem early_close :
    ¬ ∀ (garbage : ℕ → CInt) (tr : Trace),
        (∀ cmd ∈ tr.cmds, 0 ≤ (cmd_unpack cmd).i.toInt ∧
          (cmd_unpack cmd).i.toInt < tr.atm_cnt.toInt) →
        ∀ s, Reachable garbage tr s → s.ret = some SUCCESS → AllExited tr s := by
  intro h
  have hbounded := bounded_of_allExited (h (fun _ => 0) doubleExit (by decide)) 1 (by decide)
  exact absurd hbounded (by decide)

end ProjectsInC.BankAtm
