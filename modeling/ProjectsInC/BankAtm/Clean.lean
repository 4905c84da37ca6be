/-
The simulation on a generated trace.

Three things can go wrong in a run: an account the bank does not know, a record
an ATM rejects, and a bank that closes too early. On the traces of `twriter` none
of them does. The last is the interesting one: every ATM has one EXIT and it is
its last record, so a bank that has counted an EXIT for each ATM has seen the
last record of each ATM, hence all of them.
-/
import ProjectsInC.BankAtm.Twriter

set_option autoImplicit false

namespace ProjectsInC.BankAtm

open Status

/-! ## The records of one ATM in the three blocks -/

/-- A loop over all ids leaves one record for each ATM. -/
theorem mine_map_range (msg : ℕ → Command) {n k : ℕ} (hn : n ≤ 2 ^ 31) (hk : k < n)
    (hmsg : ∀ i, (cmd_unpack (msg i)).i = BitVec.ofNat 32 i) :
    mine k ((List.range n).map msg) = [msg k] := by
  have hsame : ∀ i ∈ List.range n, (ofAtm k ∘ msg) i = (i == k) := by
    intro i hi
    have hi' := List.mem_range.mp hi
    rw [Bool.eq_iff_iff, Function.comp_apply, ofAtm_iff, hmsg, beq_iff_eq]
    exact ⟨fun h => atmId_injective (by omega) (by omega) h, fun h => h ▸ rfl⟩
  rw [mine, List.filter_map, List.filter_congr hsame, List.filter_beq, List.count_range, if_pos hk]
  rfl

/-- The records of one ATM: a CONNECT, what lies between, an EXIT. -/
def Framed (tr : Trace) (k : ℕ) : Prop :=
  ∃ mid, mine k tr.cmds = MSG_CONNECT (atmId k) :: mid ++ [MSG_EXIT (atmId k)] ∧
    ∀ cmd ∈ mid, (cmd_unpack cmd).c ≠ CONNECT ∧ (cmd_unpack cmd).c ≠ EXIT

/-- Every record is a request of an existing ATM on existing accounts. -/
def Proper (tr : Trace) : Prop := ∀ cmd ∈ tr.cmds, Routed tr cmd ∧ tr.Knows (cmd_unpack cmd)

theorem Ordinary.not_framing {tr : Trace} {cmd : Command} (h : Ordinary tr cmd) :
    (cmd_unpack cmd).c ≠ CONNECT ∧ (cmd_unpack cmd).c ≠ EXIT := by
  have hne : DEPOSIT ≠ CONNECT ∧ DEPOSIT ≠ EXIT ∧ WITHDRAW ≠ CONNECT ∧ WITHDRAW ≠ EXIT ∧
      TRANSFER ≠ CONNECT ∧ TRANSFER ≠ EXIT ∧ BALANCE ≠ CONNECT ∧ BALANCE ≠ EXIT := by decide
  rcases h.code with h | h | h | h <;> rw [h] <;> simp only [ne_eq, hne, not_false_eq_true, and_self]

theorem routed_of_id {tr : Trace} {cmd : Command} (h0 : 0 ≤ (cmd_unpack cmd).i.toInt)
    (hn : (cmd_unpack cmd).i.toInt < tr.atm_cnt.toInt)
    (hc : isRequest (cmd_unpack cmd).c = true) : Routed tr cmd := by
  have hnat := toInt_eq_toNat_of_nonneg h0
  refine ⟨⟨(cmd_unpack cmd).i.toNat, by omega, ofAtm_iff.mpr ?_⟩, hc⟩
  rw [atmId, BitVec.ofNat_toNat, BitVec.setWidth_eq]

theorem Ordinary.proper {tr : Trace} {cmd : Command} (h : Ordinary tr cmd) :
    Routed tr cmd ∧ tr.Knows (cmd_unpack cmd) := by
  refine ⟨routed_of_id h.atm.1 h.atm.2 ?_, h.accounts⟩
  rcases h.code with h | h | h | h <;> rw [h] <;> rfl

/-- A CONNECT or EXIT of an existing ATM names no account. -/
theorem proper_of_framing {tr : Trace} {cmd : Command} {i : ℕ} (hi : (i : ℤ) < tr.atm_cnt.toInt)
    (hid : (cmd_unpack cmd).i = BitVec.ofNat 32 i)
    (hc : (cmd_unpack cmd).c = CONNECT ∨ (cmd_unpack cmd).c = EXIT) :
    Routed tr cmd ∧ tr.Knows (cmd_unpack cmd) := by
  have hint := toInt_ofNat_of_lt (index_lt hi)
  have hne : CONNECT ≠ DEPOSIT ∧ CONNECT ≠ WITHDRAW ∧ CONNECT ≠ TRANSFER ∧ CONNECT ≠ BALANCE ∧
      EXIT ≠ DEPOSIT ∧ EXIT ≠ WITHDRAW ∧ EXIT ≠ TRANSFER ∧ EXIT ≠ BALANCE := by decide
  refine ⟨routed_of_id (by rw [hid, hint]; omega) (by rw [hid, hint]; omega) ?_, ?_⟩
  · rcases hc with h | h <;> rw [h] <;> rfl
  · rcases hc with h | h <;> simp [Trace.Knows, Bank.Knows, h, hne]

section Generated

variable {RAND_MAX : ℕ} {atm_cnt account_cnt trans_cnt : CInt} {buffer : Command}
  {rands : List ℕ} {tr : Trace}

theorem twriter_proper (hatm : 1 ≤ atm_cnt.toInt) (hacc : atm_cnt.toInt ≤ account_cnt.toInt)
    (h : twriter RAND_MAX atm_cnt account_cnt trans_cnt buffer rands = some tr) : Proper tr := by
  obtain ⟨rfl, -, mid, hcmds, hmid⟩ := twriter_blocks hatm hacc h
  intro cmd hcmd
  rw [hcmds, List.mem_append, List.mem_append] at hcmd
  rcases hcmd with (hconnect | hord) | hexit
  · obtain ⟨i, hi, rfl⟩ := List.mem_map.mp hconnect
    have hi' := List.mem_range.mp hi
    exact proper_of_framing (i := i) (by omega) (by simp [MSG_CONNECT]) (.inl (by simp [MSG_CONNECT]))
  · exact (hmid cmd hord).proper
  · obtain ⟨i, hi, rfl⟩ := List.mem_map.mp hexit
    have hi' := List.mem_range.mp hi
    exact proper_of_framing (i := i) (by omega) (by simp [MSG_EXIT]) (.inr (by simp [MSG_EXIT]))

theorem twriter_framed (hatm : 1 ≤ atm_cnt.toInt) (hacc : atm_cnt.toInt ≤ account_cnt.toInt)
    (h : twriter RAND_MAX atm_cnt account_cnt trans_cnt buffer rands = some tr) {k : ℕ}
    (hk : (k : ℤ) < atm_cnt.toInt) : Framed tr k := by
  obtain ⟨rfl, -, mid, hcmds, hmid⟩ := twriter_blocks hatm hacc h
  have hbound := (toInt_bounds tr.atm_cnt).2
  have hconnect := mine_map_range (fun i => MSG_CONNECT (BitVec.ofNat 32 i))
    (n := tr.atm_cnt.toInt.toNat) (k := k) (by omega) (by omega) (fun i => by simp [MSG_CONNECT])
  have hexit := mine_map_range (fun i => MSG_EXIT (BitVec.ofNat 32 i))
    (n := tr.atm_cnt.toInt.toNat) (k := k) (by omega) (by omega) (fun i => by simp [MSG_EXIT])
  refine ⟨mine k mid, ?_, fun cmd hcmd => (hmid cmd (List.mem_of_mem_filter hcmd)).not_framing⟩
  rw [hcmds, mine_append, mine_append, upTo, hconnect, hexit]
  rfl

end Generated

/-! ## What the processes see -/

/-- On proper records the bank knows every account. -/
theorem Reachable.no_accunkn {garbage : ℕ → CInt} {tr : Trace} (htr : Proper tr) {s : Sim}
    (hs : Reachable garbage tr s) : ∀ e ∈ s.log, replyCode e.2 ≠ some ACCUNKN := by
  intro e he hcode
  obtain ⟨k, hk, hmine⟩ := (hs.inv.logged e he).1.1
  -- the message was sent by ATM `k`, so it is a record of the trace
  have hsent : e.1 ∈ mine k tr.cmds :=
    (hs.inv.atm k hk).sent.subset ((hs.inv.processed_prefix_sent hk).subset
      (List.mem_filter.mpr ⟨List.mem_map_of_mem he, hmine⟩))
  have hne : ACCUNKN ≠ NOFUNDS ∧ ACCUNKN ≠ OK := by decide
  have hok := (hs.postInv.codes e he (by rw [hcode]; simp [hne])).mpr
    (htr e.1 (List.mem_of_mem_filter hsent)).2
  rw [hcode, Option.some.injEq] at hok
  exact hne.2 hok

/-- No ATM has got ERR_UNKNOWN_CMD from `atm`. -/
def NoneRejected (tr : Trace) (s : Sim) : Prop :=
  ∀ k : ℕ, (k : ℤ) < tr.atm_cnt.toInt → ERR_UNKNOWN_CMD ∉ (s.atm k).statuses

theorem Step.noneRejected {tr : Trace} {s s' : Sim} (htr : Proper tr) (hs : Inv tr s)
    (hn : NoneRejected tr s) (h : Step tr s s') : NoneRejected tr s' := by
  cases h with
  | bank stray h => cases bankStep_cases h <;> exact hn
  | atm k hk h =>
      -- only the history of ATM `k` grows, so its new entry is all there is to look at
      have hgrow : ∀ {a : Atm} {s'' : Sim}, s''.atm = (s.setAtm k a).atm →
          ERR_UNKNOWN_CMD ∉ a.statuses → NoneRejected tr s'' := by
        intro a s'' hatm ha j hj
        rw [hatm]
        by_cases hjk : j = k
        · rw [hjk, setAtm_self]
          exact ha
        · rw [setAtm_other s a hjk]
          exact hn j hj
      have hold := hn k hk
      cases atmStep_cases h with
      | finish hp hu => exact hgrow rfl hold
      | skip cmd rest hp hu hi => exact hgrow rfl (by simp [hold])
      | reject cmd rest hp hu hi hc =>
          have hahead := (hs.atm k hk).ahead (by simp [hp])
          rw [hu, mine_cons_of_mine (ofAtm_iff.mpr hi)] at hahead
          have hmem : cmd ∈ mine k tr.cmds := by rw [← hahead]; simp
          have hreq := (htr cmd (List.mem_of_mem_filter hmem)).1.2
          rw [hc] at hreq
          exact absurd hreq (by decide)
      | send cmd rest hp hu hi hc => exact hgrow rfl hold
      | receive reply more hp hr =>
          obtain ⟨msg, hmsg, hcode⟩ := hs.reply_answered hk hr
          rw [← Option.some.inj hmsg] at hcode
          apply hgrow rfl
          rcases (atm_received_answer hcode).1 with h | h | h <;> simp [h, hold]

theorem Reachable.noneRejected {garbage : ℕ → CInt} {tr : Trace} (htr : Proper tr) {s : Sim}
    (hs : Reachable garbage tr s) : NoneRejected tr s :=
  hs.induct_inv (fun _ _ => List.not_mem_nil)
    (fun _ _ hinv hn hst => hst.noneRejected htr hinv hn)

/-! ## When the bank has closed -/

theorem exits_front {k : ℕ} {mid : List Command}
    (hmid : ∀ cmd ∈ mid, (cmd_unpack cmd).c ≠ CONNECT ∧ (cmd_unpack cmd).c ≠ EXIT) :
    (MSG_CONNECT (atmId k) :: mid).countP isExit = 0 := by
  rw [List.countP_eq_zero]
  intro cmd hcmd hexit
  rw [isExit, beq_iff_eq] at hexit
  rcases List.mem_cons.mp hcmd with rfl | hcmd
  · rw [MSG_CONNECT, cmd_unpack_pack] at hexit
    exact absurd hexit (show CONNECT ≠ EXIT by decide)
  · exact (hmid cmd hcmd).2 hexit

/-- A prefix of framed records has at most one EXIT, and with one it is all of
them. -/
theorem Framed.prefix_exits {tr : Trace} {k : ℕ} (h : Framed tr k) {cmds : List Command}
    (hpre : cmds <+: mine k tr.cmds) :
    cmds.countP isExit ≤ 1 ∧ (cmds.countP isExit = 1 → cmds = mine k tr.cmds) := by
  obtain ⟨mid, hframe, hmid⟩ := h
  have hfront := exits_front (k := k) hmid
  rw [hframe] at hpre ⊢
  rcases List.prefix_concat_iff.mp hpre with hall | hshort
  · rw [hall]
    refine ⟨?_, fun _ => rfl⟩
    rw [List.countP_append, hfront, List.countP_singleton]
    split_ifs <;> omega
  · have hzero := hshort.sublist.countP_le (p := isExit)
    rw [hfront] at hzero
    exact ⟨by omega, fun hone => by omega⟩

/-- **A closed bank has seen everything**, exactly once. -/
theorem Reachable.processed_all {garbage : ℕ → CInt} {tr : Trace} (htr : Proper tr)
    (hframed : ∀ k : ℕ, (k : ℤ) < tr.atm_cnt.toInt → Framed tr k)
    (hn : 0 ≤ tr.atm_cnt.toInt) {s : Sim} (hs : Reachable garbage tr s)
    (hret : s.ret = some SUCCESS) : s.processed.Perm tr.cmds := by
  have hclosed := (hs.countInv hn).exits_of_closed hret
  have hpre : ∀ k ∈ Finset.range tr.atms,
      s.processed.filter (ofAtm k) <+: mine k tr.cmds := fun k hk =>
    (hs.inv.processed_prefix_sent (Trace.mem_atms.mp hk)).trans
      (hs.inv.atm k (Trace.mem_atms.mp hk)).sent
  have hone := Lib.countP_eq_of_sum_le isExit (fun _ => 1) (classes_disjoint tr)
    hs.inv.processed_covered
    (fun k hk => ((hframed k (Trace.mem_atms.mp hk)).prefix_exits (hpre k hk)).1)
    (by simp [hclosed])
  refine Lib.perm_of_filter_eq (classes_disjoint tr) hs.inv.processed_covered ?_ (fun k hk => ?_)
  · intro cmd hcmd
    obtain ⟨k, hk, hmine⟩ := (htr cmd hcmd).1.1
    exact ⟨k, Trace.mem_atms.mpr hk, hmine⟩
  · exact ((hframed k (Trace.mem_atms.mp hk)).prefix_exits (hpre k hk)).2 (hone k hk)

/-- **Generated traces run clean.** In a trace written by `twriter` every id and
every account a command reads is in range, and each ATM's records run from its
one CONNECT to its one EXIT. In every state a schedule of the trace reaches, no
reply of the bank is ACCUNKN, no ATM has seen ERR_UNKNOWN_CMD, and if `run_bank`
has returned SUCCESS it has processed the records of the trace, each once. -/
theorem generated_run_clean {RAND_MAX : ℕ} {atm_cnt account_cnt trans_cnt : CInt}
    {buffer : Command} {rands : List ℕ} {tr : Trace} (hatm : 1 ≤ atm_cnt.toInt)
    (hacc : atm_cnt.toInt ≤ account_cnt.toInt)
    (h : twriter RAND_MAX atm_cnt account_cnt trans_cnt buffer rands = some tr) :
    tr.atm_cnt = atm_cnt ∧ tr.account_cnt = account_cnt ∧
    (∀ cmd ∈ tr.cmds, 0 ≤ (cmd_unpack cmd).i.toInt ∧
      (cmd_unpack cmd).i.toInt < atm_cnt.toInt ∧ tr.Knows (cmd_unpack cmd)) ∧
    (∀ k : ℕ, (k : ℤ) < atm_cnt.toInt → Framed tr k) ∧
    ∀ (garbage : ℕ → CInt) (s : Sim), Reachable garbage tr s →
      (∀ e ∈ s.log, replyCode e.2 ≠ some ACCUNKN) ∧ NoneRejected tr s ∧
      (s.ret = some SUCCESS → s.processed.Perm tr.cmds) := by
  have hproper := twriter_proper hatm hacc h
  have hframed : ∀ k : ℕ, (k : ℤ) < atm_cnt.toInt → Framed tr k :=
    fun k hk => twriter_framed hatm hacc h hk
  obtain ⟨rfl, rfl, -⟩ := twriter_blocks hatm hacc h
  refine ⟨rfl, rfl, fun cmd hcmd => ?_, hframed, fun garbage s hs => ?_⟩
  · obtain ⟨⟨⟨k, hk, hmine⟩, -⟩, hknows⟩ := hproper cmd hcmd
    have hint := toInt_ofNat_of_lt (index_lt hk)
    rw [← atmId, ← ofAtm_iff.mp hmine] at hint
    exact ⟨by omega, by omega, hknows⟩
  · exact ⟨hs.no_accunkn hproper, hs.noneRejected hproper,
      hs.processed_all hproper hframed (by omega)⟩

/-- The numbers of a run with two ATMs, two accounts and one transaction; the
sixth is rejected. -/
def someRands : List ℕ :=
  [5, 1500000000, 7, 0, 1600000000, 2147483647, 99, 1000000000]

theorem generated_run_clean_transfer :
    ∃ tr, twriter 2147483647 2 2 1 (MSG_EXIT 0) someRands = some tr ∧
      ∀ s, Reachable (fun _ => 0) tr s → s.ret = some SUCCESS → s.processed.Perm tr.cmds := by
  obtain ⟨tr, htr⟩ := Option.isSome_iff_exists.mp
    (show (twriter 2147483647 2 2 1 (MSG_EXIT 0) someRands).isSome by decide)
  have hclean := generated_run_clean (by decide) (by decide) htr
  exact ⟨tr, htr, fun s hs => (hclean.2.2.2.2 _ s hs).2.2⟩

end ProjectsInC.BankAtm
