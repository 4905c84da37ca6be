/-
`twriter.c`: the generator of random traces.

The generator draws its numbers from `rand()`, here the list of the results
still to come; a draw fails (`none`) if the list ends before the rejection loop
does. Whatever the numbers are, the records come in three blocks (a CONNECT for
each ATM, deposits and random transactions, an EXIT for each ATM), and
[`twriter_blocks`] says so. From that shape the traces are clean: the counter
of `run_bank` reaches zero only after every record.
-/
import ProjectsInC.BankAtm.Schedule

set_option autoImplicit false

namespace ProjectsInC.BankAtm

open Status

/-! ## `random_at_most` -/

/-- The loop `while (limit <= (x = rand()))`. -/
def rejectAbove (limit : ℕ) : List ℕ → Option (ℕ × List ℕ)
  | [] => none
  | x :: rands => if limit ≤ x then rejectAbove limit rands else some (x, rands)

/-- A `long` as an `unsigned long`. -/
def ulong (x : ℤ) : ℕ := (x % 2 ^ 64).toNat

/-- `random_at_most`: unsigned 64-bit arithmetic, the quotient returned as an
`int`. -/
def random_at_most (RAND_MAX : ℕ) (max : ℤ) (rands : List ℕ) : Option (CInt × List ℕ) :=
  let num_bins := (ulong max + 1) % 2 ^ 64
  let num_rand := (RAND_MAX + 1) % 2 ^ 64
  let bin_size := num_rand / num_bins
  let defect := num_rand % num_bins
  (rejectAbove (num_rand - defect) rands).map
    (fun r => (BitVec.ofNat 32 (r.1 / bin_size), r.2))

/-! ## `main` -/

/-- The state of `main`: the command buffer, the records written so far, and
the numbers still to come. -/
structure Writer where
  cmd : Command
  out : List Command
  rands : List ℕ

/-- Fill the command buffer and write it. -/
def Writer.emit (w : Writer) (cmd : Command) : Writer :=
  { w with cmd := cmd, out := w.out ++ [cmd] }

/-- One round of the first loop. -/
def writeConnect (w : Writer) (i : ℕ) : Writer := w.emit (MSG_CONNECT (BitVec.ofNat 32 i))

/-- One round of the second loop: starter cash for account `i`. -/
def writeDeposit (RAND_MAX : ℕ) (atm_cnt : CInt) (w : Writer) (i : ℕ) : Option Writer := do
  let (rand_atm, rands) ← random_at_most RAND_MAX (atm_cnt.toInt - 1) w.rands
  some (Writer.emit { w with rands := rands } (MSG_DEPOSIT rand_atm (BitVec.ofNat 32 i) 5000))

/-- The `switch` of the third loop; without a matching case the buffer keeps
the command it held. -/
def pickTransaction (cmd : Command) (rand_trans : Byte) (atm from_acct to_acct amount : CInt) :
    Command :=
  if rand_trans.toNat + 4 = TRANSFER.toNat then MSG_TRANSFER atm from_acct to_acct amount
  else if rand_trans.toNat + 4 = DEPOSIT.toNat then MSG_DEPOSIT atm to_acct amount
  else if rand_trans.toNat + 4 = WITHDRAW.toNat then MSG_WITHDRAW atm from_acct amount
  else if rand_trans.toNat + 4 = BALANCE.toNat then MSG_BALANCE atm from_acct
  else cmd

/-- One round of the third loop. -/
def writeTransaction (RAND_MAX : ℕ) (atm_cnt account_cnt : CInt) (w : Writer) (_i : ℕ) :
    Option Writer := do
  let (rand_atm, rands) ← random_at_most RAND_MAX (atm_cnt.toInt - 1) w.rands
  let (rand_from_acct, rands) ← random_at_most RAND_MAX (account_cnt.toInt - 1) rands
  let (rand_to_acct, rands) ← random_at_most RAND_MAX (account_cnt.toInt - 1) rands
  let (rand_amount, rands) ← random_at_most RAND_MAX 200 rands
  let (rand_trans, rands) ← random_at_most RAND_MAX 2 rands
  some (Writer.emit { w with rands := rands }
    (pickTransaction w.cmd (rand_trans.setWidth 8) rand_atm rand_from_acct rand_to_acct
      rand_amount))

/-- One round of the last loop. -/
def writeExit (w : Writer) (i : ℕ) : Writer := w.emit (MSG_EXIT (BitVec.ofNat 32 i))

/-- The indices of `for (int i = 0; i < n; i++)`. -/
def upTo (n : CInt) : List ℕ := List.range n.toInt.toNat

/-- `main` of `twriter`; `buffer` is what the uninitialised command holds. -/
def twriter (RAND_MAX : ℕ) (atm_cnt account_cnt trans_cnt : CInt) (buffer : Command)
    (rands : List ℕ) : Option Trace := do
  let w := (upTo atm_cnt).foldl writeConnect ⟨buffer, [], rands⟩
  let w ← (upTo account_cnt).foldlM (writeDeposit RAND_MAX atm_cnt) w
  let w ← (upTo trans_cnt).foldlM (writeTransaction RAND_MAX atm_cnt account_cnt) w
  let w := (upTo atm_cnt).foldl writeExit w
  some ⟨atm_cnt, account_cnt, w.out⟩

/-! ## The numbers drawn -/

theorem rejectAbove_lt {limit x : ℕ} {rands rest : List ℕ}
    (h : rejectAbove limit rands = some (x, rest)) : x < limit := by
  induction rands with
  | nil => exact absurd h (by simp [rejectAbove])
  | cons y rands ih =>
      rw [rejectAbove] at h
      by_cases hy : limit ≤ y
      · rw [if_pos hy] at h
        exact ih h
      · rw [if_neg hy, Option.some.injEq, Prod.mk.injEq] at h
        rw [← h.1]
        exact not_le.mp hy

/-- A number drawn is in the range asked for: the loop accepts only numbers
below a multiple of the bin size, and that multiple has `max + 1` bins. -/
theorem random_at_most_range {RAND_MAX : ℕ} {max : ℤ} {rands rest : List ℕ} {r : CInt}
    (h0 : 0 ≤ max) (hmax : max < 2 ^ 31) (h : random_at_most RAND_MAX max rands = some (r, rest)) :
    0 ≤ r.toInt ∧ r.toInt ≤ max := by
  lift max to ℕ using h0 with m
  have hm : m < 2 ^ 31 := by exact_mod_cast hmax
  have hbins : (ulong (m : ℤ) + 1) % 2 ^ 64 = m + 1 := by
    simp only [ulong]
    omega
  simp only [random_at_most, hbins, Option.map_eq_some_iff] at h
  obtain ⟨⟨x, rest'⟩, hx, hr⟩ := h
  simp only [Prod.mk.injEq] at hr
  -- even where `RAND_MAX + 1` wraps, the limit is a multiple of the bin size
  generalize (RAND_MAX + 1) % 2 ^ 64 = num_rand at hx hr
  have hlt := rejectAbove_lt hx
  have hmod := Nat.div_add_mod num_rand (m + 1)
  have hquot : x / (num_rand / (m + 1)) < m + 1 := by
    apply Nat.div_lt_of_lt_mul
    rw [Nat.mul_comm]
    omega
  rw [← hr.1, toInt_ofNat_of_lt (by omega)]
  exact ⟨Int.natCast_nonneg _, by exact_mod_cast Nat.lt_succ_iff.mp hquot⟩

/-! ## The three blocks -/

/-- What the deposits and the random transactions have in common: a money
command or a BALANCE, of an existing ATM, on existing accounts. -/
structure Ordinary (tr : Trace) (cmd : Command) : Prop where
  code : (cmd_unpack cmd).c = DEPOSIT ∨ (cmd_unpack cmd).c = WITHDRAW ∨
    (cmd_unpack cmd).c = TRANSFER ∨ (cmd_unpack cmd).c = BALANCE
  atm : 0 ≤ (cmd_unpack cmd).i.toInt ∧ (cmd_unpack cmd).i.toInt < tr.atm_cnt.toInt
  accounts : tr.Knows (cmd_unpack cmd)

/-- A loop whose rounds keep `I` keeps `I`. -/
theorem foldlM_option_keeps {σ : Type} {I : σ → Prop} {f : σ → ℕ → Option σ} (l : List ℕ)
    (hf : ∀ i ∈ l, ∀ w w', I w → f w i = some w' → I w') :
    ∀ w w', I w → l.foldlM f w = some w' → I w' := by
  induction l with
  | nil =>
      intro w w' hw h
      simp only [List.foldlM_nil, Option.pure_def, Option.some.injEq] at h
      exact h ▸ hw
  | cons i l ih =>
      intro w w' hw h
      rw [List.foldlM_cons, Option.bind_eq_bind, Option.bind_eq_some_iff] at h
      obtain ⟨w₁, h₁, h⟩ := h
      exact ih (fun j hj => hf j (List.mem_cons_of_mem i hj)) w₁ w'
        (hf i List.mem_cons_self w w₁ hw h₁) h

/-- What the first and the last loop write. -/
theorem foldl_emit_out (msg : ℕ → Command) (l : List ℕ) (w : Writer) :
    (l.foldl (fun w i => w.emit (msg i)) w).out = w.out ++ l.map msg := by
  induction l generalizing w with
  | nil => simp
  | cons i l ih =>
      rw [List.foldl_cons, ih]
      simp [Writer.emit]

section Blocks

variable {RAND_MAX : ℕ} {atm_cnt account_cnt : CInt}

/-- The loop invariant of the two middle loops. -/
def MidBlock (tr : Trace) (front : List Command) (w : Writer) : Prop :=
  ∃ mid, w.out = front ++ mid ∧ ∀ cmd ∈ mid, Ordinary tr cmd

theorem MidBlock.emit {tr : Trace} {front : List Command} {w : Writer} {cmd : Command}
    (rands : List ℕ) (hw : MidBlock tr front w) (hcmd : Ordinary tr cmd) :
    MidBlock tr front (Writer.emit { w with rands := rands } cmd) := by
  obtain ⟨mid, hout, hmid⟩ := hw
  refine ⟨mid ++ [cmd], ?_, fun c hc => ?_⟩
  · simp only [Writer.emit, hout, List.append_assoc]
  · rcases List.mem_append.mp hc with hold | hnew
    · exact hmid c hold
    · exact List.mem_singleton.mp hnew ▸ hcmd

/-- A number below a count, as an index. -/
theorem below_count {n r : CInt} (h : 0 ≤ r.toInt ∧ r.toInt ≤ n.toInt - 1) :
    0 ≤ r.toInt ∧ r.toInt < n.toInt := ⟨h.1, by omega⟩

theorem writeDeposit_keeps (hatm : 1 ≤ atm_cnt.toInt) {front : List Command} {w w' : Writer}
    {i : ℕ} (hi : i ∈ upTo account_cnt) (hw : MidBlock ⟨atm_cnt, account_cnt, []⟩ front w)
    (h : writeDeposit RAND_MAX atm_cnt w i = some w') :
    MidBlock ⟨atm_cnt, account_cnt, []⟩ front w' := by
  simp only [writeDeposit, Option.bind_eq_bind, Option.bind_eq_some_iff, Option.some.injEq] at h
  obtain ⟨⟨rand_atm, rands⟩, hdraw, rfl⟩ := h
  have hr := below_count (random_at_most_range (by omega)
    (by have := (toInt_bounds atm_cnt).2; omega) hdraw)
  have hi' : (i : ℤ) < account_cnt.toInt := by
    have := List.mem_range.mp hi
    omega
  have hint : (BitVec.ofNat 32 i).toInt = (i : ℤ) := toInt_ofNat_of_lt (index_lt hi')
  refine hw.emit rands ⟨by simp [MSG_DEPOSIT], by simpa [MSG_DEPOSIT] using hr, ?_⟩
  have hne : DEPOSIT ≠ WITHDRAW ∧ DEPOSIT ≠ TRANSFER ∧ DEPOSIT ≠ BALANCE := by decide
  simp only [Trace.Knows, Bank.Knows, Bank.ValidAccount, MSG_DEPOSIT, cmd_unpack_pack, hne,
    bank_open, hint]
  simp [hi']

/-- The range of the third draw leaves three of the four cases, and each is a
proper command. -/
theorem pickTransaction_ordinary {tr : Trace} {cmd : Command} {r atm f t a : CInt}
    (hr : 0 ≤ r.toInt ∧ r.toInt ≤ 2)
    (hatm : 0 ≤ atm.toInt ∧ atm.toInt < tr.atm_cnt.toInt)
    (hf : 0 ≤ f.toInt ∧ f.toInt < tr.account_cnt.toInt)
    (ht : 0 ≤ t.toInt ∧ t.toInt < tr.account_cnt.toInt) :
    Ordinary tr (pickTransaction cmd (r.setWidth 8) atm f t a) := by
  have hnat := toInt_eq_toNat_of_nonneg hr.1
  have hcode : (r.setWidth 8).toNat = r.toNat := by
    rw [BitVec.toNat_setWidth]
    omega
  have hne : DEPOSIT ≠ WITHDRAW ∧ DEPOSIT ≠ TRANSFER ∧ DEPOSIT ≠ BALANCE ∧
      WITHDRAW ≠ DEPOSIT ∧ WITHDRAW ≠ TRANSFER ∧ WITHDRAW ≠ BALANCE ∧
      TRANSFER ≠ DEPOSIT ∧ TRANSFER ≠ WITHDRAW ∧ TRANSFER ≠ BALANCE ∧
      BALANCE ≠ DEPOSIT ∧ BALANCE ≠ WITHDRAW ∧ BALANCE ≠ TRANSFER := by decide
  have hnum : TRANSFER.toNat = 5 ∧ DEPOSIT.toNat = 3 ∧ WITHDRAW.toNat = 4 ∧
      BALANCE.toNat = 6 := by decide
  simp only [pickTransaction, hcode, hnum]
  rcases (by omega : r.toNat = 0 ∨ r.toNat = 1 ∨ r.toNat = 2) with h | h | h
  · -- 0 + 4
    rw [h, if_neg (by omega), if_neg (by omega), if_pos rfl]
    refine ⟨by simp [MSG_WITHDRAW], by simpa [MSG_WITHDRAW] using hatm, ?_⟩
    simp [Trace.Knows, Bank.Knows, Bank.ValidAccount, MSG_WITHDRAW, hne, bank_open, hf]
  · -- 1 + 4
    rw [h, if_pos rfl]
    refine ⟨by simp [MSG_TRANSFER], by simpa [MSG_TRANSFER] using hatm, ?_⟩
    simp [Trace.Knows, Bank.Knows, Bank.ValidAccount, MSG_TRANSFER, hne, bank_open, hf, ht]
  · -- 2 + 4; the deposit, 3, is out of reach
    rw [h, if_neg (by omega), if_neg (by omega), if_neg (by omega), if_pos rfl]
    refine ⟨by simp [MSG_BALANCE], by simpa [MSG_BALANCE] using hatm, ?_⟩
    simp [Trace.Knows, Bank.Knows, Bank.ValidAccount, MSG_BALANCE, hne, bank_open, hf]

theorem writeTransaction_keeps (hatm : 1 ≤ atm_cnt.toInt) (hacc : 1 ≤ account_cnt.toInt)
    {front : List Command} {w w' : Writer} {i : ℕ}
    (hw : MidBlock ⟨atm_cnt, account_cnt, []⟩ front w)
    (h : writeTransaction RAND_MAX atm_cnt account_cnt w i = some w') :
    MidBlock ⟨atm_cnt, account_cnt, []⟩ front w' := by
  simp only [writeTransaction, Option.bind_eq_bind, Option.bind_eq_some_iff, Option.some.injEq] at h
  obtain ⟨⟨rand_atm, r₁⟩, h₁, ⟨from_acct, r₂⟩, h₂, ⟨to_acct, r₃⟩, h₃, ⟨amount, r₄⟩, h₄,
    ⟨rand_trans, r₅⟩, h₅, rfl⟩ := h
  have hab := (toInt_bounds atm_cnt).2
  have hcb := (toInt_bounds account_cnt).2
  have hr : 0 ≤ rand_trans.toInt ∧ rand_trans.toInt ≤ 2 :=
    random_at_most_range (by omega) (by omega) h₅
  have hr₁ : 0 ≤ rand_atm.toInt ∧ rand_atm.toInt < atm_cnt.toInt :=
    below_count (random_at_most_range (by omega) (by omega) h₁)
  have hr₂ : 0 ≤ from_acct.toInt ∧ from_acct.toInt < account_cnt.toInt :=
    below_count (random_at_most_range (by omega) (by omega) h₂)
  have hr₃ : 0 ≤ to_acct.toInt ∧ to_acct.toInt < account_cnt.toInt :=
    below_count (random_at_most_range (by omega) (by omega) h₃)
  exact hw.emit r₅ (pickTransaction_ordinary hr hr₁ hr₂ hr₃)

/-- **The shape of a generated trace**: CONNECTs in order, then ordinary
commands, then EXITs in order. -/
theorem twriter_blocks (hatm : 1 ≤ atm_cnt.toInt) (hacc : atm_cnt.toInt ≤ account_cnt.toInt)
    {trans_cnt : CInt} {buffer : Command} {rands : List ℕ} {tr : Trace}
    (h : twriter RAND_MAX atm_cnt account_cnt trans_cnt buffer rands = some tr) :
    tr.atm_cnt = atm_cnt ∧ tr.account_cnt = account_cnt ∧
      ∃ mid, tr.cmds = (upTo atm_cnt).map (fun i => MSG_CONNECT (BitVec.ofNat 32 i)) ++ mid ++
          (upTo atm_cnt).map (fun i => MSG_EXIT (BitVec.ofNat 32 i)) ∧
        ∀ cmd ∈ mid, Ordinary tr cmd := by
  simp only [twriter, Option.bind_eq_bind, Option.bind_eq_some_iff, Option.some.injEq] at h
  obtain ⟨w₂, h₂, w₃, h₃, rfl⟩ := h
  have hconnect := foldl_emit_out (fun i => MSG_CONNECT (BitVec.ofNat 32 i)) (upTo atm_cnt)
    ⟨buffer, [], rands⟩
  -- the CONNECTs are the front, and behind them the block in the middle is still empty
  have hmid₁ : MidBlock ⟨atm_cnt, account_cnt, []⟩
      ((upTo atm_cnt).map (fun i => MSG_CONNECT (BitVec.ofNat 32 i)))
      ((upTo atm_cnt).foldl writeConnect ⟨buffer, [], rands⟩) :=
    ⟨[], by rw [List.append_nil]; exact hconnect, fun _ h => absurd h List.not_mem_nil⟩
  have hmid₂ := foldlM_option_keeps (upTo account_cnt)
    (fun i hi w w' hw hstep => writeDeposit_keeps hatm hi hw hstep) _ _ hmid₁ h₂
  obtain ⟨mid, hout, hmid⟩ := foldlM_option_keeps (upTo trans_cnt)
    (fun i _ w w' hw hstep => writeTransaction_keeps hatm (by omega) hw hstep) _ _ hmid₂ h₃
  refine ⟨rfl, rfl, mid, ?_, fun cmd hcmd => ?_⟩
  · have hexit := foldl_emit_out (fun i => MSG_EXIT (BitVec.ofNat 32 i)) (upTo atm_cnt) w₃
    rw [hout] at hexit
    exact hexit
  · obtain ⟨hcode, hatm', haccounts⟩ := hmid cmd hcmd
    exact ⟨hcode, hatm', haccounts⟩

end Blocks

end ProjectsInC.BankAtm
