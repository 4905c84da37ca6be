/-
A trace file is read back as it was written.

`twriter` makes the bytes of a count with signed shifts and masks, `cmd_pack` those of the other
integers with unsigned shifts, and `trace_open` and `cmd_unpack` put them together again. The two
ways to write an integer give the same four bytes ([`count_buf_eq`]) and the two ways to read one
the same integer ([`readCount_toBytes`]), so that `treader` finds the counts and the commands that
were written ([`trace_round_trip`]).
-/
import ProjectsInC.BankAtm.TraceFile

set_option autoImplicit false

namespace ProjectsInC.BankAtm

/-! ## Writing -/

/-- `buf[i] |= v`, where the byte is zero. -/
def orByte (v : CInt) : Byte := (((0 : Byte).setWidth 32 : CInt) ||| v).setWidth 8

/-- `atms_buf` and `accts_buf` of `twriter`. -/
def count_buf (n : CInt) : List Byte :=
  [orByte (n.sshiftRight 24), orByte (n.sshiftRight 16 &&& 0xFF), orByte (n.sshiftRight 8 &&& 0xFF),
    orByte (n &&& 0xFF)]

/-- `cmd_pack` of five fields. -/
def Fields.pack (m : Fields) : Command := cmd_pack m.c m.i m.f m.t m.a

/-- The file: the two counts, and a message for each command. -/
def trace_bytes (atm_cnt account_cnt : CInt) (cmds : List Fields) : List Byte :=
  count_buf atm_cnt ++ (count_buf account_cnt ++ cmds.flatMap (fun m => m.pack.toBytes))

/-- The mask leaves the byte that is kept anyway. -/
theorem orByte_mask (v : CInt) : orByte (v &&& 0xFF) = v.setWidth 8 := by
  apply BitVec.eq_of_getLsbD_eq
  intro i hi
  have hmask : (0xFF : CInt).getLsbD i = true := by
    revert i
    decide
  simp only [orByte, BitVec.getLsbD_setWidth, BitVec.getLsbD_or, BitVec.getLsbD_and, hmask]
  simp

theorem orByte_eq (v : CInt) : orByte v = v.setWidth 8 := by
  have hzero : ((0 : Byte).setWidth 32 : CInt) = 0#32 := by decide
  rw [orByte, hzero, BitVec.zero_or]

/-- A signed shift by less than four bytes and an unsigned one have the same last byte. -/
theorem sshiftRight_byte (n : CInt) {k : ℕ} (hk : k ≤ 24) :
    (n.sshiftRight k).setWidth 8 = (n >>> k).setWidth 8 := by
  apply BitVec.eq_of_getLsbD_eq
  intro i hi
  have hin : k + i < 32 := by omega
  have hi' : i < 32 := by omega
  simp only [BitVec.getLsbD_setWidth, BitVec.getLsbD_sshiftRight, BitVec.getLsbD_ushiftRight,
    if_pos hin, decide_eq_false (not_le.mpr hi'), Bool.not_false, Bool.true_and]

/-- **The two ways to write an integer** give the same bytes. -/
theorem count_buf_eq (n : CInt) : count_buf n = (pack_int n).toBytes := by
  rw [count_buf, orByte_eq, orByte_mask, orByte_mask, orByte_mask, sshiftRight_byte n le_rfl,
    sshiftRight_byte n (by decide), sshiftRight_byte n (by decide)]
  rfl

/-! ## Reading -/

/-- **The two ways to read an integer** give the same, but that a count is or-ed into the static. -/
theorem readCount_toBytes (n : CInt) (b : Bytes4) (rest : List Byte) :
    readCount n (b.toBytes ++ rest) = some (n ||| unpack_int b, rest) := by
  have hor : n ||| (b.b0.setWidth 32 <<< 24) ||| (b.b1.setWidth 32 <<< 16) |||
      (b.b2.setWidth 32 <<< 8) ||| b.b3.setWidth 32 = n ||| unpack_int b := by
    rw [unpack_int, BitVec.or_assoc, BitVec.or_assoc, BitVec.or_assoc, BitVec.or_assoc,
      BitVec.or_assoc]
  rw [← hor]
  rfl

theorem ofBytes_toBytes (cmd : Command) : Command.ofBytes cmd.toBytes = cmd := rfl

/-- The statics of a new process. -/
def Tracer.fresh : Tracer := ⟨none, 0, 0⟩

/-- What `treader` prints: the counts and, for each call of `trace_read_cmd`, its result and the
fields of the command; and the result that ended the loop. -/
structure TreaderRun where
  atm_cnt : CInt
  account_cnt : CInt
  cmds : List (ℤ × Fields)
  last : ℤ

/-- The loop of `treader`. -/
def treaderLoop : ℕ → Tracer → Command → Option (List (ℤ × Fields) × ℤ)
  | 0, _, _ => none
  | fuel + 1, s, cmd =>
      let (result, cmd, s) := trace_read_cmd cmd s
      if result = 0 then some ([], result)
      else (treaderLoop fuel s cmd).map (fun r => ((result, cmd_unpack cmd) :: r.1, r.2))

/-- `treader.c` in a new process; `cmd` is what its buffer happens to hold. `none` if the file
cannot be opened. Every round of the loop reads a byte at least. -/
def treader (path : Option (List Byte)) (cmd : Command) : Option TreaderRun :=
  let (result, s) := trace_open path .fresh
  if result = -1 then none
  else (treaderLoop ((s.tracefd.getD []).length + 1) s cmd).map
    (fun r => ⟨s.atm_cnt, s.account_cnt, r.1, r.2⟩)

/-- The loop reads the messages one by one. -/
theorem treaderLoop_spec {s : Tracer} {cmds : List Fields}
    (hfd : s.tracefd = some (cmds.flatMap (fun m => m.pack.toBytes))) {fuel : ℕ}
    (hfuel : cmds.length < fuel) (cmd : Command) :
    treaderLoop fuel s cmd = some (cmds.map (fun m => (17, m)), 0) := by
  induction cmds generalizing s fuel cmd with
  | nil =>
      obtain ⟨fuel, rfl⟩ := Nat.exists_eq_add_of_le' (Nat.one_le_of_lt hfuel)
      rw [treaderLoop, trace_read_cmd_of_open hfd]
      rfl
  | cons m cmds ih =>
      obtain ⟨fuel, rfl⟩ := Nat.exists_eq_add_of_le' (Nat.one_le_of_lt hfuel)
      -- the first 17 bytes are the first message, and fill the whole buffer
      have hlen : m.pack.toBytes.length = 17 := length_toBytes _
      rw [List.flatMap_cons] at hfd
      have htake : (m.pack.toBytes ++ cmds.flatMap (fun m => m.pack.toBytes)).take 17
          = m.pack.toBytes := List.take_left' hlen
      have hdrop : (m.pack.toBytes ++ cmds.flatMap (fun m => m.pack.toBytes)).drop 17
          = cmds.flatMap (fun m => m.pack.toBytes) := List.drop_left' hlen
      have hread := @trace_read_cmd_of_open s cmd _ hfd
      rw [htake, hdrop, overlay_whole cmd hlen, ofBytes_toBytes, hlen] at hread
      have hrest := @ih { s with tracefd := some (cmds.flatMap (fun m => m.pack.toBytes)) } rfl fuel
        (Nat.lt_of_succ_lt_succ hfuel) m.pack
      have hfields : cmd_unpack m.pack = m := cmd_unpack_pack m.c m.i m.f m.t m.a
      have hne : ((17 : ℕ) : ℤ) ≠ 0 := by decide
      rw [treaderLoop, hread]
      simp only [if_neg hne, hrest, hfields, Option.map_some, List.map_cons]
      rfl

/-- **The round trip** of a trace file: a new process that opens it finds the two counts, and
reads the commands and then the end of the file; and a message that is unpacked and packed again is
the same. -/
theorem trace_round_trip (atm_cnt account_cnt : CInt) (cmds : List Fields) (buffer : Command) :
    treader (some (trace_bytes atm_cnt account_cnt cmds)) buffer
      = some ⟨atm_cnt, account_cnt, cmds.map (fun m => (17, m)), 0⟩ ∧
    ∀ cmd : Command, (cmd_unpack cmd).pack = cmd := by
  refine ⟨?_, cmd_pack_unpack⟩
  have hopen : trace_open (some (trace_bytes atm_cnt account_cnt cmds)) .fresh
      = (1, ⟨some (cmds.flatMap (fun m => m.pack.toBytes)), atm_cnt, account_cnt⟩) := by
    rw [trace_open, trace_bytes, count_buf_eq, count_buf_eq]
    have hzero (n : CInt) : (0 : CInt) ||| n = n := BitVec.zero_or
    simp only [readCount_toBytes, Tracer.fresh, unpack_pack_int, hzero]
  -- every message takes 17 bytes, so the loop has rounds enough
  have hlong : cmds.length < (cmds.flatMap (fun m => m.pack.toBytes)).length + 1 := by
    rw [List.length_flatMap]
    have hsum : (cmds.map (fun m : Fields => m.pack.toBytes.length)).sum = cmds.length * 17 := by
      simp [length_toBytes]
    omega
  have hloop := @treaderLoop_spec ⟨some (cmds.flatMap (fun m => m.pack.toBytes)), atm_cnt,
    account_cnt⟩ cmds rfl _ hlong buffer
  have hresult : ¬ (1 : CInt) = -1 := by decide
  unfold treader
  rw [hopen]
  simp only [if_neg hresult, Option.getD_some, hloop, Option.map_some]

end ProjectsInC.BankAtm
