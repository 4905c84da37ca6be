/-
`trace.c` and the loop of `atm_run`: a trace file read record by record.

`trace_read_cmd` is one `read` of 17 bytes into the command buffer, which still holds the
record before, and `atm_run` goes on for every result but 0. So the complete records are
handed to `atm` in order, up to the first one whose status ends the loop; if fewer than 17
bytes are left behind them, these are laid over the last record and handed to `atm` as well
([`atm_run_handed`]).
-/
import ProjectsInC.BankAtm.Atm

set_option autoImplicit false

namespace ProjectsInC.BankAtm

open Status

/-! ## The command buffer as bytes -/

/-- The bytes of a `byte[4]`. -/
def Bytes4.toBytes (b : Bytes4) : List Byte := [b.b0, b.b1, b.b2, b.b3]

/-- The 17 bytes of the struct. -/
def Command.toBytes (cmd : Command) : List Byte :=
  cmd.cmd :: (cmd.id.toBytes ++ (cmd.from_.toBytes ++ (cmd.to_.toBytes ++ cmd.amt.toBytes)))

/-- A `byte[4]` from its bytes, beginning at place `i`. -/
def Bytes4.ofBytes (bytes : List Byte) (i : ℕ) : Bytes4 :=
  ⟨bytes.getD i 0, bytes.getD (i + 1) 0, bytes.getD (i + 2) 0, bytes.getD (i + 3) 0⟩

/-- The struct with these 17 bytes. -/
def Command.ofBytes (bytes : List Byte) : Command :=
  ⟨bytes.getD 0 0, .ofBytes bytes 1, .ofBytes bytes 5, .ofBytes bytes 9, .ofBytes bytes 13⟩

/-- Store bytes at the beginning of the struct. -/
def Command.overlay (cmd : Command) (bytes : List Byte) : Command :=
  .ofBytes (bytes ++ cmd.toBytes.drop bytes.length)

theorem length_toBytes (cmd : Command) : cmd.toBytes.length = 17 := rfl

/-- A whole record leaves nothing of the one before. -/
theorem overlay_whole (cmd : Command) {bytes : List Byte} (h : bytes.length = 17) :
    cmd.overlay bytes = .ofBytes bytes := by
  have hnone : cmd.toBytes.drop bytes.length = [] :=
    List.drop_eq_nil_of_le (by rw [length_toBytes, h])
  rw [Command.overlay, hnone, List.append_nil]

/-! ## `trace.c` -/

/-- The statics of `trace.c`. An open file is the bytes behind its position; `none` is the
descriptor -1. -/
structure Tracer where
  tracefd : Option (List Byte)
  atm_cnt : CInt
  account_cnt : CInt

/-- A count of the header, or-ed into `n`; `none` if fewer than four bytes are read. -/
def readCount (n : CInt) : List Byte → Option (CInt × List Byte)
  | b0 :: b1 :: b2 :: b3 :: rest =>
      some (n ||| (b0.setWidth 32 <<< 24) ||| (b1.setWidth 32 <<< 16) |||
        (b2.setWidth 32 <<< 8) ||| b3.setWidth 32, rest)
  | _ => none

/-- `trace_open`; `path` is the file, `none` if it cannot be opened. -/
def trace_open (path : Option (List Byte)) (s : Tracer) : CInt × Tracer :=
  match path with
  | none => (-1, { s with tracefd := none })
  | some bytes =>
      match readCount s.atm_cnt bytes with
      | none => (-1, { s with tracefd := some [] })
      | some (atm_cnt, bytes) =>
          match readCount s.account_cnt bytes with
          | none => (-1, { s with tracefd := some [], atm_cnt := atm_cnt })
          | some (account_cnt, bytes) => (1, ⟨some bytes, atm_cnt, account_cnt⟩)

/-- `trace_close` -/
def trace_close (_ : Tracer) : Tracer := ⟨none, 0, 0⟩

/-- `trace_read_cmd`: the result of the `read`, the buffer and the file behind it. -/
def trace_read_cmd (cmd : Command) (s : Tracer) : ℤ × Command × Tracer :=
  match s.tracefd with
  | none => (-1, cmd, s)
  | some bytes =>
      let buf := bytes.take MESSAGE_SIZE.toNat
      (buf.length, cmd.overlay buf, { s with tracefd := some (bytes.drop MESSAGE_SIZE.toNat) })

/-! ## `atm_run` -/

/-- A run of `atm_run`: the commands it hands to `atm`, what it returns and the statics of
`trace.c` then. -/
structure AtmRun where
  handed : List Command
  status : Status
  trace : Tracer

section AtmRun

variable (env : ℕ → ℤ × ℤ × Command) (atm_id : CInt)

/-- The loop of `atm_run`; `env k` is what `write` and `read` do in the `k`-th call of `atm`.
`none` if the bound is used up. -/
def atmLoop : ℕ → Tracer → Command → List Command → Option AtmRun
  | 0, _, _, _ => none
  | fuel + 1, s, cmd, handed =>
      let (result, cmd, s) := trace_read_cmd cmd s
      if result = 0 then some ⟨handed, SUCCESS, trace_close s⟩
      else
        let (written, read) := env handed.length
        match atm_run_next (atm written read atm_id cmd) with
        | some status => some ⟨handed ++ [cmd], status, s⟩
        | none => atmLoop fuel s cmd (handed ++ [cmd])

/-- `atm_run`; `cmd` is what its buffer happens to hold. Every round reads a byte at least. -/
def atm_run (path : Option (List Byte)) (cmd : Command) (s : Tracer) : Option AtmRun :=
  let (status, s) := trace_open path s
  if status = -1 then some ⟨[], ERR_BAD_TRACE_FILE, s⟩
  else atmLoop env atm_id ((s.tracefd.getD []).length + 1) s cmd []

end AtmRun

/-! ## The records of a file -/

/-- The complete records of the bytes behind the header. -/
def records (bytes : List Byte) : List Command :=
  (List.range (bytes.length / 17)).map (fun k => .ofBytes ((bytes.drop (17 * k)).take 17))

/-- What is left behind the complete records. -/
def fragment (bytes : List Byte) : List Byte := bytes.drop (17 * (bytes.length / 17))

theorem records_short {bytes : List Byte} (h : bytes.length < 17) : records bytes = [] := by
  rw [records, Nat.div_eq_of_lt h]
  rfl

theorem fragment_short {bytes : List Byte} (h : bytes.length < 17) : fragment bytes = bytes := by
  rw [fragment, Nat.div_eq_of_lt h]
  rfl

/-- Behind a first complete record come those of the rest. -/
theorem records_cons {bytes : List Byte} (h : 17 ≤ bytes.length) :
    records bytes = .ofBytes (bytes.take 17) :: records (bytes.drop 17) := by
  have hcount : bytes.length / 17 = (bytes.length - 17) / 17 + 1 := by omega
  rw [records, records, hcount, List.length_drop, List.range_succ_eq_map, List.map_cons,
    List.map_map]
  congr 1
  apply List.map_congr_left
  intro k _
  have hplace : 17 * (k + 1) = 17 + 17 * k := by omega
  rw [Function.comp_apply, Nat.succ_eq_add_one, hplace, ← List.drop_drop]

theorem fragment_cons {bytes : List Byte} (h : 17 ≤ bytes.length) :
    fragment bytes = fragment (bytes.drop 17) := by
  have hplace : 17 * (bytes.length / 17) = 17 + 17 * ((bytes.length - 17) / 17) := by omega
  rw [fragment, fragment, List.length_drop, List.drop_drop, hplace]

/-! ## Where the loop stops -/

/-- Does the loop of `atm_run` end with the `k`-th call of `atm`, on this command? -/
def stops (env : ℕ → ℤ × ℤ × Command) (atm_id : CInt) (k : ℕ) (cmd : Command) : Bool :=
  (atm_run_next (atm (env k).1 (env k).2 atm_id cmd)).isSome

section Stop

variable {α : Type*} (stop : ℕ → α → Bool)

/-- The elements of a list up to the first one that stops, which is the last one then; the
list begins at place `k`. -/
def upToStop : ℕ → List α → List α
  | _, [] => []
  | k, x :: xs => if stop k x then [x] else x :: upToStop (k + 1) xs

/-- Does one of the elements stop? -/
def stopped : ℕ → List α → Bool
  | _, [] => false
  | k, x :: xs => stop k x || stopped (k + 1) xs

variable {stop}

theorem upToStop_of_not_stopped {k : ℕ} {xs : List α} (h : stopped stop k xs = false) :
    upToStop stop k xs = xs := by
  induction xs generalizing k with
  | nil => rfl
  | cons x xs ih =>
      rw [stopped, Bool.or_eq_false_iff] at h
      rw [upToStop, h.1, ih h.2, if_neg Bool.false_ne_true]

/-- Nothing is cut off if none stops but perhaps the last. -/
theorem upToStop_eq_self_iff {k : ℕ} {xs : List α} :
    upToStop stop k xs = xs ↔ stopped stop k xs.dropLast = false := by
  induction xs generalizing k with
  | nil => exact iff_of_true rfl rfl
  | cons x xs ih =>
      cases xs with
      | nil =>
          refine iff_of_true ?_ rfl
          rw [upToStop, upToStop, ite_self]
      | cons y ys =>
          rw [upToStop, List.dropLast_cons_cons, stopped, Bool.or_eq_false_iff, ← ih]
          cases hx : stop k x with
          | false => simp
          | true => simp

end Stop

/-! ## What `atm_run` hands to `atm` -/

section Handed

variable {env : ℕ → ℤ × ℤ × Command} {atm_id : CInt} {s : Tracer} {cmd : Command}
  {bytes : List Byte}

/-- The commands the loop hands to `atm` from the `k`-th call on. -/
def handedFrom (env : ℕ → ℤ × ℤ × Command) (atm_id : CInt) (k : ℕ) (cmd : Command)
    (bytes : List Byte) : List Command :=
  upToStop (stops env atm_id) k (records bytes) ++
    if stopped (stops env atm_id) k (records bytes) = true ∨ fragment bytes = [] then []
    else [((records bytes).getLastD cmd).overlay (fragment bytes)]

/-- Nothing is left. -/
theorem handedFrom_nil (k : ℕ) : handedFrom env atm_id k cmd [] = [] := rfl

/-- A fragment. -/
theorem handedFrom_short (k : ℕ) (hpos : bytes ≠ []) (h : bytes.length < 17) :
    handedFrom env atm_id k cmd bytes = [cmd.overlay bytes] := by
  have hmore : ¬ (stopped (stops env atm_id) k [] = true ∨ bytes = []) := by
    rintro (hstop | hnil)
    · exact Bool.false_ne_true hstop
    · exact hpos hnil
  rw [handedFrom, records_short h, fragment_short h, if_neg hmore]
  rfl

/-- A complete record that ends the loop. -/
theorem handedFrom_stop {k : ℕ} (h : 17 ≤ bytes.length)
    (hstop : stops env atm_id k (.ofBytes (bytes.take 17)) = true) :
    handedFrom env atm_id k cmd bytes = [.ofBytes (bytes.take 17)] := by
  have hstopped : stopped (stops env atm_id) k (records bytes) = true := by
    rw [records_cons h, stopped, hstop, Bool.true_or]
  rw [handedFrom, if_pos (.inl hstopped), List.append_nil, records_cons h, upToStop, if_pos hstop]

/-- A complete record after which the loop goes on. -/
theorem handedFrom_next {k : ℕ} (h : 17 ≤ bytes.length)
    (hnext : stops env atm_id k (.ofBytes (bytes.take 17)) = false) :
    handedFrom env atm_id k cmd bytes = .ofBytes (bytes.take 17) ::
      handedFrom env atm_id (k + 1) (.ofBytes (bytes.take 17)) (bytes.drop 17) := by
  rw [handedFrom, records_cons h, fragment_cons h, upToStop, stopped, hnext, Bool.false_or,
    List.getLastD_cons, if_neg Bool.false_ne_true]
  rfl

/-- One `read` of the loop. -/
theorem trace_read_cmd_of_open (hfd : s.tracefd = some bytes) :
    trace_read_cmd cmd s = (((bytes.take 17).length : ℤ), cmd.overlay (bytes.take 17),
      { s with tracefd := some (bytes.drop 17) }) := by
  unfold trace_read_cmd
  rw [hfd]
  rfl

/-- One round that reads something. -/
theorem atmLoop_round (hfd : s.tracefd = some bytes) (hpos : bytes ≠ []) (fuel : ℕ)
    (handed : List Command) :
    atmLoop env atm_id (fuel + 1) s cmd handed
      = match atm_run_next (atm (env handed.length).1 (env handed.length).2 atm_id
          (cmd.overlay (bytes.take 17))) with
        | some status => some ⟨handed ++ [cmd.overlay (bytes.take 17)], status,
            { s with tracefd := some (bytes.drop 17) }⟩
        | none => atmLoop env atm_id fuel { s with tracefd := some (bytes.drop 17) }
            (cmd.overlay (bytes.take 17)) (handed ++ [cmd.overlay (bytes.take 17)]) := by
  have hread : ((bytes.take 17).length : ℤ) ≠ 0 := by
    have hlen := List.length_pos_iff.mpr hpos
    rw [List.length_take]
    omega
  rw [atmLoop, trace_read_cmd_of_open hfd]
  simp only [if_neg hread]

/-- The loop ends, and hands these commands to `atm`. -/
theorem atmLoop_spec (hfd : s.tracefd = some bytes) {fuel : ℕ} (hfuel : bytes.length < fuel)
    (handed : List Command) :
    ∃ run, atmLoop env atm_id fuel s cmd handed = some run ∧
      run.handed = handed ++ handedFrom env atm_id handed.length cmd bytes := by
  induction fuel generalizing s cmd bytes handed with
  | zero => exact absurd hfuel (Nat.not_lt_zero _)
  | succ fuel ih =>
      rcases eq_or_ne bytes [] with rfl | hpos
      · refine ⟨⟨handed, SUCCESS, trace_close s⟩, ?_, ?_⟩
        · rw [atmLoop, trace_read_cmd_of_open hfd]
          rfl
        · rw [handedFrom_nil, List.append_nil]
      · have hlen := List.length_pos_iff.mpr hpos
        have hless : (bytes.drop 17).length < fuel := by
          rw [List.length_drop]
          omega
        have hround := @atmLoop_round env atm_id s cmd bytes hfd hpos fuel handed
        have hrest := @ih { s with tracefd := some (bytes.drop 17) }
          (cmd.overlay (bytes.take 17)) _ rfl hless (handed ++ [cmd.overlay (bytes.take 17)])
        rw [List.length_append, List.length_singleton] at hrest
        rcases Nat.lt_or_ge bytes.length 17 with hshort | hwhole
        · -- less than a record: it is laid over the last one
          rw [List.take_of_length_le (Nat.le_of_lt hshort)] at hround hrest
          rw [List.drop_eq_nil_of_le (Nat.le_of_lt hshort), handedFrom_nil, List.append_nil] at hrest
          rw [hround, handedFrom_short _ hpos hshort]
          rw [List.drop_eq_nil_of_le (Nat.le_of_lt hshort)]
          cases hnext : atm_run_next (atm (env handed.length).1 (env handed.length).2 atm_id
              (cmd.overlay bytes)) with
          | some status => exact ⟨_, rfl, rfl⟩
          | none => exact hrest
        · have hbuf : cmd.overlay (bytes.take 17) = .ofBytes (bytes.take 17) :=
            overlay_whole cmd (List.length_take_of_le hwhole)
          rw [hbuf] at hround hrest
          rw [hround]
          cases hnext : atm_run_next (atm (env handed.length).1 (env handed.length).2 atm_id
              (.ofBytes (bytes.take 17))) with
          | some status =>
              have hstop : stops env atm_id handed.length (.ofBytes (bytes.take 17)) = true := by
                rw [stops, hnext]
                rfl
              rw [handedFrom_stop hwhole hstop]
              exact ⟨_, rfl, rfl⟩
          | none =>
              have hgo : stops env atm_id handed.length (.ofBytes (bytes.take 17)) = false := by
                rw [stops, hnext]
                rfl
              rw [handedFrom_next hwhole hgo]
              rw [List.append_assoc, List.singleton_append] at hrest
              exact hrest

/-- Behind the two counts of the header the loop begins. -/
theorem trace_open_header {file : List Byte} (h : 8 ≤ file.length) (s : Tracer) :
    ∃ atm_cnt account_cnt,
      trace_open (some file) s = (1, ⟨some (file.drop 8), atm_cnt, account_cnt⟩) := by
  match file, h with
  | b0 :: b1 :: b2 :: b3 :: b4 :: b5 :: b6 :: b7 :: rest, _ => exact ⟨_, _, rfl⟩

end Handed

section AtmRun

variable (env : ℕ → ℤ × ℤ × Command) (atm_id : CInt) (cmd : Command) (s : Tracer)
  {file : List Byte}

/-- **`atm_run`** on a file with a header: the complete records up to the first that ends the
loop and, if none does, what is left of the file over the last one. -/
theorem atm_run_handed (hheader : 8 ≤ file.length) :
    ∃ run, atm_run env atm_id (some file) cmd s = some run ∧
      run.handed = handedFrom env atm_id 0 cmd (file.drop 8) := by
  obtain ⟨atm_cnt, account_cnt, hopen⟩ := trace_open_header hheader s
  have hloop := @atmLoop_spec env atm_id ⟨some (file.drop 8), atm_cnt, account_cnt⟩ cmd _ rfl _
    (Nat.lt_succ_self _) []
  rw [List.nil_append, List.length_nil] at hloop
  unfold atm_run
  rw [hopen]
  exact hloop

/-- They are the complete records exactly if none of these but the last ends the loop, and
nothing is left of the file or the last one ends the loop. -/
theorem atm_run_handed_iff (hheader : 8 ≤ file.length) :
    ∃ run, atm_run env atm_id (some file) cmd s = some run ∧
      (run.handed = records (file.drop 8) ↔
        stopped (stops env atm_id) 0 (records (file.drop 8)).dropLast = false ∧
          (stopped (stops env atm_id) 0 (records (file.drop 8)) = true ∨
            fragment (file.drop 8) = [])) := by
  obtain ⟨run, hrun, hhanded⟩ := atm_run_handed env atm_id cmd s hheader
  refine ⟨run, hrun, ?_⟩
  rw [hhanded, handedFrom, ← upToStop_eq_self_iff]
  split_ifs with hend
  · rw [List.append_nil]
    exact (and_iff_left hend).symm
  · -- none ends the loop, so the fragment comes in addition
    rw [not_or, Bool.not_eq_true] at hend
    rw [upToStop_of_not_stopped hend.1, hend.1]
    simp [hend.2]

/-- **The records an ATM executes**: the complete records of the file in order, each once, up
to the first whose status ends `atm_run`; if there is one, or the file ends with a complete
record, nothing else is handed to `atm`. -/
theorem atm_run_records (hheader : 8 ≤ file.length) :
    ∃ run rest, atm_run env atm_id (some file) cmd s = some run ∧
      run.handed = upToStop (stops env atm_id) 0 (records (file.drop 8)) ++ rest ∧
      (stopped (stops env atm_id) 0 (records (file.drop 8)) = true ∨
        fragment (file.drop 8) = [] → rest = []) := by
  obtain ⟨run, hrun, hhanded⟩ := atm_run_handed env atm_id cmd s hheader
  refine ⟨run, _, hrun, hhanded, ?_⟩
  intro hend
  rw [if_pos hend]

end AtmRun

/-- A file with four records, one of them of another ATM. -/
def fourRecords : List Byte :=
  List.replicate 8 0 ++ ((MSG_CONNECT 0).toBytes ++ ((MSG_CONNECT 1).toBytes ++
    ((MSG_DEPOSIT 0 1 5).toBytes ++ (MSG_BALANCE 0 1).toBytes)))

theorem atm_run_records_four :
    ∃ run, atm_run (fun _ => (17, 17, MSG_OK 0 0 0 0)) 0 (some fourRecords) (MSG_EXIT 0)
        ⟨none, 0, 0⟩ = some run ∧
      run.handed = [MSG_CONNECT 0, MSG_CONNECT 1, MSG_DEPOSIT 0 1 5, MSG_BALANCE 0 1] := by
  have hheader : 8 ≤ fourRecords.length := by decide
  obtain ⟨run, rest, hrun, hhanded, hrest⟩ := atm_run_records
    (fun _ => (17, 17, MSG_OK 0 0 0 0)) 0 (MSG_EXIT 0) ⟨none, 0, 0⟩ hheader
  have hnone : fragment (fourRecords.drop 8) = [] := by
    decide
  rw [hrest (.inr hnone), List.append_nil] at hhanded
  refine ⟨run, hrun, hhanded.trans ?_⟩
  decide

/-- Two records, the first with an unknown command byte: it ends the loop and the second one
is not executed. And a file with one record and one byte behind it makes two commands. -/
theorem atm_run_not_exactly_records :
    (atm_run (fun _ => (17, 17, MSG_OK 0 0 0 0)) 0
        (some (List.replicate 8 0 ++ ((cmd_pack 99 0 0 0 0).toBytes ++ (MSG_CONNECT 0).toBytes)))
        (MSG_EXIT 0) ⟨none, 0, 0⟩).map AtmRun.handed = some [cmd_pack 99 0 0 0 0] ∧
      records ((cmd_pack 99 0 0 0 0).toBytes ++ (MSG_CONNECT 0).toBytes)
        = [cmd_pack 99 0 0 0 0, MSG_CONNECT 0] ∧
      (atm_run (fun _ => (17, 17, MSG_OK 0 0 0 0)) 0
        (some (List.replicate 8 0 ++ ((MSG_BALANCE 0 1).toBytes ++ [DEPOSIT])))
        (MSG_EXIT 0) ⟨none, 0, 0⟩).map AtmRun.handed
        = some [MSG_BALANCE 0 1, { MSG_BALANCE 0 1 with cmd := DEPOSIT }] ∧
      records ((MSG_BALANCE 0 1).toBytes ++ [DEPOSIT]) = [MSG_BALANCE 0 1] := by
  decide

end ProjectsInC.BankAtm
