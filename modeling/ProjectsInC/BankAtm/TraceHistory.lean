/-
What the counts of `trace.c` are after any history of calls.

`trace_open` or-es the two integers of the header into statics that only `trace_close` sets to
zero; an open that fails behind the first integer has already or-ed it in. So the counts are those
of all files opened since the last `trace_close`, put together bit by bit ([`runCalls_counts`]),
and a successful `trace_open` reports the header of its own file exactly if none of the others has
a bit in addition ([`trace_open_reports_iff`]). `atm_run` is such a history, with or without the
call of `trace_close` ([`atm_run_calls`]).
-/
import ProjectsInC.BankAtm.TraceRoundTrip

set_option autoImplicit false

namespace ProjectsInC.BankAtm

open Status

/-! ## Bits put together -/

/-- All the bits of some integers. -/
def orAll (ns : List CInt) : CInt := ns.foldl (fun n m => n ||| m) 0

theorem orAll_concat (ns : List CInt) (n : CInt) : orAll (ns ++ [n]) = orAll ns ||| n := by
  rw [orAll, List.foldl_append]
  rfl

/-- They add nothing to an integer exactly if none of them does. -/
theorem orAll_or_eq_iff (ns : List CInt) (m : CInt) :
    orAll ns ||| m = m ↔ ∀ n ∈ ns, n ||| m = m := by
  induction ns using List.reverseRecOn with
  | nil => exact iff_of_true BitVec.zero_or (fun _ hn => absurd hn List.not_mem_nil)
  | append_singleton ns n ih =>
      rw [orAll_concat, List.forall_mem_append, List.forall_mem_singleton, ← ih]
      constructor
      · intro h
        constructor
        · -- a bit of the others is a bit of all
          rw [← h, ← BitVec.or_assoc, ← BitVec.or_assoc, BitVec.or_self]
        · rw [← h, BitVec.or_assoc, BitVec.or_comm (orAll ns), ← BitVec.or_assoc, ← BitVec.or_assoc,
            BitVec.or_self]
      · rintro ⟨hns, hn⟩
        rw [BitVec.or_assoc, hn, hns]

/-! ## The calls -/

/-- `trace_atm_count` -/
def trace_atm_count (s : Tracer) : CInt := s.atm_cnt

/-- `trace_account_count` -/
def trace_account_count (s : Tracer) : CInt := s.account_cnt

/-- A call of a function of `trace.c`. -/
inductive TraceCall
  | trace_open (path : Option (List Byte))
  | trace_read_cmd (cmd : Command)
  | trace_close

/-- The statics behind a call. `none` if the assertion of `trace_close` ends the process. -/
def TraceCall.run (s : Tracer) : TraceCall → Option Tracer
  | trace_open path => some (BankAtm.trace_open path s).2
  | trace_read_cmd cmd => some (BankAtm.trace_read_cmd cmd s).2.2
  | trace_close => if s.tracefd.isSome then some (BankAtm.trace_close s) else none

/-- The statics behind some calls. -/
def runCalls (s : Tracer) (calls : List TraceCall) : Option Tracer := calls.foldlM TraceCall.run s

/-- The files that were opened, behind one call more. -/
def TraceCall.opened (files : List (List Byte)) : TraceCall → List (List Byte)
  | trace_open (some file) => files ++ [file]
  | trace_open none => files
  | trace_read_cmd _ => files
  | trace_close => []

/-- The files opened since the last `trace_close`, those with too short a header included. -/
def openedSinceClose (calls : List TraceCall) : List (List Byte) := calls.foldl TraceCall.opened []

/-- The integer of the header that begins at byte `i`; a file that ends before has no bits there. -/
def headerCount (i : ℕ) (file : List Byte) : CInt :=
  if i + 4 ≤ file.length then unpack_int (.ofBytes file i) else 0

/-- A file with a whole integer left. -/
theorem readCount_long {file : List Byte} (h : 4 ≤ file.length) (n : CInt) :
    readCount n file = some (n ||| headerCount 0 file, file.drop 4) := by
  match file, h with
  | b0 :: b1 :: b2 :: b3 :: rest, h =>
      rw [headerCount, if_pos h]
      exact readCount_toBytes n ⟨b0, b1, b2, b3⟩ rest

/-- A file with less than that. -/
theorem readCount_short {file : List Byte} (h : file.length < 4) (n : CInt) :
    readCount n file = none := by
  match file, h with
  | [], _ => rfl
  | [_], _ => rfl
  | [_, _], _ => rfl
  | [_, _, _], _ => rfl

theorem headerCount_short {i : ℕ} {file : List Byte} (h : file.length < i + 4) :
    headerCount i file = 0 := if_neg (not_le.mpr h)

/-- The second integer is the first one behind four bytes. -/
theorem headerCount_drop (file : List Byte) : headerCount 0 (file.drop 4) = headerCount 4 file := by
  match file with
  | [] => rfl
  | [_] => rfl
  | [_, _] => rfl
  | [_, _, _] => rfl
  | b0 :: b1 :: b2 :: b3 :: rest =>
      have hlen : 0 + 4 ≤ rest.length ↔ 4 + 4 ≤ (b0 :: b1 :: b2 :: b3 :: rest).length := by
        simp only [List.length_cons]
        omega
      exact if_congr hlen rfl rfl

/-- What `trace_open` does to the statics, whether it succeeds or not. -/
theorem trace_open_file (file : List Byte) (s : Tracer) :
    trace_open (some file) s = (if 8 ≤ file.length then 1 else -1,
      ⟨some (file.drop 8), s.atm_cnt ||| headerCount 0 file,
        s.account_cnt ||| headerCount 4 file⟩) := by
  have hnone (n : CInt) : n ||| 0 = n := BitVec.or_zero
  rcases Nat.lt_or_ge file.length 4 with hshort | hfirst
  · -- no integer is read
    have hshort' : file.length < 4 + 4 := by omega
    have hfail : ¬ 8 ≤ file.length := by omega
    have hend : file.drop 8 = [] := List.drop_eq_nil_of_le (by omega)
    rw [trace_open, readCount_short hshort, headerCount_short hshort, headerCount_short hshort',
      hnone, hnone, if_neg hfail, hend]
  · rcases Nat.lt_or_ge file.length 8 with hshort | hsecond
    · -- the failure comes behind the first integer
      have hfail : ¬ 8 ≤ file.length := by omega
      have hend : file.drop 8 = [] := List.drop_eq_nil_of_le (by omega)
      have hrest : (file.drop 4).length < 4 := by
        rw [List.length_drop]
        omega
      rw [trace_open, readCount_long hfirst, headerCount_short hshort, hnone, if_neg hfail, hend]
      simp only [readCount_short hrest]
    · have hrest : 4 ≤ (file.drop 4).length := by
        rw [List.length_drop]
        omega
      rw [trace_open, readCount_long hfirst, if_pos hsecond]
      simp only [readCount_long hrest, headerCount_drop, List.drop_drop]

/-! ## Histories -/

theorem openedSinceClose_concat (calls : List TraceCall) (call : TraceCall) :
    openedSinceClose (calls ++ [call]) = call.opened (openedSinceClose calls) := by
  rw [openedSinceClose, List.foldl_append]
  rfl

theorem runCalls_cons (s : Tracer) (call : TraceCall) (calls : List TraceCall) :
    runCalls s (call :: calls) = (call.run s).bind (fun s => runCalls s calls) := rfl

theorem runCalls_concat {s s' : Tracer} {calls : List TraceCall} {call : TraceCall} :
    runCalls s (calls ++ [call]) = some s' ↔
      ∃ s₀, runCalls s calls = some s₀ ∧ call.run s₀ = some s' := by
  simp only [runCalls, List.foldlM_append, List.foldlM_cons, List.foldlM_nil, bind_pure,
    Option.bind_eq_bind, Option.bind_eq_some_iff]

/-- The counts behind any history of a process. -/
theorem runCalls_counts {calls : List TraceCall} {s : Tracer}
    (hrun : runCalls .fresh calls = some s) :
    s.atm_cnt = orAll ((openedSinceClose calls).map (headerCount 0)) ∧
    s.account_cnt = orAll ((openedSinceClose calls).map (headerCount 4)) := by
  -- from the right, so that the last call is a step from a state the counts are known of
  induction calls using List.reverseRecOn generalizing s with
  | nil =>
      cases hrun
      exact ⟨rfl, rfl⟩
  | append_singleton calls call ih =>
      obtain ⟨s₀, hcalls, hcall⟩ := runCalls_concat.mp hrun
      obtain ⟨hatm, haccount⟩ := ih hcalls
      rw [openedSinceClose_concat]
      cases call with
      | trace_open path =>
          cases hcall
          cases path with
          | none => exact ⟨hatm, haccount⟩
          | some file =>
              -- one more file, whether the open succeeds or not
              rw [TraceCall.opened, List.map_append, List.map_append, List.map_singleton,
                List.map_singleton, orAll_concat, orAll_concat, trace_open_file, hatm, haccount]
              exact ⟨rfl, rfl⟩
      | trace_read_cmd cmd =>
          cases hcall
          have hread : (trace_read_cmd cmd s₀).2.2.atm_cnt = s₀.atm_cnt ∧
              (trace_read_cmd cmd s₀).2.2.account_cnt = s₀.account_cnt := by
            unfold trace_read_cmd
            cases s₀.tracefd with
            | none => exact ⟨rfl, rfl⟩
            | some bytes => exact ⟨rfl, rfl⟩
          rw [hread.1, hread.2]
          exact ⟨hatm, haccount⟩
      | trace_close =>
          -- behind the assertion everything is as in the beginning
          rw [TraceCall.run, Option.ite_none_right_eq_some] at hcall
          cases hcall.2
          exact ⟨rfl, rfl⟩

/-- **A successful `trace_open`** behind any history reports the header of its own file exactly if
no count of a file opened since the last `trace_close` has a bit in addition. -/
theorem trace_open_reports_iff {calls : List TraceCall} {s s' : Tracer}
    (hrun : runCalls .fresh calls = some s) {file : List Byte}
    (hopen : trace_open (some file) s = (1, s')) :
    (trace_atm_count s' = unpack_int (.ofBytes file 0) ∧
      trace_account_count s' = unpack_int (.ofBytes file 4)) ↔
    ∀ earlier ∈ openedSinceClose calls,
      headerCount 0 earlier ||| unpack_int (.ofBytes file 0) = unpack_int (.ofBytes file 0) ∧
      headerCount 4 earlier ||| unpack_int (.ofBytes file 4) = unpack_int (.ofBytes file 4) := by
  have hfail : ¬ (-1 : CInt) = 1 := by decide
  obtain ⟨hatm, haccount⟩ := runCalls_counts hrun
  rw [trace_open_file, Prod.mk.injEq] at hopen
  obtain ⟨hresult, rfl⟩ := hopen
  -- it has read both integers
  have hlen : 8 ≤ file.length := by
    by_contra hshort
    rw [if_neg hshort] at hresult
    exact hfail hresult
  have hfirst : headerCount 0 file = unpack_int (.ofBytes file 0) := if_pos (by omega)
  have hsecond : headerCount 4 file = unpack_int (.ofBytes file 4) := if_pos hlen
  rw [trace_atm_count, trace_account_count, hatm, haccount, hfirst, hsecond, orAll_or_eq_iff,
    orAll_or_eq_iff, List.forall_mem_map, List.forall_mem_map]
  exact forall₂_and.symm

/-- After a file that was closed, a file with other counts is reported as it is. -/
theorem trace_open_reports_iff_closed :
    trace_atm_count ⟨some [], 2, 5⟩ = unpack_int ⟨0, 0, 0, 2⟩ ∧
      trace_account_count ⟨some [], 2, 5⟩ = unpack_int ⟨0, 0, 0, 5⟩ := by
  have hrun : runCalls .fresh [.trace_open (some [0, 0, 0, 1, 0, 0, 0, 1]), .trace_close]
      = some ⟨none, 0, 0⟩ := rfl
  have hopen : trace_open (some [0, 0, 0, 2, 0, 0, 0, 5]) ⟨none, 0, 0⟩ = (1, ⟨some [], 2, 5⟩) :=
    rfl
  exact (trace_open_reports_iff hrun hopen).mpr (fun _ h => absurd h List.not_mem_nil)

/-- A file with one ATM and one account is opened and then, without a `trace_close` in between, one
with two of each: three are reported. An open that fails behind the first integer does the same. -/
theorem trace_open_reports_other :
    ((runCalls .fresh [.trace_open (some [0, 0, 0, 1, 0, 0, 0, 1]),
        .trace_open (some [0, 0, 0, 2, 0, 0, 0, 2])]).map
          (fun s => (trace_atm_count s, trace_account_count s)) = some (3, 3)) ∧
    ((runCalls .fresh [.trace_open (some [0, 0, 0, 1]),
        .trace_open (some [0, 0, 0, 2, 0, 0, 0, 2])]).map
          (fun s => (trace_atm_count s, trace_account_count s)) = some (3, 2)) ∧
    (∀ s, (trace_open (some [0, 0, 0, 2, 0, 0, 0, 2]) s).1 = 1) ∧
    unpack_int (.ofBytes [0, 0, 0, 2, 0, 0, 0, 2] 0) = 2 ∧
    unpack_int (.ofBytes [0, 0, 0, 2, 0, 0, 0, 2] 4) = 2 := by
  refine ⟨by decide, by decide, fun s => rfl, by decide, by decide⟩

/-! ## `atm_run` as a history -/

section AtmRun

variable {env : ℕ → ℤ × ℤ × Command} {atm_id : CInt}

/-- What `atm_run` does behind its loop: it closes the trace only if it returns `SUCCESS`. -/
def closing (status : Status) : List TraceCall :=
  if status = SUCCESS then [.trace_close] else []

/-- The loop ends with 0 on an open file only. -/
theorem trace_read_cmd_end {cmd cmd' : Command} {s s' : Tracer}
    (h : trace_read_cmd cmd s = (0, cmd', s')) : s'.tracefd.isSome = true := by
  unfold trace_read_cmd at h
  cases hfd : s.tracefd with
  | none =>
      have hne : ¬ (-1 : ℤ) = 0 := by decide
      rw [hfd] at h
      exact absurd (congrArg Prod.fst h) hne
  | some bytes =>
      rw [hfd] at h
      have hs : _ = s' := congrArg (fun r => r.2.2) h
      rw [← hs]
      rfl

/-- A status that ends the loop is a failure. -/
theorem atm_run_next_ne_success {status status' : Status}
    (h : atm_run_next status = some status') : status' ≠ SUCCESS := by
  rintro rfl
  cases status <;> cases h

/-- The calls of the loop and of what follows it. -/
theorem atmLoop_calls {fuel : ℕ} {s : Tracer} {cmd : Command} {handed : List Command}
    {run : AtmRun} (h : atmLoop env atm_id fuel s cmd handed = some run) :
    ∃ reads : List Command,
      runCalls s (reads.map .trace_read_cmd ++ closing run.status) = some run.trace := by
  induction fuel generalizing s cmd handed with
  | zero => cases h
  | succ fuel ih =>
      rcases hread : trace_read_cmd cmd s with ⟨result, cmd', s'⟩
      have hcall : TraceCall.run s (.trace_read_cmd cmd) = some s' := by
        rw [TraceCall.run, hread]
      rw [atmLoop, hread] at h
      by_cases hend : result = 0
      · -- the end of the file, which `atm_run` closes
        simp only [if_pos hend] at h
        cases h
        subst hend
        have hclose : TraceCall.run s' .trace_close = some (trace_close s') :=
          if_pos (trace_read_cmd_end hread)
        have hlast : runCalls s' [.trace_close] = some (trace_close s') := by
          rw [runCalls_cons, hclose]
          rfl
        refine ⟨[cmd], ?_⟩
        rw [List.map_singleton, List.singleton_append, runCalls_cons, hcall]
        exact hlast
      · simp only [if_neg hend] at h
        cases hnext : atm_run_next (atm (env handed.length).1 (env handed.length).2 atm_id cmd') with
        | some status =>
            -- the early return
            rw [hnext] at h
            cases h
            refine ⟨[cmd], ?_⟩
            rw [closing, if_neg (atm_run_next_ne_success hnext), List.append_nil]
            exact hcall
        | none =>
            rw [hnext] at h
            obtain ⟨reads, hreads⟩ := ih h
            refine ⟨cmd :: reads, ?_⟩
            rw [List.map_cons, List.cons_append, runCalls_cons, hcall]
            exact hreads

/-- **`atm_run`** opens its trace, reads from it and closes it if it returns `SUCCESS`; after any
other status the file stays open. -/
theorem atm_run_calls {path : Option (List Byte)} {s : Tracer} {cmd : Command} {run : AtmRun}
    (h : atm_run env atm_id path cmd s = some run) :
    ∃ reads : List Command, runCalls s
      (.trace_open path :: (reads.map .trace_read_cmd ++ closing run.status)) = some run.trace := by
  have hne : ¬ Status.ERR_BAD_TRACE_FILE = SUCCESS := by decide
  unfold atm_run at h
  by_cases hfail : (trace_open path s).1 = -1
  · simp only [if_pos hfail] at h
    cases h
    exact ⟨[], rfl⟩
  · simp only [if_neg hfail] at h
    obtain ⟨reads, hreads⟩ := atmLoop_calls h
    exact ⟨reads, hreads⟩

end AtmRun

end ProjectsInC.BankAtm
