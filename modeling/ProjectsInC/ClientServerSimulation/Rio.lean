/-
The Rio package of `csapp.c`, without its buffer.

`read` and `write` may transfer less than they are asked to, and a signal may
interrupt them. What the kernel does at each call is the list `grants` of a
descriptor; when it is used up, calls are served in full. The loops of
`rio_readn` and `rio_writen` are there to hide all that.
-/
import ProjectsInC.Machine

set_option autoImplicit false

namespace ProjectsInC.ClientServerSimulation

/-! ## System calls -/

/-- `EINTR` -/
def EINTR : ℕ := 4

/-- What the kernel does at one system call. -/
inductive Grant
  /-- It transfers up to so many bytes. -/
  | upTo (k : ℕ)
  /-- It fails and sets `errno`. -/
  | fails (errno : ℕ)
deriving DecidableEq, Repr

/-- A descriptor: the bytes still to be read, the bytes written, what the kernel
will do, and `errno`, which only a failure changes. -/
structure Descriptor where
  input : List Byte
  output : List Byte
  grants : List Grant
  errno : ℕ
deriving DecidableEq, Repr

/-- `read`: `none` is the result -1. In front of the end of the input it gives at
least one byte. -/
def read (fd : Descriptor) (count : ℕ) : Option (List Byte) × Descriptor :=
  match fd.grants with
  | [] => (some (fd.input.take count), { fd with input := fd.input.drop count, grants := [] })
  | .upTo k :: grants =>
      let m := min count (max 1 k)
      (some (fd.input.take m), { fd with input := fd.input.drop m, grants := grants })
  | .fails errno :: grants => (none, { fd with grants := grants, errno := errno })

/-- `write`: -1, or the number of bytes written, which may be 0. -/
def write (fd : Descriptor) (bytes : List Byte) : ℤ × Descriptor :=
  match fd.grants with
  | [] => (bytes.length, { fd with output := fd.output ++ bytes, grants := [] })
  | .upTo k :: grants =>
      ((bytes.take k).length, { fd with output := fd.output ++ bytes.take k, grants := grants })
  | .fails errno :: grants => (-1, { fd with grants := grants, errno := errno })

/-- Every failure among the grants is an interruption. -/
def Interruptible (grants : List Grant) : Prop :=
  ∀ errno, Grant.fails errno ∈ grants → errno = EINTR

/-- The calls that lead from `fd` to `fd'` went through, but for interruptions. -/
def Completed (fd fd' : Descriptor) : Prop :=
  ∃ used, fd.grants = used ++ fd'.grants ∧ Interruptible used

/-- The last of the calls failed for another reason. -/
def Aborted (fd fd' : Descriptor) : Prop :=
  ∃ used, fd.grants = used ++ .fails fd'.errno :: fd'.grants ∧ Interruptible used ∧
    fd'.errno ≠ EINTR

theorem Completed.refl (fd : Descriptor) : Completed fd fd :=
  ⟨[], rfl, fun _ h => absurd h List.not_mem_nil⟩

theorem Interruptible.append {grants grants' : List Grant} (h : Interruptible grants)
    (h' : Interruptible grants') : Interruptible (grants ++ grants') := by
  intro errno hmem
  rcases List.mem_append.mp hmem with hmem | hmem
  · exact h errno hmem
  · exact h' errno hmem

theorem Completed.trans {fd fd' fd'' : Descriptor} (h : Completed fd fd')
    (h' : Completed fd' fd'') : Completed fd fd'' := by
  obtain ⟨used, hgrants, hint⟩ := h
  obtain ⟨used', hgrants', hint'⟩ := h'
  exact ⟨used ++ used', by rw [hgrants, hgrants', List.append_assoc], hint.append hint'⟩

theorem Completed.aborted {fd fd' fd'' : Descriptor} (h : Completed fd fd')
    (h' : Aborted fd' fd'') : Aborted fd fd'' := by
  obtain ⟨used, hgrants, hint⟩ := h
  obtain ⟨used', hgrants', hint', hne⟩ := h'
  exact ⟨used ++ used', by rw [hgrants, hgrants', List.append_assoc], hint.append hint', hne⟩

/-- What one `read` can do: fail, or give a front of the input, which is empty only
at its end. -/
inductive ReadOutcome (fd : Descriptor) (count : ℕ) : Option (List Byte) × Descriptor → Prop
  | fails (errno : ℕ) (grants : List Grant) (hgrants : fd.grants = .fails errno :: grants) :
      ReadOutcome fd count (none, { fd with grants := grants, errno := errno })
  | gives (bytes rest : List Byte) (grants : List Grant) (hinput : fd.input = bytes ++ rest)
      (hle : bytes.length ≤ count) (hend : 0 < count → bytes = [] → rest = [])
      (hgrants : fd.grants = grants ∨ ∃ k, fd.grants = .upTo k :: grants) :
      ReadOutcome fd count (some bytes, { fd with input := rest, grants := grants })

/-- Taking a positive number of bytes leaves out only what is not there. -/
theorem take_eq_nil_end {m : ℕ} (hm : 0 < m) {input : List Byte} (h : input.take m = []) :
    input.drop m = [] := by
  rcases List.take_eq_nil_iff.mp h with h | h
  · omega
  · rw [h, List.drop_nil]

theorem read_cases (fd : Descriptor) (count : ℕ) : ReadOutcome fd count (read fd count) := by
  unfold read
  cases hgrants : fd.grants with
  | nil =>
      exact .gives _ _ [] (List.take_append_drop count _).symm (List.length_take_le _ _)
        (fun hpos h => take_eq_nil_end hpos h) (.inl hgrants)
  | cons grant grants =>
      cases grant with
      | upTo k =>
          refine .gives _ _ grants (List.take_append_drop _ _).symm ?_ ?_ (.inr ⟨k, hgrants⟩)
          · exact (List.length_take_le _ _).trans (min_le_left _ _)
          · intro hpos h
            exact take_eq_nil_end (by omega) h
      | fails errno => exact .fails errno grants hgrants

namespace ReadOutcome

variable {fd fd' : Descriptor} {count : ℕ} {bytes : List Byte}

/-- A `read` that fails uses up a grant. -/
theorem grants_lt (h : ReadOutcome fd count (none, fd')) :
    fd'.grants.length < fd.grants.length := by
  cases h with
  | fails errno grants hgrants =>
      rw [hgrants]
      exact Nat.lt_succ_self _

theorem grants_le (h : ReadOutcome fd count (some bytes, fd')) :
    fd'.grants.length ≤ fd.grants.length := by
  cases h with
  | gives _ rest grants hinput hle hend hgrants =>
      rcases hgrants with hgrants | ⟨k, hgrants⟩
      · rw [hgrants]
      · rw [hgrants]
        exact Nat.le_succ _

theorem completed (h : ReadOutcome fd count (some bytes, fd')) : Completed fd fd' := by
  cases h with
  | gives _ rest grants hinput hle hend hgrants =>
      rcases hgrants with hgrants | ⟨k, hgrants⟩
      · exact ⟨[], hgrants, fun _ h => absurd h List.not_mem_nil⟩
      · exact ⟨[.upTo k], hgrants, fun _ h => absurd h (by simp)⟩

theorem interrupted (h : ReadOutcome fd count (none, fd')) (hint : fd'.errno = EINTR) :
    Completed fd fd' ∧ fd'.input = fd.input := by
  cases h with
  | fails errno grants hgrants =>
      refine ⟨⟨[.fails errno], hgrants, fun e hmem => ?_⟩, rfl⟩
      rw [List.mem_singleton, Grant.fails.injEq] at hmem
      exact hmem.trans hint

theorem aborted (h : ReadOutcome fd count (none, fd')) (hne : fd'.errno ≠ EINTR) :
    Aborted fd fd' ∧ fd'.input = fd.input := by
  cases h with
  | fails errno grants hgrants =>
      exact ⟨⟨[], hgrants, fun _ h => absurd h List.not_mem_nil, hne⟩, rfl⟩

theorem output {result : Option (List Byte)} (h : ReadOutcome fd count (result, fd')) :
    fd'.output = fd.output := by
  cases h <;> rfl

theorem input (h : ReadOutcome fd count (some bytes, fd')) :
    fd.input = bytes ++ fd'.input ∧ bytes.length ≤ count ∧
      (0 < count → bytes = [] → fd'.input = []) := by
  cases h with
  | gives _ rest grants hinput hle hend hgrants => exact ⟨hinput, hle, hend⟩

end ReadOutcome

/-! ## `rio_readn` -/

/-- What a transfer returns, the bytes it moved, and the descriptor it leaves. -/
structure Transfer where
  ret : ℤ
  bytes : List Byte
  fd : Descriptor
deriving DecidableEq, Repr

/-- The loop of `rio_readn`; `usrbuf` is what has been stored so far. -/
def readnLoop (n nleft : ℕ) (usrbuf : List Byte) (fd : Descriptor) : Transfer :=
  if nleft = 0 then ⟨(n - nleft : ℕ), usrbuf, fd⟩
  else
    match hread : read fd nleft with
    | (none, fd') =>
        -- interrupted: call read() again
        if fd'.errno = EINTR then readnLoop n nleft usrbuf fd'
        else ⟨-1, usrbuf, fd'⟩
    | (some nread, fd') =>
        if nread.length = 0 then ⟨(n - nleft : ℕ), usrbuf, fd'⟩
        else readnLoop n (nleft - nread.length) (usrbuf ++ nread) fd'
termination_by nleft + fd.grants.length
decreasing_by
  · have hout : ReadOutcome fd nleft _ := hread ▸ read_cases fd nleft
    have hless := hout.grants_lt
    omega
  · have hout : ReadOutcome fd nleft _ := hread ▸ read_cases fd nleft
    have hle := hout.grants_le
    omega

/-- `rio_readn` -/
def rio_readn (fd : Descriptor) (n : ℕ) : Transfer := readnLoop n n [] fd

/-- What a transfer has done to the descriptor it started from: it gave everything
asked for that was there, or it stopped at a failure; no byte is lost or doubled. -/
structure ReadLaw (fd : Descriptor) (n : ℕ) (t : Transfer) : Prop where
  bytes : fd.input = t.bytes ++ t.fd.input
  output : t.fd.output = fd.output
  ended : t.ret = t.bytes.length ∧ t.bytes = fd.input.take n ∧ Completed fd t.fd ∨
    t.ret = -1 ∧ t.bytes.length < n ∧ Aborted fd t.fd

/-- The loop keeps: what was stored is what is gone from the input, and it is what
is missing of `n`. -/
theorem readnLoop_law {fd₀ : Descriptor} {n nleft : ℕ} {usrbuf : List Byte} {fd : Descriptor}
    (hbytes : fd₀.input = usrbuf ++ fd.input) (houtput : fd.output = fd₀.output)
    (hlen : usrbuf.length + nleft = n) (hdone : Completed fd₀ fd) :
    ReadLaw fd₀ n (readnLoop n nleft usrbuf fd) := by
  fun_induction readnLoop n nleft usrbuf fd with
  | case1 usrbuf fd =>
      refine ⟨hbytes, houtput, .inl ⟨by simp only; omega, ?_, hdone⟩⟩
      rw [hbytes, ← hlen, add_zero, List.take_left']
      rfl
  | case2 nleft usrbuf fd hleft fd' hread hint ih =>
      have hout : ReadOutcome fd nleft _ := hread ▸ read_cases fd nleft
      obtain ⟨hstep, hinput⟩ := hout.interrupted hint
      exact ih (by rw [hbytes, hinput]) (hout.output.trans houtput) hlen (hdone.trans hstep)
  | case3 nleft usrbuf fd hleft fd' hread hint =>
      have hout : ReadOutcome fd nleft _ := hread ▸ read_cases fd nleft
      obtain ⟨hstep, hinput⟩ := hout.aborted hint
      refine ⟨by rw [hbytes, hinput], hout.output.trans houtput,
        .inr ⟨rfl, ?_, hdone.aborted hstep⟩⟩
      simp only
      omega
  | case4 nleft usrbuf fd hleft nread fd' hread hzero =>
      -- the input is at its end
      have hout : ReadOutcome fd nleft _ := hread ▸ read_cases fd nleft
      obtain ⟨hinput, -, hend⟩ := hout.input
      have hnil : nread = [] := List.length_eq_zero_iff.mp hzero
      rw [hnil, List.nil_append, hend (by omega) hnil] at hinput
      rw [hinput, List.append_nil] at hbytes
      refine ⟨by rw [hbytes, hend (by omega) hnil, List.append_nil], hout.output.trans houtput,
        .inl ⟨by simp only; omega, ?_, hdone.trans hout.completed⟩⟩
      rw [hbytes, List.take_of_length_le (by omega)]
  | case5 nleft usrbuf fd hleft nread fd' hread hsome ih =>
      have hout : ReadOutcome fd nleft _ := hread ▸ read_cases fd nleft
      obtain ⟨hinput, hle, -⟩ := hout.input
      apply ih
      · rw [hbytes, hinput, List.append_assoc]
      · exact hout.output.trans houtput
      · rw [List.length_append]
        omega
      · exact hdone.trans hout.completed

/-- **`rio_readn` hides short counts and interruptions.** Whatever the kernel does,
the bytes stored are a front of the input, in order, and the rest is still to be
read. It returns their number, and they are the first `n` or all there are; or it
returns -1, and then the last call failed for another reason than a signal. -/
theorem rio_readn_law (fd : Descriptor) (n : ℕ) : ReadLaw fd n (rio_readn fd n) :=
  readnLoop_law (by simp) rfl (by simp) (Completed.refl fd)

/-! ## `rio_writen` -/

/-- What one `write` can do: put a front of the bytes into the output, or nothing
at the price of a grant. -/
inductive WriteOutcome (fd : Descriptor) (bytes : List Byte) : ℤ × Descriptor → Prop
  | nothing (ret : ℤ) (errno : ℕ) (grant : Grant) (grants : List Grant) (hret : ret ≤ 0)
      (hgrants : fd.grants = grant :: grants)
      (hgrant : grant = .fails errno ∨ grant = .upTo 0 ∧ errno = fd.errno) :
      WriteOutcome fd bytes (ret, { fd with grants := grants, errno := errno })
  | some (front rest : List Byte) (grants : List Grant) (hfront : front ≠ [])
      (hbytes : bytes = front ++ rest)
      (hgrants : fd.grants = grants ∨ ∃ k, fd.grants = .upTo k :: grants) :
      WriteOutcome fd bytes
        (front.length, { fd with output := fd.output ++ front, grants := grants })

theorem write_cases (fd : Descriptor) {bytes : List Byte} (h : bytes ≠ []) :
    WriteOutcome fd bytes (write fd bytes) := by
  unfold write
  cases hgrants : fd.grants with
  | nil => exact .some bytes [] [] h (List.append_nil _).symm (.inl hgrants)
  | cons grant grants =>
      cases grant with
      | fails errno => exact .nothing (-1) errno _ grants (by omega) hgrants (.inl rfl)
      | upTo k =>
          cases k with
          | zero =>
              have hnone : WriteOutcome fd bytes
                  (0, { fd with grants := grants, errno := fd.errno }) :=
                .nothing 0 fd.errno (.upTo 0) grants le_rfl hgrants (.inr ⟨rfl, rfl⟩)
              simpa using hnone
          | succ k =>
              refine .some (bytes.take (k + 1)) (bytes.drop (k + 1)) grants ?_
                (List.take_append_drop _ _).symm (.inr ⟨k + 1, hgrants⟩)
              intro hnil
              rcases List.take_eq_nil_iff.mp hnil with hk | hbytes
              · omega
              · exact h hbytes

/-- A `write` that writes nothing uses up a grant. -/
theorem WriteOutcome.grants_lt {fd fd' : Descriptor} {bytes : List Byte} {ret : ℤ}
    (h : WriteOutcome fd bytes (ret, fd')) (hret : ret ≤ 0) :
    fd'.grants.length < fd.grants.length := by
  cases h with
  | nothing _ errno grant grants _ hgrants hgrant =>
      rw [hgrants]
      exact Nat.lt_succ_self _
  | some front rest grants hfront hbytes hgrants =>
      have hpos := List.length_pos_iff.mpr hfront
      omega

/-- One that writes something leaves less to be written. -/
theorem WriteOutcome.drop_lt {fd fd' : Descriptor} {bytes : List Byte} {ret : ℤ}
    (h : WriteOutcome fd bytes (ret, fd')) (hret : 0 < ret) :
    (bytes.drop ret.toNat).length + fd'.grants.length < bytes.length + fd.grants.length := by
  cases h with
  | nothing _ errno grant grants hnone hgrants hgrant => omega
  | some front rest grants hfront hbytes hgrants =>
      have hpos := List.length_pos_iff.mpr hfront
      have hle : grants.length ≤ fd.grants.length := by
        rcases hgrants with hgrants | ⟨k, hgrants⟩
        · rw [hgrants]
        · rw [hgrants]
          exact Nat.le_succ _
      rw [hbytes, List.length_drop, List.length_append, Int.toNat_natCast]
      simp only
      omega

/-- The loop of `rio_writen`; `bufp` is what is left to be written. -/
def writenLoop (n : ℕ) (bufp : List Byte) (fd : Descriptor) : ℤ × Descriptor :=
  if _hne : bufp = [] then (n, fd)
  else
    match hwrite : write fd bufp with
    | (nwritten, fd') =>
        if hnone : nwritten ≤ 0 then
          -- also after a `write` of 0 bytes, which leaves `errno` as it was
          if fd'.errno = EINTR then writenLoop n bufp fd' else (-1, fd')
        else writenLoop n (bufp.drop nwritten.toNat) fd'
termination_by bufp.length + fd.grants.length
decreasing_by
  · have hout : WriteOutcome fd bufp _ := hwrite ▸ write_cases fd _hne
    have hless := hout.grants_lt hnone
    omega
  · have hout : WriteOutcome fd bufp _ := hwrite ▸ write_cases fd _hne
    exact hout.drop_lt (by omega)

/-- `rio_writen` -/
def rio_writen (fd : Descriptor) (usrbuf : List Byte) : ℤ × Descriptor :=
  writenLoop usrbuf.length usrbuf fd

/-- What writing has done: everything is in the output, or a proper front of it is
and the last call failed, or wrote nothing while `errno` was not left at EINTR by
an earlier interruption. -/
structure WriteLaw (fd : Descriptor) (usrbuf : List Byte) (ret : ℤ) (fd' : Descriptor) : Prop where
  input : fd'.input = fd.input
  ended : ret = usrbuf.length ∧ fd'.output = fd.output ++ usrbuf ∨
    ret = -1 ∧ (∃ m < usrbuf.length, fd'.output = fd.output ++ usrbuf.take m) ∧
      ∃ used grant, fd.grants = used ++ grant :: fd'.grants ∧ Interruptible used ∧
        fd'.errno ≠ EINTR ∧
        (grant = .fails fd'.errno ∨
          grant = .upTo 0 ∧ fd'.errno = fd.errno ∧ ∀ errno, Grant.fails errno ∉ used)

/-- The loop invariant of `rio_writen`: `bufp` is what is left of `usrbuf`, and the
grants used so far were writes and interruptions. -/
structure Writing (fd₀ : Descriptor) (usrbuf bufp : List Byte) (used : List Grant)
    (fd : Descriptor) : Prop where
  input : fd.input = fd₀.input
  output : ∃ front, usrbuf = front ++ bufp ∧ fd.output = fd₀.output ++ front
  grants : fd₀.grants = used ++ fd.grants
  interruptible : Interruptible used
  errno : fd.errno = EINTR ∨ fd.errno = fd₀.errno ∧ ∀ errno, Grant.fails errno ∉ used

/-- A `write` that writes nothing is passed over if `errno` says EINTR, and ends
the loop otherwise. -/
theorem Writing.nothing {fd₀ fd fd' : Descriptor} {usrbuf bufp : List Byte} {used : List Grant}
    {ret : ℤ} (hw : Writing fd₀ usrbuf bufp used fd) (hne : bufp ≠ [])
    (hout : WriteOutcome fd bufp (ret, fd')) (hret : ret ≤ 0) :
    (fd'.errno = EINTR → ∃ used', Writing fd₀ usrbuf bufp used' fd') ∧
      (fd'.errno ≠ EINTR → WriteLaw fd₀ usrbuf (-1) fd') := by
  obtain ⟨front, husrbuf, houtput⟩ := hw.output
  cases hout with
  | some part rest grants hfront hbytes hgrants =>
      have hpos := List.length_pos_iff.mpr hfront
      omega
  | nothing _ errno grant grants _ hgrants hgrant =>
      have hused : fd₀.grants = used ++ grant :: grants := by rw [hw.grants, hgrants]
      refine ⟨fun hint => ⟨used ++ [grant], hw.input, hw.output, ?_, ?_, .inl hint⟩, fun hint => ?_⟩
      · rw [hused, List.append_assoc]
        rfl
      · apply hw.interruptible.append
        intro e hmem
        rcases hgrant with h | ⟨h, -⟩
        · rw [h, List.mem_singleton, Grant.fails.injEq] at hmem
          exact hmem.trans hint
        · rw [h] at hmem
          simp at hmem
      · refine ⟨hw.input, .inr ⟨rfl, ⟨front.length, ?_, ?_⟩, used, grant, hused, hw.interruptible,
          hint, ?_⟩⟩
        · have hpos := List.length_pos_iff.mpr hne
          rw [husrbuf, List.length_append]
          omega
        · rw [husrbuf, List.take_left']
          · exact houtput
          · rfl
        · rcases hgrant with h | ⟨h, herrno⟩
          · exact .inl h
          · -- `errno` is not EINTR, so nothing has been interrupted before
            rcases hw.errno with hold | ⟨hold, hnone⟩
            · exact absurd (herrno.trans hold) hint
            · exact .inr ⟨h, herrno.trans hold, hnone⟩

theorem Writing.some {fd₀ fd fd' : Descriptor} {usrbuf bufp : List Byte} {used : List Grant}
    {ret : ℤ} (hw : Writing fd₀ usrbuf bufp used fd)
    (hout : WriteOutcome fd bufp (ret, fd')) (hret : 0 < ret) :
    ∃ used', Writing fd₀ usrbuf (bufp.drop ret.toNat) used' fd' := by
  obtain ⟨front, husrbuf, houtput⟩ := hw.output
  cases hout with
  | nothing _ errno grant grants hnone hgrants hgrant => omega
  | some part rest grants hfront hbytes hgrants =>
      have hnew : ∃ front', usrbuf = front' ++ bufp.drop part.length ∧
          fd.output ++ part = fd₀.output ++ front' := by
        refine ⟨front ++ part, ?_, ?_⟩
        · rw [husrbuf, hbytes, List.drop_left', List.append_assoc]
          rfl
        · rw [houtput, List.append_assoc]
      rw [Int.toNat_natCast]
      rcases hgrants with hgrants | ⟨k, hgrants⟩
      · exact ⟨used, hw.input, hnew, by rw [hw.grants, hgrants], hw.interruptible, hw.errno⟩
      · have hupTo : ∀ errno, Grant.fails errno ∉ [Grant.upTo k] := fun errno h => by simp at h
        refine ⟨used ++ [.upTo k], hw.input, hnew, ?_, ?_, ?_⟩
        · rw [hw.grants, hgrants, List.append_assoc]
          rfl
        · exact hw.interruptible.append (fun errno h => absurd h (hupTo errno))
        · refine hw.errno.imp_right (fun ⟨hold, hnone⟩ => ⟨hold, fun errno h => ?_⟩)
          rcases List.mem_append.mp h with h | h
          · exact hnone errno h
          · exact hupTo errno h

theorem writenLoop_law {fd₀ : Descriptor} {usrbuf : List Byte} {n : ℕ} {bufp : List Byte}
    {used : List Grant} {fd : Descriptor} (hn : n = usrbuf.length)
    (hw : Writing fd₀ usrbuf bufp used fd) :
    WriteLaw fd₀ usrbuf (writenLoop n bufp fd).1 (writenLoop n bufp fd).2 := by
  fun_induction writenLoop n bufp fd generalizing used with
  | case1 fd =>
      obtain ⟨front, husrbuf, houtput⟩ := hw.output
      rw [List.append_nil] at husrbuf
      exact ⟨hw.input, .inl ⟨by rw [hn], by rw [houtput, husrbuf]⟩⟩
  | case2 bufp fd hne nwritten fd' hwrite hnone hint ih =>
      have hout : WriteOutcome fd bufp _ := hwrite ▸ write_cases fd hne
      obtain ⟨used', hw'⟩ := (hw.nothing hne hout hnone).1 hint
      exact ih hw'
  | case3 bufp fd hne nwritten fd' hwrite hnone hint =>
      have hout : WriteOutcome fd bufp _ := hwrite ▸ write_cases fd hne
      exact (hw.nothing hne hout hnone).2 hint
  | case4 bufp fd hne nwritten fd' hwrite hsome ih =>
      have hout : WriteOutcome fd bufp _ := hwrite ▸ write_cases fd hne
      obtain ⟨used', hw'⟩ := hw.some hout (by omega)
      exact ih hw'

/-- **`rio_writen` writes everything or says so.** Whatever the kernel does, a front
of the bytes is in the output, in order, and nothing else is. It returns their
number if all are; otherwise -1, and then the last call failed for another reason
than a signal, or wrote nothing when no call had been interrupted before. -/
theorem rio_writen_law (fd : Descriptor) (usrbuf : List Byte) :
    WriteLaw fd usrbuf (rio_writen fd usrbuf).1 (rio_writen fd usrbuf).2 := by
  have hstart : Writing fd usrbuf usrbuf [] fd :=
    ⟨rfl, ⟨[], rfl, (List.append_nil _).symm⟩, rfl, fun _ h => absurd h List.not_mem_nil,
      .inr ⟨rfl, fun _ => List.not_mem_nil⟩⟩
  exact writenLoop_law rfl hstart

end ProjectsInC.ClientServerSimulation
