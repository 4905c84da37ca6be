/-
The buffered readers of the Rio package.

`rio_read` hands out bytes of an internal buffer and refills it when it is
empty. What a caller can still get is the unread part of the buffer followed by
the input of the descriptor ([`rio_t.stream`]), and every function of this file
is described by what it does to that: [`RioOutcome`] for one `rio_read`, and
[`RioCall.ideal`] for the two functions a program calls.
-/
import ProjectsInC.Stdio
import ProjectsInC.ClientServerSimulation.Rio

set_option autoImplicit false

namespace ProjectsInC.ClientServerSimulation

/-- `RIO_BUFSIZE` -/
def RIO_BUFSIZE : ℕ := 8192

/-- `rio_t`: `rio_bufptr` is an index into `rio_buf`. -/
structure rio_t where
  rio_fd : Descriptor
  rio_cnt : ℤ
  rio_bufptr : ℕ
  rio_buf : List Byte

/-- `rio_readinitb`; the buffer holds what it held. -/
def rio_readinitb (rp : rio_t) (fd : Descriptor) : rio_t :=
  { rp with rio_fd := fd, rio_cnt := 0, rio_bufptr := 0 }

/-- How the loop at the beginning of `rio_read` ends. -/
inductive Refill
  | ret (ret : ℤ)
  | ready
deriving DecidableEq, Repr

/-- "while (rp->rio_cnt <= 0)": refill if the buffer is empty. -/
def rio_refill (rp : rio_t) : Refill × rio_t :=
  if 0 < rp.rio_cnt then (.ready, rp)
  else
    match hread : read rp.rio_fd RIO_BUFSIZE with
    | (none, fd) =>
        if fd.errno ≠ EINTR then (.ret (-1), { rp with rio_fd := fd, rio_cnt := -1 })
        else rio_refill { rp with rio_fd := fd, rio_cnt := -1 }
    | (some bytes, fd) =>
        if bytes.length = 0 then (.ret 0, { rp with rio_fd := fd, rio_cnt := 0 })
        else
          (.ready, { rio_fd := fd, rio_cnt := bytes.length, rio_bufptr := 0,
                     rio_buf := bytes ++ rp.rio_buf.drop bytes.length })
termination_by rp.rio_fd.grants.length
decreasing_by
  have hout : ReadOutcome rp.rio_fd RIO_BUFSIZE _ := hread ▸ read_cases rp.rio_fd RIO_BUFSIZE
  exact hout.grants_lt

/-- What a reader returns, the bytes it stores, and the buffer it leaves. -/
structure Copied where
  ret : ℤ
  usrbuf : List Byte
  rp : rio_t

/-- `rio_read` -/
def rio_read (rp : rio_t) (n : ℕ) : Copied :=
  match rio_refill rp with
  | (.ret ret, rp) => ⟨ret, [], rp⟩
  | (.ready, rp) =>
      let cnt : ℤ := if rp.rio_cnt < n then rp.rio_cnt else n
      ⟨cnt, (rp.rio_buf.drop rp.rio_bufptr).take cnt.toNat,
        { rp with rio_bufptr := rp.rio_bufptr + cnt.toNat, rio_cnt := rp.rio_cnt - cnt }⟩

/-! ## What is still to be read -/

/-- The unread bytes of the buffer. -/
def rio_t.unread (rp : rio_t) : List Byte := (rp.rio_buf.drop rp.rio_bufptr).take rp.rio_cnt.toNat

/-- Everything still to be read, from the buffer and behind it. -/
def rio_t.stream (rp : rio_t) : List Byte := rp.unread ++ rp.rio_fd.input

/-- The invariant of the buffer: the unread part lies in it. -/
structure rio_t.Wf (rp : rio_t) : Prop where
  size : rp.rio_buf.length = RIO_BUFSIZE
  cnt : -1 ≤ rp.rio_cnt
  inside : rp.rio_bufptr + rp.rio_cnt.toNat ≤ RIO_BUFSIZE

/-- What one `rio_read` of a positive number of bytes can do. -/
inductive RioOutcome (rp : rio_t) (n : ℕ) (r : Copied) : Prop
  /-- It stores a front of the stream. -/
  | gives (hret : r.ret = r.usrbuf.length) (hsome : r.usrbuf ≠ []) (hle : r.usrbuf.length ≤ n)
      (hstream : rp.stream = r.usrbuf ++ r.rp.stream) (hwf : r.rp.Wf)
      (hfd : Completed rp.rio_fd r.rp.rio_fd)
  /-- The stream is at its end. -/
  | ends (hret : r.ret = 0) (hnone : r.usrbuf = []) (hstream : rp.stream = [])
      (hstream' : r.rp.stream = []) (hwf : r.rp.Wf) (hfd : Completed rp.rio_fd r.rp.rio_fd)
  /-- A `read` has failed, and nothing is lost. -/
  | fails (hret : r.ret = -1) (hnone : r.usrbuf = []) (hstream : r.rp.stream = rp.stream)
      (hwf : r.rp.Wf) (hfd : Aborted rp.rio_fd r.rp.rio_fd)

/-- How the refill ends. -/
inductive RefillOutcome (rp : rio_t) : Refill × rio_t → Prop
  | ready (rp' : rio_t) (hcnt : 0 < rp'.rio_cnt) (hstream : rp'.stream = rp.stream) (hwf : rp'.Wf)
      (hfd : Completed rp.rio_fd rp'.rio_fd) : RefillOutcome rp (.ready, rp')
  | ends (rp' : rio_t) (hstream : rp.stream = []) (hstream' : rp'.stream = []) (hwf : rp'.Wf)
      (hfd : Completed rp.rio_fd rp'.rio_fd) : RefillOutcome rp (.ret 0, rp')
  | fails (rp' : rio_t) (hstream : rp'.stream = rp.stream) (hwf : rp'.Wf)
      (hfd : Aborted rp.rio_fd rp'.rio_fd) : RefillOutcome rp (.ret (-1), rp')

/-- With nothing unread the stream is the input. -/
theorem rio_t.stream_of_empty {rp : rio_t} (h : rp.rio_cnt ≤ 0) : rp.stream = rp.rio_fd.input := by
  rw [rio_t.stream, rio_t.unread, Int.toNat_of_nonpos h, List.take_zero, List.nil_append]

/-- An empty buffer may stay as it is when a call gives nothing. -/
theorem rio_t.Wf.empty {rp : rio_t} (h : rp.Wf) (fd : Descriptor) {cnt : ℤ} (hlo : -1 ≤ cnt)
    (hhi : cnt ≤ 0) : ({ rp with rio_fd := fd, rio_cnt := cnt } : rio_t).Wf := by
  have hinside := h.inside
  refine ⟨h.size, hlo, ?_⟩
  simp only [Int.toNat_of_nonpos hhi]
  omega

theorem refill_cases {rp : rio_t} (hwf : rp.Wf) : RefillOutcome rp (rio_refill rp) := by
  fun_induction rio_refill rp with
  | case1 rp hcnt => exact .ready rp hcnt rfl hwf (Completed.refl _)
  | case2 rp hcnt fd hread hint =>
      have hout : ReadOutcome rp.rio_fd RIO_BUFSIZE _ := hread ▸ read_cases rp.rio_fd RIO_BUFSIZE
      obtain ⟨hfd, hinput⟩ := hout.aborted hint
      refine .fails _ ?_ (hwf.empty fd le_rfl (by omega)) hfd
      rw [rio_t.stream_of_empty (not_lt.mp hcnt), rio_t.stream_of_empty (by simp), hinput]
  | case3 rp hcnt fd hread hint ih =>
      have hout : ReadOutcome rp.rio_fd RIO_BUFSIZE _ := hread ▸ read_cases rp.rio_fd RIO_BUFSIZE
      obtain ⟨hfd, hinput⟩ := hout.interrupted (not_not.mp hint)
      have hsame : ({ rp with rio_fd := fd, rio_cnt := -1 } : rio_t).stream = rp.stream := by
        rw [rio_t.stream_of_empty (not_lt.mp hcnt), rio_t.stream_of_empty (by simp), hinput]
      have hrest := ih (hwf.empty fd le_rfl (by omega))
      generalize rio_refill { rp with rio_fd := fd, rio_cnt := -1 } = result at hrest ⊢
      cases hrest with
      | ready rp' hcnt' hstream hwf' hfd' =>
          exact .ready rp' hcnt' (hstream.trans hsame) hwf' (hfd.trans hfd')
      | ends rp' hstream hstream' hwf' hfd' =>
          exact .ends rp' (hsame.symm.trans hstream) hstream' hwf' (hfd.trans hfd')
      | fails rp' hstream hwf' hfd' =>
          exact .fails rp' (hstream.trans hsame) hwf' (hfd.aborted hfd')
  | case4 rp hcnt bytes fd hread hzero =>
      have hout : ReadOutcome rp.rio_fd RIO_BUFSIZE _ := hread ▸ read_cases rp.rio_fd RIO_BUFSIZE
      obtain ⟨hinput, -, hend⟩ := hout.input
      have hnil : bytes = [] := List.length_eq_zero_iff.mp hzero
      have hfd := hend (by decide) hnil
      rw [hnil, hfd] at hinput
      refine .ends _ ?_ ?_ (hwf.empty fd (by omega) le_rfl) hout.completed
      · rw [rio_t.stream_of_empty (not_lt.mp hcnt), hinput]
        rfl
      · rw [rio_t.stream_of_empty (by simp), hfd]
  | case5 rp hcnt bytes fd hread hsome =>
      -- the bytes are at the front of the buffer, and all of them are unread
      have hout : ReadOutcome rp.rio_fd RIO_BUFSIZE _ := hread ▸ read_cases rp.rio_fd RIO_BUFSIZE
      obtain ⟨hinput, hle, -⟩ := hout.input
      refine .ready _ (by simp only; omega) ?_ ⟨?_, by simp only; omega, ?_⟩ hout.completed
      · rw [rio_t.stream_of_empty (not_lt.mp hcnt), hinput, rio_t.stream, rio_t.unread]
        simp only [List.drop_zero, Int.toNat_natCast]
        rw [List.take_left']
        rfl
      · have hsize := hwf.size
        rw [List.length_append, List.length_drop]
        omega
      · simp only [Int.toNat_natCast]
        omega

theorem rio_read_cases {rp : rio_t} (hwf : rp.Wf) {n : ℕ} (hn : 0 < n) :
    RioOutcome rp n (rio_read rp n) := by
  have hrefill := refill_cases hwf
  unfold rio_read
  generalize rio_refill rp = result at hrefill
  cases hrefill with
  | ends rp' hstream hstream' hwf' hfd => exact .ends rfl rfl hstream hstream' hwf' hfd
  | fails rp' hstream hwf' hfd => exact .fails rfl rfl hstream hwf' hfd
  | ready rp' hcnt hstream hwf' hfd =>
      obtain ⟨m, hm⟩ : ∃ m : ℕ, (if rp'.rio_cnt < n then rp'.rio_cnt else n) = (m : ℤ) := by
        split_ifs
        · exact ⟨rp'.rio_cnt.toNat, by omega⟩
        · exact ⟨n, rfl⟩
      have hbounds : 0 < m ∧ m ≤ n ∧ (m : ℤ) ≤ rp'.rio_cnt := by
        split_ifs at hm <;> omega
      obtain ⟨hpos, hle, hcount⟩ := hbounds
      have hsize := hwf'.size
      have hinside := hwf'.inside
      have hlen : ((rp'.rio_buf.drop rp'.rio_bufptr).take m).length = m := by
        rw [List.length_take, List.length_drop]
        omega
      simp only [hm, Int.toNat_natCast]
      refine .gives (by rw [hlen]) (List.ne_nil_of_length_pos (by rw [hlen]; exact hpos))
        (by rw [hlen]; exact hle) ?_ ⟨hsize, by simp only; omega, by simp only; omega⟩ hfd
      -- the unread bytes are the ones handed out and the ones behind them
      rw [← hstream, rio_t.stream, rio_t.stream, ← List.append_assoc]
      congr 1
      have hsplit : rp'.rio_cnt.toNat = m + (rp'.rio_cnt - m).toNat := by omega
      rw [rio_t.unread, hsplit, List.take_add, List.drop_drop]
      rfl

namespace RioOutcome

variable {rp : rio_t} {n : ℕ} {r : Copied}

theorem failed (h : RioOutcome rp n r) (hneg : r.ret < 0) :
    r.rp.stream = rp.stream ∧ r.rp.Wf ∧ Aborted rp.rio_fd r.rp.rio_fd := by
  cases h with
  | gives hret => omega
  | ends hret => omega
  | fails hret hnone hstream hwf hfd => exact ⟨hstream, hwf, hfd⟩

theorem ended (h : RioOutcome rp n r) (hzero : r.ret = 0) :
    rp.stream = [] ∧ r.rp.stream = [] ∧ r.rp.Wf ∧ Completed rp.rio_fd r.rp.rio_fd := by
  cases h with
  | gives hret hsome =>
      have hnil : r.usrbuf.length = 0 := by omega
      exact absurd (List.length_eq_zero_iff.mp hnil) hsome
  | ends hret hnone hstream hstream' hwf hfd => exact ⟨hstream, hstream', hwf, hfd⟩
  | fails hret => omega

theorem gave (h : RioOutcome rp n r) (hneg : ¬ r.ret < 0) (hzero : r.ret ≠ 0) :
    r.ret = r.usrbuf.length ∧ r.usrbuf.length ≤ n ∧ rp.stream = r.usrbuf ++ r.rp.stream ∧
      r.rp.Wf ∧ Completed rp.rio_fd r.rp.rio_fd := by
  cases h with
  | gives hret hsome hle hstream hwf hfd => exact ⟨hret, hle, hstream, hwf, hfd⟩
  | ends hret => exact absurd hret hzero
  | fails hret => omega

/-- A byte was asked for, and neither one nor the end has come. -/
theorem neg_of_byte (h : RioOutcome rp 1 r) (hone : r.ret ≠ 1) (hzero : r.ret ≠ 0) :
    r.ret < 0 := by
  cases h with
  | gives hret hsome hle =>
      have hpos := List.length_pos_iff.mpr hsome
      omega
  | ends hret => exact absurd hret hzero
  | fails hret => omega

end RioOutcome

/-! ## `rio_readnb` -/

/-- What `rio_cnt` promises of the buffer, and what the descriptor has. -/
def rio_t.pending (rp : rio_t) : ℕ := rp.rio_cnt.toNat + rp.rio_fd.input.length

/-- What a refill uses up, whatever the state of the buffer. -/
theorem refill_uses (rp : rio_t) :
    (rio_refill rp).2.rio_fd.grants.length ≤ rp.rio_fd.grants.length ∧
      (rio_refill rp).2.pending ≤ rp.pending ∧
      match (rio_refill rp).1 with
      | .ret ret =>
          ret ≤ 0 ∧
            (ret < 0 → (rio_refill rp).2.rio_fd.grants.length < rp.rio_fd.grants.length)
      | .ready => 0 < (rio_refill rp).2.rio_cnt := by
  fun_induction rio_refill rp with
  | case1 rp hcnt => exact ⟨le_rfl, le_rfl, hcnt⟩
  | case2 rp hcnt fd hread hint =>
      have hout : ReadOutcome rp.rio_fd RIO_BUFSIZE _ := hread ▸ read_cases rp.rio_fd RIO_BUFSIZE
      refine ⟨hout.grants_lt.le, ?_, by decide, fun _ => hout.grants_lt⟩
      simp only [rio_t.pending, (hout.aborted hint).2]
      omega
  | case3 rp hcnt fd hread hint ih =>
      have hout : ReadOutcome rp.rio_fd RIO_BUFSIZE _ := hread ▸ read_cases rp.rio_fd RIO_BUFSIZE
      obtain ⟨hle, hpending, hcase⟩ := ih
      refine ⟨hle.trans hout.grants_lt.le, hpending.trans ?_, ?_⟩
      · simp only [rio_t.pending, (hout.interrupted (not_not.mp hint)).2]
        omega
      · cases hend : (rio_refill { rp with rio_fd := fd, rio_cnt := -1 }).1 with
        | ret ret =>
            rw [hend] at hcase
            exact ⟨hcase.1, fun _ => hle.trans_lt hout.grants_lt⟩
        | ready => rwa [hend] at hcase
  | case4 rp hcnt bytes fd hread hzero =>
      have hout : ReadOutcome rp.rio_fd RIO_BUFSIZE _ := hread ▸ read_cases rp.rio_fd RIO_BUFSIZE
      obtain ⟨hinput, -⟩ := hout.input
      refine ⟨hout.grants_le, ?_, le_rfl, fun h => absurd h (lt_irrefl 0)⟩
      simp only [rio_t.pending, hinput, List.length_append]
      omega
  | case5 rp hcnt bytes fd hread hsome =>
      -- the bytes have moved from the descriptor into the buffer
      have hout : ReadOutcome rp.rio_fd RIO_BUFSIZE _ := hread ▸ read_cases rp.rio_fd RIO_BUFSIZE
      obtain ⟨hinput, -⟩ := hout.input
      refine ⟨hout.grants_le, ?_, by simp only; omega⟩
      simp only [rio_t.pending, hinput, List.length_append, Int.toNat_natCast]
      omega

theorem rio_read_grants (rp : rio_t) (n : ℕ) :
    (rio_read rp n).rp.rio_fd.grants.length ≤ rp.rio_fd.grants.length ∧
      ((rio_read rp n).ret < 0 →
        (rio_read rp n).rp.rio_fd.grants.length < rp.rio_fd.grants.length) := by
  obtain ⟨hle, -, hcase⟩ := refill_uses rp
  unfold rio_read
  cases hrefill : rio_refill rp with
  | mk result rp' =>
      rw [hrefill] at hle hcase
      cases result with
      | ret ret => exact ⟨hle, hcase.2⟩
      | ready =>
          refine ⟨hle, fun hneg => ?_⟩
          simp only at hneg hcase
          split_ifs at hneg <;> omega

/-- What a call hands out is pending no more. -/
theorem rio_read_pending (rp : rio_t) (n : ℕ) (hgives : 0 < (rio_read rp n).ret) :
    (rio_read rp n).rp.pending < rp.pending := by
  obtain ⟨-, hpending, hcase⟩ := refill_uses rp
  unfold rio_read at hgives ⊢
  cases hrefill : rio_refill rp with
  | mk result rp' =>
      rw [hrefill] at hpending hcase hgives
      cases result with
      | ret ret => exact absurd hgives (not_lt.mpr hcase.1)
      | ready =>
          simp only [rio_t.pending] at hpending hcase hgives ⊢
          omega

/-- The loop of `rio_readnb`; `usrbuf` is what has been stored so far. -/
def readnbLoop (n nleft : ℕ) (usrbuf : List Byte) (rp : rio_t) : Copied :=
  if nleft = 0 then ⟨(n - nleft : ℕ), usrbuf, rp⟩
  else
    match _hread : rio_read rp nleft with
    | ⟨nread, bytes, rp'⟩ =>
        if hneg : nread < 0 then
          if rp'.rio_fd.errno = EINTR then readnbLoop n nleft usrbuf rp'
          else ⟨-1, usrbuf, rp'⟩
        else if _hzero : nread = 0 then ⟨(n - nleft : ℕ), usrbuf, rp'⟩
        else readnbLoop n (nleft - nread.toNat) (usrbuf ++ bytes) rp'
termination_by nleft + rp.rio_fd.grants.length
decreasing_by
  · have hgrants := rio_read_grants rp nleft
    rw [_hread] at hgrants
    have hless := hgrants.2 hneg
    simp only at hless
    omega
  · have hgrants := rio_read_grants rp nleft
    rw [_hread] at hgrants
    have hle := hgrants.1
    simp only at hle
    omega

/-- `rio_readnb` -/
def rio_readnb (rp : rio_t) (n : ℕ) : Copied := readnbLoop n n [] rp

/-! ## `rio_readlineb` -/

/-- The newline. -/
def newline : Byte := 10

/-- The loop of `rio_readlineb`. Its `n` is an `int`, which is compared with `maxlen` as a
`size_t`. A line is stored with the null character behind it; the two early returns
store none. -/
def readlineLoop (maxlen : ℕ) (n : CInt) (usrbuf : List Byte) (rp : rio_t) : Copied :=
  if (n.signExtend 64).toNat < maxlen then
    match _hread : rio_read rp 1 with
    | ⟨rc, c, rp'⟩ =>
        if _hone : rc = 1 then
          if c = [newline] then ⟨n.toInt, usrbuf ++ c ++ [0], rp'⟩
          else readlineLoop maxlen (n + 1) (usrbuf ++ c) rp'
        else if rc = 0 then
          if n = 1 then ⟨0, usrbuf, rp'⟩ else ⟨n.toInt, usrbuf ++ [0], rp'⟩
        else ⟨-1, usrbuf, rp'⟩
  else ⟨n.toInt, usrbuf ++ [0], rp⟩
termination_by rp.pending
decreasing_by
  have hless := rio_read_pending rp 1
  rw [_hread] at hless
  exact hless (_hone ▸ Int.one_pos)

/-- `rio_readlineb` -/
def rio_readlineb (rp : rio_t) (maxlen : ℕ) : Copied := readlineLoop maxlen 1 [] rp

/-! ## The calls of a program -/

/-- A call of one of the two buffered readers. -/
inductive RioCall
  | readnb (n : ℕ)
  | readlineb (maxlen : ℕ)
deriving DecidableEq, Repr

/-- What is asked for can be counted: by the `ssize_t` that `rio_readnb` returns, and by the `int`
of `rio_readlineb`, which overflows beyond that. -/
def RioCall.Counted : RioCall → Prop
  | .readnb n => n < 2 ^ 63
  | .readlineb maxlen => maxlen < 2 ^ 31

def RioCall.perform (call : RioCall) (rp : rio_t) : Copied :=
  match call with
  | .readnb n => rio_readnb rp n
  | .readlineb maxlen => rio_readlineb rp maxlen

/-- What the call is for: the value returned, the bytes stored and what remains,
on a plain list of bytes. The number `rio_readlineb` returns counts the null
character with a line that has no newline, and not with one that has. -/
def RioCall.ideal (call : RioCall) (stream : List Byte) : ℤ × List Byte × List Byte :=
  match call with
  | .readnb n => ((stream.take n).length, stream.take n, stream.drop n)
  | .readlineb maxlen =>
      if stream = [] ∧ 1 < maxlen then (0, [], [])
      else
        let (line, rest) := Lib.takePiece newline (maxlen - 1) stream
        (if line.getLast? = some newline then line.length else line.length + 1, line ++ [0], rest)

/-- The law of a call: it does what it is for, or it returns -1 after a failure
and what it has stored is gone from the stream. -/
structure RioLaw (call : RioCall) (rp : rio_t) (r : Copied) : Prop where
  wf : r.rp.Wf
  ended : (r.ret, r.usrbuf, r.rp.stream) = call.ideal rp.stream ∧ Completed rp.rio_fd r.rp.rio_fd ∨
    r.ret = -1 ∧ rp.stream = r.usrbuf ++ r.rp.stream ∧ Aborted rp.rio_fd r.rp.rio_fd

theorem ideal_readnb_of_front {stream front rest : List Byte} {n : ℕ} (h : stream = front ++ rest)
    (hlen : front.length = n ∨ front.length ≤ n ∧ rest = []) :
    RioCall.ideal (.readnb n) stream = ((front.length : ℤ), front, rest) := by
  have htake : stream.take n = front ∧ stream.drop n = rest := by
    rcases hlen with hlen | ⟨hle, hrest⟩
    · rw [h, List.take_left' hlen, List.drop_left' hlen]
      exact ⟨rfl, rfl⟩
    · rw [h, hrest, List.append_nil, List.take_of_length_le hle, List.drop_of_length_le hle]
      exact ⟨rfl, rfl⟩
  simp only [RioCall.ideal, htake]

theorem readnbLoop_law {rp₀ : rio_t} {n nleft : ℕ} {usrbuf : List Byte} {rp : rio_t} (hwf : rp.Wf)
    (hstream : rp₀.stream = usrbuf ++ rp.stream) (hlen : usrbuf.length + nleft = n)
    (hdone : Completed rp₀.rio_fd rp.rio_fd) :
    RioLaw (.readnb n) rp₀ (readnbLoop n nleft usrbuf rp) := by
  fun_induction readnbLoop n nleft usrbuf rp with
  | case1 usrbuf rp =>
      refine ⟨hwf, .inl ⟨?_, hdone⟩⟩
      rw [ideal_readnb_of_front hstream (.inl (by omega))]
      simp only [Nat.sub_zero, Prod.mk.injEq, and_true, Nat.cast_inj]
      omega
  | case2 nleft usrbuf rp hleft nread bytes rp' hread hneg hint ih =>
      -- not reached: an interruption never leaves `rio_read`
      have hout := hread ▸ rio_read_cases hwf (Nat.pos_of_ne_zero hleft)
      obtain ⟨-, -, -, -, -, hne⟩ := hout.failed hneg
      exact absurd hint hne
  | case3 nleft usrbuf rp hleft nread bytes rp' hread hneg hint =>
      have hout := hread ▸ rio_read_cases hwf (Nat.pos_of_ne_zero hleft)
      obtain ⟨hsame, hwf', hfd⟩ := hout.failed hneg
      exact ⟨hwf', .inr ⟨rfl, by rw [hstream, hsame], hdone.aborted hfd⟩⟩
  | case4 nleft usrbuf rp hleft bytes rp' hread hneg =>
      have hout := hread ▸ rio_read_cases hwf (Nat.pos_of_ne_zero hleft)
      obtain ⟨hend, hend', hwf', hfd⟩ := hout.ended rfl
      refine ⟨hwf', .inl ⟨?_, hdone.trans hfd⟩⟩
      rw [ideal_readnb_of_front hstream (.inr ⟨by omega, hend⟩)]
      simp only [hend, hend', Prod.mk.injEq, and_true, Nat.cast_inj]
      omega
  | case5 nleft usrbuf rp hleft nread bytes rp' hread hneg hzero ih =>
      have hout := hread ▸ rio_read_cases hwf (Nat.pos_of_ne_zero hleft)
      obtain ⟨hret, hle, hsplit, hwf', hfd⟩ := hout.gave hneg hzero
      simp only at hret hle hsplit
      apply ih hwf'
      · rw [hstream, hsplit, List.append_assoc]
      · rw [List.length_append, hret, Int.toNat_natCast]
        omega
      · exact hdone.trans hfd

/-- The three ways a line ends. -/
theorem takePiece_line {stream line rest : List Byte} {n : ℕ} (h : stream = line ++ rest)
    (hno : newline ∉ line) (hend : line.length = n ∨ line.length ≤ n ∧ rest = []) :
    Lib.takePiece newline n stream = (line, rest) := by
  subst h
  by_cases hline : line = []
  · subst hline
    rcases hend with hfull | ⟨-, rfl⟩
    · rw [← hfull]
      rfl
    · exact Lib.takePiece_nil newline n
  · have hpos := List.length_pos_iff.mpr hline
    rcases hend with hfull | ⟨hle, rfl⟩
    · exact (Lib.Piece.full (by omega) hno hfull rest).take
    · exact (Lib.Piece.last hno hline hle).take

/-- A line without a newline: it is full, or the stream has ended behind it. -/
theorem ideal_line {stream line rest : List Byte} {maxlen : ℕ} (h : stream = line ++ rest)
    (hno : newline ∉ line)
    (hend : line.length = maxlen - 1 ∨ line ≠ [] ∧ line.length ≤ maxlen - 1 ∧ rest = []) :
    RioCall.ideal (.readlineb maxlen) stream = ((line.length : ℤ) + 1, line ++ [0], rest) := by
  have hsome : ¬ (stream = [] ∧ 1 < maxlen) := by
    rintro ⟨hstream, hmax⟩
    rw [hstream] at h
    have hnil := (List.append_eq_nil_iff.mp h.symm).1
    rw [hnil] at hend
    rcases hend with hfull | ⟨hne, -⟩
    · rw [List.length_nil] at hfull
      omega
    · exact hne rfl
  have hpiece := takePiece_line h hno (n := maxlen - 1) (by
    rcases hend with hfull | ⟨-, hle⟩
    · exact .inl hfull
    · exact .inr hle)
  have hlast : line.getLast? ≠ some newline := fun hmem => hno (List.mem_of_getLast? hmem)
  simp only [RioCall.ideal, if_neg hsome, hpiece, if_neg hlast]

theorem ideal_line_newline {stream line rest : List Byte} {maxlen : ℕ}
    (h : stream = line ++ newline :: rest) (hno : newline ∉ line)
    (hlen : line.length < maxlen - 1) :
    RioCall.ideal (.readlineb maxlen) stream
      = ((line.length : ℤ) + 1, line ++ [newline] ++ [0], rest) := by
  have hpiece := (Lib.Piece.stopped hno hlen rest).take
  rw [List.append_assoc, List.singleton_append, ← h] at hpiece
  have hsome : ¬ (stream = [] ∧ 1 < maxlen) := fun hnil => by simp [hnil.1] at h
  simp only [RioCall.ideal, if_neg hsome, hpiece, List.getLast?_concat, if_true,
    List.length_append, List.length_singleton, Nat.cast_add, Nat.cast_one]

/-- As long as it has not overflown the counter is compared as what it is. -/
theorem counter_toNat {k : ℕ} (hk : k < 2 ^ 31) :
    ((BitVec.ofNat 32 k).signExtend 64).toNat = k := by
  have hmsb : (BitVec.ofNat 32 k).msb = false := by
    rw [BitVec.msb_eq_decide, BitVec.toNat_ofNat, decide_eq_false_iff_not]
    omega
  rw [BitVec.signExtend_eq_setWidth_of_msb_false hmsb, BitVec.toNat_setWidth, BitVec.toNat_ofNat]
  omega

/-- **The loop** counts the bytes it has stored, from 1 on. -/
theorem readlineLoop_law {rp₀ : rio_t} {maxlen : ℕ} {n : CInt} {usrbuf : List Byte} {rp : rio_t}
    (hmax : maxlen < 2 ^ 31) (hwf : rp.Wf) (hstream : rp₀.stream = usrbuf ++ rp.stream)
    (hno : newline ∉ usrbuf) (hn : n = BitVec.ofNat 32 (usrbuf.length + 1))
    (hlen : usrbuf.length ≤ maxlen - 1) (hdone : Completed rp₀.rio_fd rp.rio_fd) :
    RioLaw (.readlineb maxlen) rp₀ (readlineLoop maxlen n usrbuf rp) := by
  have hint : n.toInt = (usrbuf.length : ℤ) + 1 := by
    rw [hn, toInt_ofNat_of_lt (by omega)]
    rfl
  have hnat : (n.signExtend 64).toNat = usrbuf.length + 1 := by
    rw [hn, counter_toNat (by omega)]
  fun_induction readlineLoop maxlen n usrbuf rp with
  | case1 n usrbuf rp hless rp' hread =>
      -- the newline
      have hout := hread ▸ rio_read_cases hwf Nat.one_pos
      obtain ⟨-, -, hsplit, hwf', hfd⟩ := hout.gave (by simp) (by simp)
      have hline : rp₀.stream = usrbuf ++ newline :: rp'.stream := by
        rw [hstream, hsplit]
        rfl
      refine ⟨hwf', .inl ⟨?_, hdone.trans hfd⟩⟩
      rw [ideal_line_newline hline hno (by omega), hint]
  | case2 n usrbuf rp hless c rp' hnew hread ih =>
      have hout := hread ▸ rio_read_cases hwf Nat.one_pos
      obtain ⟨hret, -, hsplit, hwf', hfd⟩ := hout.gave (by simp) (by simp)
      simp only at hret hsplit
      obtain ⟨b, rfl⟩ := List.length_eq_one_iff.mp (Int.ofNat_inj.mp hret.symm)
      have hlen' : (usrbuf ++ [b]).length = usrbuf.length + 1 := by
        rw [List.length_append, List.length_singleton]
      have hn' : n + 1 = BitVec.ofNat 32 ((usrbuf ++ [b]).length + 1) := by
        rw [hn, hlen', BitVec.ofNat_add (usrbuf.length + 1) 1]
        rfl
      apply ih hwf'
      · rw [hstream, hsplit, List.append_assoc]
      · rw [List.mem_append, List.mem_singleton, not_or]
        exact ⟨hno, fun h => hnew (by rw [h])⟩
      · exact hn'
      · omega
      · exact hdone.trans hfd
      · rw [hn', toInt_ofNat_of_lt (by omega)]
        rfl
      · rw [hn', counter_toNat (by omega)]
  | case3 usrbuf rp c rp' hless hread =>
      -- the end of the stream, and nothing was read
      have hout := hread ▸ rio_read_cases hwf Nat.one_pos
      obtain ⟨hend, hend', hwf', hfd⟩ := hout.ended rfl
      have hone : (1 : CInt).toInt = 1 := by decide
      have hnil : usrbuf = [] := List.length_eq_zero_iff.mp (by omega)
      refine ⟨hwf', .inl ⟨?_, hdone.trans hfd⟩⟩
      rw [hstream, hend, hnil, List.append_nil, RioCall.ideal, if_pos ⟨rfl, by omega⟩, hend']
  | case4 n usrbuf rp hless c rp' hfirst hread =>
      have hout := hread ▸ rio_read_cases hwf Nat.one_pos
      obtain ⟨hend, hend', hwf', hfd⟩ := hout.ended rfl
      have hne : usrbuf ≠ [] := by
        rintro rfl
        exact hfirst hn
      refine ⟨hwf', .inl ⟨?_, hdone.trans hfd⟩⟩
      rw [hend] at hstream
      rw [ideal_line hstream hno (.inr ⟨hne, hlen, rfl⟩), hint, hend']
  | case5 n usrbuf rp hless rc c rp' hread hone hzero =>
      have hout := hread ▸ rio_read_cases hwf Nat.one_pos
      obtain ⟨hsame, hwf', hfd⟩ := hout.failed (hout.neg_of_byte hone hzero)
      exact ⟨hwf', .inr ⟨rfl, by rw [hstream, hsame], hdone.aborted hfd⟩⟩
  | case6 n usrbuf rp hless =>
      -- there is no more room
      refine ⟨hwf, .inl ⟨?_, hdone⟩⟩
      rw [ideal_line hstream hno (.inl (by omega)), hint]

/-- Every call of a reader obeys the law. -/
theorem RioCall.law {call : RioCall} (hcounted : call.Counted) {rp : rio_t} (hwf : rp.Wf) :
    RioLaw call rp (call.perform rp) := by
  cases call with
  | readnb n => exact readnbLoop_law hwf rfl (by simp) (Completed.refl _)
  | readlineb maxlen =>
      exact readlineLoop_law hcounted hwf rfl List.not_mem_nil rfl (Nat.zero_le _)
        (Completed.refl _)

/-! ## Programs

A program is a list of calls, whatever it makes of their results. -/

/-- The values and bytes a program gets, and the buffer at its end. -/
def runCalls (rp : rio_t) : List RioCall → List (ℤ × List Byte) × rio_t
  | [] => ([], rp)
  | call :: calls =>
      let r := call.perform rp
      ((r.ret, r.usrbuf) :: (runCalls r.rp calls).1, (runCalls r.rp calls).2)

/-- The same on a plain list of bytes. -/
def idealCalls (stream : List Byte) : List RioCall → List (ℤ × List Byte) × List Byte
  | [] => ([], stream)
  | call :: calls =>
      let r := call.ideal stream
      ((r.1, r.2.1) :: (idealCalls r.2.2 calls).1, (idealCalls r.2.2 calls).2)

/-- Where every failure is an interruption, nothing is aborted. -/
theorem Aborted.not_interruptible {fd fd' : Descriptor} (h : Aborted fd fd') :
    ¬ Interruptible fd.grants := by
  obtain ⟨used, hgrants, -, hne⟩ := h
  intro hint
  apply hne
  apply hint
  rw [hgrants]
  exact List.mem_append_right _ List.mem_cons_self

theorem Completed.interruptible {fd fd' : Descriptor} (h : Completed fd fd')
    (hint : Interruptible fd.grants) : Interruptible fd'.grants := by
  obtain ⟨used, hgrants, -⟩ := h
  intro errno hmem
  apply hint
  rw [hgrants]
  exact List.mem_append_right _ hmem

theorem runCalls_eq_ideal {calls : List RioCall} (hcounted : ∀ call ∈ calls, call.Counted)
    {rp : rio_t} (hwf : rp.Wf) (hint : Interruptible rp.rio_fd.grants) :
    (runCalls rp calls).1 = (idealCalls rp.stream calls).1 ∧
      (runCalls rp calls).2.stream = (idealCalls rp.stream calls).2 := by
  induction calls generalizing rp with
  | nil => exact ⟨rfl, rfl⟩
  | cons call calls ih =>
      obtain ⟨hcall, hcalls⟩ := List.forall_mem_cons.mp hcounted
      obtain ⟨hwf', hended⟩ := RioCall.law hcall hwf
      rcases hended with ⟨hideal, hfd⟩ | ⟨-, -, hfd⟩
      · obtain ⟨hresults, hstream⟩ := ih hcalls hwf' (hfd.interruptible hint)
        rw [runCalls, idealCalls, ← hideal]
        simp only [hresults, hstream, and_self]
      · exact absurd hint hfd.not_interruptible

theorem rio_readinitb_wf {rp : rio_t} (hsize : rp.rio_buf.length = RIO_BUFSIZE) (fd : Descriptor) :
    (rio_readinitb rp fd).Wf := ⟨hsize, by simp [rio_readinitb], by simp [rio_readinitb]⟩

theorem rio_readinitb_stream (rp : rio_t) (fd : Descriptor) :
    (rio_readinitb rp fd).stream = fd.input := rio_t.stream_of_empty le_rfl

/-- **The buffered readers refine a plain stream.** However the kernel cuts up the
input and however often a signal interrupts it, any sequence of calls whose sizes can
be counted gets what the same calls get from the input as one list, and leaves the
same rest. -/
theorem buffered_refines (rp : rio_t) (hsize : rp.rio_buf.length = RIO_BUFSIZE) (fd : Descriptor)
    (hint : Interruptible fd.grants) (calls : List RioCall)
    (hcounted : ∀ call ∈ calls, call.Counted) :
    (runCalls (rio_readinitb rp fd) calls).1 = (idealCalls fd.input calls).1 ∧
      (runCalls (rio_readinitb rp fd) calls).2.stream = (idealCalls fd.input calls).2 := by
  have hrun := runCalls_eq_ideal hcounted (rio_readinitb_wf hsize fd) hint
  rwa [rio_readinitb_stream] at hrun

/-- Two lines that come in three parts with an interruption between them. -/
def choppy : Descriptor where
  input := [72, 105, 10, 33]
  output := []
  grants := [.upTo 1, .fails EINTR, .upTo 2]
  errno := 0

theorem counted_two : ∀ call ∈ [RioCall.readlineb 80, .readnb 5], call.Counted := by
  simp [RioCall.Counted]

theorem buffered_refines_choppy :
    (runCalls (rio_readinitb ⟨choppy, -1, 3, List.replicate RIO_BUFSIZE 0⟩ choppy)
        [.readlineb 80, .readnb 5]).1
      = [(3, [72, 105, 10, 0]), (1, [33])] := by
  have hint : Interruptible choppy.grants := by
    intro errno hmem
    simpa [choppy] using hmem
  exact (buffered_refines ⟨choppy, -1, 3, List.replicate RIO_BUFSIZE 0⟩
    (List.length_replicate ..) choppy hint [.readlineb 80, .readnb 5] counted_two).1.trans
      (by decide)

/-- The bytes of the stream among those a call has stored: a line comes with a null
character behind it. -/
def RioCall.text (call : RioCall) (result : ℤ × List Byte) : List Byte :=
  match call with
  | .readnb _ => result.2
  | .readlineb _ => if 0 < result.1 then result.2.dropLast else result.2

theorem RioCall.ideal_text (call : RioCall) (stream : List Byte) :
    stream = call.text ((call.ideal stream).1, (call.ideal stream).2.1)
      ++ (call.ideal stream).2.2 := by
  cases call with
  | readnb n => exact (List.take_append_drop n stream).symm
  | readlineb maxlen =>
      rw [RioCall.ideal]
      by_cases hend : stream = [] ∧ 1 < maxlen
      · rw [if_pos hend, hend.1]
        rfl
      · rw [if_neg hend]
        have hpos : 0 < (if (Lib.takePiece newline (maxlen - 1) stream).1.getLast? = some newline
            then ((Lib.takePiece newline (maxlen - 1) stream).1.length : ℤ)
            else ((Lib.takePiece newline (maxlen - 1) stream).1.length : ℤ) + 1) := by
          split_ifs with hlast
          · exact_mod_cast List.length_pos_of_mem (List.mem_of_getLast? hlast)
          · omega
        simp only [RioCall.text, if_pos hpos, List.dropLast_concat]
        exact (Lib.takePiece_append newline (maxlen - 1) stream).symm

theorem RioLaw.text {call : RioCall} {rp : rio_t} {r : Copied} (h : RioLaw call rp r) :
    rp.stream = call.text (r.ret, r.usrbuf) ++ r.rp.stream := by
  rcases h.ended with ⟨hideal, -⟩ | ⟨hret, hstream, -⟩
  · have hsplit := call.ideal_text rp.stream
    rwa [← hideal] at hsplit
  · rw [hstream]
    cases call with
    | readnb n => rfl
    | readlineb maxlen => simp only [RioCall.text, hret, if_neg (show ¬ (0 : ℤ) < -1 by decide)]

/-- **Nothing is lost.** Whatever the kernel does, failures included, the bytes that
the calls of a program have stored are a front of the input, in order, what is
behind them can still be read, and the buffer is never left. -/
theorem calls_conserve (rp : rio_t) (hwf : rp.Wf) (calls : List RioCall)
    (hcounted : ∀ call ∈ calls, call.Counted) :
    rp.stream = (calls.zip (runCalls rp calls).1).flatMap (fun e => e.1.text e.2)
        ++ (runCalls rp calls).2.stream ∧
      (runCalls rp calls).2.Wf := by
  induction calls generalizing rp with
  | nil => exact ⟨rfl, hwf⟩
  | cons call calls ih =>
      obtain ⟨hcall, hcalls⟩ := List.forall_mem_cons.mp hcounted
      have hlaw := RioCall.law hcall hwf
      obtain ⟨hstream, hwf'⟩ := ih (call.perform rp).rp hlaw.wf hcalls
      refine ⟨?_, hwf'⟩
      rw [runCalls, List.zip_cons_cons, List.flatMap_cons, List.append_assoc, ← hstream]
      exact hlaw.text

/-- The same input behind a failure in the first line. -/
def broken : Descriptor := { choppy with grants := [.upTo 1, .fails 5] }

theorem calls_conserve_broken :
    broken.input
      = ([RioCall.readlineb 80, .readnb 5].zip
            (runCalls (rio_readinitb ⟨choppy, -1, 3, List.replicate RIO_BUFSIZE 0⟩ broken)
              [.readlineb 80, .readnb 5]).1).flatMap (fun e => e.1.text e.2)
          ++ (runCalls (rio_readinitb ⟨choppy, -1, 3, List.replicate RIO_BUFSIZE 0⟩ broken)
              [.readlineb 80, .readnb 5]).2.stream :=
  (rio_readinitb_stream _ broken).symm.trans
    (calls_conserve _ (rio_readinitb_wf (List.length_replicate ..) broken)
      [.readlineb 80, .readnb 5] counted_two).1

/-! ## `rio_readlineb` and `fgets` -/

/-- **`rio_readlineb` reads the lines of `fgets`.** With at least two bytes of room, no more
than an `int` can count, and nothing worse than interruptions, it stores the line `fgets` would
read from the same bytes and leaves the same rest; where `fgets` returns NULL it returns 0. The
number it returns is the length of the line, but one more if no newline ends it. -/
theorem readlineb_eq_fgets (rp : rio_t) (hwf : rp.Wf) (hint : Interruptible rp.rio_fd.grants)
    (maxlen : ℕ) (hmax : 1 < maxlen) (hcounted : maxlen < 2 ^ 31) :
    match fgets maxlen (FILE.reading rp.stream) with
    | (none, _) => (rio_readlineb rp maxlen).ret = 0 ∧ (rio_readlineb rp maxlen).usrbuf = []
    | (some line, fp) =>
        (rio_readlineb rp maxlen).usrbuf = line ++ [0] ∧
          (rio_readlineb rp maxlen).rp.stream = fp.rest ∧
          (rio_readlineb rp maxlen).ret
            = line.length + (if line.getLast? = some newline then 0 else 1) := by
  have hlaw : RioLaw (.readlineb maxlen) rp (rio_readlineb rp maxlen) :=
    @RioCall.law (.readlineb maxlen) hcounted rp hwf
  rcases hlaw.ended with ⟨hideal, -⟩ | ⟨-, -, hfd⟩
  swap
  · exact absurd hint hfd.not_interruptible
  by_cases hend : rp.stream = []
  · rw [fgets_end maxlen (by rw [FILE.reading, hend])]
    simp only [RioCall.ideal, hend, hmax, and_self, if_true, Prod.mk.injEq] at hideal
    exact ⟨hideal.1, hideal.2.1⟩
  · obtain ⟨line, rest, hsplit, hpiece⟩ :=
      Lib.exists_piece newline (n := maxlen - 1) (by omega) hend
    have hfile : (FILE.reading rp.stream).rest = line ++ rest := hsplit
    rw [fgets_piece hpiece hfile]
    simp only [RioCall.ideal, hend, false_and, if_false, Prod.mk.injEq] at hideal
    rw [hsplit, hpiece.take] at hideal
    obtain ⟨hret, husrbuf, hrest⟩ := hideal
    refine ⟨husrbuf, hrest, ?_⟩
    rw [hret]
    split_ifs <;> simp

theorem readlineb_eq_fgets_choppy :
    (rio_readlineb (rio_readinitb ⟨choppy, -1, 3, List.replicate RIO_BUFSIZE 0⟩ choppy) 3).usrbuf
      = [72, 105, 0] := by
  have hint : Interruptible choppy.grants := by
    intro errno hmem
    simpa [choppy] using hmem
  have h := readlineb_eq_fgets (rio_readinitb ⟨choppy, -1, 3, List.replicate RIO_BUFSIZE 0⟩ choppy)
    (rio_readinitb_wf (List.length_replicate ..) choppy) hint 3 (by decide) (by decide)
  rw [rio_readinitb_stream] at h
  exact h.1

end ProjectsInC.ClientServerSimulation
