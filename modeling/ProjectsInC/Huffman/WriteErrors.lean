/-
Does `encoder_encode` report every write that fails?

Whether a call fails is given from outside, by its number. The tree is printed with one call for
each node and one for each '#', and nobody is told where that stops ([`tree_serialize_ran`]); the
payload takes a call for every seven bits, and the first that fails makes `encoder_encode` return -1
([`encodeLoop_sent`]). So a failure is reported exactly if it hits the payload.
-/
import ProjectsInC.Huffman.Encoder
import ProjectsInC.Huffman.ParserSafety

set_option autoImplicit false

namespace ProjectsInC.Huffman

open NodeType

/-! ## Calls up to the first that fails -/

/-- One of the `n` calls from number `start` on fails. -/
def Fails (fails : ℕ → Bool) (start n : ℕ) : Prop := ∃ k < n, fails (start + k) = true

instance (fails : ℕ → Bool) (start n : ℕ) : Decidable (Fails fails start n) :=
  inferInstanceAs (Decidable (∃ k < n, fails (start + k) = true))

/-- How many of `n` calls are made, if they stop behind the first that fails. -/
def attempts (fails : ℕ → Bool) : ℕ → ℕ → ℕ
  | _, 0 => 0
  | start, n + 1 => if fails start then 1 else attempts fails (start + 1) n + 1

section Fails

variable {fails : ℕ → Bool} {start m n : ℕ}

theorem not_fails_zero : ¬ Fails fails start 0 := by
  rintro ⟨k, hk, -⟩
  exact Nat.not_lt_zero k hk

theorem fails_add : Fails fails start (m + n) ↔ Fails fails start m ∨ Fails fails (start + m) n := by
  constructor
  · rintro ⟨k, hk, hfail⟩
    by_cases hkm : k < m
    · exact .inl ⟨k, hkm, hfail⟩
    · refine .inr ⟨k - m, by omega, ?_⟩
      rwa [Nat.add_assoc, Nat.add_sub_cancel' (not_lt.mp hkm)]
  · rintro (⟨k, hk, hfail⟩ | ⟨k, hk, hfail⟩)
    · exact ⟨k, by omega, hfail⟩
    · refine ⟨m + k, by omega, ?_⟩
      rwa [← Nat.add_assoc]

theorem fails_one : Fails fails start 1 ↔ fails start = true := by
  constructor
  · rintro ⟨k, hk, hfail⟩
    obtain rfl : k = 0 := by omega
    exact hfail
  · exact fun hfail => ⟨0, Nat.one_pos, hfail⟩

theorem fails_succ : Fails fails start (n + 1) ↔ fails start = true ∨ Fails fails (start + 1) n := by
  rw [Nat.add_comm n 1, fails_add, fails_one]

theorem Fails.mono (h : Fails fails start m) (hle : m ≤ n) : Fails fails start n := by
  obtain ⟨k, hk, hfail⟩ := h
  exact ⟨k, hk.trans_le hle, hfail⟩

/-- All calls are made if none fails. -/
theorem attempts_of_not (h : ¬ Fails fails start n) : attempts fails start n = n := by
  induction n generalizing start with
  | zero => rfl
  | succ n ih =>
      rw [fails_succ, not_or] at h
      rw [attempts, if_neg h.1, ih h.2]

/-- A failure among the first calls is the end. -/
theorem attempts_add_of_fails (h : Fails fails start m) :
    attempts fails start (m + n) = attempts fails start m := by
  induction m generalizing start with
  | zero => exact absurd h not_fails_zero
  | succ m ih =>
      rw [fails_succ] at h
      rw [Nat.add_right_comm, attempts, attempts]
      by_cases hfirst : fails start = true
      · rw [if_pos hfirst, if_pos hfirst]
      · rw [if_neg hfirst, if_neg hfirst, ih (h.resolve_left hfirst)]

theorem attempts_add_of_not (h : ¬ Fails fails start m) :
    attempts fails start (m + n) = m + attempts fails (start + m) n := by
  induction m generalizing start with
  | zero => rw [Nat.zero_add, Nat.zero_add, Nat.add_zero]
  | succ m ih =>
      rw [fails_succ, not_or] at h
      have hassoc : start + 1 + m = start + (m + 1) := by omega
      rw [Nat.add_right_comm, attempts, if_neg h.1, ih h.2, hassoc]
      omega

/-- The failure is among the calls that are made. -/
theorem fails_attempts_iff : Fails fails start (attempts fails start n) ↔ Fails fails start n := by
  induction n generalizing start with
  | zero => exact Iff.rfl
  | succ n ih =>
      rw [attempts]
      by_cases hfirst : fails start = true
      · rw [if_pos hfirst]
        exact iff_of_true (fails_one.mpr hfirst) (fails_succ.mpr (.inl hfirst))
      · rw [if_neg hfirst, fails_succ, fails_succ, ih]

end Fails

/-! ## The tree -/

/-- `n` calls of `fprintf`, each only if the one before did not fail; the result is negative if
one did. -/
structure Ran (fp : FILE) (st : CInt × FILE) (n : ℕ) : Prop where
  fails : st.2.fails = fp.fails
  calls : st.2.calls = fp.calls + attempts fp.fails fp.calls n
  result : st.1.toInt < 0 ↔ Fails fp.fails fp.calls n

section Tree

variable {fp : FILE} {st st' : CInt × FILE} {m n : ℕ}

theorem ran_zero (fp : FILE) : Ran fp (0, fp) 0 where
  fails := rfl
  calls := rfl
  result := iff_of_false (show ¬ (0 : CInt).toInt < 0 by decide) not_fails_zero

theorem ran_fprintf {text : List Byte} (fp : FILE) (hlen : text.length < 2 ^ 31) :
    Ran fp (fprintf text fp) 1 := by
  by_cases hfail : fp.fails fp.calls = true
  · rw [fprintf_fails hfail]
    refine ⟨rfl, ?_, iff_of_true (show (-1 : CInt).toInt < 0 by decide) (fails_one.mpr hfail)⟩
    rw [attempts, if_pos hfail]
  · rw [fprintf_ok (Bool.eq_false_iff.mpr hfail)]
    refine ⟨rfl, ?_, iff_of_false ?_ (fun h => hfail (fails_one.mp h))⟩
    · rw [attempts, if_neg hfail, attempts]
    · change ¬ (BitVec.ofNat 32 text.length).toInt < 0
      rw [toInt_ofNat_of_lt hlen]
      omega

/-- If a part fails the rest is left out. -/
theorem Ran.andThen (h : Ran fp st m) (h' : Ran st.2 st' n) :
    Ran fp (if st.1.toInt < 0 then st else st') (m + n) := by
  by_cases hneg : st.1.toInt < 0
  · have hfail := h.result.mp hneg
    rw [if_pos hneg]
    refine ⟨h.fails, ?_, iff_of_true hneg (hfail.mono (Nat.le_add_right m n))⟩
    rw [h.calls, attempts_add_of_fails hfail]
  · have hok : ¬ Fails fp.fails fp.calls m := fun hfail => hneg (h.result.mpr hfail)
    have hcalls := h.calls
    rw [attempts_of_not hok] at hcalls
    have hcalls' := h'.calls
    have hresult' := h'.result
    rw [h.fails, hcalls] at hcalls' hresult'
    rw [if_neg hneg]
    refine ⟨h'.fails.trans h.fails, ?_, ?_⟩
    · rw [hcalls', attempts_add_of_not hok, Nat.add_assoc]
    · rw [hresult', fails_add]
      exact (or_iff_right hok).symm

theorem tree_serialize_rec_ran (tree : TreeNode) (fp : FILE) :
    Ran fp (tree_serialize_rec tree fp) (recordsOf tree).length := by
  have hshort : ∀ r : Record, r.text.length < 2 ^ 31 := fun r =>
    (length_text_le r).trans_lt (by norm_num)
  induction tree generalizing fp with
  | null => exact ran_zero fp
  | node id type freq left right ihl ihr =>
      cases type with
      | LEAF => exact ran_fprintf fp (hshort _)
      | INTERNAL =>
          have hleft := ihl fp
          have hright := ihr (tree_serialize_rec left fp).2
          have hlast := ran_fprintf (tree_serialize_rec right (tree_serialize_rec left fp).2).2
            (hshort (recordOf id INTERNAL freq left right))
          have hall := hleft.andThen (hright.andThen hlast)
          rw [recordsOf, List.length_append, List.length_append, List.length_singleton,
            Nat.add_assoc]
          exact hall

/-- The calls `tree_serialize` makes if none fails: one for each '#' and each record. -/
def treeCalls (tree : TreeNode) : ℕ := 1 + ((recordsOf tree).length + 1)

/-- **`tree_serialize`** stops at the first call that fails, and its result says so. -/
theorem tree_serialize_ran (tree : TreeNode) (fp : FILE) :
    Ran fp (tree_serialize tree fp) (treeCalls tree) := by
  have hfirst : Ran fp (fprintf [35] fp) 1 := ran_fprintf fp (by decide)
  have htree := tree_serialize_rec_ran tree (fprintf [35] fp).2
  have hlast := ran_fprintf (tree_serialize_rec tree (fprintf [35] fp).2).2
    (show [35].length < 2 ^ 31 by decide)
  exact hfirst.andThen (htree.andThen hlast)

end Tree

/-! ## The bits -/

/-- Behind `n` bits: every seventh went into the file, with the calls from number `start` on, none
of which failed. -/
structure Sent (pattern : ℕ → Bool) (start n : ℕ) (bfile : BitsIOFile) : Prop where
  fails : bfile.fp.fails = pattern
  calls : bfile.fp.calls = start + n / 7
  sent : ¬ Fails pattern start (n / 7)
  byte : ∃ pending, bfile.byte = packed pending ∧ pending.length = n % 7

/-- A call has failed, of those that were made. -/
def Failed (fails : ℕ → Bool) (bfile : BitsIOFile) : Prop := Fails fails 0 bfile.fp.calls

section Bits

variable {fails : ℕ → Bool} {start n : ℕ} {bfile : BitsIOFile}

/-- A bit is written, or the call for its byte fails. -/
theorem Sent.write_bit (h : Sent fails start n bfile) (bit : Bool) :
    ∃ result bfile', bits_io_write_bit bfile ((bitValue bit).setWidth 32) = some (result, bfile') ∧
      ((result = EOF ∧ Fails fails start ((n + 1) / 7) ∧ Failed fails bfile') ∨
        (result ≠ EOF ∧ Sent fails start (n + 1) bfile')) := by
  obtain ⟨pending, hbyte, hpending⟩ := h.byte
  have hcall : bfile.fp.fails bfile.fp.calls = fails (start + n / 7) := by
    rw [h.fails, h.calls]
  rw [bits_io_write_bit_packed hbyte (by omega) bit, hcall]
  by_cases hroom : pending.length < 6
  · have hdiv : (n + 1) / 7 = n / 7 := by omega
    rw [if_pos hroom]
    refine ⟨_, _, rfl, .inr ⟨byte_ne_eof _, h.fails, ?_, ?_, pending ++ [bit], rfl, ?_⟩⟩
    · rw [hdiv]
      exact h.calls
    · rw [hdiv]
      exact h.sent
    · rw [List.length_append, List.length_singleton]
      omega
  · have hdiv : (n + 1) / 7 = n / 7 + 1 := by omega
    have hfails : Fails fails start (n / 7 + 1) ↔ fails (start + n / 7) = true := by
      rw [fails_add, fails_one]
      exact or_iff_right h.sent
    rw [if_neg hroom]
    by_cases hfail : fails (start + n / 7) = true
    · rw [if_pos hfail]
      refine ⟨_, _, rfl, .inl ⟨rfl, hdiv ▸ hfails.mpr hfail, start + n / 7, ?_, ?_⟩⟩
      · change start + n / 7 < bfile.fp.calls + 1
        rw [h.calls]
        exact Nat.lt_succ_self _
      · rwa [Nat.zero_add]
    · rw [if_neg hfail]
      refine ⟨_, _, rfl, .inr ⟨byte_ne_eof _, h.fails, ?_, ?_, [], rfl, ?_⟩⟩
      · change bfile.fp.calls + 1 = start + (n + 1) / 7
        rw [h.calls, hdiv, Nat.add_assoc]
      · rw [hdiv]
        exact fun hmem => hfail (hfails.mp hmem)
      · rw [List.length_nil]
        omega

/-- The bits of a byte. -/
theorem Sent.writeEncoding (h : Sent fails start n bfile) (path : List Bool) :
    ∃ written bfile', Huffman.writeEncoding bfile (bitText path) = some (written, bfile') ∧
      ((written = false ∧ Fails fails start ((n + path.length) / 7) ∧ Failed fails bfile') ∨
        (written = true ∧ Sent fails start (n + path.length) bfile')) := by
  induction path generalizing bfile n with
  | nil => exact ⟨true, bfile, rfl, .inr ⟨rfl, h⟩⟩
  | cons bit path ih =>
      obtain ⟨result, bfile₁, hbit, hcases⟩ := h.write_bit bit
      have hlen : n + (bit :: path).length = n + 1 + path.length := by
        rw [List.length_cons]
        omega
      rw [bitText, List.map_cons, Huffman.writeEncoding, char_bit, hbit, hlen]
      simp only [Option.bind_eq_bind, Option.bind_some]
      rcases hcases with ⟨heof, hfails, hfailed⟩ | ⟨hne, h₁⟩
      · rw [if_pos heof]
        refine ⟨false, bfile₁, rfl, .inl ⟨rfl, hfails.mono ?_, hfailed⟩⟩
        exact Nat.div_le_div_right (Nat.le_add_right _ _)
      · rw [if_neg hne]
        exact ih h₁

end Bits

/-! ## The bytes -/

/-- The bits of the bytes up to the first that has no encoding. -/
def codedBits (etab : EncodeTable) : List Byte → ℕ
  | [] => 0
  | ch :: infile =>
      match table_bit_encode etab ch with
      | none => 0
      | some estr => estr.length + codedBits etab infile

/-- The entries of the table are texts of bits. -/
def BitTexts (etab : EncodeTable) : Prop :=
  ∀ c estr, table_bit_encode etab c = some estr → ∃ path, estr = bitText path

theorem bitTexts_rec_gen_table {etab : EncodeTable} (tree : TreeNode) {b : BitArray}
    (h : BitTexts etab) (hb : ∃ path, b.bits = bitText path) :
    BitTexts (rec_gen_table etab tree b) := by
  induction tree generalizing etab b with
  | null => exact h
  | node id type freq left right ihl ihr =>
      obtain ⟨path, hpath⟩ := hb
      cases type with
      | LEAF =>
          intro c estr hestr
          unfold rec_gen_table table_bit_encode at hestr
          by_cases hc : c = freq.c
          · subst hc
            rw [Function.update_self] at hestr
            exact ⟨path, (Option.some.inj hestr).symm.trans hpath⟩
          · rw [Function.update_of_ne hc] at hestr
            exact h c estr hestr
      | INTERNAL =>
          have hwith : ∀ bit : Bool, ∃ path,
              (bit_array_new_with b (if bit then 1 else 0)).bits = bitText path := by
            intro bit
            refine ⟨path.take b.len ++ [bit], ?_⟩
            unfold bit_array_new_with bitText
            rw [hpath, bitText, ← List.map_take, List.map_append, List.map_singleton]
            cases bit <;> rfl
          exact ihr (ihl h (hwith true)) (hwith false)

theorem bitTexts_table_build {root : TreeNode} {etab : EncodeTable}
    (h : table_build root = some etab) : BitTexts etab := by
  unfold table_build at h
  split_ifs at h
  obtain rfl := Option.some.inj h
  exact bitTexts_rec_gen_table root (fun c estr hestr => nomatch hestr) ⟨[], rfl⟩

/-- **The loop over the bytes**: a call fails, a byte has no encoding, or all bits are sent. -/
theorem encodeLoop_sent {fails : ℕ → Bool} {start n : ℕ} {bfile : BitsIOFile} {etab : EncodeTable}
    (htexts : BitTexts etab) (h : Sent fails start n bfile) (count : CInt) (infile : List Byte) :
    (Fails fails start ((n + codedBits etab infile) / 7) ∧
      ∃ bfile', encodeLoop etab count bfile infile = some (-1, bfile') ∧ Failed fails bfile') ∨
    (¬ Fails fails start ((n + codedBits etab infile) / 7) ∧
      (¬ ∀ c ∈ infile, etab c ≠ none) ∧ encodeLoop etab count bfile infile = none) ∨
    ((∀ c ∈ infile, etab c ≠ none) ∧
      ∃ bfile', encodeLoop etab count bfile infile
          = some (count + BitVec.ofNat 32 infile.length, bfile') ∧
        Sent fails start (n + codedBits etab infile) bfile') := by
  induction infile generalizing bfile n count with
  | nil =>
      refine .inr (.inr ⟨fun c hc => absurd hc List.not_mem_nil, bfile, ?_, h⟩)
      rw [encodeLoop, List.length_nil]
      exact congrArg some (congrArg (·, bfile) (BitVec.add_zero count).symm)
  | cons c infile ih =>
      unfold encodeLoop codedBits
      cases hcode : table_bit_encode etab c with
      | none =>
          refine .inr (.inl ⟨h.sent, fun hall => ?_, rfl⟩)
          exact hall c List.mem_cons_self (Option.map_eq_none_iff.mp hcode)
      | some estr =>
          have hentry : etab c ≠ none := by
            intro hnone
            rw [table_bit_encode, hnone] at hcode
            cases hcode
          have hforall : (∀ c' ∈ c :: infile, etab c' ≠ none) ↔ ∀ c' ∈ infile, etab c' ≠ none := by
            rw [List.forall_mem_cons]
            exact and_iff_right hentry
          obtain ⟨path, rfl⟩ := htexts c estr hcode
          have hlen : (bitText path).length = path.length := List.length_map ..
          obtain ⟨written, bfile₁, hwrite, hcases⟩ := h.writeEncoding path
          simp only [Option.bind_eq_bind, Option.bind_some, hwrite, hlen, hforall]
          rw [← Nat.add_assoc]
          rcases hcases with ⟨rfl, hfails, hfailed⟩ | ⟨rfl, h₁⟩
          · refine .inl ⟨hfails.mono ?_, bfile₁, rfl, hfailed⟩
            exact Nat.div_le_div_right (Nat.le_add_right _ _)
          · rw [List.length_cons, ← add_ofNat_succ]
            exact ih h₁ (count + 1)

/-! ## The whole encoder -/

/-- `encoder_encode` returns, -1 if a call has failed and the number of bytes if none has. -/
def Reports (encoder : Encoder) : Prop :=
  ∃ result encoder', encoder_encode encoder = some (result, encoder') ∧
    (Failed encoder.bfile.fp.fails encoder'.bfile → result = -1) ∧
    (¬ Failed encoder.bfile.fp.fails encoder'.bfile → result.toInt = encoder.infile.length)

/-- A call for a byte of the payload fails: one for every seven bits, behind those of the tree. -/
def PayloadFails (encoder : Encoder) : Prop :=
  Fails encoder.bfile.fp.fails (attempts encoder.bfile.fp.fails 0 (treeCalls encoder.tree))
    (codedBits encoder.etab encoder.infile / 7)

/-- The printing of the tree fails. -/
def TreeFails (encoder : Encoder) : Prop :=
  Fails encoder.bfile.fp.fails 0 (treeCalls encoder.tree)

section Encoder

variable {qsort : Qsort TreeNode} {beyond : ℕ → TreeNode} {infile : List Byte} {fails : ℕ → Bool}
  {encoder : Encoder}

/-- What an encoder is made of. -/
theorem encoder_new_some (h : encoder_new qsort beyond infile (FILE.writing fails) = some encoder) :
    encoder.infile = infile ∧ encoder.bfile = bits_io_open (FILE.writing fails) 119 ∧
      BitTexts encoder.etab ∧ tree_size encoder.tree < 2 ^ 31 := by
  unfold encoder_new at h
  simp only [Option.bind_eq_bind, Option.bind_eq_some_iff] at h
  obtain ⟨⟨tree, ids⟩, hbuild, etab, htable, heq⟩ := h
  obtain rfl := Option.some.inj heq
  have htree : tree ≠ .null := by
    intro hnull
    rw [table_build, if_pos hnull] at htable
    cases htable
  obtain ⟨hfull, hleaves, -, -⟩ := (shape_of_build hbuild htree).root
  exact ⟨rfl, rfl, bitTexts_table_build htable, hfull.size_lt hleaves⟩

/-- Behind the tree no bit is in the buffer. -/
theorem sent_write_tree (hbfile : encoder.bfile = bits_io_open (FILE.writing fails) 119)
    (hsize : tree_size encoder.tree < 2 ^ 31) :
    ∃ r bfile, bits_io_write_tree encoder.bfile encoder.tree = (r, bfile) ∧ r ≠ EOF ∧
      Sent fails (attempts fails 0 (treeCalls encoder.tree)) 0 bfile := by
  have hran := tree_serialize_ran encoder.tree (FILE.writing fails)
  have hne := ofNat_ne_eof hsize
  have hwrite : bits_io_write_tree encoder.bfile encoder.tree
      = (BitVec.ofNat 32 (tree_size encoder.tree), { encoder.bfile with
          fp := (tree_serialize encoder.tree (FILE.writing fails)).2 }) := by
    rw [hbfile]
    rfl
  refine ⟨_, _, hwrite, hne, hran.fails, ?_, not_fails_zero, [], ?_, rfl⟩
  · have hcalls := hran.calls
    rw [show (FILE.writing fails).calls = 0 from rfl, Nat.zero_add] at hcalls
    exact hcalls
  · rw [hbfile]
    rfl

end Encoder

/-- **When write errors are reported.** For every input file and every pattern of failures:
`encoder_encode` returns -1 if a call failed that it made, and the number of bytes if none did,
exactly if a call for the payload fails, or every byte has an encoding and the printing of the tree
does not fail, with fewer than 2^31 bytes. If it does fail there must be 2^32 - 1 bytes, or one of
the other numbers that look like -1. -/
theorem encode_reports_iff (qsort : Qsort TreeNode) (beyond : ℕ → TreeNode) (infile : List Byte)
    (fails : ℕ → Bool) {encoder : Encoder}
    (h : encoder_new qsort beyond infile (FILE.writing fails) = some encoder) :
    Reports encoder ↔ PayloadFails encoder ∨ ((∀ c ∈ infile, encoder.etab c ≠ none) ∧
      (¬ TreeFails encoder → infile.length < 2 ^ 31) ∧
      (TreeFails encoder → BitVec.ofNat 32 infile.length = (-1 : CInt))) := by
  obtain ⟨hinfile, hbfile, htexts, hsize⟩ := encoder_new_some h
  obtain ⟨r, bfile, htree, hr, hsent⟩ := sent_write_tree hbfile hsize
  have hpattern : encoder.bfile.fp.fails = fails := by
    rw [hbfile]
    rfl
  unfold Reports PayloadFails TreeFails
  rw [hpattern, hinfile, encoder_encode, htree]
  simp only [if_neg hr, hinfile]
  have hloop := encodeLoop_sent htexts hsent 0 infile
  rw [Nat.zero_add] at hloop
  rcases hloop with ⟨hfails, bfile', hloop, hfailed⟩ | ⟨hok, hcode, hloop⟩ | ⟨hcode, bfile', hloop, h'⟩
  · refine iff_of_true ⟨-1, { encoder with infile := [], bfile := bfile' }, ?_, fun _ => rfl,
      fun hnot => absurd hfailed hnot⟩ (.inl hfails)
    rw [hloop]
    rfl
  · refine iff_of_false ?_ ?_
    · rintro ⟨result, encoder', hresult, -⟩
      rw [hloop] at hresult
      cases hresult
    · rintro (hfails | ⟨hall, -⟩)
      · exact hok hfails
      · exact hcode hall
  · -- all bits are sent, so a call that failed was one for the tree
    have hfailed : Failed fails bfile' ↔ Fails fails 0 (treeCalls encoder.tree) := by
      unfold Failed
      rw [h'.calls, fails_add, fails_attempts_iff, Nat.zero_add]
      exact or_iff_left h'.sent
    have hexact : (BitVec.ofNat 32 infile.length : CInt).toInt = infile.length
        ↔ infile.length < 2 ^ 31 := by
      constructor
      · intro heq
        have hbounds := toInt_bounds (BitVec.ofNat 32 infile.length)
        omega
      · exact toInt_ofNat_of_lt
    rw [hloop, zero_add]
    constructor
    · rintro ⟨result, encoder', hresult, hfail, hnone⟩
      obtain ⟨rfl, rfl⟩ := Prod.mk.inj (Option.some.inj hresult)
      rw [hfailed] at hfail hnone
      exact .inr ⟨hcode, fun hnot => hexact.mp (hnone hnot), hfail⟩
    · rintro (hfails | ⟨-, hshort, hsame⟩)
      · exact absurd hfails h'.sent
      · refine ⟨_, { encoder with infile := [], bfile := bfile' }, rfl, ?_, ?_⟩
        · exact fun hfail => hsame (hfailed.mp hfail)
        · exact fun hnot => hexact.mpr (hshort (fun hfail => hnot (hfailed.mpr hfail)))

/-- The tree of the text "ab". -/
def treeOfAb : TreeNode :=
  .node 3 INTERNAL ⟨2, 0⟩ (.node 1 LEAF ⟨1, 97⟩ .null .null) (.node 2 LEAF ⟨1, 98⟩ .null .null)

def encoderOfAb (fails : ℕ → Bool) : Encoder :=
  ⟨[97, 98], treeOfAb, rec_gen_table (fun _ => none) treeOfAb bit_array_new,
    bits_io_open (FILE.writing fails) 119⟩

theorem encoder_new_ab (fails : ℕ → Bool) :
    encoder_new (insertionQsort TreeNode) (fun _ => .null) [97, 98] (FILE.writing fails)
      = some (encoderOfAb fails) := by
  have hbuild : huffman_build_tree (insertionQsort TreeNode) (fun _ => .null) [97, 98]
      = some (treeOfAb, 4) := by
    decide +kernel
  rw [encoder_new, hbuild]
  rfl

/-- If all is written the number is returned. -/
theorem encode_reports_iff_ab : Reports (encoderOfAb (fun _ => false)) := by
  apply (encode_reports_iff _ _ _ _ (encoder_new_ab (fun _ => false))).mpr
  refine .inr ⟨by decide, fun _ => by decide, ?_⟩
  rintro ⟨k, -, hfail⟩
  cases hfail

/-- If the first '#' of the tree cannot be written nothing of the tree is, and 2 is returned. -/
theorem encode_silent :
    encoder_new (insertionQsort TreeNode) (fun _ => .null) [97, 98] (FILE.writing (fun n => n == 0))
        = some (encoderOfAb (fun n => n == 0)) ∧
      ∃ encoder', encoder_encode (encoderOfAb (fun n => n == 0)) = some (2, encoder') ∧
        Failed (fun n => n == 0) encoder'.bfile ∧ encoder'.bfile.fp.written = [] ∧
        ¬ Reports (encoderOfAb (fun n => n == 0)) := by
  obtain ⟨encoder', hencode, hfailed, hwritten⟩ : ∃ encoder',
      encoder_encode (encoderOfAb (fun n => n == 0)) = some (2, encoder') ∧
        Failed (fun n => n == 0) encoder'.bfile ∧ encoder'.bfile.fp.written = [] :=
    ⟨_, rfl, ⟨0, Nat.one_pos, rfl⟩, rfl⟩
  refine ⟨encoder_new_ab _, encoder', hencode, hfailed, hwritten, ?_⟩
  rintro ⟨result, encoder₁, hresult, hreport, -⟩
  rw [hencode] at hresult
  cases hresult
  exact absurd (hreport hfailed) (by decide)

end ProjectsInC.Huffman
