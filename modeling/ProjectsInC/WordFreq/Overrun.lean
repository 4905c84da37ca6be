/-
Where the calls of `words_next_word` store.

The word is collected in `buf` and copied by `make_string` into a block of one character more. The
block is always large enough ([`make_string_spec`]); the buffer is as long as no run of
alphanumeric characters has more than 500, and the first longer one is stored beyond its end
([`readStrings_eq`]).
-/
import ProjectsInC.WordFreq.Words

set_option autoImplicit false

namespace ProjectsInC.WordFreq

/-! ## `make_string` -/

/-- A store to one place of an array. -/
def store (array : List Byte) (i : ℕ) (c : Byte) : Except Stop (List Byte) :=
  if i < array.length then .ok (array.set i c) else .error .overrun

/-- `memcpy(str, buffer, n)` -/
def memcpy (str buffer : List Byte) (n : ℕ) : Except Stop (List Byte) :=
  (List.range n).foldlM (fun str i => store str i (buffer.getD i 0)) str

/-- `make_string`; `garbage` is what `malloc` leaves in the block. -/
def make_string (garbage : ℕ → Byte) (buffer : List Byte) (length : ℕ) :
    Except Stop (List Byte) := do
  let str := (List.range (length + 1)).map garbage
  let str ← memcpy str buffer length
  store str length 0

/-- A store behind the characters that are there already. -/
theorem store_append {done rest : List Byte} (c : Byte) (hrest : rest ≠ []) :
    store (done ++ rest) done.length c = .ok (done ++ c :: rest.tail) := by
  obtain ⟨b, rest, rfl⟩ := List.exists_cons_of_ne_nil hrest
  have hplace : done.length < (done ++ b :: rest).length := by
    rw [List.length_append, List.length_cons]
    omega
  rw [store, if_pos hplace, List.set_append_right _ _ le_rfl, Nat.sub_self, List.set_cons_zero,
    List.tail_cons]

/-- The characters are copied one by one. -/
theorem memcpy_spec {str buffer : List Byte} {n : ℕ} (hstr : n < str.length)
    (hbuffer : n ≤ buffer.length) : memcpy str buffer n = .ok (buffer.take n ++ str.drop n) := by
  induction n with
  | zero => rfl
  | succ n ih =>
      have hplace : (buffer.take n).length = n := List.length_take_of_le (by omega)
      have hrest : str.drop n ≠ [] := by
        rw [ne_eq, List.drop_eq_nil_iff]
        omega
      -- the store goes to the first place that has not been written
      have hstore := @store_append (buffer.take n) (str.drop n) (buffer.getD n 0) hrest
      rw [hplace, List.tail_drop] at hstore
      have hbyte : buffer.take (n + 1) = buffer.take n ++ [buffer.getD n 0] := by
        have hn : n < buffer.length := hbuffer
        rw [List.take_add_one, List.getElem?_eq_getElem hn, Option.toList_some,
          List.getElem_eq_getD 0]
      unfold memcpy at ih ⊢
      rw [List.range_succ, List.foldlM_append, ih (by omega) (by omega), hbyte,
        List.append_assoc, List.singleton_append, ← hstore]
      simp only [bind, Except.bind, pure, Except.pure, List.foldlM_cons, List.foldlM_nil]
      cases store (buffer.take n ++ str.drop n) n (buffer.getD n 0) <;> rfl

/-- **`make_string`**: a block of `length + 1` characters is enough for the word and its NUL. -/
theorem make_string_spec (garbage : ℕ → Byte) (word : List Byte) :
    make_string garbage word word.length = .ok (word ++ [0]) := by
  have hblock : ((List.range (word.length + 1)).map garbage).length = word.length + 1 := by
    rw [List.length_map, List.length_range]
  have hcopy := @memcpy_spec ((List.range (word.length + 1)).map garbage) word word.length
    (by omega) le_rfl
  rw [List.take_length] at hcopy
  have hlast : ((List.range (word.length + 1)).map garbage).drop word.length ≠ [] := by
    rw [ne_eq, List.drop_eq_nil_iff]
    omega
  have hnone : (((List.range (word.length + 1)).map garbage).drop word.length).tail = [] := by
    rw [List.tail_drop]
    exact List.drop_eq_nil_of_le hblock.le
  have hstore := @store_append word _ 0 hlast
  rw [hnone] at hstore
  unfold make_string
  simp only [hcopy, bind, Except.bind]
  exact hstore

/-! ## The calls of a program -/

/-- `words_next_word` with its last statement: the buffer and its length go to `make_string`. -/
def nextString (garbage : ℕ → Byte) (stdin : FILE) : Except Stop (Option (List Byte) × FILE) := do
  match ← words_next_word stdin with
  | (none, stdin) => .ok (none, stdin)
  | (some buf, stdin) => do
      let str ← make_string garbage buf buf.length
      .ok (some str, stdin)

/-- The calls until one returns NULL. -/
def readStrings (garbage : ℕ → Byte) : ℕ → FILE → Except Stop (List (List Byte))
  | 0, _ => .error .outOfFuel
  | fuel + 1, stdin => do
      match ← nextString garbage stdin with
      | (none, _) => .ok []
      | (some str, stdin) => do
          let strs ← readStrings garbage fuel stdin
          .ok (str :: strs)

section Calls

variable (garbage : ℕ → Byte) {stdin : FILE}

theorem nextString_none (h : ∀ b ∈ stdin.rest, alnum b = false) :
    ∃ stdin', nextString garbage stdin = .ok (none, stdin') := by
  obtain ⟨stdin', hnext⟩ := words_next_word_none h
  refine ⟨stdin', ?_⟩
  unfold nextString
  rw [hnext]
  rfl

theorem nextString_word {seps w tail : List Byte} (h : FirstWord stdin.rest seps w tail) :
    nextString garbage stdin
      = if w.length ≤ MAXBUF then .ok (some (w ++ [0]), { stdin with rest := tail.tail })
        else .error .overrun := by
  unfold nextString
  rw [words_next_word_word h]
  by_cases hfits : w.length ≤ MAXBUF
  · rw [if_pos hfits, if_pos hfits]
    simp only [bind, Except.bind, make_string_spec]
  · rw [if_neg hfits, if_neg hfits]
    rfl

/-- **The calls of a program** return the words of the text, or one of them is too long. -/
theorem readStrings_eq {fuel : ℕ} (hfuel : stdin.rest.length < fuel) :
    readStrings garbage fuel stdin
      = if ∀ w ∈ wordsOf stdin.rest, w.length ≤ MAXBUF then .ok ((wordsOf stdin.rest).map (· ++ [0]))
        else .error .overrun := by
  induction fuel generalizing stdin with
  | zero => exact absurd hfuel (Nat.not_lt_zero _)
  | succ fuel ih =>
      rcases text_cases stdin.rest with hnone | ⟨seps, w, tail, hfirst⟩
      · obtain ⟨stdin', hnext⟩ := nextString_none garbage hnone
        rw [readStrings, hnext, wordsOf_none hnone, if_pos (fun w hw => absurd hw List.not_mem_nil)]
        rfl
      · -- the word is gone from the text
        have hshort : tail.tail.length < fuel :=
          Nat.lt_of_lt_of_le hfirst.length_lt (Nat.le_of_lt_succ hfuel)
        have hrest := @ih { stdin with rest := tail.tail } hshort
        rw [readStrings, nextString_word garbage hfirst, hfirst.wordsOf_eq]
        by_cases hfits : w.length ≤ MAXBUF
        · rw [if_pos hfits]
          simp only [bind, Except.bind, hrest, List.forall_mem_cons, hfits, true_and]
          split_ifs <;> rfl
        · rw [if_neg hfits, if_neg (fun h => hfits (h w List.mem_cons_self))]
          rfl

end Calls

/-- Every store of the calls of `words_next_word` on a text is inside its array: `buf` has `MAXBUF`
characters, and the block of `make_string` one more than the word. -/
def StoresInside (garbage : ℕ → Byte) (text : List Byte) : Prop :=
  ∃ strs, readStrings garbage (text.length + 1) (.reading text) = .ok strs

/-- **The word buffer** is never overrun exactly if no run of alphanumeric characters is longer. -/
theorem stores_inside_iff (garbage : ℕ → Byte) (text : List Byte) :
    StoresInside garbage text ↔ ∀ w ∈ wordsOf text, w.length ≤ MAXBUF := by
  have hrun : readStrings garbage (text.length + 1) (.reading text)
      = if ∀ w ∈ wordsOf text, w.length ≤ MAXBUF then .ok ((wordsOf text).map (· ++ [0]))
        else .error .overrun := readStrings_eq garbage (Nat.lt_succ_self _)
  unfold StoresInside
  constructor
  · rintro ⟨strs, hstrs⟩
    by_contra hlong
    rw [hrun, if_neg hlong] at hstrs
    cases hstrs
  · intro hfits
    rw [hrun, if_pos hfits]
    exact ⟨_, rfl⟩

/-- A run of alphanumeric characters is one word. -/
theorem wordsOf_run {w : List Byte} (hne : w ≠ []) (hw : ∀ b ∈ w, alnum b = true) :
    wordsOf w = [w] := by
  have hfirst := @wordsOf_word w [] hne hw (fun b hb => absurd hb (Option.not_mem_none b))
  rwa [List.append_nil, List.tail_nil, wordsOf_nil] at hfirst

/-- The 501st character of a word is stored beyond the end of the buffer. -/
theorem stores_outside :
    readStrings (fun _ => 0) 502 (.reading (List.replicate 501 97)) = .error .overrun ∧
      ¬ StoresInside (fun _ => 0) (List.replicate 501 97) := by
  have hwords : wordsOf (List.replicate 501 97) = [List.replicate 501 97] := by
    apply wordsOf_run
    · exact List.cons_ne_nil _ _
    · intro b hb
      rw [List.eq_of_mem_replicate hb]
      decide
  have hlong : ¬ ∀ w ∈ wordsOf (List.replicate 501 97), w.length ≤ MAXBUF := by
    rw [hwords, List.forall_mem_singleton, List.length_replicate]
    decide
  have hrun : readStrings (fun _ => 0) 502 (.reading (List.replicate 501 97)) = .error .overrun := by
    have heq := @readStrings_eq (fun _ => 0) (.reading (List.replicate 501 97)) 502
      (by rw [FILE.reading, List.length_replicate]; decide)
    rwa [FILE.reading, if_neg hlong] at heq
  refine ⟨hrun, ?_⟩
  rintro ⟨strs, hstrs⟩
  rw [List.length_replicate, hrun] at hstrs
  cases hstrs

end ProjectsInC.WordFreq
