/-
`words.c`: the words of standard input.

`words_next_word` returns the maximal runs of alphanumeric characters one after the other
([`words_next_word_word`], [`words_next_word_none`]). It collects a run in a buffer of 500
characters without looking at its end, so that a longer run is stored beyond the buffer.
-/
import Mathlib.Data.List.TakeWhile
import ProjectsInC.Stdio

set_option autoImplicit false

namespace ProjectsInC.WordFreq

/-- What stops a function of these programs other than returning. -/
inductive Stop
  /-- A store outside an array. -/
  | overrun
  /-- The bound given to a loop of the model was used up. -/
  | outOfFuel
deriving DecidableEq, Repr

/-- `MAXBUF` -/
def MAXBUF : ℕ := 500

/-- `isalnum`, in the locale every program starts with. -/
def isalnum (c : CInt) : Bool :=
  (48 ≤ c.toInt && c.toInt ≤ 57) || (65 ≤ c.toInt && c.toInt ≤ 90) ||
    (97 ≤ c.toInt && c.toInt ≤ 122)

/-- The loop `while(isalnum(c)==0)`: the first character of a word; `none` where the
function returns NULL. -/
def skipLoop : ℕ → CInt → FILE → Except Stop (Option CInt × FILE)
  | 0, _, _ => .error .outOfFuel
  | fuel + 1, c, stdin =>
      if isalnum c then .ok (some c, stdin)
      else if c = EOF then .ok (none, stdin)
      else
        let (c, stdin) := fgetc stdin
        skipLoop fuel c stdin

/-- The loop `while(isalnum(c)!=0)`; the first `counter` characters of `buf` are those in
the list. -/
def wordLoop : ℕ → List Byte → CInt → FILE → Except Stop (List Byte × FILE)
  | 0, _, _, _ => .error .outOfFuel
  | fuel + 1, buf, c, stdin =>
      if isalnum c then
        if c = EOF ∨ (MAXBUF : ℤ) ≤ c.toInt then .ok (buf, stdin)
        else if MAXBUF ≤ buf.length then .error .overrun
        else
          let byte : Byte := c.setWidth 8
          let (c, stdin) := fgetc stdin
          wordLoop fuel (buf ++ [byte]) c stdin
      else .ok (buf, stdin)

/-- `words_next_word`; `none` if it returns NULL. A loop makes at most one round for each
character that is left, one for the character read before it and one for EOF. -/
def words_next_word (stdin : FILE) : Except Stop (Option (List Byte) × FILE) := do
  let (c, stdin) := fgetc stdin
  match ← skipLoop (stdin.rest.length + 2) c stdin with
  | (none, stdin) => .ok (none, stdin)
  | (some c, stdin) => do
      let (buf, stdin) ← wordLoop (stdin.rest.length + 2) [] c stdin
      .ok (some buf, stdin)

/-! ## The words of a text -/

/-- Is the character part of a word? -/
def alnum (b : Byte) : Bool := isalnum (b.setWidth 32)

/-- The maximal runs of alphanumeric characters. -/
def wordsOf (text : List Byte) : List (List Byte) :=
  (text.splitOnP (fun b => !alnum b)).filter (· ≠ [])

theorem wordsOf_nil : wordsOf [] = [] := rfl

/-- Other characters in front do not matter. -/
theorem wordsOf_skip {seps : List Byte} (hseps : ∀ b ∈ seps, alnum b = false) (text : List Byte) :
    wordsOf (seps ++ text) = wordsOf text := by
  induction seps with
  | nil => rfl
  | cons b seps ih =>
      have hb : (!alnum b) = true := by rw [hseps b List.mem_cons_self]; rfl
      have hsplit : (b :: (seps ++ text)).splitOnP (fun b => !alnum b)
          = [] :: (seps ++ text).splitOnP (fun b => !alnum b) := by
        rw [List.splitOnP_cons_eq_if_modifyHead, if_pos hb]
      have hdrop : wordsOf (b :: (seps ++ text)) = wordsOf (seps ++ text) := by
        unfold wordsOf
        rw [hsplit]
        rfl
      rw [List.cons_append, hdrop]
      exact ih (fun b' hb' => hseps b' (List.mem_cons_of_mem b hb'))

/-- A run in front is the first word. -/
theorem wordsOf_word {w tail : List Byte} (hne : w ≠ []) (hw : ∀ b ∈ w, alnum b = true)
    (htail : ∀ b ∈ tail.head?, alnum b = false) : wordsOf (w ++ tail) = w :: wordsOf tail.tail := by
  have hrun : ∀ b ∈ w, (!alnum b) = false := by
    intro b hb
    rw [hw b hb]
    rfl
  have hkeep : ∀ rest : List (List Byte), (w :: rest).filter (· ≠ []) = w :: rest.filter (· ≠ []) :=
    fun rest => List.filter_cons_of_pos (decide_eq_true hne)
  unfold wordsOf
  cases tail with
  | nil =>
      rw [List.append_nil, List.splitOnP_eq_singleton hrun, hkeep]
      rfl
  | cons b tail =>
      have hb : (!alnum b) = true := by rw [htail b rfl]; rfl
      rw [List.splitOnP_append_cons_of_forall_mem hrun b hb, hkeep]
      rfl

/-- The text has the first word `w`, behind the other characters `seps` and in front of `tail`. -/
structure FirstWord (text seps w tail : List Byte) : Prop where
  text_eq : text = seps ++ (w ++ tail)
  seps : ∀ b ∈ seps, alnum b = false
  ne_nil : w ≠ []
  word : ∀ b ∈ w, alnum b = true
  tail : ∀ b ∈ tail.head?, alnum b = false

theorem wordsOf_none {text : List Byte} (h : ∀ b ∈ text, alnum b = false) : wordsOf text = [] := by
  rw [← List.append_nil text, wordsOf_skip h, wordsOf_nil]

theorem FirstWord.wordsOf_eq {text seps w tail : List Byte} (h : FirstWord text seps w tail) :
    wordsOf text = w :: wordsOf tail.tail := by
  rw [h.text_eq, wordsOf_skip h.seps, wordsOf_word h.ne_nil h.word h.tail]

/-- Without its first word the text is shorter. -/
theorem FirstWord.length_lt {text seps w tail : List Byte} (h : FirstWord text seps w tail) :
    tail.tail.length < text.length := by
  have hpos := List.length_pos_iff.mpr h.ne_nil
  rw [h.text_eq, List.length_append, List.length_append, List.length_tail]
  omega

/-- Every text is without a word or has a first one. -/
theorem text_cases (text : List Byte) :
    (∀ b ∈ text, alnum b = false) ∨ ∃ seps w tail, FirstWord text seps w tail := by
  have hcut : text.takeWhile (fun b => !alnum b) ++ text.dropWhile (fun b => !alnum b) = text :=
    List.takeWhile_append_dropWhile
  have hstop := List.head?_dropWhile_not (fun b => !alnum b) text
  cases hrest : text.dropWhile (fun b => !alnum b) with
  | nil =>
      apply Or.inl
      intro b hb
      simpa using List.dropWhile_eq_nil_iff.mp hrest b hb
  | cons a rest =>
      -- the first run begins here
      rw [hrest, List.head?_cons] at hstop
      have ha : alnum a = true := by simpa using hstop
      refine .inr ⟨text.takeWhile (fun b => !alnum b), a :: rest.takeWhile alnum,
        rest.dropWhile alnum, ?_, ?_, List.cons_ne_nil _ _, ?_, ?_⟩
      · rw [List.cons_append, List.takeWhile_append_dropWhile, ← hrest, hcut]
      · intro b hb
        simpa using List.mem_takeWhile_imp hb
      · intro b hb
        rcases List.mem_cons.mp hb with rfl | hb
        · exact ha
        · exact List.mem_takeWhile_imp hb
      · intro b hb
        have hend := List.head?_dropWhile_not alnum rest
        rwa [Option.mem_def.mp hb] at hend

/-! ## Reading a word -/

/-- The character of a byte that was read is no EOF, and it is below `MAXBUF`. -/
theorem byte_lt_maxbuf : ∀ b : Byte,
    ¬ ((b.setWidth 32 : CInt) = EOF ∨ (MAXBUF : ℤ) ≤ (b.setWidth 32 : CInt).toInt) := by
  decide +kernel

theorem isalnum_eof : isalnum EOF = false := by decide

section Reading

variable {stdin : FILE} {text w tail : List Byte}

/-- Nothing but other characters: the end of the file. -/
theorem skipLoop_end (htext : ∀ b ∈ text, alnum b = false) (hrest : stdin.rest = text) {fuel : ℕ}
    (hfuel : text.length < fuel) :
    ∃ stdin', skipLoop fuel (fgetc stdin).1 (fgetc stdin).2 = .ok (none, stdin') := by
  induction text generalizing stdin fuel with
  | nil =>
      obtain ⟨fuel, rfl⟩ := Nat.exists_eq_add_of_le' (Nat.one_le_of_lt hfuel)
      rw [fgetc_reading_nil stdin hrest]
      refine ⟨stdin, ?_⟩
      rw [skipLoop, isalnum_eof]
      rfl
  | cons b text ih =>
      obtain ⟨fuel, rfl⟩ := Nat.exists_eq_add_of_le' (Nat.one_le_of_lt hfuel)
      rw [List.length_cons] at hfuel
      have hb : isalnum (b.setWidth 32) = false := htext b List.mem_cons_self
      obtain ⟨stdin', hloop⟩ := @ih { stdin with rest := text }
        (fun b' hb' => htext b' (List.mem_cons_of_mem b hb')) rfl fuel (by omega)
      refine ⟨stdin', ?_⟩
      rw [fgetc_cons hrest, skipLoop, hb, if_neg Bool.false_ne_true, if_neg (byte_ne_eof b)]
      exact hloop

/-- Other characters and then one of a word. -/
theorem skipLoop_word {b : Byte} (htext : ∀ b ∈ text, alnum b = false) (hb : alnum b = true)
    (hrest : stdin.rest = text ++ b :: tail) {fuel : ℕ} (hfuel : text.length < fuel) :
    skipLoop fuel (fgetc stdin).1 (fgetc stdin).2
      = .ok (some (b.setWidth 32), { stdin with rest := tail }) := by
  induction text generalizing stdin fuel with
  | nil =>
      obtain ⟨fuel, rfl⟩ := Nat.exists_eq_add_of_le' (Nat.one_le_of_lt hfuel)
      have hb' : isalnum (b.setWidth 32) = true := hb
      rw [fgetc_cons hrest, skipLoop, hb', if_pos rfl]
  | cons a text ih =>
      obtain ⟨fuel, rfl⟩ := Nat.exists_eq_add_of_le' (Nat.one_le_of_lt hfuel)
      rw [List.length_cons] at hfuel
      have ha : isalnum (a.setWidth 32) = false := htext a List.mem_cons_self
      have hloop := @ih { stdin with rest := text ++ b :: tail }
        (fun b' hb' => htext b' (List.mem_cons_of_mem a hb')) rfl fuel (by omega)
      rw [fgetc_cons hrest, skipLoop, ha, if_neg Bool.false_ne_true, if_neg (byte_ne_eof a)]
      exact hloop

/-- The characters of the word go into the buffer, as long as it lasts. -/
theorem wordLoop_spec (hw : ∀ b ∈ w, alnum b = true) (htail : ∀ b ∈ tail.head?, alnum b = false)
    (hrest : stdin.rest = w ++ tail) (buf : List Byte) {fuel : ℕ} (hfuel : w.length < fuel)
    (hbuf : buf.length ≤ MAXBUF) :
    wordLoop fuel buf (fgetc stdin).1 (fgetc stdin).2
      = if buf.length + w.length ≤ MAXBUF then
          .ok (buf ++ w, { stdin with rest := tail.tail })
        else .error .overrun := by
  induction w generalizing stdin buf fuel with
  | nil =>
      obtain ⟨fuel, rfl⟩ := Nat.exists_eq_add_of_le' (Nat.one_le_of_lt hfuel)
      rw [List.length_nil, if_pos (show buf.length + 0 ≤ MAXBUF from hbuf), List.append_nil]
      rw [List.nil_append] at hrest
      cases tail with
      | nil =>
          rw [fgetc_reading_nil stdin hrest, wordLoop, isalnum_eof, if_neg Bool.false_ne_true,
            List.tail_nil, ← hrest]
      | cons b tail =>
          -- the character behind the word is read as well
          have hb : isalnum (b.setWidth 32) = false := htail b rfl
          rw [fgetc_cons hrest, wordLoop, hb, if_neg Bool.false_ne_true, List.tail_cons]
  | cons a w ih =>
      obtain ⟨fuel, rfl⟩ := Nat.exists_eq_add_of_le' (Nat.one_le_of_lt hfuel)
      rw [List.length_cons] at hfuel
      have ha : isalnum (a.setWidth 32) = true := hw a List.mem_cons_self
      rw [fgetc_cons hrest, wordLoop, ha, if_pos rfl, if_neg (byte_lt_maxbuf a), setWidth_byte]
      by_cases hroom : MAXBUF ≤ buf.length
      · rw [if_pos hroom, if_neg (by rw [List.length_cons]; omega)]
      · rw [if_neg hroom]
        have hloop := @ih { stdin with rest := w ++ tail }
          (fun b hb => hw b (List.mem_cons_of_mem a hb)) rfl (buf ++ [a]) fuel (by omega)
          (by rw [List.length_append, List.length_singleton]; omega)
        rw [List.length_append, List.length_singleton, List.append_assoc] at hloop
        rw [List.length_cons, ← Nat.add_assoc, Nat.add_right_comm]
        exact hloop

/-- **`words_next_word`** at a text without a word. -/
theorem words_next_word_none (h : ∀ b ∈ stdin.rest, alnum b = false) :
    ∃ stdin', words_next_word stdin = .ok (none, stdin') := by
  have hlen := length_fgetc_rest stdin
  have hfuel : stdin.rest.length < (fgetc stdin).2.rest.length + 2 := by omega
  obtain ⟨stdin', hskip⟩ := skipLoop_end h rfl hfuel
  refine ⟨stdin', ?_⟩
  unfold words_next_word
  simp only [hskip, bind, Except.bind]

/-- **`words_next_word`** in front of a word: it is returned, and the character behind it is
gone, if it fits the buffer. -/
theorem words_next_word_word {seps : List Byte} (h : FirstWord stdin.rest seps w tail) :
    words_next_word stdin
      = if w.length ≤ MAXBUF then .ok (some w, { stdin with rest := tail.tail })
        else .error .overrun := by
  obtain ⟨hrest, hseps, hne, hw, htail⟩ := h
  obtain ⟨b, w', rfl⟩ := List.exists_cons_of_ne_nil hne
  have hlen := length_fgetc_rest stdin
  have hfuel : seps.length < (fgetc stdin).2.rest.length + 2 := by
    rw [hrest, List.length_append] at hlen
    omega
  have hskip : skipLoop ((fgetc stdin).2.rest.length + 2) (fgetc stdin).1 (fgetc stdin).2
      = .ok (some (b.setWidth 32), { stdin with rest := w' ++ tail }) :=
    skipLoop_word hseps (hw b List.mem_cons_self) hrest hfuel
  have hword : wordLoop ((w' ++ tail).length + 2) [] (b.setWidth 32) { stdin with rest := w' ++ tail }
      = if ([] : List Byte).length + (b :: w').length ≤ MAXBUF then
          .ok ([] ++ b :: w', { stdin with rest := tail.tail })
        else .error .overrun := by
    have hshort : (b :: w').length < (w' ++ tail).length + 2 := by
      rw [List.length_cons, List.length_append]
      omega
    have hfirst : fgetc { stdin with rest := b :: w' ++ tail }
        = (b.setWidth 32, { stdin with rest := w' ++ tail }) := fgetc_cons rfl
    have hloop := @wordLoop_spec { stdin with rest := b :: w' ++ tail } _ _ hw htail rfl [] _ hshort
      (Nat.zero_le _)
    rwa [hfirst] at hloop
  rw [List.length_nil, Nat.zero_add, List.nil_append] at hword
  unfold words_next_word
  simp only [hskip, bind, Except.bind]
  rw [hword]
  split_ifs with hfits <;> rfl

end Reading

end ProjectsInC.WordFreq
