/-
The counts of `count-strings` and the lines of the text.

In a text without NUL a piece that `fgets` reads is searched as a whole, so that the counts are
those of the pieces ([`count_occurrences_chunks`]). A piece has 999 characters at most: a line of
1000 characters, the longest that the program promises to read as one, is cut in front of its last
character, and an occurrence that ends there is lost if it begins in front of the cut
([`lines_whole_iff`]).
-/
import Mathlib.Algebra.BigOperators.Group.List.Basic
import Mathlib.Data.List.TakeWhile
import ProjectsInC.CountStrings.CountStrings

set_option autoImplicit false

namespace ProjectsInC.CountStrings

open Lib (occurrences Pieces Piece)

/-! ## Pieces without NUL -/

section Pieces

variable {text : List Byte} {pieces : List (List Byte)}

theorem stringAt_zero {line : List Byte} (h : 0 ∉ line) : stringAt line 0 = line := by
  unfold stringAt
  rw [List.drop_zero, List.takeWhile_eq_self_iff]
  intro b hb
  exact decide_eq_true (fun heq => h (heq ▸ hb))

/-- Without NUL all of every piece is searched. -/
theorem lineOccurrences_eq (hnul : 0 ∉ text) (hpieces : Pieces 999 10 text pieces)
    (string : List Byte) :
    lineOccurrences string pieces = (pieces.map (occurrences string)).sum := by
  unfold lineOccurrences
  congr 1
  apply List.map_congr_left
  intro line hline
  have hmem : ∀ b ∈ line, b ∈ text := by
    intro b hb
    rw [← hpieces.flatten]
    exact List.mem_flatten.mpr ⟨line, hline, hb⟩
  rw [stringAt_zero (fun h0 => hnul (hmem 0 h0))]

theorem count_occurrences_pieces {strings : List (List Byte)} (hnul : 0 ∉ text)
    (hstrings : ∀ string ∈ strings, string ≠ []) (hpieces : Pieces 999 10 text pieces) :
    count_occurrences (.reading text) (prepare_table strings.length strings)
      = .ok (strings.map (fun string =>
          ⟨string, BitVec.ofNat 32 (pieces.map (occurrences string)).sum⟩)) := by
  have hall : ∀ string ∈ strings.take strings.length, string ≠ [] := by
    rw [List.take_length]
    exact hstrings
  rw [count_occurrences_spec hpieces hall, List.take_length]
  simp only [lineOccurrences_eq hnul hpieces]

/-- **Overlapping occurrences are counted** in every piece of the text: the counts are the numbers
of offsets at which the strings occur, as an `int` holds them. -/
theorem count_occurrences_chunks {strings : List (List Byte)} (hnul : 0 ∉ text)
    (hstrings : ∀ string ∈ strings, string ≠ []) :
    (∃ pieces, Pieces 999 10 text pieces) ∧ ∀ pieces, Pieces 999 10 text pieces →
      count_occurrences (.reading text) (prepare_table strings.length strings)
        = .ok (strings.map (fun string =>
            ⟨string, BitVec.ofNat 32 (pieces.map (occurrences string)).sum⟩)) ∧
      ∀ string, (pieces.map (occurrences string)).sum < 2 ^ 31 →
        (BitVec.ofNat 32 (pieces.map (occurrences string)).sum).toInt
          = (pieces.map (occurrences string)).sum := by
  refine ⟨Lib.exists_pieces 10 (by decide) text, ?_⟩
  intro pieces hpieces
  exact ⟨count_occurrences_pieces hnul hstrings hpieces, fun string hfits => toInt_ofNat_of_lt hfits⟩

/-- The string "aa" in the text "aaa". -/
theorem count_occurrences_chunks_aaa :
    ∃ pieces : List (List Byte), Pieces 999 10 [97, 97, 97] pieces ∧
      count_occurrences (.reading [97, 97, 97]) (prepare_table 1 [[97, 97]])
        = .ok [⟨[97, 97], BitVec.ofNat 32 (pieces.map (occurrences [97, 97])).sum⟩] := by
  obtain ⟨⟨pieces, hpieces⟩, hcount⟩ := @count_occurrences_chunks [97, 97, 97] [[97, 97]]
    (by decide) (by decide)
  exact ⟨pieces, hpieces, (hcount pieces hpieces).1⟩

/-- The pieces count a single character as the text does. -/
theorem sum_occurrences_singleton (hpieces : Pieces 999 10 text pieces) (a : Byte) :
    (pieces.map (occurrences [a])).sum = text.count a := by
  rw [← hpieces.flatten, List.count_flatten]
  congr 1
  apply List.map_congr_left
  intro line _
  exact Lib.occurrences_singleton a line

/-- **The count overflows**: 2^31 characters "a" are counted as -2^31. -/
theorem count_occurrences_overflow :
    0 ∉ List.replicate (2 ^ 31) (97 : Byte) ∧
      ∃ pieces : List (List Byte), Pieces 999 10 (List.replicate (2 ^ 31) 97) pieces ∧
        (pieces.map (occurrences [97])).sum = 2 ^ 31 ∧
        count_occurrences (.reading (List.replicate (2 ^ 31) 97)) (prepare_table 1 [[97]])
          = .ok [⟨[97], BitVec.ofNat 32 (2 ^ 31)⟩] ∧
        (BitVec.ofNat 32 (2 ^ 31)).toInt = -2 ^ 31 := by
  have hnul : 0 ∉ List.replicate (2 ^ 31) (97 : Byte) := by
    intro h
    exact absurd (List.eq_of_mem_replicate h) (by decide)
  obtain ⟨pieces, hpieces⟩ := Lib.exists_pieces (10 : Byte) (n := 999) (by decide)
    (List.replicate (2 ^ 31) 97)
  have hsum : (pieces.map (occurrences [97])).sum = 2 ^ 31 := by
    rw [sum_occurrences_singleton hpieces, List.count_replicate_self]
  refine ⟨hnul, pieces, hpieces, hsum, ?_, by decide⟩
  rw [count_occurrences_spec hpieces (by decide), List.take_succ_cons, List.take_zero,
    List.map_singleton, lineOccurrences_eq hnul hpieces, hsum]

end Pieces

/-! ## Lines -/

/-- `LINE_MAX_CHARS` -/
def LINE_MAX_CHARS : ℕ := 1000

/-- The lines of a text. -/
def linesOf (text : List Byte) : List (List Byte) := text.splitOn 10

/-- The number of places in the lines of the text at which the string occurs. -/
def inLines (string text : List Byte) : ℕ := ((linesOf text).map (occurrences string)).sum

/-- The string ends a line that is too long for the buffer, and begins in front of the cut. -/
def Straddles (string line : List Byte) : Prop :=
  line.length = LINE_MAX_CHARS ∧ 2 ≤ string.length ∧ string <:+ line

instance (string line : List Byte) : Decidable (Straddles string line) :=
  inferInstanceAs (Decidable (_ ∧ _ ∧ _))

/-- The number of lines in which an occurrence is lost. -/
def lost (string text : List Byte) : ℕ := (linesOf text).countP (fun line => Straddles string line)

theorem linesOf_single {line : List Byte} (h : 10 ∉ line) : linesOf line = [line] :=
  List.splitOn_eq_singleton h

theorem linesOf_cons {line : List Byte} (h : 10 ∉ line) (rest : List Byte) :
    linesOf (line ++ 10 :: rest) = line :: linesOf rest :=
  List.splitOn_append_cons_self_of_not_mem h rest

section Lines

variable {string line : List Byte}

/-- A line that is cut has an occurrence more than its parts if one goes across the cut. -/
theorem occurrences_long (hstring : string ≠ []) (hlong : line.length = LINE_MAX_CHARS) :
    ∃ front last, line = front ++ [last] ∧ front.length = 999 ∧
      occurrences string line = occurrences string front + occurrences string [last]
        + if Straddles string line then 1 else 0 := by
  have hne : line ≠ [] := by
    rintro rfl
    cases hlong
  obtain ⟨front, last, rfl⟩ : ∃ front last, line = front ++ [last] :=
    ⟨line.dropLast, line.getLast hne, (List.dropLast_append_getLast hne).symm⟩
  have hstraddles : Straddles string (front ++ [last])
      ↔ 2 ≤ string.length ∧ string <:+ front ++ [last] := and_iff_right hlong
  refine ⟨front, last, rfl, ?_, ?_⟩
  · rw [List.length_append, List.length_singleton] at hlong
    exact Nat.succ.inj hlong
  · rw [Lib.occurrences_cut hstring]
    simp only [hstraddles]

theorem sum_map_pair (f : List Byte → ℕ) (a b : List Byte) : ([a, b].map f).sum = f a + f b := by
  rw [List.map_cons, List.map_singleton, List.sum_cons, List.sum_singleton]

theorem not_straddles (h : line.length ≠ LINE_MAX_CHARS) : ¬ Straddles string line := fun hs => h hs.1

/-- The pieces of a last line, and what is found in them. -/
theorem last_line_pieces (hstring : string ≠ []) (hline : 10 ∉ line)
    (hlen : line.length ≤ LINE_MAX_CHARS) :
    ∃ pieces, Pieces 999 10 line pieces ∧
      (pieces.map (occurrences string)).sum + (if Straddles string line then 1 else 0)
        = occurrences string line := by
  rcases Nat.lt_or_ge line.length LINE_MAX_CHARS with hshort | hlong
  · have hnone := @not_straddles string line (Nat.ne_of_lt hshort)
    rw [if_neg hnone]
    by_cases hempty : line = []
    · rw [hempty, Lib.occurrences_nil hstring]
      exact ⟨[], .nil, rfl⟩
    · have hpiece : Piece 999 10 line [] := .last hline hempty (Nat.le_of_lt_succ hshort)
      have hpieces := Pieces.cons hpiece .nil
      rw [List.append_nil] at hpieces
      exact ⟨[line], hpieces, List.sum_singleton⟩
  · obtain ⟨front, last, rfl, hfront, hsum⟩ := occurrences_long hstring (le_antisymm hlen hlong)
    -- the buffer is full in front of the last character
    rw [List.mem_append, not_or] at hline
    have hfirst : Piece 999 10 front [last] := .full (by decide) hline.1 hfront _
    have hsecond : Piece 999 10 [last] [] := .last hline.2 (List.cons_ne_nil _ _) (by simp)
    have hpieces := Pieces.cons hsecond .nil
    rw [List.append_nil] at hpieces
    refine ⟨[front, [last]], .cons hfirst hpieces, ?_⟩
    rw [hsum, sum_map_pair]

/-- The pieces of a line and its newline, and what is found in them. -/
theorem line_pieces (hstring : string ≠ []) (hnewline : 10 ∉ string) (hline : 10 ∉ line)
    (hlen : line.length ≤ LINE_MAX_CHARS) {rest : List Byte} {pieces : List (List Byte)}
    (hrest : Pieces 999 10 rest pieces) :
    ∃ front, Pieces 999 10 (line ++ 10 :: rest) (front ++ pieces) ∧
      (front.map (occurrences string)).sum + (if Straddles string line then 1 else 0)
        = occurrences string line := by
  have hnil : occurrences string [10] = 0 := by
    have h := Lib.occurrences_concat_of_not_mem hstring [] hnewline
    rwa [List.nil_append, Lib.occurrences_nil hstring] at h
  rcases (by omega : line.length < 999 ∨ line.length = 999 ∨ 999 < line.length) with h | h | h
  · -- the newline is read with the line
    have hpiece : Piece 999 10 (line ++ [10]) rest := .stopped hline h rest
    have hpieces := Pieces.cons hpiece hrest
    rw [List.append_assoc] at hpieces
    refine ⟨[line ++ [10]], hpieces, ?_⟩
    rw [if_neg (not_straddles (by rw [LINE_MAX_CHARS]; omega)), List.map_singleton,
      List.sum_singleton, Lib.occurrences_concat_of_not_mem hstring line hnewline, Nat.add_zero]
  · -- the newline is a piece of its own
    have hpiece : Piece 999 10 line (10 :: rest) := .full (by decide) hline h _
    have hnext : Piece 999 10 [10] rest := .stopped List.not_mem_nil (by simp) rest
    refine ⟨[line, [10]], .cons hpiece (.cons hnext hrest), ?_⟩
    rw [if_neg (not_straddles (by rw [LINE_MAX_CHARS]; omega)), sum_map_pair, hnil,
      Nat.add_zero]
  · -- the last character is read with the newline
    have hlong : line.length = LINE_MAX_CHARS := le_antisymm hlen h
    obtain ⟨front, last, rfl, hfront, hsum⟩ := occurrences_long hstring hlong
    rw [List.mem_append, not_or] at hline
    have hpiece : Piece 999 10 front ([last, 10] ++ rest) := .full (by decide) hline.1 hfront _
    have hnext : Piece 999 10 [last, 10] rest := .stopped hline.2 (by simp) rest
    have hpieces := Pieces.cons hpiece (.cons hnext hrest)
    have htext : front ++ ([last, 10] ++ rest) = front ++ [last] ++ 10 :: rest := by
      rw [List.append_assoc]
      rfl
    have hlast : occurrences string [last, 10] = occurrences string [last] :=
      Lib.occurrences_concat_of_not_mem hstring [last] hnewline
    rw [htext] at hpieces
    refine ⟨[front, [last, 10]], hpieces, ?_⟩
    rw [hsum, sum_map_pair, hlast]

/-- **The pieces of a text with lines that are not too long**: with the lost ones, the occurrences
in them are those in the lines. -/
theorem pieces_of_lines (hstring : string ≠ []) (hnewline : 10 ∉ string) (text : List Byte)
    (hlines : ∀ line ∈ linesOf text, line.length ≤ LINE_MAX_CHARS) :
    ∃ pieces, Pieces 999 10 text pieces ∧
      (pieces.map (occurrences string)).sum + lost string text = inLines string text := by
  induction hlen : text.length using Nat.strongRecOn generalizing text with
  | ind len ih =>
      unfold lost inLines
      by_cases hmore : 10 ∈ text
      · obtain ⟨line, rest, rfl, hline⟩ := List.eq_append_cons_of_mem hmore
        rw [linesOf_cons hline] at hlines ⊢
        rw [List.length_append, List.length_cons] at hlen
        obtain ⟨pieces, hpieces, hrest⟩ := ih rest.length (by omega) rest
          (fun l hl => hlines l (List.mem_cons_of_mem line hl)) rfl
        obtain ⟨front, hfront, hsum⟩ := line_pieces hstring hnewline hline
          (hlines line List.mem_cons_self) hpieces
        refine ⟨front ++ pieces, hfront, ?_⟩
        rw [List.map_append, List.sum_append, List.countP_cons, List.map_cons, List.sum_cons, ← hsum]
        unfold lost inLines at hrest
        rw [← hrest]
        simp only [decide_eq_true_eq]
        ring
      · rw [linesOf_single hmore] at hlines ⊢
        obtain ⟨pieces, hpieces, hsum⟩ := last_line_pieces hstring hmore
          (hlines text List.mem_cons_self)
        refine ⟨pieces, hpieces, ?_⟩
        rw [List.countP_singleton, List.map_singleton, List.sum_singleton, ← hsum]
        simp only [decide_eq_true_eq]

end Lines

/-! ## Lines of the length that is promised -/

section Whole

variable {string text : List Byte}

theorem lost_eq_zero_iff :
    lost string text = 0 ↔ ∀ line ∈ linesOf text, ¬ Straddles string line := by
  unfold lost
  rw [List.countP_eq_zero]
  simp only [decide_eq_true_eq]

/-- The count of a string, as an `int`, is its number of places in the lines exactly if none is
lost and the number fits. -/
theorem count_eq_inLines_iff {total : ℕ} (h : total + lost string text = inLines string text) :
    (BitVec.ofNat 32 total).toInt = inLines string text ↔
      (∀ line ∈ linesOf text, ¬ Straddles string line) ∧ inLines string text < 2 ^ 31 := by
  rw [← lost_eq_zero_iff]
  constructor
  · intro heq
    have hbound := (toInt_bounds (BitVec.ofNat 32 total)).2
    rw [heq] at hbound
    have hfits : inLines string text < 2 ^ 31 := by exact_mod_cast hbound
    rw [toInt_ofNat_of_lt (by omega)] at heq
    omega
  · rintro ⟨hnone, hfits⟩
    rw [hnone, Nat.add_zero] at h
    rw [h]
    exact toInt_ofNat_of_lt hfits

/-- Every entry counts the places of its string in the lines, but for the lost ones. -/
theorem count_occurrences_lines {strings : List (List Byte)} (hnul : 0 ∉ text)
    (hlines : ∀ line ∈ linesOf text, line.length ≤ LINE_MAX_CHARS)
    (hstrings : ∀ string ∈ strings, string ≠ [] ∧ 10 ∉ string) :
    ∃ entries, count_occurrences (.reading text) (prepare_table strings.length strings)
        = .ok entries ∧ entries.map Entry.string = strings ∧
      ∀ entry ∈ entries, ∃ total, entry.count = BitVec.ofNat 32 total ∧
        total + lost entry.string text = inLines entry.string text := by
  have hne : ∀ string ∈ strings, string ≠ [] := fun string hmem => (hstrings string hmem).1
  obtain ⟨pieces, hpieces⟩ : ∃ pieces, Pieces 999 10 text pieces :=
    Lib.exists_pieces 10 (by decide) text
  have hcount := count_occurrences_pieces hnul hne hpieces
  refine ⟨_, hcount, ?_, ?_⟩
  · rw [List.map_map]
    exact List.map_id strings
  · intro entry hentry
    obtain ⟨string, hmem, rfl⟩ := List.mem_map.mp hentry
    obtain ⟨pieces', hpieces', hsum⟩ :=
      pieces_of_lines (hne string hmem) (hstrings string hmem).2 text hlines
    -- the text has one list of pieces, and one count
    have hlists := hcount.symm.trans (count_occurrences_pieces hnul hne hpieces')
    have hsame := List.map_inj_left.mp (Except.ok.inj hlists) string hmem
    exact ⟨_, congrArg Entry.count hsame, hsum⟩

/-- **Lines up to 1000 characters are searched whole** exactly if no line of just that length ends
with the string, unless it is one character, and the number of occurrences fits an `int`. -/
theorem lines_whole_iff {strings : List (List Byte)} (hnul : 0 ∉ text)
    (hlines : ∀ line ∈ linesOf text, line.length ≤ LINE_MAX_CHARS)
    (hstrings : ∀ string ∈ strings, string ≠ [] ∧ 10 ∉ string) :
    ∃ entries, count_occurrences (.reading text) (prepare_table strings.length strings)
        = .ok entries ∧ entries.map Entry.string = strings ∧
      ∀ entry ∈ entries, entry.count.toInt = inLines entry.string text ↔
        (∀ line ∈ linesOf text, line.length = LINE_MAX_CHARS → 2 ≤ entry.string.length →
          ¬ entry.string <:+ line) ∧ inLines entry.string text < 2 ^ 31 := by
  obtain ⟨entries, hrun, hmap, hentries⟩ := count_occurrences_lines hnul hlines hstrings
  refine ⟨entries, hrun, hmap, ?_⟩
  intro entry hentry
  obtain ⟨total, hcount, hsum⟩ := hentries entry hentry
  rw [hcount, count_eq_inLines_iff hsum]
  unfold Straddles
  simp only [not_and]

/-- The string "aa" in the text "aaa". -/
theorem lines_whole_iff_aaa :
    ∃ entries, count_occurrences (.reading [97, 97, 97]) (prepare_table 1 [[97, 97]]) = .ok entries ∧
      ∀ entry ∈ entries, entry.string = [97, 97] → entry.count.toInt = 2 := by
  obtain ⟨entries, hrun, -, hcount⟩ := @lines_whole_iff [97, 97, 97] [[97, 97]] (by decide)
    (by decide) (by decide)
  refine ⟨entries, hrun, fun entry hentry hstring => ?_⟩
  have hiff := hcount entry hentry
  rw [hstring] at hiff
  exact hiff.mpr (by decide)

/-- A line of 1000 characters "a": of the 999 places of "aa" the last one is lost. -/
theorem lines_not_whole :
    ∃ entries, count_occurrences (.reading (List.replicate 1000 97)) (prepare_table 1 [[97, 97]])
        = .ok entries ∧ (∀ line ∈ linesOf (List.replicate 1000 97), line.length ≤ LINE_MAX_CHARS) ∧
      ∃ entry ∈ entries, entry.string = [97, 97] ∧
        entry.count.toInt ≠ inLines [97, 97] (List.replicate 1000 97) := by
  have hother : ∀ b : Byte, b ≠ 97 → b ∉ List.replicate 1000 (97 : Byte) :=
    fun b hb hmem => hb (List.eq_of_mem_replicate hmem)
  have hline : linesOf (List.replicate 1000 97) = [List.replicate 1000 97] :=
    linesOf_single (hother 10 (by decide))
  have hlines : ∀ line ∈ linesOf (List.replicate 1000 97), line.length ≤ LINE_MAX_CHARS := by
    rw [hline, List.forall_mem_singleton, List.length_replicate]
    exact le_rfl
  obtain ⟨entries, hrun, hstrings, hentries⟩ := @count_occurrences_lines (List.replicate 1000 97)
    [[97, 97]] (hother 0 (by decide)) hlines (by decide)
  obtain ⟨entry, rest, rfl⟩ : ∃ entry rest, entries = entry :: rest := by
    cases entries with
    | nil => cases hstrings
    | cons entry rest => exact ⟨entry, rest, rfl⟩
  have hstring : entry.string = [97, 97] := (List.cons.inj hstrings).1
  obtain ⟨total, hcount, hsum⟩ := hentries entry List.mem_cons_self
  refine ⟨_, hrun, hlines, entry, List.mem_cons_self, hstring, ?_⟩
  rw [← hstring, hcount]
  intro heq
  have hwhole := ((count_eq_inLines_iff hsum).mp heq).1
  rw [hstring, hline] at hwhole
  have hends : [97, 97] <:+ List.replicate 1000 (97 : Byte) := by
    have hsuffix := List.suffix_append (List.replicate 998 (97 : Byte)) (List.replicate 2 97)
    rwa [List.replicate_append_replicate] at hsuffix
  exact hwhole _ List.mem_cons_self ⟨List.length_replicate, by decide, hends⟩

end Whole

end ProjectsInC.CountStrings
