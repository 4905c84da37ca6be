/-
`count-strings.c`: the occurrences of some strings in standard input.

A line is read by `fgets` into a buffer of 1000 characters, and every string is searched for again
one character behind the place where it was found. A non-empty string is found in front of the NUL
behind the line, so that the pointer stays in the line ([`searchLoop_spec`]); the empty string is
found at every place, the last one included, and the pointer leaves the line
([`searchLoop_empty`]).
-/
import ProjectsInC.Lib.Occurrences
import ProjectsInC.Decimal
import ProjectsInC.Stdio

set_option autoImplicit false

namespace ProjectsInC.CountStrings

open Lib (offsets occurrences Pieces Piece)

/-- What stops a function of this program other than returning. -/
inductive Stop
  /-- A pointer past the NUL behind the line. -/
  | pastEnd
  /-- The bound given to a loop of the model was used up. -/
  | outOfFuel
deriving DecidableEq, Repr

/-- `Entry` -/
@[ext] structure Entry where
  string : List Byte
  count : CInt
deriving DecidableEq, Repr

/-- `prepare_table` -/
def prepare_table (n : ℕ) (strings : List (List Byte)) : List Entry :=
  (strings.take n).map (fun string => ⟨string, 0⟩)

/-- The characters at a place of the line, up to the next NUL; one stands behind the line. -/
def stringAt (line : List Byte) (found : ℕ) : List Byte := (line.drop found).takeWhile (· ≠ 0)

/-- `strstr(found, string)`; a pointer into the line is its distance from the beginning. -/
def strstr (line : List Byte) (found : ℕ) (string : List Byte) : Option ℕ :=
  (offsets string (stringAt line found)).head?.map (found + ·)

/-- The loop `while( (found= strstr(found,entries[i].string))!= NULL)`. -/
def searchLoop (line string : List Byte) : ℕ → ℕ → CInt → Except Stop CInt
  | 0, _, _ => .error .outOfFuel
  | fuel + 1, found, count =>
      match strstr line found string with
      | none => .ok count
      | some found =>
          -- `entries[i].count++` and `found++`
          if line.length < found + 1 then .error .pastEnd
          else searchLoop line string fuel (found + 1) (count + 1)

/-- One round of the loop over the entries. -/
def searchEntry (line : List Byte) (entry : Entry) : Except Stop Entry := do
  let count ← searchLoop line entry.string (line.length + 2) 0 entry.count
  .ok { entry with count := count }

/-- The size of the buffer `max`, and the argument of `fgets`. -/
def BUFFER : ℕ := 1000

/-- The loop `while (fgets(max ,1000,file)!=NULL)`. -/
def count_occurrences_loop : ℕ → FILE → List Entry → Except Stop (List Entry)
  | 0, _, _ => .error .outOfFuel
  | fuel + 1, file, entries =>
      match fgets BUFFER file with
      | (none, _) => .ok entries
      | (some line, file) => do
          let entries ← entries.mapM (searchEntry line)
          count_occurrences_loop fuel file entries

/-- `count_occurrences`; every line takes a character of the file. -/
def count_occurrences (file : FILE) (entries : List Entry) : Except Stop (List Entry) :=
  count_occurrences_loop (file.rest.length + 1) file entries

/-- `print_occurrences`: `"%s: %d\n"` for each entry. -/
def print_occurrences (entries : List Entry) : List Byte :=
  entries.flatMap (fun entry => entry.string ++ [58, 32] ++ intText entry.count ++ [10])

/-- `MAX_STRINGS` -/
def MAX_STRINGS : ℕ := 50

/-- The number `n` of `main`: more strings are ignored. -/
def stringCount (strings : List (List Byte)) : ℕ :=
  if MAX_STRINGS < strings.length then MAX_STRINGS else strings.length

/-- `main`: what is printed; `strings` is `argv+1`. `none` is the usage text. -/
def count_strings (strings : List (List Byte)) (stdin : FILE) : Except Stop (Option (List Byte)) :=
  if strings = [] then .ok none
  else do
    let entries ← count_occurrences stdin (prepare_table (stringCount strings) strings)
    .ok (some (print_occurrences entries))

/-! ## The search in a line -/

section Search

variable {line string : List Byte}

/-- From a place in front of the NUL the string goes on as before. -/
theorem stringAt_add {found j : ℕ} (hj : j ≤ (stringAt line found).length) :
    stringAt line (found + j) = (stringAt line found).drop j := by
  have hcut : ∀ (text : List Byte) (j : ℕ), j ≤ (text.takeWhile (· ≠ 0)).length →
      (text.drop j).takeWhile (· ≠ 0) = (text.takeWhile (· ≠ 0)).drop j := by
    intro text j hj
    induction text generalizing j with
    | nil => rw [List.drop_nil, List.takeWhile_nil, List.drop_nil]
    | cons b text ih =>
        cases j with
        | zero => rfl
        | succ j =>
            by_cases hb : b = 0
            · rw [List.takeWhile_cons_of_neg (by simpa using hb)] at hj
              exact absurd hj (Nat.not_succ_le_zero j)
            · rw [List.takeWhile_cons_of_pos (by simpa using hb)] at hj ⊢
              rw [List.drop_succ_cons, List.drop_succ_cons, ih j (Nat.le_of_succ_le_succ hj)]
  unfold stringAt at hj ⊢
  rw [← List.drop_drop, hcut _ j hj]

theorem length_stringAt_le {found : ℕ} (hfound : found ≤ line.length) :
    found + (stringAt line found).length ≤ line.length := by
  have hle := (List.takeWhile_sublist (fun b : Byte => decide (b ≠ 0)) (l := line.drop found)).length_le
  rw [List.length_drop] at hle
  unfold stringAt
  omega

/-- **The search for a non-empty string** stays in the line, ends, and counts the occurrences. -/
theorem searchLoop_spec (hstring : string ≠ []) {fuel found : ℕ} (hfound : found ≤ line.length)
    (hfuel : line.length < found + fuel) (count : CInt) :
    searchLoop line string fuel found count
      = .ok (count + BitVec.ofNat 32 (occurrences string (stringAt line found))) := by
  induction fuel generalizing found count with
  | zero => exact absurd hfound (by omega)
  | succ fuel ih =>
      rw [searchLoop, strstr]
      cases hfirst : (offsets string (stringAt line found)).head? with
      | none =>
          rw [Option.map_none, Lib.occurrences_of_none hfirst]
          simp
      | some k =>
          obtain ⟨hk, hcount⟩ := Lib.occurrences_of_first hstring hfirst
          have hle := length_stringAt_le hfound
          have hnext : stringAt line (found + k + 1) = (stringAt line found).drop (k + 1) := by
            rw [Nat.add_assoc]
            exact stringAt_add hk
          rw [Option.map_some, hcount]
          simp only
          rw [if_neg (by omega), ih (by omega) (by omega), hnext, add_ofNat_succ]

/-- **The search for the empty string** goes on to the NUL and past it. -/
theorem searchLoop_empty {fuel found : ℕ} (hfound : found ≤ line.length)
    (hfuel : line.length < found + fuel) (count : CInt) :
    searchLoop line [] fuel found count = .error .pastEnd := by
  induction fuel generalizing found count with
  | zero => exact absurd hfound (by omega)
  | succ fuel ih =>
      have hhere : (offsets [] (stringAt line found)).head? = some 0 := by
        rw [offsets, List.range_succ_eq_map, List.filter_cons_of_pos (by simp), List.head?_cons]
      rw [searchLoop, strstr, hhere, Option.map_some, Nat.add_zero]
      simp only
      by_cases hend : line.length < found + 1
      · rw [if_pos hend]
      · rw [if_neg hend]
        exact ih (by omega) (by omega) _

end Search

/-! ## A line and all the strings -/

section Line

variable {line : List Byte}

/-- An entry when a line has been searched for its string. -/
def Entry.counted (line : List Byte) (entry : Entry) : Entry :=
  { entry with
    count := entry.count + BitVec.ofNat 32 (occurrences entry.string (stringAt line 0)) }

theorem searchEntry_spec {entry : Entry} (h : entry.string ≠ []) :
    searchEntry line entry = .ok (entry.counted line) := by
  unfold searchEntry
  rw [searchLoop_spec h (Nat.zero_le _) (by omega)]
  rfl

theorem searchEntry_empty {entry : Entry} (h : entry.string = []) :
    searchEntry line entry = .error .pastEnd := by
  unfold searchEntry
  rw [h, searchLoop_empty (Nat.zero_le _) (by omega)]
  rfl

/-- A line and the entries: all are counted, if none has the empty string. -/
theorem searchEntries_eq (line : List Byte) (entries : List Entry) :
    entries.mapM (searchEntry line)
      = if ∀ entry ∈ entries, entry.string ≠ [] then .ok (entries.map (Entry.counted line))
        else .error .pastEnd := by
  induction entries with
  | nil => rfl
  | cons entry entries ih =>
      rw [List.mapM_cons, ih]
      by_cases hentry : entry.string = []
      · have hnot : ¬ ∀ e ∈ entry :: entries, e.string ≠ [] :=
          fun h => h entry List.mem_cons_self hentry
        rw [searchEntry_empty hentry, if_neg hnot]
        rfl
      · rw [searchEntry_spec hentry]
        simp only [List.forall_mem_cons, ne_eq, hentry, not_false_eq_true, true_and, bind,
          Except.bind, pure, Except.pure]
        split_ifs <;> rfl

end Line

/-! ## All the lines -/

/-- The number of occurrences in the lines that `fgets` reads, in each up to its first NUL. -/
def lineOccurrences (string : List Byte) (pieces : List (List Byte)) : ℕ :=
  (pieces.map (fun line => occurrences string (stringAt line 0))).sum

/-- **`count_occurrences`** with non-empty strings. -/
theorem count_occurrences_loop_spec {text : List Byte} {pieces : List (List Byte)}
    (hpieces : Pieces 999 10 text pieces) {file : FILE} (hfile : file.rest = text)
    {entries : List Entry} (hentries : ∀ entry ∈ entries, entry.string ≠ []) {fuel : ℕ}
    (hfuel : text.length < fuel) :
    count_occurrences_loop fuel file entries
      = .ok (entries.map (fun entry => { entry with
          count := entry.count + BitVec.ofNat 32 (lineOccurrences entry.string pieces) })) := by
  induction hpieces generalizing file entries fuel with
  | nil =>
      obtain ⟨fuel, rfl⟩ := Nat.exists_eq_add_of_le' (Nat.one_le_of_lt hfuel)
      rw [count_occurrences_loop, fgets_end BUFFER hfile]
      have hsame : entries.map (fun entry => { entry with
          count := entry.count + BitVec.ofNat 32 (lineOccurrences entry.string []) }) = entries := by
        conv_rhs => rw [← List.map_id entries]
        apply List.map_congr_left
        intro entry _
        ext1
        · rfl
        · exact BitVec.add_zero _
      rw [hsame]
  | @cons line rest pieces hline hrest ih =>
      obtain ⟨fuel, rfl⟩ := Nat.exists_eq_add_of_le' (Nat.one_le_of_lt hfuel)
      have hpos := List.length_pos_iff.mpr hline.ne_nil
      rw [List.length_append] at hfuel
      have hkept : ∀ entry ∈ entries.map (Entry.counted line), entry.string ≠ [] := by
        intro entry hentry
        obtain ⟨entry', hmem, rfl⟩ := List.mem_map.mp hentry
        exact hentries entry' hmem
      rw [count_occurrences_loop, fgets_piece (n := BUFFER) hline hfile]
      simp only [searchEntries_eq, if_pos hentries, bind, Except.bind]
      rw [@ih { file with rest := rest } rfl _ hkept fuel (by omega), List.map_map]
      congr 1
      apply List.map_congr_left
      intro entry _
      ext1
      · rfl
      · simp only [Function.comp_apply, Entry.counted, lineOccurrences, List.map_cons, List.sum_cons,
          BitVec.ofNat_add, BitVec.add_assoc]

/-- **`count_occurrences`** with an empty string among the others: the first line is its end. -/
theorem count_occurrences_loop_empty {file : FILE} (hfile : file.rest ≠ []) {entries : List Entry}
    (hentries : ¬ ∀ entry ∈ entries, entry.string ≠ []) {fuel : ℕ} (hfuel : fuel ≠ 0) :
    count_occurrences_loop fuel file entries = .error .pastEnd := by
  obtain ⟨fuel, rfl⟩ := Nat.exists_eq_succ_of_ne_zero hfuel
  obtain ⟨line, rest, htext, hline⟩ := Lib.exists_piece (10 : Byte) (n := 999) (by decide) hfile
  rw [count_occurrences_loop, fgets_piece (n := BUFFER) hline htext]
  simp only [searchEntries_eq, if_neg hentries]
  rfl

/-! ## The program -/

section Program

variable {text : List Byte} {strings : List (List Byte)}

theorem count_occurrences_reading (text : List Byte) (entries : List Entry) :
    count_occurrences (.reading text) entries
      = count_occurrences_loop text.length.succ (.reading text) entries := rfl

theorem prepare_table_strings {n : ℕ} {P : List Byte → Prop} :
    (∀ entry ∈ prepare_table n strings, P entry.string) ↔ ∀ string ∈ strings.take n, P string := by
  rw [prepare_table, List.forall_mem_map]

/-- From zero: what the entries of the table hold in the end. -/
theorem count_occurrences_spec {pieces : List (List Byte)} (hpieces : Pieces 999 10 text pieces)
    {n : ℕ} (hstrings : ∀ string ∈ strings.take n, string ≠ []) :
    count_occurrences (.reading text) (prepare_table n strings)
      = .ok ((strings.take n).map (fun string =>
          ⟨string, BitVec.ofNat 32 (lineOccurrences string pieces)⟩)) := by
  have hrun := @count_occurrences_loop_spec text pieces hpieces (.reading text) rfl
    (prepare_table n strings) (prepare_table_strings.mpr hstrings) _ (Nat.lt_succ_self _)
  rw [count_occurrences_reading, hrun, prepare_table, List.map_map]
  congr 1
  apply List.map_congr_left
  intro string _
  ext1
  · rfl
  · exact BitVec.zero_add _

/-- The search for the strings of a command line in an input: the pointer `found` stays in the
line that was read, and every loop ends. -/
def StaysInside (strings : List (List Byte)) (input : List Byte) : Prop :=
  ∃ output, count_strings strings (.reading input) = .ok output

theorem take_stringCount (strings : List (List Byte)) :
    strings.take (stringCount strings) = strings.take MAX_STRINGS := by
  unfold stringCount
  split_ifs with hmany
  · rfl
  · rw [List.take_length, List.take_of_length_le (not_lt.mp hmany)]

/-- **The search stays in the line** exactly if there is no line, or none of the strings searched
for is empty. -/
theorem stays_inside_iff (strings : List (List Byte)) (input : List Byte) :
    StaysInside strings input ↔ input = [] ∨ [] ∉ strings.take MAX_STRINGS := by
  unfold StaysInside count_strings
  by_cases hnone : strings = []
  · rw [if_pos hnone, hnone]
    exact iff_of_true ⟨none, rfl⟩ (.inr List.not_mem_nil)
  rw [if_neg hnone]
  have hempty : [] ∉ strings.take MAX_STRINGS
      ↔ ∀ string ∈ strings.take (stringCount strings), string ≠ [] := by
    rw [take_stringCount]
    exact ⟨fun h string hmem heq => h (heq ▸ hmem), fun h hmem => h [] hmem rfl⟩
  rw [hempty]
  by_cases hall : ∀ string ∈ strings.take (stringCount strings), string ≠ []
  · obtain ⟨pieces, hpieces⟩ := Lib.exists_pieces (10 : Byte) (n := 999) (by decide) input
    simp only [count_occurrences_spec hpieces hall, bind, Except.bind]
    exact iff_of_true ⟨_, rfl⟩ (.inr hall)
  · rw [or_iff_left hall]
    constructor
    · rintro ⟨output, hrun⟩
      by_contra hinput
      have hfail := @count_occurrences_loop_empty (.reading input) hinput
        (prepare_table (stringCount strings) strings)
        (mt (prepare_table_strings (P := (· ≠ []))).mp hall) _ (Nat.succ_ne_zero input.length)
      rw [count_occurrences_reading, hfail] at hrun
      cases hrun
    · -- without a line nothing is searched for
      rintro rfl
      exact ⟨_, rfl⟩

/-- The empty string is searched for in the line "a". -/
theorem leaves_line :
    count_strings [[]] (.reading [97]) = .error .pastEnd ∧ ¬ StaysInside [[]] [97] := by
  have hrun : count_strings [[]] (.reading [97]) = .error .pastEnd := by decide
  refine ⟨hrun, ?_⟩
  rintro ⟨output, houtput⟩
  rw [hrun] at houtput
  cases houtput

end Program

end ProjectsInC.CountStrings
