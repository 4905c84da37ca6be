/-
`wordfreq` and `wordfreq-fast` print the same table in different orders.

Both programs hand the words of the text to the set one by one, so that what one addition
does to the list of words is done once for every word ([`addWords_spec`]): appending gives the
order of first occurrence, moving to the front that of last occurrence.
-/
import ProjectsInC.WordFreq.WordSet

set_option autoImplicit false

namespace ProjectsInC.WordFreq

open Lib (arrive arrivals touch recency)

/-! ## The two programs -/

/-- The loop of both `main`s, with the function that adds a word. Every word takes a
character of the text. -/
def addWords (add : WordSet → List Byte → Except Stop (CInt × WordSet)) :
    ℕ → WordSet → FILE → Except Stop WordSet
  | 0, _, _ => .error .outOfFuel
  | fuel + 1, ws, stdin => do
      match ← words_next_word stdin with
      | (none, _) => .ok ws
      | (some word, stdin) => do
          let (_, ws) ← add ws word
          addWords add fuel ws stdin

/-- `wordfreq.c`: the set when the text has been read. -/
def wordfreq (text : List Byte) : Except Stop WordSet :=
  addWords wset_add (text.length + 1) wset_new (.reading text)

/-- `wordfreq-fast.c` -/
def wordfreq_fast (text : List Byte) : Except Stop WordSet :=
  addWords wset_fast_add (text.length + 1) wset_new (.reading text)

/-! ## The set after a text -/

/-- The function `add` changes the list of words by `order`. -/
def AddsBy (add : WordSet → List Byte → Except Stop (CInt × WordSet))
    (order : List Byte → List (List Byte) → List (List Byte)) : Prop :=
  ∀ wset chain seen keys w, Listed wset chain seen keys →
    ∃ freq wset' chain', add wset w = .ok (freq, wset') ∧
      Listed wset' chain' (seen ++ [w]) (order w keys)

theorem addsBy_arrive : AddsBy wset_add arrive := by
  intro wset chain seen keys w h
  exact ⟨_, wset_add_spec h w⟩

theorem addsBy_touch : AddsBy wset_fast_add touch := by
  intro wset chain seen keys w h
  exact ⟨_, wset_fast_add_spec h w⟩

/-- The loop adds the words of the text, in order. -/
theorem addWords_spec {add : WordSet → List Byte → Except Stop (CInt × WordSet)}
    {order : List Byte → List (List Byte) → List (List Byte)} (hadd : AddsBy add order)
    {wset : WordSet} {chain : List ℕ} {seen keys : List (List Byte)}
    (h : Listed wset chain seen keys) {stdin : FILE} {fuel : ℕ} (hfuel : stdin.rest.length < fuel)
    (hruns : ∀ w ∈ wordsOf stdin.rest, w.length ≤ MAXBUF) :
    ∃ wset' chain', addWords add fuel wset stdin = .ok wset' ∧
      Listed wset' chain' (seen ++ wordsOf stdin.rest)
        ((wordsOf stdin.rest).foldl (fun l w => order w l) keys) := by
  induction fuel generalizing wset chain seen keys stdin with
  | zero => exact absurd hfuel (Nat.not_lt_zero _)
  | succ fuel ih =>
      rcases text_cases stdin.rest with hnone | ⟨seps, w, tail, hfirst⟩
      · obtain ⟨stdin', hnext⟩ := words_next_word_none hnone
        refine ⟨wset, chain, ?_, ?_⟩
        · rw [addWords, hnext]
          rfl
        · rw [wordsOf_none hnone, List.append_nil]
          exact h
      · rw [hfirst.wordsOf_eq] at hruns ⊢
        have hnext := words_next_word_word hfirst
        rw [if_pos (hruns w List.mem_cons_self)] at hnext
        obtain ⟨freq, wset₁, chain₁, hstep, h₁⟩ := hadd wset chain seen keys w h
        -- the word is gone from the text
        have hshort : tail.tail.length < fuel :=
          Nat.lt_of_lt_of_le hfirst.length_lt (Nat.le_of_lt_succ hfuel)
        obtain ⟨wset', chain', hrun, h'⟩ := @ih _ _ _ _ h₁ { stdin with rest := tail.tail } hshort
          (fun v hv => hruns v (List.mem_cons_of_mem w hv))
        refine ⟨wset', chain', ?_, ?_⟩
        · rw [addWords, hnext]
          simp only [bind, Except.bind, hstep]
          exact hrun
        · rw [List.append_assoc, List.singleton_append] at h'
          exact h'

section Text

variable {text : List Byte}

/-- **`wordfreq`**: the words in order of arrival. -/
theorem wordfreq_spec (hruns : ∀ w ∈ wordsOf text, w.length ≤ MAXBUF) :
    ∃ ws chain, wordfreq text = .ok ws ∧
      Listed ws chain (wordsOf text) (arrivals (wordsOf text)) :=
  @addWords_spec _ _ addsBy_arrive _ _ _ _ listed_new (.reading text) _ (Nat.lt_succ_self _) hruns

/-- **`wordfreq-fast`**: the words in order of recency. -/
theorem wordfreq_fast_spec (hruns : ∀ w ∈ wordsOf text, w.length ≤ MAXBUF) :
    ∃ ws chain, wordfreq_fast text = .ok ws ∧
      Listed ws chain (wordsOf text) (recency (wordsOf text)) :=
  @addWords_spec _ _ addsBy_touch _ _ _ _ listed_new (.reading text) _ (Nat.lt_succ_self _) hruns

end Text

/-! ## The two tables -/

/-- The table of a list of words: each one with its number in `words`. -/
def table (words keys : List (List Byte)) : List (List Byte × CInt) :=
  keys.map (fun w => (w, BitVec.ofNat 32 (words.count w)))

theorem map_fst_table (words keys : List (List Byte)) : (table words keys).map Prod.fst = keys := by
  rw [table, List.map_map]
  exact List.map_id keys

theorem mem_table {words keys : List (List Byte)} {w : List Byte} {freq : CInt} :
    (w, freq) ∈ table words keys ↔ w ∈ keys ∧ freq = BitVec.ofNat 32 (words.count w) := by
  unfold table
  rw [List.mem_map]
  constructor
  · rintro ⟨v, hv, heq⟩
    obtain ⟨rfl, rfl⟩ := Prod.mk.inj heq
    exact ⟨hv, rfl⟩
  · rintro ⟨hw, rfl⟩
    exact ⟨w, hw, rfl⟩

/-- The set prints the words, each distinct one once and with the number of its occurrences,
and its size is the number of distinct ones, as an `int` can hold these numbers. -/
structure Tabulates (words : List (List Byte)) (ws : WordSet)
    (entries : List (List Byte × CInt)) : Prop where
  prints : wset_print ws = .ok entries
  distinct : (entries.map Prod.fst).Nodup
  freq : ∀ w freq, (w, freq) ∈ entries ↔ w ∈ words ∧ freq = BitVec.ofNat 32 (words.count w)
  size : wset_size ws = BitVec.ofNat 32 words.toFinset.card
  exact_freq : ∀ w freq, (w, freq) ∈ entries → words.count w < 2 ^ 31 →
    freq.toInt = words.count w
  exact_size : words.toFinset.card < 2 ^ 31 → (wset_size ws).toInt = words.toFinset.card

theorem Listed.tabulates {wset : WordSet} {chain : List ℕ} {seen keys : List (List Byte)}
    (h : Listed wset chain seen keys) : Tabulates seen wset (table seen keys) := by
  have hset : keys.toFinset = seen.toFinset := by
    ext w
    rw [List.mem_toFinset, List.mem_toFinset]
    exact h.mem w
  have hsize : wset_size wset = BitVec.ofNat 32 seen.toFinset.card := by
    rw [wset_size, h.size, ← List.toFinset_card_of_nodup h.distinct, hset]
  have hfreq : ∀ w freq, (w, freq) ∈ table seen keys ↔
      w ∈ seen ∧ freq = BitVec.ofNat 32 (seen.count w) := by
    intro w freq
    rw [mem_table, h.mem w]
  refine ⟨wset_print_spec h, ?_, hfreq, hsize, ?_, ?_⟩
  · rw [map_fst_table]
    exact h.distinct
  · intro w freq hmem hfits
    rw [((hfreq w freq).mp hmem).2]
    exact toInt_ofNat_of_lt hfits
  · intro hfits
    rw [hsize]
    exact toInt_ofNat_of_lt hfits

/-- Two sets with the same words print the same entries. -/
theorem Listed.table_perm {wset wset' : WordSet} {chain chain' : List ℕ}
    {seen keys keys' : List (List Byte)} (h : Listed wset chain seen keys)
    (h' : Listed wset' chain' seen keys') : (table seen keys).Perm (table seen keys') := by
  apply List.Perm.map
  apply (List.perm_ext_iff_of_nodup h.distinct h'.distinct).mpr
  intro w
  rw [h.mem w, h'.mem w]

/-- **`wordfreq` and `wordfreq-fast` agree**: if every run of alphanumeric characters fits the
buffer, they print the same entries, the one in order of first occurrence, the other in order
of last occurrence, the most recent first. -/
theorem wordfreq_agree (text : List Byte) (hruns : ∀ w ∈ wordsOf text, w.length ≤ MAXBUF) :
    ∃ ws₁ ws₂ entries₁ entries₂, wordfreq text = .ok ws₁ ∧ wordfreq_fast text = .ok ws₂ ∧
      Tabulates (wordsOf text) ws₁ entries₁ ∧ Tabulates (wordsOf text) ws₂ entries₂ ∧
      entries₁.Perm entries₂ ∧
      (entries₁.map Prod.fst).Pairwise
        (fun v w => (wordsOf text).idxOf v < (wordsOf text).idxOf w) ∧
      (entries₂.map Prod.fst).Pairwise
        (fun v w => (wordsOf text).reverse.idxOf v < (wordsOf text).reverse.idxOf w) := by
  obtain ⟨ws₁, chain₁, hrun₁, h₁⟩ := wordfreq_spec hruns
  obtain ⟨ws₂, chain₂, hrun₂, h₂⟩ := wordfreq_fast_spec hruns
  refine ⟨ws₁, ws₂, _, _, hrun₁, hrun₂, h₁.tabulates, h₂.tabulates, h₁.table_perm h₂, ?_, ?_⟩
  · rw [map_fst_table]
    exact Lib.pairwise_arrivals _
  · rw [map_fst_table]
    exact Lib.pairwise_recency _

/-- The text "a b a". -/
theorem wordfreq_agree_aba :
    ∃ ws₁ ws₂ entries₁ entries₂, wordfreq [97, 32, 98, 32, 97] = .ok ws₁ ∧
      wordfreq_fast [97, 32, 98, 32, 97] = .ok ws₂ ∧
      Tabulates [[97], [98], [97]] ws₁ entries₁ ∧ Tabulates [[97], [98], [97]] ws₂ entries₂ ∧
      entries₁.Perm entries₂ ∧
      (entries₁.map Prod.fst).Pairwise
        (fun v w => [[97], [98], [97]].idxOf v < [[97], [98], [97]].idxOf w) ∧
      (entries₂.map Prod.fst).Pairwise
        (fun v w => [[97], [98], [97]].reverse.idxOf v < [[97], [98], [97]].reverse.idxOf w) :=
  wordfreq_agree [97, 32, 98, 32, 97] (by decide)

/-! ## Frequencies that are too large -/

/-- The word "a" again and again, a space behind each. -/
theorem wordsOf_repeat (n : ℕ) :
    wordsOf (List.replicate n [97, 32]).flatten = List.replicate n [97] := by
  induction n with
  | zero => exact wordsOf_nil
  | succ n ih =>
      have hw : ∀ b ∈ ([97] : List Byte), alnum b = true := by decide
      have htail : ∀ b ∈ (32 :: (List.replicate n [97, 32]).flatten : List Byte).head?,
          alnum b = false := by
        intro b hb
        obtain rfl : 32 = b := Option.some.inj hb
        decide
      have hsplit : (List.replicate (n + 1) ([97, 32] : List Byte)).flatten
          = [97] ++ 32 :: (List.replicate n [97, 32]).flatten := by
        rw [List.replicate_succ, List.flatten_cons]
        rfl
      rw [hsplit, wordsOf_word (List.cons_ne_nil _ _) hw htail, List.tail_cons, ih,
        List.replicate_succ]

/-- The table of one word, `n` times. -/
theorem wordfreq_repeat {n : ℕ} (hn : n ≠ 0) :
    ∃ ws, wordfreq (List.replicate n [97, 32]).flatten = .ok ws ∧
      wset_print ws = .ok [([97], BitVec.ofNat 32 n)] := by
  have hwords := wordsOf_repeat n
  have hruns : ∀ w ∈ wordsOf (List.replicate n [97, 32]).flatten, w.length ≤ MAXBUF := by
    rw [hwords]
    intro w hw
    rw [List.eq_of_mem_replicate hw]
    decide
  obtain ⟨ws, chain, hrun, h⟩ := wordfreq_spec hruns
  rw [hwords] at h
  -- all the words are one
  have hkeys : arrivals (List.replicate n ([97] : List Byte)) = [[97]] := by
    refine List.perm_singleton.mp ((List.perm_ext_iff_of_nodup h.distinct
      (List.nodup_singleton _)).mpr (fun w => ?_))
    rw [h.mem w, List.mem_replicate, List.mem_singleton]
    exact and_iff_right hn
  refine ⟨ws, hrun, ?_⟩
  rw [wset_print_spec h, hkeys, List.map_singleton, List.count_replicate_self]

/-- A word that occurs 2^31 times is printed with a negative frequency. -/
theorem wordfreq_overflow :
    (∀ w ∈ wordsOf (List.replicate (2 ^ 31) [97, 32]).flatten, w.length ≤ MAXBUF) ∧
      (wordsOf (List.replicate (2 ^ 31) [97, 32]).flatten).count [97] = 2 ^ 31 ∧
      (∃ ws, wordfreq (List.replicate (2 ^ 31) [97, 32]).flatten = .ok ws ∧
        wset_print ws = .ok [([97], BitVec.ofNat 32 (2 ^ 31))]) ∧
      (BitVec.ofNat 32 (2 ^ 31)).toInt = -2 ^ 31 := by
  rw [wordsOf_repeat]
  refine ⟨?_, List.count_replicate_self, wordfreq_repeat (Nat.pow_pos Nat.two_pos).ne', ?_⟩
  · intro w hw
    rw [List.eq_of_mem_replicate hw]
    decide
  · decide

end ProjectsInC.WordFreq
