/-
What the first pass counts.

The loop of `compute_freq` keeps `fgetc`'s result in a `char`, so the byte 255
looks like EOF to it: it counts the bytes in front of the first 255 exactly
([`compute_freq_apply`]) and none behind it.
-/
import Mathlib.Algebra.BigOperators.Ring.Finset
import Mathlib.Data.List.TakeWhile
import ProjectsInC.Lib.Partition
import ProjectsInC.Huffman.Construction

set_option autoImplicit false

namespace ProjectsInC.Huffman

/-- The bytes the first pass gets to see. -/
def counted (bytes : List Byte) : List Byte := bytes.takeWhile (· ≠ 255)

/-- Entry `i` is about character `i`. -/
def Labelled (table : FrequencyTable) : Prop :=
  ∀ i < NUMBER_OF_CHARS, (table i).c = BitVec.ofNat 8 i

theorem ofNat_toNat_byte (c : Byte) : BitVec.ofNat 8 c.toNat = c := by
  rw [BitVec.ofNat_toNat, BitVec.setWidth_eq]

theorem ofNat_byte_eq_iff {i : ℕ} (hi : i < NUMBER_OF_CHARS) {c : Byte} :
    BitVec.ofNat 8 i = c ↔ i = c.toNat := by
  have hi' : i < 256 := hi
  constructor
  · intro h
    rw [← h, BitVec.toNat_ofNat]
    omega
  · rintro rfl
    exact ofNat_toNat_byte c

/-- The linear search finds the entry of the character. -/
theorem countChar_eq {table : FrequencyTable} (h : Labelled table) (c : Byte) :
    countChar table c = table.set c.toNat ⟨(table c.toNat).v + 1, c⟩ := by
  have hfind : (List.range NUMBER_OF_CHARS).find? (fun i => (table i).c == c) = some c.toNat := by
    rw [List.find?_range_eq_some]
    -- no earlier entry is about this character
    refine ⟨?_, List.mem_range.mpr c.isLt, fun j hj => ?_⟩
    · rw [h _ c.isLt, ofNat_toNat_byte, beq_self_eq_true]
    · have hlt : j < NUMBER_OF_CHARS := hj.trans c.isLt
      rw [h j hlt, Bool.not_eq_true', beq_eq_false_iff_ne, ne_eq, ofNat_byte_eq_iff hlt]
      exact Nat.ne_of_lt hj
  rw [countChar, hfind]

theorem countChar_labelled {table : FrequencyTable} (h : Labelled table) (c : Byte) :
    Labelled (countChar table c) := by
  intro i hlt
  rw [countChar_eq h]
  by_cases hi : i = c.toNat
  · rw [hi, FrequencyTable.set_self, ofNat_toNat_byte]
  · rw [FrequencyTable.set_of_ne hi]
    exact h i hlt

theorem compute_freq_loop_apply {table : FrequencyTable} (h : Labelled table) (bytes : List Byte) :
    Labelled (compute_freq_loop table bytes) ∧ ∀ i < NUMBER_OF_CHARS,
      (compute_freq_loop table bytes i).v
        = (table i).v + BitVec.ofNat 32 ((counted bytes).count (BitVec.ofNat 8 i)) := by
  induction bytes generalizing table with
  | nil => exact ⟨h, fun i _ => (BitVec.add_zero _).symm⟩
  | cons c rest ih =>
      rw [compute_freq_loop, counted]
      by_cases hc : c = 255
      · -- the byte is taken for EOF
        rw [if_pos ((signExtend_eq_eof_iff c).mpr hc), hc]
        exact ⟨h, fun i _ => (BitVec.add_zero _).symm⟩
      · rw [if_neg (fun heof => hc ((signExtend_eq_eof_iff c).mp heof)),
          List.takeWhile_cons_of_pos (by simpa using hc)]
        obtain ⟨hlabel, hcount⟩ := ih (countChar_labelled h c)
        refine ⟨hlabel, fun i hi => ?_⟩
        rw [hcount i hi, countChar_eq h, List.count_cons, counted]
        by_cases hic : i = c.toNat
        · have hbyte : BitVec.ofNat 8 i = c := (ofNat_byte_eq_iff hi).mpr hic
          rw [hic, FrequencyTable.set_self, ofNat_toNat_byte, beq_self_eq_true, if_pos rfl,
            add_ofNat_succ]
        · have hbyte : (c == BitVec.ofNat 8 i) = false := by
            rw [beq_eq_false_iff_ne]
            exact fun heq => hic ((ofNat_byte_eq_iff hi).mp heq.symm)
          rw [FrequencyTable.set_of_ne hic, hbyte]
          rfl

theorem labelled_compute_freq (bytes : List Byte) : Labelled (compute_freq bytes) :=
  (compute_freq_loop_apply (fun _ _ => rfl) bytes).1

/-- **What the first pass counts.** -/
theorem compute_freq_apply {bytes : List Byte} (hlen : bytes.length < 2 ^ 31) {i : ℕ}
    (hi : i < NUMBER_OF_CHARS) :
    (compute_freq bytes i).v.toInt = (counted bytes).count (BitVec.ofNat 8 i) := by
  have hcount := (@compute_freq_loop_apply freshTable (fun _ _ => rfl) bytes).2 i hi
  have hle : (counted bytes).count (BitVec.ofNat 8 i) ≤ bytes.length :=
    List.count_le_length.trans (List.takeWhile_sublist _).length_le
  have hzero : (freshTable i).v = 0 := rfl
  rw [compute_freq, hcount, hzero, zero_add]
  exact toInt_ofNat_of_lt (by omega)

/-! ## The entries -/

/-- The frequency of a byte in the table. -/
theorem compute_freq_byte {bytes : List Byte} (hlen : bytes.length < 2 ^ 31) (b : Byte) :
    (compute_freq bytes b.toNat).v.toInt = (counted bytes).count b := by
  rw [compute_freq_apply hlen b.isLt, ofNat_toNat_byte]

/-- There is an entry exactly for the bytes counted. -/
theorem mem_entries_iff {bytes : List Byte} (hlen : bytes.length < 2 ^ 31) {b : Byte} :
    b ∈ (entries (compute_freq bytes)).map Frequency.c ↔ b ∈ counted bytes := by
  have hlabel := labelled_compute_freq bytes
  have hsign : 0 < (compute_freq bytes b.toNat).v.toInt ↔ b ∈ counted bytes := by
    rw [compute_freq_byte hlen, ← List.count_pos_iff]
    exact Int.natCast_pos
  rw [← hsign]
  constructor
  · intro h
    obtain ⟨f, hf, rfl⟩ := List.mem_map.mp h
    obtain ⟨i, hi, rfl⟩ := List.mem_map.mp hf
    obtain ⟨hrange, hpos⟩ := List.mem_filter.mp hi
    have hlt := List.mem_range.mp hrange
    have hi' := (ofNat_byte_eq_iff hlt).mp (hlabel i hlt).symm
    rw [← hi']
    simpa using hpos
  · intro h
    refine List.mem_map.mpr ⟨compute_freq bytes b.toNat, List.mem_map.mpr ⟨b.toNat, ?_, rfl⟩, ?_⟩
    · exact List.mem_filter.mpr ⟨List.mem_range.mpr b.isLt, by simpa using h⟩
    · rw [hlabel _ b.isLt, ofNat_toNat_byte]

/-- No character has two entries. -/
theorem Labelled.nodup_entries {table : FrequencyTable} (h : Labelled table) :
    ((entries table).map Frequency.c).Nodup := by
  rw [entries, entriesTo, List.map_map]
  refine List.Nodup.map_on (fun i hi j hj heq => ?_) (List.nodup_range.filter _)
  have hi' := List.mem_range.mp (List.mem_of_mem_filter hi)
  have hj' := List.mem_range.mp (List.mem_of_mem_filter hj)
  rw [Function.comp_apply, Function.comp_apply, h i hi', h j hj'] at heq
  rw [ofNat_byte_eq_iff hi', BitVec.toNat_ofNat] at heq
  rw [heq]
  exact Nat.mod_eq_of_lt hj'

/-- The entries add up to the whole table. -/
theorem total_entriesTo {table : FrequencyTable} (n : ℕ) (h : ∀ i < n, 0 ≤ (table i).v.toInt) :
    total (entriesTo table n) = ∑ i ∈ Finset.range n, (table i).v.toInt := by
  induction n with
  | zero => rfl
  | succ n ih =>
      rw [entriesTo_succ, total_append, ih (fun i hi => h i (by omega)), Finset.sum_range_succ]
      congr 1
      have := h n (by omega)
      by_cases hv : 0 < (table n).v.toInt
      · rw [if_pos hv]
        exact add_zero _
      · rw [if_neg hv]
        exact (le_antisymm (not_lt.mp hv) this).symm

/-- The table counts every byte it gets to see once. -/
theorem total_entries_compute_freq {bytes : List Byte} (hlen : bytes.length < 2 ^ 31) :
    total (entries (compute_freq bytes)) = (counted bytes).length := by
  have hnonneg : ∀ i < NUMBER_OF_CHARS, 0 ≤ (compute_freq bytes i).v.toInt := fun i hi => by
    rw [compute_freq_apply hlen hi]
    exact Int.natCast_nonneg _
  rw [entries, total_entriesTo _ hnonneg]
  -- the bytes fall into 256 classes, and the entries count one class each
  have hclasses : Lib.DisjointClasses (Finset.range NUMBER_OF_CHARS)
      (fun i (b : Byte) => b == BitVec.ofNat 8 i) := by
    intro i hi j hj b hbi hbj
    rw [beq_iff_eq] at hbi hbj
    rw [(ofNat_byte_eq_iff (Finset.mem_range.mp hi)).mp hbi.symm,
      (ofNat_byte_eq_iff (Finset.mem_range.mp hj)).mp hbj.symm]
  have hcovers : Lib.Covers (Finset.range NUMBER_OF_CHARS)
      (fun i (b : Byte) => b == BitVec.ofNat 8 i) (counted bytes) := fun b _ =>
    ⟨b.toNat, Finset.mem_range.mpr b.isLt, beq_iff_eq.mpr (ofNat_toNat_byte b).symm⟩
  have hsum := Lib.countP_eq_sum_filter hclasses (fun _ => true) hcovers
  simp only [List.countP_true] at hsum
  rw [hsum, Nat.cast_sum]
  apply Finset.sum_congr rfl
  intro i hi
  rw [compute_freq_apply hlen (Finset.mem_range.mp hi), List.count_eq_length_filter]

theorem total_entries_lt {bytes : List Byte} (hlen : bytes.length < 2 ^ 31) :
    total (entries (compute_freq bytes)) < 2 ^ 31 := by
  rw [total_entries_compute_freq hlen]
  have hle : (counted bytes).length ≤ bytes.length := (List.takeWhile_sublist _).length_le
  exact_mod_cast hle.trans_lt hlen

/-- Without a 255 everything is counted. -/
theorem counted_eq_self {bytes : List Byte} (h : 255 ∉ bytes) : counted bytes = bytes := by
  apply List.takeWhile_eq_self_iff.mpr
  intro b hb
  simpa using fun heq : b = 255 => h (heq ▸ hb)

theorem not_mem_counted (bytes : List Byte) : (255 : Byte) ∉ counted bytes := by
  intro h
  simpa using List.mem_takeWhile_imp h

end ProjectsInC.Huffman
