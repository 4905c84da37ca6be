/-
Do the two passes of the encoder see the same bytes?

`encoder_encode` keeps the result of `fgetc` in an `int` and reads to the end of
the file; `compute_freq` keeps it in a `char` and stops at the first byte 255. On
a file without that byte the passes agree, the tree has a leaf for every byte of
the file and `table_bit_encode` finds an entry for it; on any file with one they
do not ([`passes_agree_iff`]).
-/
import ProjectsInC.Huffman.Frequencies
import ProjectsInC.Huffman.Table

set_option autoImplicit false

namespace ProjectsInC.Huffman

/-! ## The tree of a file -/

/-- What the encoder needs to know of the tree of a file. -/
structure TreeOf (bytes : List Byte) (root : TreeNode) : Prop where
  full : Full root
  leaves : root.leaves.Perm (entries (compute_freq bytes))
  nodup : root.chars.Nodup
  mem_chars : ∀ b, b ∈ root.chars ↔ b ∈ counted bytes
  nodup_ids : root.ids.Nodup
  pos_ids : ∀ id ∈ root.ids, 0 < id.toInt

theorem entries_ne_nil {bytes : List Byte} (hlen : bytes.length < 2 ^ 31)
    (hne : counted bytes ≠ []) : entries (compute_freq bytes) ≠ [] := by
  intro hnil
  obtain ⟨b, hb⟩ := List.exists_mem_of_ne_nil _ hne
  have hmem := (mem_entries_iff hlen).mpr hb
  rw [hnil] at hmem
  exact absurd hmem List.not_mem_nil

/-- The tree of its entries is the tree of the file. -/
theorem treeOf_of_forest {bytes : List Byte} (hlen : bytes.length < 2 ^ 31) {root : TreeNode}
    {ids : CInt} (h : Forest (entries (compute_freq bytes)) [root] ids) : TreeOf bytes root := by
  obtain ⟨hfull, hleaves, hnodup, hpos⟩ := h.shape.root
  have hchars : root.chars.Perm ((entries (compute_freq bytes)).map Frequency.c) := by
    rw [hfull.chars_eq]
    exact hleaves.map _
  exact ⟨hfull, hleaves, hchars.nodup_iff.mpr (labelled_compute_freq bytes).nodup_entries,
    fun b => hchars.mem_iff.trans (mem_entries_iff hlen), hnodup, hpos⟩

/-- **`huffman_build_tree`** succeeds on a file that does not begin with a 255. -/
theorem huffman_build_tree_spec (qsort : Qsort TreeNode) (beyond : ℕ → TreeNode)
    {bytes : List Byte} (hlen : bytes.length < 2 ^ 31) (hne : counted bytes ≠ []) :
    ∃ root ids, huffman_build_tree qsort beyond bytes = some (root, ids) ∧ TreeOf bytes root := by
  obtain ⟨root, ids, hbuild, hforest, -⟩ := build_tree_spec qsort beyond
    (entries_ne_nil hlen hne) (total_entries_lt hlen) (I := fun _ => True)
    (fun _ _ _ _ => trivial) (fun _ _ _ _ _ _ _ _ => trivial) (fun _ _ _ _ => trivial)
  exact ⟨root, ids, hbuild, treeOf_of_forest hlen hforest⟩

/-! ## The two passes -/

/-- One table entry has the character `b`, and it holds how often `b` occurs in
the file. -/
def CountedExactly (bytes : List Byte) (b : Byte) : Prop :=
  ∃ i < NUMBER_OF_CHARS, (compute_freq bytes i).c = b ∧
    (∀ j < NUMBER_OF_CHARS, (compute_freq bytes j).c = b → j = i) ∧
    (compute_freq bytes i).v.toInt = bytes.count b

/-- Every byte of the file has a leaf and a table entry. -/
def Encodable (qsort : Qsort TreeNode) (beyond : ℕ → TreeNode) (bytes : List Byte) : Prop :=
  ∃ root ids etab, huffman_build_tree qsort beyond bytes = some (root, ids) ∧
    table_build root = some etab ∧
    ∀ b ∈ bytes, b ∈ root.chars ∧ ∃ s, table_bit_encode etab b = some s

theorem countedExactly_iff {bytes : List Byte} (hlen : bytes.length < 2 ^ 31) (b : Byte) :
    CountedExactly bytes b ↔ (counted bytes).count b = bytes.count b := by
  have hlabel := labelled_compute_freq bytes
  constructor
  · rintro ⟨i, hi, hc, -, hv⟩
    rw [hlabel i hi, ofNat_byte_eq_iff hi] at hc
    rw [hc, compute_freq_byte hlen] at hv
    exact_mod_cast hv
  · intro h
    refine ⟨b.toNat, b.isLt, by rw [hlabel _ b.isLt, ofNat_toNat_byte], fun j hj hc => ?_, ?_⟩
    · rwa [hlabel j hj, ofNat_byte_eq_iff hj] at hc
    · rw [compute_freq_byte hlen, h]

/-- A file of which everything was counted can be encoded. -/
theorem encodable_of_not_mem (qsort : Qsort TreeNode) (beyond : ℕ → TreeNode) {bytes : List Byte}
    (hne : bytes ≠ []) (hlen : bytes.length < 2 ^ 31) (h : 255 ∉ bytes) :
    Encodable qsort beyond bytes := by
  have hall := counted_eq_self h
  obtain ⟨root, ids, hbuild, htree⟩ := huffman_build_tree_spec qsort beyond hlen (by rwa [hall])
  have hleaf : ∀ b ∈ bytes, b ∈ root.chars := fun b hb => (htree.mem_chars b).mpr (by rwa [hall])
  have hroot : root ≠ .null := fun hnull => by
    cases hnull ▸ htree.full
  refine ⟨root, ids, _, hbuild, if_neg hroot, fun b hb => ⟨hleaf b hb, ?_⟩⟩
  obtain ⟨path, hpath⟩ := exists_path (hleaf b hb)
  obtain ⟨etab, hetab, hs⟩ := table_bit_encode_of_mem htree.nodup hpath
  rw [table_build, if_neg hroot, Option.some.injEq] at hetab
  exact ⟨bitText path, hetab ▸ hs⟩

/-- **When the two passes agree.** Every byte value is counted exactly and every
byte of the file can be encoded if and only if the byte 255 does not occur. -/
theorem passes_agree_iff (qsort : Qsort TreeNode) (beyond : ℕ → TreeNode) {bytes : List Byte}
    (hne : bytes ≠ []) (hlen : bytes.length < 2 ^ 31) :
    ((∀ b, CountedExactly bytes b) ∧ Encodable qsort beyond bytes) ↔ 255 ∉ bytes := by
  constructor
  · rintro ⟨hcount, -⟩ hmem
    have h := (countedExactly_iff hlen 255).mp (hcount 255)
    rw [List.count_eq_zero.mpr (not_mem_counted bytes)] at h
    exact List.count_eq_zero.mp h.symm hmem
  · intro h
    refine ⟨fun b => ?_, encodable_of_not_mem qsort beyond hne hlen h⟩
    rw [countedExactly_iff hlen, counted_eq_self h]

/-- The text "ab". -/
theorem passes_agree_ab :
    (∀ b, CountedExactly [97, 98] b) ∧
      Encodable (insertionQsort TreeNode) (fun _ => .null) [97, 98] :=
  (passes_agree_iff (insertionQsort TreeNode) (fun _ => .null) (by decide) (by decide)).mpr
    (by decide)

/-- An 'a' behind a 255 is not counted. -/
theorem uncounted_after_255 :
    ¬ ∀ (qsort : Qsort TreeNode) (beyond : ℕ → TreeNode) (bytes : List Byte), bytes ≠ [] →
        bytes.length < 2 ^ 31 →
        (∀ b, CountedExactly bytes b) ∧ Encodable qsort beyond bytes := by
  intro h
  have hcount := (h (insertionQsort TreeNode) (fun _ => .null) [97, 255, 97] (by decide)
    (by decide)).1 97
  exact absurd ((countedExactly_iff (by decide) 97).mp hcount) (by decide)

end ProjectsInC.Huffman
