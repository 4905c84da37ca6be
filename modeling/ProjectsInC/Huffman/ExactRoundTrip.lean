/-
On which files do `huffc` and `huffd` give the file back?

Not on all. The second pass of the encoder meets every byte of the file, the table has an
entry only for those of the first, which stops at a byte 255; so with that byte in it there is
no archive ([`huffc_of_mem`]), and for an empty file there is not even a tree. And the tree of
a file that repeats one byte is a leaf, whose text the parser does not survive
([`huffd_leaf`]). Every other file comes back.
-/
import ProjectsInC.Huffman.ParserSafety
import ProjectsInC.Huffman.RoundTrip
import ProjectsInC.Huffman.WriteErrors

set_option autoImplicit false

namespace ProjectsInC.Huffman

open NodeType

variable {wide : ℤ → CInt}

section Encoder

variable (qsort : Qsort TreeNode) (beyond : ℕ → TreeNode) {bytes : List Byte}

/-- An empty file has no tree. -/
theorem encoder_new_nil (outfile : FILE) : encoder_new qsort beyond [] outfile = none := by
  obtain ⟨ids, hnull⟩ := @build_tree_null qsort beyond (compute_freq []) (by decide)
  have hbuild : huffman_build_tree qsort beyond [] = some (.null, ids) := hnull
  rw [encoder_new, hbuild]
  rfl

/-- No table has an entry for the byte 255. -/
theorem etab_255 (hlen : bytes.length < 2 ^ 31) {outfile : FILE} {encoder : Encoder}
    (h : encoder_new qsort beyond bytes outfile = some encoder) : encoder.etab 255 = none := by
  unfold encoder_new at h
  simp only [Option.bind_eq_bind, Option.bind_eq_some_iff] at h
  obtain ⟨⟨root, ids⟩, hbuild, etab, htable, heq⟩ := h
  obtain rfl := Option.some.inj heq
  unfold table_build at htable
  split_ifs at htable with hroot
  obtain rfl := Option.some.inj htable
  obtain ⟨hfull, hleaves, -, -⟩ := (shape_of_build hbuild hroot).root
  have hnot : (255 : Byte) ∉ root.chars := by
    rw [hfull.chars_eq, (hleaves.map Frequency.c).mem_iff, mem_entries_iff hlen]
    exact not_mem_counted bytes
  exact rec_gen_table_of_not_mem hnot ..

/-- **A byte 255** stops the encoder. -/
theorem huffc_of_mem (hlen : bytes.length < 2 ^ 31) (h255 : 255 ∈ bytes) :
    huffc qsort beyond bytes FILE.reliable = none := by
  rw [huffc]
  cases hnew : encoder_new qsort beyond bytes FILE.reliable with
  | none => rfl
  | some encoder =>
      obtain ⟨hinfile, hbfile, htexts, hsize⟩ := encoder_new_some hnew
      obtain ⟨r, bfile, hwrite, hr, hsent⟩ := sent_write_tree hbfile hsize
      have hgone : ¬ ∀ c ∈ encoder.infile, encoder.etab c ≠ none := by
        intro hall
        exact hall 255 (hinfile ▸ h255) (etab_255 qsort beyond hlen hnew)
      have hencode : encoder_encode encoder = none := by
        rw [encoder_encode, hwrite]
        simp only [if_neg hr, Option.map_eq_none_iff]
        -- no call fails, and not all bytes have an encoding
        rcases encodeLoop_sent htexts hsent 0 encoder.infile with
          ⟨hfails, -⟩ | ⟨-, -, hloop⟩ | ⟨hall, -⟩
        · obtain ⟨j, -, hj⟩ := hfails
          exact absurd hj Bool.false_ne_true
        · exact hloop
        · exact absurd hall hgone
      simp only [Option.bind_eq_bind, Option.bind_some, hencode, Option.bind_none]

end Encoder

/-- **The archive of a leaf** stops the decoder. -/
theorem huffd_leaf {archive : List Byte} {id : CInt} {freq : Frequency} {bits : List Bool}
    (h : Archive archive (.node id LEAF freq .null .null) bits) (fuel : ℕ) (outfile : FILE) :
    huffd wide fuel (FILE.reading archive) outfile = .error .nullDeref := by
  obtain ⟨payload, harchive, -⟩ := h
  have hparse := @tree_deserialize_leaf wide id freq (FILE.reading archive) payload harchive
  rw [huffd, decoder_new_eq, hparse]
  rfl

/-- The tree of a file that repeats one byte. -/
theorem TreeOf.eq_leaf {bytes : List Byte} {root : TreeNode} (h : TreeOf bytes root)
    (hone : ∀ x ∈ bytes, ∀ y ∈ bytes, x = y) :
    ∃ id freq, root = .node id LEAF freq .null .null := by
  by_contra hleaf
  have hmany : 2 ≤ root.chars.length := by
    rw [h.full.chars_eq, List.length_map]
    cases h.full with
    | leaf id freq => exact absurd ⟨id, freq, rfl⟩ hleaf
    | internal id freq hleft hright => exact (Full.internal id freq hleft hright).two_le_leaves
  obtain ⟨x, y, chars, hchars⟩ : ∃ x y chars, root.chars = x :: y :: chars := by
    match root.chars, hmany with
    | x :: y :: chars, _ => exact ⟨x, y, chars, rfl⟩
  have hmem : ∀ c ∈ root.chars, c ∈ bytes := fun c hc =>
    List.takeWhile_subset _ ((h.mem_chars c).mp hc)
  have hnodup := h.nodup
  rw [hchars] at hmem hnodup
  have hx := hmem x List.mem_cons_self
  have hy := hmem y (List.mem_cons_of_mem x List.mem_cons_self)
  exact (List.nodup_cons.mp hnodup).1 (hone x hx y hy ▸ List.mem_cons_self)

/-- **The exact round trip.** For every file and every order `qsort` may give to equal frequencies:
`huffc` writes an archive if and only if the file is not empty and has no byte 255, and then
`encoder_encode` returns the length of the file. If there are two different bytes in it, `huffd`
ends on the archive with exactly the file written; if there are not, it dereferences NULL. -/
theorem huffd_huffc_iff (wide : ℤ → CInt) (qsort : Qsort TreeNode) (beyond : ℕ → TreeNode)
    {bytes : List Byte} (hlen : bytes.length < 2 ^ 31) :
    (huffc qsort beyond bytes FILE.reliable = none ↔ bytes = [] ∨ 255 ∈ bytes) ∧
    ∀ result archive, huffc qsort beyond bytes FILE.reliable = some (result, archive) →
      result.toInt = bytes.length ∧
      ((∃ x ∈ bytes, ∃ y ∈ bytes, x ≠ y) → ∀ fuel > bytes.length,
        huffd wide fuel (FILE.reading archive) FILE.reliable = .ok (some bytes)) ∧
      ((∀ x ∈ bytes, ∀ y ∈ bytes, x = y) → ∀ fuel,
        huffd wide fuel (FILE.reading archive) FILE.reliable = .error .nullDeref) := by
  by_cases hnone : bytes = [] ∨ 255 ∈ bytes
  · have hhuffc : huffc qsort beyond bytes FILE.reliable = none := by
      rcases hnone with rfl | h255
      · rw [huffc, encoder_new_nil]
        rfl
      · exact huffc_of_mem qsort beyond hlen h255
    refine ⟨iff_of_true hhuffc hnone, ?_⟩
    intro result archive h
    rw [hhuffc] at h
    cases h
  · obtain ⟨hne, h255⟩ := not_or.mp hnone
    obtain ⟨root, ids, code, archive, -, htree, hcode, hhuffc, harchive⟩ :=
      huffc_spec qsort beyond hlen h255 hne
    refine ⟨iff_of_false (by rw [hhuffc]; exact Option.some_ne_none _) hnone, ?_⟩
    intro result archive' h
    rw [hhuffc] at h
    obtain ⟨rfl, rfl⟩ := Prod.mk.inj (Option.some.inj h)
    refine ⟨toInt_ofNat_of_lt hlen, ?_, ?_⟩
    · intro hmany fuel hfuel
      have hleaves := htree.two_le_leaves h255 hmany
      rw [← List.append_nil (bytes.flatMap code)] at harchive
      exact huffd_spec harchive (noCharacter_nil htree.full hleaves) htree.full hleaves
        htree.nodup_ids htree.zero_not_mem hcode h255 hfuel
    · intro hone fuel
      obtain ⟨id, freq, rfl⟩ := htree.eq_leaf hone
      exact huffd_leaf harchive fuel FILE.reliable

/-- The texts "aba" and "aaa" have archives; that of "aaa" cannot be expanded. -/
theorem huffd_huffc_iff_aba_aaa :
    (∃ result archive, huffc (insertionQsort TreeNode) (fun _ => .null) [97, 98, 97] FILE.reliable
        = some (result, archive) ∧
      result.toInt = 3 ∧
      ∀ fuel > 3, huffd saturate fuel (FILE.reading archive) FILE.reliable
        = .ok (some [97, 98, 97])) ∧
    ∃ result archive, huffc (insertionQsort TreeNode) (fun _ => .null) [97, 97, 97] FILE.reliable
        = some (result, archive) ∧
      result.toInt = 3 ∧
      ∀ fuel, huffd saturate fuel (FILE.reading archive) FILE.reliable = .error .nullDeref := by
  constructor
  · obtain ⟨hnone, hsome⟩ := @huffd_huffc_iff saturate (insertionQsort TreeNode) (fun _ => .null)
      [97, 98, 97] (by decide)
    obtain ⟨⟨result, archive⟩, hhuffc⟩ := Option.ne_none_iff_exists'.mp (mt hnone.mp (by decide))
    obtain ⟨hresult, htrip, -⟩ := hsome result archive hhuffc
    exact ⟨result, archive, hhuffc, hresult, htrip ⟨97, by decide, 98, by decide, by decide⟩⟩
  · obtain ⟨hnone, hsome⟩ := @huffd_huffc_iff saturate (insertionQsort TreeNode) (fun _ => .null)
      [97, 97, 97] (by decide)
    obtain ⟨⟨result, archive⟩, hhuffc⟩ := Option.ne_none_iff_exists'.mp (mt hnone.mp (by decide))
    obtain ⟨hresult, -, hfault⟩ := hsome result archive hhuffc
    exact ⟨result, archive, hhuffc, hresult, hfault (by decide)⟩

end ProjectsInC.Huffman
