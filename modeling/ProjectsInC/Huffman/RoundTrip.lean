/-
What `huffc` compresses, `huffd` expands.

Everything meets here: the tree of the file has a leaf for each of its bytes, the
table knows the path to it, the archive is the text of the tree and the paths of the
bytes, the parser makes the same tree of the text, and the payload decodes along its
paths. Two kinds of files are left out. On a byte 255 the passes of the encoder
disagree; a file with fewer than two different bytes has a tree that is one leaf,
which the parser cannot read.
-/
import ProjectsInC.Huffman.TwoPasses
import ProjectsInC.Huffman.Encoder
import ProjectsInC.Huffman.Decoder
import ProjectsInC.Huffman.TreeText

set_option autoImplicit false

namespace ProjectsInC.Huffman

variable {wide : ℤ → CInt}

/-- The file is a serialized tree and behind it a payload of these bits. -/
def Archive (archive : List Byte) (root : TreeNode) (bits : List Bool) : Prop :=
  ∃ payload, archive = 35 :: (recordsText (recordsOf root) ++ 35 :: payload) ∧
    Payload payload bits

/-! ## The tree of the file -/

/-- Two different bytes in the file are two leaves of its tree. -/
theorem TreeOf.two_le_leaves {bytes : List Byte} {root : TreeNode} (h : TreeOf bytes root)
    (h255 : 255 ∉ bytes) (hmany : ∃ x ∈ bytes, ∃ y ∈ bytes, x ≠ y) : 2 ≤ root.leaves.length := by
  obtain ⟨x, hx, y, hy, hne⟩ := hmany
  rw [← counted_eq_self h255, ← h.mem_chars] at hx hy
  have hlen : root.leaves.length = root.chars.length := by
    rw [h.full.chars_eq, List.length_map]
  by_contra hfew
  obtain ⟨c, hc⟩ : ∃ c, root.chars = [c] := by
    rw [← List.length_eq_one_iff]
    have hpos := List.length_pos_of_mem hx
    omega
  rw [hc, List.mem_singleton] at hx hy
  exact hne (hx.trans hy.symm)

theorem TreeOf.zero_not_mem {bytes : List Byte} {root : TreeNode} (h : TreeOf bytes root) :
    0 ∉ root.ids :=
  fun hmem => absurd (h.pos_ids 0 hmem) (by decide)

/-! ## Compressing and expanding -/

/-- `huffc` writes the tree of the file and the paths of its bytes, seven bits to a byte. -/
theorem huffc_sevens (qsort : Qsort TreeNode) (beyond : ℕ → TreeNode) {bytes : List Byte}
    (hlen : bytes.length < 2 ^ 31) (h255 : 255 ∉ bytes) (hne : bytes ≠ []) :
    ∃ root ids code chunks, huffman_build_tree qsort beyond bytes = some (root, ids) ∧
      TreeOf bytes root ∧ (∀ c ∈ bytes, (c, code c) ∈ root.codes) ∧
      huffc qsort beyond bytes FILE.reliable = some (BitVec.ofNat 32 bytes.length,
        35 :: (recordsText (recordsOf root) ++ 35 :: chunks.map packed)) ∧
      bytes.flatMap code = chunks.flatten ∧ Sevens chunks := by
  have hall := counted_eq_self h255
  obtain ⟨root, ids, hbuild, htree⟩ := huffman_build_tree_spec qsort beyond hlen (by rwa [hall])
  -- a code word for every byte of the file
  have hleaf : ∀ c ∈ bytes, ∃ path, (c, path) ∈ root.codes := fun c hc =>
    exists_path ((htree.mem_chars c).mpr (by rwa [hall]))
  choose! code hcode using hleaf
  have hroot : root ≠ .null := fun hnull => by
    cases hnull ▸ htree.full
  obtain ⟨etab, hetab⟩ : ∃ etab, table_build root = some etab := ⟨_, if_neg hroot⟩
  have hentry : ∀ c ∈ bytes, table_bit_encode etab c = some (bitText (code c)) := fun c hc => by
    obtain ⟨etab', hetab', h⟩ := table_bit_encode_of_mem htree.nodup (hcode c hc)
    rw [hetab] at hetab'
    rwa [Option.some.inj hetab']
  obtain ⟨encoder, hencode, hwritten⟩ := encoder_encode_spec
    ⟨bytes, root, etab, bits_io_open FILE.reliable 119⟩
    (written_open (fun _ => rfl)) rfl (htree.full.size_lt htree.leaves) hentry
  obtain ⟨fp, chunks, hclose, hfp, hbits, hsevens⟩ := bits_io_close_sevens hwritten
  -- the number of bytes is not mistaken for an error
  have hresult : BitVec.ofNat 32 bytes.length ≠ (-1 : CInt) := ofNat_ne_eof hlen
  have harchive : fp.written = 35 :: (recordsText (recordsOf root) ++ 35 :: chunks.map packed) := by
    rw [hfp, List.cons_append, List.append_assoc]
    rfl
  refine ⟨root, ids, code, chunks, hbuild, htree, hcode, ?_, hbits, hsevens⟩
  rw [huffc, encoder_new, hbuild, ← harchive]
  simp only [Option.bind_eq_bind, Option.bind_some, hetab, hencode, if_neg hresult,
    encoder_free, hclose]

/-- The same of the archive as a whole. -/
theorem huffc_spec (qsort : Qsort TreeNode) (beyond : ℕ → TreeNode) {bytes : List Byte}
    (hlen : bytes.length < 2 ^ 31) (h255 : 255 ∉ bytes) (hne : bytes ≠ []) :
    ∃ root ids code archive, huffman_build_tree qsort beyond bytes = some (root, ids) ∧
      TreeOf bytes root ∧ (∀ c ∈ bytes, (c, code c) ∈ root.codes) ∧
      huffc qsort beyond bytes FILE.reliable = some (BitVec.ofNat 32 bytes.length, archive) ∧
      Archive archive root (bytes.flatMap code) := by
  obtain ⟨root, ids, code, chunks, hbuild, htree, hcode, hhuffc, hbits, hsevens⟩ :=
    huffc_sevens qsort beyond hlen h255 hne
  exact ⟨root, ids, code, _, hbuild, htree, hcode, hhuffc, _, rfl, chunks, rfl, hbits, hsevens.chunk⟩

/-- `decoder_new` reads the tree and stops in front of the payload. -/
theorem decoder_new_archive (wide : ℤ → CInt) {archive : List Byte} (root : TreeNode)
    (payload : List Byte)
    (harchive : archive = 35 :: (recordsText (recordsOf root) ++ 35 :: payload))
    (hfull : Full root) (hmany : 2 ≤ root.leaves.length) (hnodup : root.ids.Nodup)
    (hzero : 0 ∉ root.ids) (outfile : FILE) :
    decoder_new wide (FILE.reading archive) outfile
      = .ok (some ⟨outfile, bits_io_open (FILE.reading payload) 114, root⟩) := by
  have hrest : (FILE.reading archive).rest = 35 :: (recordsText (recordsOf root) ++ 35 :: payload) :=
    harchive
  obtain ⟨heap, head, hparse, htree⟩ := tree_deserialize_spec wide hfull hmany hnodup hzero hrest
  have hmode : ¬ (bits_io_open (FILE.reading archive) 114).mode ≠ 114 := not_not.mpr rfl
  have hfp : (bits_io_open (FILE.reading archive) 114).fp = FILE.reading archive := rfl
  rw [decoder_new, bits_io_read_tree, if_neg hmode, hfp, hparse]
  simp only [bind, Except.bind, htree]
  rfl

/-- `huffd` writes the bytes whose paths are in an archive, if behind them there is no
further character. -/
theorem huffd_spec {archive bytes : List Byte} {root : TreeNode} {code : Byte → List Bool}
    {tail : List Bool} (h : Archive archive root (bytes.flatMap code ++ tail))
    (htail : NoCharacter root tail) (hfull : Full root) (hmany : 2 ≤ root.leaves.length)
    (hnodup : root.ids.Nodup) (hzero : 0 ∉ root.ids)
    (hcode : ∀ c ∈ bytes, (c, code c) ∈ root.codes) (h255 : 255 ∉ bytes) {fuel : ℕ}
    (hfuel : bytes.length < fuel) :
    huffd wide fuel (FILE.reading archive) FILE.reliable = .ok (some bytes) := by
  obtain ⟨payload, harchive, hpayload⟩ := h
  obtain ⟨decoder, hdecode, hwritten⟩ := decoder_decode_spec
    ⟨FILE.reliable, bits_io_open (FILE.reading payload) 114, root⟩ htail hcode h255 (fun _ => rfl)
    (unread_open hpayload) fuel hfuel
  rw [huffd, decoder_new_archive wide root payload harchive hfull hmany hnodup hzero]
  simp only [bind, Except.bind, hdecode, hwritten]
  rfl

/-- At its root a tree with two leaves needs a bit. -/
theorem noCharacter_nil {root : TreeNode} (hfull : Full root) (hmany : 2 ≤ root.leaves.length) :
    NoCharacter root [] := by
  obtain ⟨id, freq, left, right, hroot, -, -⟩ := hfull.root_internal hmany
  intro bfile h
  rw [hroot]
  exact decodeFrom_end h

/-- **The round trip.** For every file without the byte 255 and with two different bytes,
and every order `qsort` may give to equal frequencies, `encoder_encode` returns the
length of the file and `huffd` ends on the archive with exactly the file written. -/
theorem huffd_huffc (wide : ℤ → CInt) (qsort : Qsort TreeNode) (beyond : ℕ → TreeNode)
    {bytes : List Byte} (hlen : bytes.length < 2 ^ 31) (h255 : 255 ∉ bytes)
    (hmany : ∃ x ∈ bytes, ∃ y ∈ bytes, x ≠ y) :
    ∃ result archive, huffc qsort beyond bytes FILE.reliable = some (result, archive) ∧
      result.toInt = bytes.length ∧
      ∀ fuel > bytes.length,
        huffd wide fuel (FILE.reading archive) FILE.reliable = .ok (some bytes) := by
  have hne : bytes ≠ [] := by
    obtain ⟨x, hx, -⟩ := hmany
    exact List.ne_nil_of_mem hx
  obtain ⟨root, -, code, archive, -, htree, hcode, hhuffc, harchive⟩ :=
    huffc_spec qsort beyond hlen h255 hne
  refine ⟨_, archive, hhuffc, toInt_ofNat_of_lt hlen, fun fuel hfuel => ?_⟩
  have hleaves := htree.two_le_leaves h255 hmany
  rw [← List.append_nil (bytes.flatMap code)] at harchive
  exact huffd_spec harchive (noCharacter_nil htree.full hleaves) htree.full hleaves htree.nodup_ids
    htree.zero_not_mem hcode h255 hfuel

/-- The text "abracadabra". -/
theorem huffd_huffc_abracadabra :
    ∃ result archive, huffc (insertionQsort TreeNode) (fun _ => .null)
        [97, 98, 114, 97, 99, 97, 100, 97, 98, 114, 97] FILE.reliable = some (result, archive) ∧
      result.toInt = 11 ∧
      ∀ fuel > 11, huffd saturate fuel (FILE.reading archive) FILE.reliable
        = .ok (some [97, 98, 114, 97, 99, 97, 100, 97, 98, 114, 97]) :=
  huffd_huffc saturate (insertionQsort TreeNode) (fun _ => .null) (by decide) (by decide)
    ⟨97, by decide, 98, by decide, by decide⟩

end ProjectsInC.Huffman
