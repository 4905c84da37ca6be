/-
An archive that was cut off in its payload.

What is left of the payload holds the first of its bits ([`Payload.cut`]), and the first
bits of some paths are whole paths and then part of one ([`cut_paths`]). The walk down the
tree ends in the part of a path without a character ([`decodeFrom_part`]).
-/
import ProjectsInC.Huffman.RoundTrip

set_option autoImplicit false

namespace ProjectsInC.Huffman

variable {wide : ℤ → CInt}

/-- The first bytes of a payload hold the first of its bits. -/
theorem Payload.cut {bytes kept : List Byte} {bits : List Bool} (h : Payload bytes bits)
    (hkept : kept <+: bytes) : ∃ bits', Payload kept bits' ∧ bits' <+: bits := by
  obtain ⟨chunks, rfl, rfl, hchunks⟩ := h
  refine ⟨(chunks.take kept.length).flatten, ⟨chunks.take kept.length, ?_, rfl, ?_⟩, ?_⟩
  · rw [List.map_take]
    exact List.prefix_iff_eq_take.mp hkept
  · intro chunk hmem
    exact hchunks chunk (List.mem_of_mem_take hmem)
  · have hsplit : chunks.flatten
        = (chunks.take kept.length).flatten ++ (chunks.drop kept.length).flatten := by
      rw [← List.flatten_append, List.take_append_drop]
    rw [hsplit]
    exact List.prefix_append _ _

/-- The first bits of the paths of some bytes. -/
theorem cut_paths {root : TreeNode} (hroot : NoCharacter root []) {code : Byte → List Bool}
    {bytes : List Byte} (hcode : ∀ c ∈ bytes, (c, code c) ∈ root.codes) {bits : List Bool}
    (hbits : bits <+: bytes.flatMap code) :
    ∃ out tail, out <+: bytes ∧ bits = out.flatMap code ++ tail ∧ NoCharacter root tail := by
  induction bytes generalizing bits with
  | nil =>
      rw [List.flatMap_nil, List.prefix_nil] at hbits
      exact ⟨[], [], List.prefix_refl _, hbits, hroot⟩
  | cons c bytes ih =>
      rw [List.flatMap_cons] at hbits
      by_cases hwhole : code c <+: bits
      · -- the whole path of the byte is there
        obtain ⟨rest, rfl⟩ := hwhole
        rw [List.prefix_append_right_inj] at hbits
        obtain ⟨out, tail, hout, rfl, htail⟩ :=
          ih (fun c' hc' => hcode c' (List.mem_cons_of_mem c hc')) hbits
        refine ⟨c :: out, tail, ?_, ?_, htail⟩
        · exact List.cons_prefix_cons.mpr ⟨rfl, hout⟩
        · rw [List.flatMap_cons, List.append_assoc]
      · have hpart : bits <+: code c := by
          rcases List.prefix_or_prefix_of_prefix hbits (List.prefix_append (code c) _) with h | h
          · exact h
          · exact absurd h hwhole
        refine ⟨[], bits, List.nil_prefix, rfl, ?_⟩
        intro bfile h
        apply decodeFrom_part (hcode c List.mem_cons_self) hpart ?_ h
        intro heq
        exact hwhole (heq ▸ List.prefix_refl _)

/-- **A truncated archive decodes to a prefix.** The archive of a file is the text of its
tree and a payload; however much of the payload is kept, `huffd` ends, and what it has
written are the first bytes of the file. -/
theorem huffd_truncated (wide : ℤ → CInt) (qsort : Qsort TreeNode) (beyond : ℕ → TreeNode)
    {bytes : List Byte} (hlen : bytes.length < 2 ^ 31) (h255 : 255 ∉ bytes)
    (hmany : ∃ x ∈ bytes, ∃ y ∈ bytes, x ≠ y) :
    ∃ result root ids payload, huffman_build_tree qsort beyond bytes = some (root, ids) ∧
      huffc qsort beyond bytes FILE.reliable
        = some (result, (tree_serialize root FILE.reliable).2.written ++ payload) ∧
      ∀ kept, kept <+: payload → ∃ out, out <+: bytes ∧ ∀ fuel > bytes.length,
        huffd wide fuel (FILE.reading ((tree_serialize root FILE.reliable).2.written ++ kept))
          FILE.reliable = .ok (some out) := by
  have hne : bytes ≠ [] := by
    obtain ⟨x, hx, -⟩ := hmany
    exact List.ne_nil_of_mem hx
  obtain ⟨root, ids, code, archive, hbuild, htree, hcode, hhuffc, payload, rfl, hpayload⟩ :=
    huffc_spec qsort beyond hlen h255 hne
  have hleaves := htree.two_le_leaves h255 hmany
  have hroot := noCharacter_nil htree.full hleaves
  obtain ⟨result, fp, hser, -, htook⟩ := tree_serialize_spec root (show ∀ n,
    FILE.reliable.fails n = false from fun _ => rfl)
  have hheader : ∀ kept, (tree_serialize root FILE.reliable).2.written ++ kept
      = 35 :: (recordsText (recordsOf root) ++ 35 :: kept) := by
    intro kept
    rw [hser, htook.written, List.append_assoc, List.cons_append, List.append_assoc]
    rfl
  refine ⟨BitVec.ofNat 32 bytes.length, root, ids, payload, hbuild, ?_, ?_⟩
  · rw [hheader]
    exact hhuffc
  · intro kept hkept
    obtain ⟨bits, hkeptBits, hbits⟩ := hpayload.cut hkept
    obtain ⟨out, tail, hout, rfl, htail⟩ := cut_paths hroot hcode hbits
    refine ⟨out, hout, ?_⟩
    intro fuel hfuel
    apply huffd_spec ⟨kept, hheader kept, hkeptBits⟩ htail htree.full hleaves htree.nodup_ids
      htree.zero_not_mem
    · intro c hc
      exact hcode c (hout.subset hc)
    · intro hmem
      exact h255 (hout.subset hmem)
    · exact hout.length_le.trans_lt hfuel

/-- The text "abab" without any payload, and with all of it. -/
theorem huffd_truncated_abab :
    ∃ result root ids payload, huffman_build_tree (insertionQsort TreeNode) (fun _ => .null)
        [97, 98, 97, 98] = some (root, ids) ∧
      huffc (insertionQsort TreeNode) (fun _ => .null) [97, 98, 97, 98] FILE.reliable
        = some (result, (tree_serialize root FILE.reliable).2.written ++ payload) ∧
      ∀ kept, kept <+: payload → ∃ out, out <+: [97, 98, 97, 98] ∧ ∀ fuel > 4,
        huffd saturate fuel (FILE.reading ((tree_serialize root FILE.reliable).2.written ++ kept))
          FILE.reliable = .ok (some out) :=
  huffd_truncated saturate (insertionQsort TreeNode) (fun _ => .null) (by decide) (by decide)
    ⟨97, by decide, 98, by decide, by decide⟩

end ProjectsInC.Huffman
