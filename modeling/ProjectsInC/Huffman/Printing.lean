/-
`treeg` and `tableg`: the tree and the table of a file as text.

A line of the tree says the type, the frequency and the depth of a node, and for a LEAF the
character; so the text determines the tree but for the ids ([`tree_print_append_inj`]), and the
text of the tree of a file how often each character occurs in it. A line of the table says a
character and its path.
-/
import ProjectsInC.Huffman.ParserSafety
import ProjectsInC.Huffman.RoundTrip

set_option autoImplicit false

namespace ProjectsInC.Huffman

open NodeType

/-! ## `tree_print` -/

/-- The characters `tree_print_indent` prints for one node. -/
def nodeLine (type : NodeType) (freq : Frequency) (depth indent : ℕ) : List Byte :=
  match type with
  | LEAF =>
      List.replicate indent 45 ++ 76 :: 47 :: freq.c :: 47 ::
        (intText freq.v ++ 47 :: (intText (BitVec.ofNat 32 depth) ++ [10]))
  | INTERNAL =>
      List.replicate indent 32 ++ 73 :: 47 ::
        (intText freq.v ++ 47 :: (intText (BitVec.ofNat 32 depth) ++ [10]))

/-- `tree_print_indent` -/
def tree_print_indent : TreeNode → ℕ → ℕ → List Byte
  | .null, _, _ => []
  | .node _ type freq left right, depth, indent =>
      nodeLine type freq depth indent ++
        (tree_print_indent left (depth + 1) (indent + 2) ++
          tree_print_indent right (depth + 1) (indent + 2))

/-- `tree_print` -/
def tree_print (tree : TreeNode) : List Byte := tree_print_indent tree 0 0

/-- `treeg`: what it prints. -/
def treeg (qsort : Qsort TreeNode) (beyond : ℕ → TreeNode) (bytes : List Byte) :
    Option (List Byte) := do
  let (tree, _) ← huffman_build_tree qsort beyond bytes
  if tree = .null then some (ascii "Could not build the tree!" ++ ascii "treeg <file.txt>\n")
  else some (tree_print tree)

/-! ## `table_print` -/

/-- The characters `table_print` prints for one entry. -/
def entryLine (c : Byte) (bits : List Byte) : List Byte :=
  intText (c.setWidth 32) ++ 32 :: 39 :: c :: 39 :: 32 :: 61 :: 32 :: (bits ++ [10])

/-- `table_print` -/
def table_print (etab : EncodeTable) : List Byte :=
  (List.range NUMBER_OF_CHARS).flatMap (fun i =>
    match etab (BitVec.ofNat 8 i) with
    | none => []
    | some b => entryLine (BitVec.ofNat 8 i) b.bits)

/-- `tableg`: what it prints. -/
def tableg (qsort : Qsort TreeNode) (beyond : ℕ → TreeNode) (bytes : List Byte) :
    Option (List Byte) := do
  let (tree, _) ← huffman_build_tree qsort beyond bytes
  match table_build tree with
  | none => some (ascii "Could not build the tree!" ++ ascii "tableg <file.txt>\n")
  | some etab => some (table_print etab)

/-! ## The tree in the text -/

/-- What is printed of a tree: no ids, and no character of an INTERNAL node. -/
def shown : TreeNode → TreeNode
  | .null => .null
  | .node _ LEAF freq left right => .node 0 LEAF freq (shown left) (shown right)
  | .node _ INTERNAL freq left right => .node 0 INTERNAL ⟨freq.v, 0⟩ (shown left) (shown right)

/-- A number ends where no digit follows. -/
theorem intText_append_inj {x y : CInt} {s s' : List Byte}
    (h : intText x ++ 47 :: s = intText y ++ 47 :: s') : x = y ∧ s = s' := by
  have hscan := @scanInt_intText saturate x _ (noDigit_cons (by decide : isDigit 47 = false) s)
  rw [h, scanInt_intText y (noDigit_cons (by decide) s')] at hscan
  obtain ⟨rfl, heq⟩ := Prod.mk.inj (Option.some.inj hscan)
  exact ⟨rfl, (List.cons.inj heq).2.symm⟩

/-- A line begins otherwise for a LEAF than for an INTERNAL node. -/
theorem nodeLine_type {freq freq' : Frequency} {depth indent : ℕ} {s s' : List Byte} :
    nodeLine LEAF freq depth indent ++ s ≠ nodeLine INTERNAL freq' depth indent ++ s' := by
  intro h
  have hhead := congrArg List.head? h
  cases indent with
  | zero => exact absurd (Option.some.inj hhead) (by decide)
  | succ indent => exact absurd (Option.some.inj hhead) (by decide)

theorem nodeLine_leaf_inj {freq freq' : Frequency} {depth indent : ℕ} {s s' : List Byte}
    (h : nodeLine LEAF freq depth indent ++ s = nodeLine LEAF freq' depth indent ++ s') :
    freq = freq' ∧ s = s' := by
  simp only [nodeLine, List.append_assoc, List.cons_append, List.append_cancel_left_eq,
    List.cons.injEq, true_and] at h
  obtain ⟨hc, htext⟩ := h
  obtain ⟨hv, hend⟩ := intText_append_inj htext
  rw [List.append_cancel_left_eq, List.nil_append, List.nil_append] at hend
  have hfreq : freq = freq' := by
    cases freq
    cases freq'
    exact congrArg₂ Frequency.mk hv hc
  exact ⟨hfreq, (List.cons.inj hend).2⟩

theorem nodeLine_internal_inj {freq freq' : Frequency} {depth indent : ℕ} {s s' : List Byte}
    (h : nodeLine INTERNAL freq depth indent ++ s = nodeLine INTERNAL freq' depth indent ++ s') :
    freq.v = freq'.v ∧ s = s' := by
  simp only [nodeLine, List.append_assoc, List.cons_append, List.append_cancel_left_eq,
    List.cons.injEq, true_and] at h
  obtain ⟨hv, hend⟩ := intText_append_inj h
  rw [List.append_cancel_left_eq, List.nil_append, List.nil_append] at hend
  exact ⟨hv, (List.cons.inj hend).2⟩

/-- **The text of a tree** determines what is shown of it, and where it ends. -/
theorem tree_print_append_inj {tree tree' : TreeNode} (h : Full tree) (h' : Full tree')
    {depth indent : ℕ} {s s' : List Byte}
    (heq : tree_print_indent tree depth indent ++ s = tree_print_indent tree' depth indent ++ s') :
    shown tree = shown tree' ∧ s = s' := by
  induction h generalizing tree' depth indent s s' with
  | leaf id freq =>
      cases h' with
      | leaf id' freq' =>
          simp only [tree_print_indent, List.append_assoc, List.nil_append] at heq
          obtain ⟨rfl, hs⟩ := nodeLine_leaf_inj heq
          exact ⟨rfl, hs⟩
      | internal id' freq' hleft' hright' =>
          simp only [tree_print_indent, List.append_assoc, List.nil_append] at heq
          exact absurd heq nodeLine_type
  | internal id freq hleft hright ihl ihr =>
      cases h' with
      | leaf id' freq' =>
          simp only [tree_print_indent, List.append_assoc, List.nil_append] at heq
          exact absurd heq.symm nodeLine_type
      | internal id' freq' hleft' hright' =>
          simp only [tree_print_indent, List.append_assoc] at heq
          obtain ⟨hv, heq⟩ := nodeLine_internal_inj heq
          obtain ⟨hl, heq⟩ := ihl hleft' heq
          obtain ⟨hr, hs⟩ := ihr hright' heq
          rw [shown, shown, hv, hl, hr]
          exact ⟨rfl, hs⟩

/-- The frequencies of the characters are shown. -/
theorem leaves_shown (tree : TreeNode) : (shown tree).leaves = tree.leaves := by
  induction tree with
  | null => rfl
  | node id type freq left right ihl ihr =>
      cases type with
      | LEAF => rfl
      | INTERNAL => rw [shown, TreeNode.leaves, TreeNode.leaves, ihl, ihr]

theorem tree_print_inj {tree tree' : TreeNode} (h : Full tree) (h' : Full tree')
    (heq : tree_print tree = tree_print tree') : tree.leaves = tree'.leaves := by
  have happend : tree_print_indent tree 0 0 ++ [] = tree_print_indent tree' 0 0 ++ [] := by
    rw [List.append_nil, List.append_nil]
    exact heq
  rw [← leaves_shown tree, ← leaves_shown tree', (tree_print_append_inj h h' happend).1]

/-! ## The characters of the file in the text -/

section Files

variable (qsort : Qsort TreeNode) (beyond : ℕ → TreeNode) {bytes bytes' : List Byte}

/-- How often a character occurs, from the entries. -/
theorem mem_entries_count (hlen : bytes.length < 2 ^ 31) {f : Frequency}
    (hf : f ∈ entries (compute_freq bytes)) : (f.v.toInt : ℤ) = (counted bytes).count f.c := by
  obtain ⟨i, hi, rfl⟩ := List.mem_map.mp hf
  have hlt := List.mem_range.mp (List.mem_of_mem_filter hi)
  rw [compute_freq_apply hlen hlt, labelled_compute_freq bytes i hlt]

/-- The entries determine how often each character occurs. -/
theorem count_le_of_entries (hlen : bytes.length < 2 ^ 31) (hlen' : bytes'.length < 2 ^ 31)
    (h : ∀ f ∈ entries (compute_freq bytes), f ∈ entries (compute_freq bytes')) (b : Byte) :
    (counted bytes).count b ≤ (counted bytes').count b := by
  by_cases hb : b ∈ counted bytes
  · obtain ⟨f, hf, rfl⟩ := List.mem_map.mp ((mem_entries_iff hlen).mpr hb)
    have hcount := mem_entries_count hlen hf
    have hcount' := mem_entries_count hlen' (h f hf)
    omega
  · rw [List.count_eq_zero.mpr hb]
    exact Nat.zero_le _

/-- And the other way round. The memory behind the arrays may differ. -/
theorem huffman_build_tree_congr (beyond' : ℕ → TreeNode) (hlen : bytes.length < 2 ^ 31)
    (hlen' : bytes'.length < 2 ^ 31)
    (h : ∀ b, (counted bytes).count b = (counted bytes').count b) :
    huffman_build_tree qsort beyond bytes = huffman_build_tree qsort beyond' bytes' := by
  have htable : ∀ i < NUMBER_OF_CHARS, compute_freq bytes i = compute_freq bytes' i := by
    intro i hi
    have hc := (labelled_compute_freq bytes i hi).trans (labelled_compute_freq bytes' i hi).symm
    have hv : (compute_freq bytes i).v = (compute_freq bytes' i).v := by
      apply BitVec.eq_of_toInt_eq
      rw [compute_freq_apply hlen hi, compute_freq_apply hlen' hi, h]
    cases hf : compute_freq bytes i
    cases hf' : compute_freq bytes' i
    rw [hf, hf'] at hc hv
    exact congrArg₂ Frequency.mk hv hc
  have hnodes : create_tree_nodes qsort (compute_freq bytes) (pqueue_new beyond', 1)
      = create_tree_nodes qsort (compute_freq bytes') (pqueue_new beyond', 1) := by
    unfold create_tree_nodes
    apply List.foldl_ext
    intro st i hi
    rw [createNode, createNode, htable i (List.mem_range.mp hi)]
  rw [huffman_build_tree_beyond qsort beyond beyond', huffman_build_tree, huffman_build_tree, hnodes]

/-- What `treeg` prints for a file: a tree, or that there is none. -/
theorem treeg_cases (hlen : bytes.length < 2 ^ 31) :
    (counted bytes = [] ∧ treeg qsort beyond bytes
      = some (ascii "Could not build the tree!" ++ ascii "treeg <file.txt>\n")) ∨
    (counted bytes ≠ [] ∧ ∃ root, TreeOf bytes root ∧
      treeg qsort beyond bytes = some (tree_print root)) := by
  by_cases hnone : counted bytes = []
  · have hentries : entries (compute_freq bytes) = [] := by
      rw [← List.map_eq_nil_iff (f := Frequency.c), List.eq_nil_iff_forall_not_mem]
      intro b hb
      rw [mem_entries_iff hlen, hnone] at hb
      exact List.not_mem_nil hb
    obtain ⟨ids, hnull⟩ := build_tree_null qsort beyond hentries
    have hbuild : huffman_build_tree qsort beyond bytes = some (.null, ids) := hnull
    refine .inl ⟨hnone, ?_⟩
    rw [treeg, hbuild]
    rfl
  · obtain ⟨root, ids, hbuild, htree⟩ := huffman_build_tree_spec qsort beyond hlen hnone
    have hroot : root ≠ .null := fun hnull => by
      cases hnull ▸ htree.full
    refine .inr ⟨hnone, root, htree, ?_⟩
    rw [treeg, hbuild]
    simp only [Option.bind_eq_bind, Option.bind_some, if_neg hroot]

/-- The text of a tree is not that message. -/
theorem tree_print_ne {tree : TreeNode} (h : Full tree) (s : List Byte) :
    ascii "Could not build the tree!" ++ s ≠ tree_print tree := by
  intro heq
  have hhead := congrArg List.head? heq
  cases h with
  | leaf id freq => exact absurd (Option.some.inj hhead) (by decide)
  | internal id freq hleft hright => exact absurd (Option.some.inj hhead) (by decide)

/-- **What `treeg` says about a file**: it prints the same text for two files if and only if every
character occurs as often in the one as in the other, up to the first byte 255, whatever the two
runs find behind their arrays. -/
theorem treeg_eq_iff (beyond' : ℕ → TreeNode) (hlen : bytes.length < 2 ^ 31)
    (hlen' : bytes'.length < 2 ^ 31) :
    treeg qsort beyond bytes = treeg qsort beyond' bytes' ↔
      ∀ b, (bytes.takeWhile (· ≠ 255)).count b = (bytes'.takeWhile (· ≠ 255)).count b := by
  constructor
  · intro heq b
    change (counted bytes).count b = (counted bytes').count b
    rcases treeg_cases qsort beyond hlen with ⟨hnone, htext⟩ | ⟨-, root, htree, htext⟩
    · rcases treeg_cases qsort beyond' hlen' with ⟨hnone', -⟩ | ⟨-, root', htree', htext'⟩
      · rw [hnone, hnone']
      · rw [htext, htext', Option.some.injEq] at heq
        exact absurd heq (tree_print_ne htree'.full _)
    · rcases treeg_cases qsort beyond' hlen' with ⟨-, htext'⟩ | ⟨-, root', htree', htext'⟩
      · rw [htext, htext', Option.some.injEq] at heq
        exact absurd heq.symm (tree_print_ne htree.full _)
      · rw [htext, htext', Option.some.injEq] at heq
        -- the leaves of both trees are the same, and they are the entries of both tables
        have hleaves := tree_print_inj htree.full htree'.full heq
        have hperm : (entries (compute_freq bytes)).Perm (entries (compute_freq bytes')) :=
          htree.leaves.symm.trans (hleaves ▸ htree'.leaves)
        exact le_antisymm (count_le_of_entries hlen hlen' (fun f hf => hperm.mem_iff.mp hf) b)
          (count_le_of_entries hlen' hlen (fun f hf => hperm.mem_iff.mpr hf) b)
  · intro h
    rw [treeg, treeg, huffman_build_tree_congr qsort beyond beyond' hlen hlen' h]

/-- The texts "abca" and "caab", with something behind the array of the second run. -/
theorem treeg_eq_abca :
    treeg (insertionQsort TreeNode) (fun _ => .null) [97, 98, 99, 97]
      = treeg (insertionQsort TreeNode) (fun _ => .node 1 LEAF ⟨1, 97⟩ .null .null)
        [99, 97, 97, 98] :=
  (treeg_eq_iff (insertionQsort TreeNode) (fun _ => .null)
    (fun _ => .node 1 LEAF ⟨1, 97⟩ .null .null) (by decide) (by decide)).mpr (by decide)

/-! ## The code in the text -/

/-- **`tableg` prints the code that `huffc` uses.** For every file of bytes other than 255 there is
a line for each byte of the file, in ascending order, with the byte and its path in the tree. The
archive is the text of this tree and a payload, and the payload holds the paths of the bytes of the
file one after the other. -/
theorem tableg_prints (hlen : bytes.length < 2 ^ 31) (h255 : 255 ∉ bytes) (hne : bytes ≠ []) :
    ∃ (root : TreeNode) (code : Byte → List Bool) (result : CInt) (payloadBytes : List Byte),
      (∀ b ∈ bytes, (b, code b) ∈ root.codes) ∧
      tableg qsort beyond bytes = some ((List.range NUMBER_OF_CHARS).flatMap (fun i =>
        if BitVec.ofNat 8 i ∈ bytes then
          entryLine (BitVec.ofNat 8 i) (bitText (code (BitVec.ofNat 8 i))) else [])) ∧
      huffc qsort beyond bytes FILE.reliable
        = some (result, (tree_serialize root FILE.reliable).2.written ++ payloadBytes) ∧
      Payload payloadBytes (bytes.flatMap code) := by
  obtain ⟨root, ids, code, archive, hbuild, htree, hcode, hhuffc, payloadBytes, rfl, hpayload⟩ :=
    huffc_spec qsort beyond hlen h255 hne
  refine ⟨root, code, BitVec.ofNat 32 bytes.length, payloadBytes, hcode, ?_, ?_, hpayload⟩
  · have hroot : root ≠ .null := fun hnull => by
      cases hnull ▸ htree.full
    rw [tableg, hbuild]
    simp only [Option.bind_eq_bind, Option.bind_some, table_build, if_neg hroot, table_print,
      Option.some.injEq]
    apply List.flatMap_congr
    intro i hi
    by_cases hmem : BitVec.ofNat 8 i ∈ bytes
    · rw [if_pos hmem, rec_gen_table_of_mem htree.nodup (hcode _ hmem) _ bit_array_new rfl]
      rfl
    · have hnot : BitVec.ofNat 8 i ∉ root.chars := by
        rwa [htree.mem_chars, counted_eq_self h255]
      rw [if_neg hmem, rec_gen_table_of_not_mem hnot]
  · rw [hhuffc, written_tree_serialize, List.cons_append, List.append_assoc]
    rfl

end Files

/-- The text "abca". -/
theorem tableg_prints_abca :
    ∃ (root : TreeNode) (code : Byte → List Bool) (result : CInt) (payloadBytes : List Byte),
      (∀ b ∈ ([97, 98, 99, 97] : List Byte), (b, code b) ∈ root.codes) ∧
      tableg (insertionQsort TreeNode) (fun _ => .null) [97, 98, 99, 97]
        = some ((List.range NUMBER_OF_CHARS).flatMap (fun i =>
          if BitVec.ofNat 8 i ∈ ([97, 98, 99, 97] : List Byte) then
            entryLine (BitVec.ofNat 8 i) (bitText (code (BitVec.ofNat 8 i))) else [])) ∧
      huffc (insertionQsort TreeNode) (fun _ => .null) [97, 98, 99, 97] FILE.reliable
        = some (result, (tree_serialize root FILE.reliable).2.written ++ payloadBytes) ∧
      Payload payloadBytes ([97, 98, 99, 97].flatMap code) :=
  tableg_prints (insertionQsort TreeNode) (fun _ => .null) (by decide) (by decide) (by decide)

end ProjectsInC.Huffman
