/-
The encode table, `huffman_find` and `decode_one` go by the same paths.

Three functions follow a path from the root: the recursion that fills the table, the search
along a string and the search along the bits of a file. Each of them is about the list of
leaves with their paths ([`TreeNode.codes`]), and no path there begins with another one
([`char_of_isPrefix`]). Nothing is needed of the tree but that its characters are different.
-/
import ProjectsInC.Huffman.BitStream
import ProjectsInC.Huffman.Decoder
import ProjectsInC.Huffman.Huffman
import ProjectsInC.Huffman.Table

set_option autoImplicit false

namespace ProjectsInC.Huffman

open NodeType

section Paths

variable {tree : TreeNode} {c c' : Byte} {path path' : List Bool}

/-- The paths to two leaves part before either of them ends. -/
theorem char_of_isPrefix (h : (c, path) ∈ tree.codes) (h' : (c', path') ∈ tree.codes)
    (hpre : path <+: path') : c = c' := by
  induction tree generalizing path path' with
  | null => exact absurd h List.not_mem_nil
  | node id type freq left right ihl ihr =>
      cases type with
      | LEAF =>
          obtain ⟨rfl, -⟩ := Prod.mk.inj (List.mem_singleton.mp h)
          obtain ⟨rfl, -⟩ := Prod.mk.inj (List.mem_singleton.mp h')
          rfl
      | INTERNAL =>
          rw [mem_codes_internal] at h h'
          rcases h with ⟨rest, rfl, hmem⟩ | ⟨rest, rfl, hmem⟩
          · rcases h' with ⟨rest', rfl, hmem'⟩ | ⟨rest', rfl, hmem'⟩
            · exact ihl hmem hmem' (List.cons_prefix_cons.mp hpre).2
            · exact absurd (List.cons_prefix_cons.mp hpre).1 (by decide)
          · rcases h' with ⟨rest', rfl, hmem'⟩ | ⟨rest', rfl, hmem'⟩
            · exact absurd (List.cons_prefix_cons.mp hpre).1 (by decide)
            · exact ihr hmem hmem' (List.cons_prefix_cons.mp hpre).2

/-- Different paths have different strings, place by place. -/
theorem isPrefix_of_bitText (h : bitText path <+: bitText path') : path <+: path' := by
  have hinj : Function.Injective (fun bit : Bool => if bit then (49 : Byte) else 48) := by
    decide
  exact (List.prefix_map_iff_of_injective hinj).mp h

/-- **`huffman_find`** along the path of a leaf. -/
theorem huffman_find_path (h : (c, path) ∈ tree.codes) :
    huffman_find tree (bitText path) = some (c.signExtend 32) := by
  -- a child that a path leads into is not NULL
  induction h using codes_induct with
  | leaf id v left right => rfl
  | left id freq left right path h ih =>
      rw [bitText, List.map_cons, huffman_find, if_pos (by rfl), if_neg (ne_null_of_codes h)]
      exact ih
  | right id freq left right path h ih =>
      rw [bitText, List.map_cons, huffman_find, if_neg (by decide), if_neg (ne_null_of_codes h)]
      exact ih

end Paths

/-! ## Bits that begin with a code -/

/-- The next calls of `bits_io_read_bit` return the bits of the string. -/
def BeginsWith (bfile : BitsIOFile) (estr : List Byte) : Prop :=
  ∀ i ch, estr[i]? = some ch → bit_read bfile i = ch.signExtend 32 - 48

/-- The first bit, and those behind it. -/
theorem beginsWith_cons {bfile : BitsIOFile} {ch : Byte} {estr : List Byte} :
    BeginsWith bfile (ch :: estr) ↔
      (bits_io_read_bit bfile).1 = ch.signExtend 32 - 48 ∧
        BeginsWith (bits_io_read_bit bfile).2 estr := by
  constructor
  · intro h
    refine ⟨h 0 ch rfl, ?_⟩
    intro i ch' hi
    rw [← bit_read_succ]
    exact h (i + 1) ch' hi
  · rintro ⟨hfirst, hrest⟩ i ch' hi
    cases i with
    | zero =>
        obtain rfl : ch = ch' := Option.some.inj hi
        exact hfirst
    | succ i =>
        rw [bit_read_succ]
        exact hrest i ch' hi

/-- **`decode_one`** stops at the leaf behind the bits of its path. -/
theorem decodeFrom_beginsWith {tree : TreeNode} {c : Byte} {path : List Bool}
    (h : (c, path) ∈ tree.codes) {bfile : BitsIOFile} (hbits : BeginsWith bfile (bitText path)) :
    decodeFrom tree bfile = (c.signExtend 32, read_bits bfile path.length) := by
  have hstep : ∀ (bfile : BitsIOFile) (rest : List Bool), read_bits bfile (rest.length + 1)
      = read_bits (bits_io_read_bit bfile).2 rest.length := fun bfile rest =>
    Function.iterate_succ_apply _ _ _
  induction h using codes_induct generalizing bfile with
  | leaf id v left right => rfl
  | left id freq left right path h ih =>
      obtain ⟨hfirst, hrest⟩ := beginsWith_cons.mp hbits
      have hone : (bits_io_read_bit bfile).1 = 1 := hfirst
      rw [decodeFrom, List.length_cons, hstep]
      simp only [hone]
      exact ih hrest
  | right id freq left right path h ih =>
      obtain ⟨hfirst, hrest⟩ := beginsWith_cons.mp hbits
      have hzero : (bits_io_read_bit bfile).1 = 0 := hfirst
      rw [decodeFrom, List.length_cons, hstep]
      simp only [hzero]
      exact ih hrest

/-! ## The table -/

/-- **The encode table is a prefix code that the walk down the tree inverts.** In the table of a
tree with different characters at its leaves, every other character has no code; the code of a
leaf's character leads `huffman_find` back to it, begins the code of no other character, and
behind the bits of the code `decode_one` has returned the character and read nothing else. -/
theorem encode_table_inverted {tree : TreeNode} (htree : tree ≠ .null)
    (hnodup : tree.chars.Nodup) :
    ∃ etab, table_build tree = some etab ∧ (∀ c, c ∉ tree.chars → etab c = none) ∧
      ∀ c ∈ tree.chars, ∃ estr, table_bit_encode etab c = some estr ∧
        huffman_find tree estr = some (c.signExtend 32) ∧
        (∀ c' estr', table_bit_encode etab c' = some estr' → c' ≠ c → ¬ estr <+: estr') ∧
        ∀ outfp bfile, BeginsWith bfile estr →
          decode_one ⟨outfp, bfile, tree⟩
            = (c.signExtend 32, ⟨outfp, read_bits bfile estr.length, tree⟩) := by
  refine ⟨_, if_neg htree, ?_, ?_⟩
  · intro c hc
    exact rec_gen_table_of_not_mem hc _ _
  · intro c hc
    obtain ⟨path, hpath⟩ := exists_path hc
    have hcode : ∀ {c path}, (c, path) ∈ tree.codes →
        table_bit_encode (rec_gen_table (fun _ => none) tree bit_array_new) c
          = some (bitText path) := by
      intro c path hmem
      rw [table_bit_encode, rec_gen_table_of_mem hnodup hmem _ bit_array_new rfl]
      rfl
    refine ⟨bitText path, hcode hpath, huffman_find_path hpath, ?_, ?_⟩
    · intro c' estr' hestr' hne hpre
      by_cases hc' : c' ∈ tree.chars
      · obtain ⟨path', hpath'⟩ := exists_path hc'
        rw [hcode hpath'] at hestr'
        obtain rfl := Option.some.inj hestr'
        exact hne (char_of_isPrefix hpath hpath' (isPrefix_of_bitText hpre)).symm
      · rw [table_bit_encode, rec_gen_table_of_not_mem hc'] at hestr'
        cases hestr'
    · intro outfp bfile hbits
      rw [decode_one]
      simp only [decodeFrom_beginsWith hpath hbits]
      rw [bitText, List.length_map]

/-- The tree of "aabc". -/
def treeOfAabc : TreeNode :=
  .node 5 INTERNAL ⟨4, 0⟩ (.node 1 LEAF ⟨2, 97⟩ .null .null)
    (.node 4 INTERNAL ⟨2, 0⟩ (.node 2 LEAF ⟨1, 98⟩ .null .null) (.node 3 LEAF ⟨1, 99⟩ .null .null))

theorem encode_table_inverted_aabc :
    ∃ etab estr, table_build treeOfAabc = some etab ∧ etab 100 = none ∧
      table_bit_encode etab 98 = some estr ∧ huffman_find treeOfAabc estr = some 98 := by
  obtain ⟨etab, hbuild, hnone, hcodes⟩ :=
    encode_table_inverted (show treeOfAabc ≠ .null by decide) (by decide)
  obtain ⟨estr, hencode, hfind, -⟩ := hcodes 98 (by decide)
  exact ⟨etab, estr, hbuild, hnone 100 (by decide), hencode, hfind⟩

end ProjectsInC.Huffman
