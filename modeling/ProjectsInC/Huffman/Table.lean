/-
`table.c`: from the tree to the table of bit strings.

A `BitArray` holds the characters '1' and '0' of its string up to the NUL. The
table entry of a leaf's character is the path to that leaf
([`rec_gen_table_of_mem`]).
-/
import Mathlib.Logic.Function.Basic
import ProjectsInC.Huffman.Tree

set_option autoImplicit false

namespace ProjectsInC.Huffman

open NodeType

/-- `BitArray` -/
structure BitArray where
  len : ℕ
  bits : List Byte
deriving DecidableEq, Repr

/-- `EncodeTable`, indexed by an `unsigned char`; `none` is NULL. -/
abbrev EncodeTable := Byte → Option BitArray

/-- `bit_array_new` -/
def bit_array_new : BitArray := ⟨0, []⟩

/-- `bit_array_new_with` -/
def bit_array_new_with (b : BitArray) (bit : Byte) : BitArray :=
  ⟨b.len + 1, b.bits.take b.len ++ [48 + bit]⟩

/-- `rec_gen_table`; a NULL child is passed over by the caller. -/
def rec_gen_table (etab : EncodeTable) : TreeNode → BitArray → EncodeTable
  | .null, _ => etab
  | .node _ INTERNAL _ left right, b =>
      rec_gen_table (rec_gen_table etab left (bit_array_new_with b 1)) right
        (bit_array_new_with b 0)
  | .node _ LEAF freq _ _, b => Function.update etab freq.c (some b)

/-- `table_bit_encode`; `none` if the entry is NULL. -/
def table_bit_encode (etab : EncodeTable) (c : Byte) : Option (List Byte) :=
  (etab c).map BitArray.bits

/-- `table_build`; `none` if the tree is NULL. -/
def table_build (root : TreeNode) : Option EncodeTable :=
  if root = .null then none else some (rec_gen_table (fun _ => none) root bit_array_new)

/-! ## Entries and paths -/

/-- A path as a string of the characters '1' and '0'. -/
def bitText (path : List Bool) : List Byte := path.map (fun bit => if bit then 49 else 48)

/-- The string of a child, and from there a path on, is the string of the node and a path
that is one bit longer. -/
theorem bit_array_new_with_path {b : BitArray} (hb : b.len = b.bits.length) (bit : Bool)
    (path : List Bool) :
    (⟨(bit_array_new_with b (if bit then 1 else 0)).len + path.length,
        (bit_array_new_with b (if bit then 1 else 0)).bits ++ bitText path⟩ : BitArray)
      = ⟨b.len + (bit :: path).length, b.bits ++ bitText (bit :: path)⟩ := by
  have hbit : (48 + (if bit then 1 else 0) : Byte) = if bit then 49 else 48 := by
    cases bit <;> rfl
  simp only [bit_array_new_with, hb, hbit, bitText, List.take_length, List.map_cons,
    List.length_cons, List.append_assoc, List.cons_append, List.nil_append]
  rw [Nat.add_assoc, Nat.add_comm 1]

/-- A character without a leaf keeps its entry. -/
theorem rec_gen_table_of_not_mem {tree : TreeNode} {c : Byte} (h : c ∉ tree.chars)
    (etab : EncodeTable) (b : BitArray) : rec_gen_table etab tree b c = etab c := by
  induction tree generalizing etab b with
  | null => rfl
  | node id type freq left right ihl ihr =>
      cases type with
      | LEAF =>
          rw [chars_leaf, List.mem_singleton] at h
          exact Function.update_of_ne h ..
      | INTERNAL =>
          rw [chars_internal, List.mem_append, not_or] at h
          rw [rec_gen_table, ihr h.2, ihl h.1]

/-- The entry of a character with one leaf is the path to it. -/
theorem rec_gen_table_of_mem {tree : TreeNode} (hnodup : tree.chars.Nodup) {c : Byte}
    {path : List Bool} (h : (c, path) ∈ tree.codes) (etab : EncodeTable) (b : BitArray)
    (hb : b.len = b.bits.length) :
    rec_gen_table etab tree b c = some ⟨b.len + path.length, b.bits ++ bitText path⟩ := by
  have hwith : ∀ (b : BitArray) bit, b.len = b.bits.length →
      (bit_array_new_with b bit).len = (bit_array_new_with b bit).bits.length := by
    intro b bit hb
    simp [bit_array_new_with, hb]
  induction h using codes_induct generalizing etab b with
  | leaf id v left right =>
      rw [rec_gen_table, Function.update_self]
      simp [bitText]
  | left id freq left right path h ih =>
      rw [chars_internal] at hnodup
      obtain ⟨hl, hr, hdisj⟩ := List.nodup_append.mp hnodup
      -- the pass over the right subtree comes later and leaves the entry alone
      have hnot : c ∉ right.chars := fun hin => hdisj c (mem_chars_of_codes h) c hin rfl
      rw [rec_gen_table, rec_gen_table_of_not_mem hnot, ih hl _ _ (hwith b 1 hb)]
      exact congrArg some (bit_array_new_with_path hb true path)
  | right id freq left right path h ih =>
      rw [chars_internal] at hnodup
      obtain ⟨hl, hr, hdisj⟩ := List.nodup_append.mp hnodup
      rw [rec_gen_table, ih hr _ _ (hwith b 0 hb)]
      exact congrArg some (bit_array_new_with_path hb false path)

/-- **The encode table of a tree with distinct characters** gives for each leaf the
path to it. -/
theorem table_bit_encode_of_mem {root : TreeNode} (hnodup : root.chars.Nodup) {c : Byte}
    {path : List Bool} (h : (c, path) ∈ root.codes) :
    ∃ etab, table_build root = some etab ∧ table_bit_encode etab c = some (bitText path) := by
  refine ⟨_, if_neg (ne_null_of_codes h), ?_⟩
  rw [table_bit_encode, rec_gen_table_of_mem hnodup h _ bit_array_new rfl]
  rfl

end ProjectsInC.Huffman
