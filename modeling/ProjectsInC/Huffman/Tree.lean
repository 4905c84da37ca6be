/-
`tree.h`: the nodes of a Huffman tree.

The encoder builds its tree bottom-up out of fresh nodes and never changes one
again, so there a `TreeNode *` is the tree below it, with `null` for NULL; the
field `next` is used by the parser of the archive only and lives there. What a
tree is about is its list of leaves with the path to each ([`TreeNode.codes`]).
-/
import Mathlib.Data.List.Nodup
import ProjectsInC.Machine

set_option autoImplicit false

namespace ProjectsInC.Huffman

/-- `Frequency` -/
@[ext] structure Frequency where
  v : CInt
  c : Byte
deriving DecidableEq, Repr

/-- `NodeType` -/
inductive NodeType
  | INTERNAL
  | LEAF
deriving DecidableEq, Repr

/-- The number of the enumerator. -/
def NodeType.code : NodeType → CInt
  | INTERNAL => 0
  | LEAF => 1

open NodeType

/-- `TreeNode *` -/
inductive TreeNode
  | null
  | node (id : CInt) (type : NodeType) (freq : Frequency) (left right : TreeNode)
deriving DecidableEq, Repr

/-- `tree->freq` -/
def TreeNode.freq : TreeNode → Frequency
  | null => ⟨0, 0⟩
  | node _ _ freq _ _ => freq

/-- `tree == NULL ? 0 : tree->id` -/
def TreeNode.idOr0 : TreeNode → CInt
  | null => 0
  | node id _ _ _ _ => id

/-- `tree_size` -/
def tree_size : TreeNode → ℕ
  | .null => 0
  | .node _ _ _ left right => tree_size left + tree_size right + 1

/-! ## Leaves -/

/-- The characters at the leaves, each with its path: `true` is left. -/
def TreeNode.codes : TreeNode → List (Byte × List Bool)
  | null => []
  | node _ LEAF freq _ _ => [(freq.c, [])]
  | node _ INTERNAL _ left right =>
      left.codes.map (fun p => (p.1, true :: p.2)) ++ right.codes.map (fun p => (p.1, false :: p.2))

/-- The characters at the leaves. -/
def TreeNode.chars (tree : TreeNode) : List Byte := tree.codes.map Prod.fst

/-- The frequency records of the leaves, from left to right. -/
def TreeNode.leaves : TreeNode → List Frequency
  | null => []
  | node _ LEAF freq _ _ => [freq]
  | node _ INTERNAL _ left right => left.leaves ++ right.leaves

/-- The ids of all nodes, children first. -/
def TreeNode.ids : TreeNode → List CInt
  | null => []
  | node id _ _ left right => left.ids ++ right.ids ++ [id]

/-- Two children at each INTERNAL node and none at a LEAF. -/
inductive Full : TreeNode → Prop
  | leaf (id : CInt) (freq : Frequency) : Full (.node id LEAF freq .null .null)
  | internal (id : CInt) (freq : Frequency) {left right : TreeNode} (hleft : Full left)
      (hright : Full right) : Full (.node id INTERNAL freq left right)

@[simp] theorem chars_leaf (id : CInt) (freq : Frequency) (left right : TreeNode) :
    (TreeNode.node id LEAF freq left right).chars = [freq.c] := rfl

@[simp] theorem chars_internal (id : CInt) (freq : Frequency) (left right : TreeNode) :
    (TreeNode.node id INTERNAL freq left right).chars = left.chars ++ right.chars := by
  simp only [TreeNode.chars, TreeNode.codes, List.map_append, List.map_map]
  rfl

/-- A path in a tree with two children goes left or right first. -/
theorem mem_codes_internal {id : CInt} {freq : Frequency} {left right : TreeNode} {c : Byte}
    {path : List Bool} :
    (c, path) ∈ (TreeNode.node id INTERNAL freq left right).codes ↔
      (∃ rest, path = true :: rest ∧ (c, rest) ∈ left.codes) ∨
      (∃ rest, path = false :: rest ∧ (c, rest) ∈ right.codes) := by
  simp only [TreeNode.codes, List.mem_append, List.mem_map, Prod.mk.injEq, Prod.exists]
  constructor
  · rintro (⟨c', rest, h, rfl, rfl⟩ | ⟨c', rest, h, rfl, rfl⟩)
    · exact .inl ⟨rest, rfl, h⟩
    · exact .inr ⟨rest, rfl, h⟩
  · rintro (⟨rest, rfl, h⟩ | ⟨rest, rfl, h⟩)
    · exact .inl ⟨c, rest, h, rfl, rfl⟩
    · exact .inr ⟨c, rest, h, rfl, rfl⟩

/-- **The rule of induction for a path**: it ends at a leaf, or goes on in one of the children. -/
@[elab_as_elim]
theorem codes_induct {c : Byte}
    {motive : ∀ (tree : TreeNode) (path : List Bool), (c, path) ∈ tree.codes → Prop}
    (leaf : ∀ id v left right,
      motive (.node id LEAF ⟨v, c⟩ left right) [] List.mem_cons_self)
    (left : ∀ id freq left right path (h : (c, path) ∈ left.codes), motive left path h →
      motive (.node id INTERNAL freq left right) (true :: path)
        (mem_codes_internal.mpr (.inl ⟨path, rfl, h⟩)))
    (right : ∀ id freq left right path (h : (c, path) ∈ right.codes), motive right path h →
      motive (.node id INTERNAL freq left right) (false :: path)
        (mem_codes_internal.mpr (.inr ⟨path, rfl, h⟩)))
    {tree : TreeNode} {path : List Bool} (h : (c, path) ∈ tree.codes) : motive tree path h := by
  induction tree generalizing path with
  | null => exact absurd h List.not_mem_nil
  | node id type freq l r ihl ihr =>
      cases type with
      | LEAF =>
          obtain ⟨rfl, rfl⟩ := Prod.mk.inj (List.mem_singleton.mp h)
          exact leaf id freq.v l r
      | INTERNAL =>
          rcases mem_codes_internal.mp h with ⟨rest, rfl, hmem⟩ | ⟨rest, rfl, hmem⟩
          · exact left id freq l r rest hmem (ihl hmem)
          · exact right id freq l r rest hmem (ihr hmem)

theorem ne_null_of_codes {tree : TreeNode} {c : Byte} {path : List Bool}
    (h : (c, path) ∈ tree.codes) : tree ≠ .null := by
  rintro rfl
  exact absurd h List.not_mem_nil

theorem mem_chars_of_codes {tree : TreeNode} {c : Byte} {path : List Bool}
    (h : (c, path) ∈ tree.codes) : c ∈ tree.chars := List.mem_map_of_mem h

theorem exists_path {tree : TreeNode} {c : Byte} (h : c ∈ tree.chars) :
    ∃ path, (c, path) ∈ tree.codes := by
  obtain ⟨⟨c', path⟩, hmem, rfl⟩ := List.mem_map.mp h
  exact ⟨path, hmem⟩

/-- The characters are those of the frequency records. -/
theorem Full.chars_eq {tree : TreeNode} (h : Full tree) :
    tree.chars = tree.leaves.map Frequency.c := by
  induction h with
  | leaf id freq => rfl
  | internal id freq hleft hright ihl ihr =>
      rw [chars_internal, ihl, ihr, TreeNode.leaves, List.map_append]

theorem Full.leaves_ne_nil {tree : TreeNode} (h : Full tree) : tree.leaves ≠ [] := by
  induction h with
  | leaf id freq => exact List.cons_ne_nil _ _
  | internal id freq hleft hright ihl ihr =>
      rw [TreeNode.leaves]
      exact fun h => ihl (List.append_eq_nil_iff.mp h).1

/-- A full tree has one node fewer than twice its leaves. -/
theorem Full.size_eq {tree : TreeNode} (h : Full tree) :
    tree_size tree + 1 = 2 * tree.leaves.length := by
  induction h with
  | leaf id freq => rfl
  | internal id freq hleft hright ihl ihr =>
      rw [TreeNode.leaves, List.length_append, tree_size]
      omega

/-- The type of the root tells whether there is a second leaf. -/
theorem Full.root_internal {tree : TreeNode} (h : Full tree) (hmany : 2 ≤ tree.leaves.length) :
    ∃ id freq left right, tree = .node id INTERNAL freq left right ∧ Full left ∧ Full right := by
  cases h with
  | leaf id freq => exact absurd hmany (by simp [TreeNode.leaves])
  | internal id freq hleft hright => exact ⟨id, freq, _, _, rfl, hleft, hright⟩

theorem Full.two_le_leaves {id : CInt} {freq : Frequency} {left right : TreeNode}
    (h : Full (.node id INTERNAL freq left right)) :
    2 ≤ (TreeNode.node id INTERNAL freq left right).leaves.length := by
  cases h with
  | internal _ _ hleft hright =>
      have hl := List.length_pos_of_ne_nil hleft.leaves_ne_nil
      have hr := List.length_pos_of_ne_nil hright.leaves_ne_nil
      rw [TreeNode.leaves, List.length_append]
      omega

/-- A full tree has a root. -/
theorem Full.root_mem {tree : TreeNode} (h : Full tree) : tree.idOr0 ∈ tree.ids := by
  cases h with
  | leaf id freq => simp [TreeNode.idOr0, TreeNode.ids]
  | internal id freq hleft hright => simp [TreeNode.idOr0, TreeNode.ids]

end ProjectsInC.Huffman
