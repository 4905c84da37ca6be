/-
`tree.c`: the tree as text.

A node is a record of six numbers, and a tree is the records of its nodes,
children first, between two '#' ([`tree_serialize_spec`]).
-/
import ProjectsInC.Decimal
import ProjectsInC.Stdio
import ProjectsInC.Huffman.Tree

set_option autoImplicit false

namespace ProjectsInC.Huffman

open NodeType

/-- The numbers `tree_serialize_rec` prints and `tree_deserialize` scans for a node. -/
structure Record where
  type : CInt
  id : CInt
  v : CInt
  c : CInt
  left : CInt
  right : CInt
deriving DecidableEq, Repr

/-- What the format "%d %d %d %d %d %d," makes of a record. -/
def Record.text (r : Record) : List Byte :=
  intText r.type ++ 32 :: (intText r.id ++ 32 :: (intText r.v ++ 32 :: (intText r.c ++
    32 :: (intText r.left ++ 32 :: (intText r.right ++ [44])))))

/-- The record of a node. -/
def recordOf (id : CInt) (type : NodeType) (freq : Frequency) (left right : TreeNode) : Record :=
  ⟨type.code, id, freq.v, freq.c.signExtend 32, left.idOr0, right.idOr0⟩

/-- `tree_serialize_rec`; a NULL child is passed over by the caller. -/
def tree_serialize_rec : TreeNode → FILE → CInt × FILE
  | .null, fp => (0, fp)
  | .node id LEAF freq left right, fp => fprintf (recordOf id LEAF freq left right).text fp
  | .node id INTERNAL freq left right, fp =>
      let (result, fp) := tree_serialize_rec left fp
      if result.toInt < 0 then (result, fp)
      else
        let (result, fp) := tree_serialize_rec right fp
        if result.toInt < 0 then (result, fp)
        else fprintf (recordOf id INTERNAL freq left right).text fp

/-- `tree_serialize` -/
def tree_serialize (tree : TreeNode) (fp : FILE) : CInt × FILE :=
  let (result, fp) := fprintf [35] fp
  if result.toInt < 0 then (result, fp)
  else
    let (result, fp) := tree_serialize_rec tree fp
    if result.toInt < 0 then (result, fp) else fprintf [35] fp

/-! ## The text of a tree -/

/-- The records of a tree in the order they are written. -/
def recordsOf : TreeNode → List Record
  | .null => []
  | .node id LEAF freq left right => [recordOf id LEAF freq left right]
  | .node id INTERNAL freq left right =>
      recordsOf left ++ recordsOf right ++ [recordOf id INTERNAL freq left right]

/-- The records one behind the other. -/
def recordsText (rs : List Record) : List Byte := rs.flatMap Record.text

theorem recordsText_append (rs rs' : List Record) :
    recordsText (rs ++ rs') = recordsText rs ++ recordsText rs' := List.flatMap_append ..

theorem recordsText_singleton (r : Record) : recordsText [r] = r.text := List.flatMap_singleton ..

theorem length_text_le (r : Record) : r.text.length ≤ 72 := by
  have htype := length_intText_le r.type
  have hid := length_intText_le r.id
  have hv := length_intText_le r.v
  have hc := length_intText_le r.c
  have hleft := length_intText_le r.left
  have hright := length_intText_le r.right
  simp only [Record.text, List.length_append, List.length_cons, List.length_nil]
  omega

/-- Every record has some text. -/
theorem length_le_recordsText (rs : List Record) : rs.length ≤ (recordsText rs).length := by
  induction rs with
  | nil => exact Nat.zero_le _
  | cons r rs ih =>
      have htext : (recordsText (r :: rs)).length = r.text.length + (recordsText rs).length := by
        rw [recordsText, List.flatMap_cons, List.length_append]
        rfl
      have hpos : 1 ≤ r.text.length := by
        simp only [Record.text, List.length_append, List.length_cons]
        omega
      rw [htext, List.length_cons]
      omega

/-- The text went into the file, which goes on taking everything. -/
structure Took (fp fp' : FILE) (text : List Byte) : Prop where
  written : fp'.written = fp.written ++ text
  fails : fp'.fails = fp.fails

theorem Took.trans {fp fp' fp'' : FILE} {text text' : List Byte} (h : Took fp fp' text)
    (h' : Took fp' fp'' text') : Took fp fp'' (text ++ text') where
  written := by rw [h'.written, h.written, List.append_assoc]
  fails := h'.fails.trans h.fails

theorem Took.reliable {fp fp' : FILE} {text : List Byte} (h : Took fp fp' text)
    (hfp : ∀ n, fp.fails n = false) : ∀ n, fp'.fails n = false := fun n => by
  rw [h.fails]
  exact hfp n

/-- A short text is printed and `fprintf` does not return a negative number. -/
theorem fprintf_took {fp : FILE} (hfp : ∀ n, fp.fails n = false) (text : List Byte)
    (hlen : text.length < 2 ^ 31) :
    ∃ result fp', fprintf text fp = (result, fp') ∧ 0 ≤ result.toInt ∧ Took fp fp' text := by
  refine ⟨_, _, fprintf_ok (hfp _) text, ?_, rfl, rfl⟩
  rw [toInt_ofNat_of_lt hlen]
  exact Int.natCast_nonneg _

theorem tree_serialize_rec_spec (tree : TreeNode) {fp : FILE} (hfp : ∀ n, fp.fails n = false) :
    ∃ result fp', tree_serialize_rec tree fp = (result, fp') ∧ 0 ≤ result.toInt ∧
      Took fp fp' (recordsText (recordsOf tree)) := by
  induction tree generalizing fp with
  | null => exact ⟨0, fp, rfl, le_rfl, (List.append_nil _).symm, rfl⟩
  | node id type freq left right ihl ihr =>
      -- `fprintf` returns how much it printed, so a record must not be too long
      have hshort : ∀ r : Record, r.text.length < 2 ^ 31 := fun r =>
        (length_text_le r).trans_lt (by norm_num)
      cases type with
      | LEAF =>
          rw [recordsOf, recordsText_singleton]
          exact fprintf_took hfp _ (hshort _)
      | INTERNAL =>
          obtain ⟨resultl, fpl, hl, hresultl, htookl⟩ := ihl hfp
          obtain ⟨resultr, fpr, hr, hresultr, htookr⟩ := ihr (htookl.reliable hfp)
          have htook := htookl.trans htookr
          obtain ⟨result, fp', hlast, hresult, htook'⟩ := fprintf_took (htook.reliable hfp) _
            (hshort (recordOf id INTERNAL freq left right))
          refine ⟨result, fp', ?_, hresult, ?_⟩
          · rw [tree_serialize_rec, hl]
            simp only [not_lt.mpr hresultl, if_false, hr, not_lt.mpr hresultr, hlast]
          · rw [recordsOf, recordsText_append, recordsText_append, recordsText_singleton]
            exact htook.trans htook'

/-- **`tree_serialize`** on a file that takes everything. -/
theorem tree_serialize_spec (tree : TreeNode) {fp : FILE} (hfp : ∀ n, fp.fails n = false) :
    ∃ result fp', tree_serialize tree fp = (result, fp') ∧ 0 ≤ result.toInt ∧
      Took fp fp' (35 :: (recordsText (recordsOf tree) ++ [35])) := by
  obtain ⟨result₁, fp₁, h₁, hresult₁, htook₁⟩ := fprintf_took hfp [35] (by decide)
  obtain ⟨result₂, fp₂, h₂, hresult₂, htook₂⟩ :=
    tree_serialize_rec_spec tree (htook₁.reliable hfp)
  have htook := htook₁.trans htook₂
  obtain ⟨result₃, fp₃, h₃, hresult₃, htook₃⟩ :=
    fprintf_took (htook.reliable hfp) [35] (by decide)
  refine ⟨result₃, fp₃, ?_, hresult₃, htook.trans htook₃⟩
  rw [tree_serialize, h₁]
  simp only [not_lt.mpr hresult₁, if_false, h₂, not_lt.mpr hresult₂, h₃]

end ProjectsInC.Huffman
