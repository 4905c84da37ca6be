/-
`huffman.c`: the three phases that make a tree out of a file.

The counter `ids` behind `tree_new` is passed along. A file opened for reading is
the list of its bytes.
-/
import ProjectsInC.Stdio
import ProjectsInC.Huffman.PQueue

set_option autoImplicit false

namespace ProjectsInC.Huffman

open NodeType

/-- `NUMBER_OF_CHARS` -/
def NUMBER_OF_CHARS : ℕ := 256

/-! ## Phase 1 -/

/-- The array `table`. -/
structure FrequencyTable where
  entry : ℕ → Frequency

instance : CoeFun FrequencyTable (fun _ => ℕ → Frequency) := ⟨FrequencyTable.entry⟩

/-- An assignment to `table[i]`. -/
def FrequencyTable.set (table : FrequencyTable) (i : ℕ) (f : Frequency) : FrequencyTable :=
  ⟨Function.update table.entry i f⟩

@[simp] theorem FrequencyTable.set_self (table : FrequencyTable) (i : ℕ) (f : Frequency) :
    table.set i f i = f := Function.update_self ..

theorem FrequencyTable.set_of_ne {i j : ℕ} (h : j ≠ i) (table : FrequencyTable) (f : Frequency) :
    table.set i f j = table j := Function.update_of_ne h ..

/-- The table after its first loop. -/
def freshTable : FrequencyTable := ⟨fun i => ⟨0, BitVec.ofNat 8 i⟩⟩

/-- The inner loop: the first entry for `c` is counted up, then `break`. -/
def countChar (table : FrequencyTable) (c : Byte) : FrequencyTable :=
  match (List.range NUMBER_OF_CHARS).find? (fun i => (table i).c == c) with
  | some i => table.set i ⟨(table i).v + 1, c⟩
  | none => table

/-- The loop `while (c != EOF)`. The result of `fgetc` has been stored in a
`char`, which the comparison with EOF promotes to an `int` again. -/
def compute_freq_loop (table : FrequencyTable) : List Byte → FrequencyTable
  | [] => table
  | c :: rest =>
      if c.signExtend 32 = EOF then table else compute_freq_loop (countChar table c) rest

/-- `compute_freq` -/
def compute_freq (bytes : List Byte) : FrequencyTable := compute_freq_loop freshTable bytes

/-! ## Phase 2 -/

/-- One round of the loop of `create_tree_nodes`. -/
def createNode (qsort : Qsort TreeNode) (table : FrequencyTable) (st : PriorityQueue × CInt)
    (i : ℕ) : PriorityQueue × CInt :=
  if 0 < (table i).v.toInt then
    (pqueue_enqueue qsort st.1 (.node st.2 LEAF ⟨(table i).v, (table i).c⟩ .null .null), st.2 + 1)
  else st

/-- `create_tree_nodes` -/
def create_tree_nodes (qsort : Qsort TreeNode) (table : FrequencyTable)
    (st : PriorityQueue × CInt) : PriorityQueue × CInt :=
  (List.range NUMBER_OF_CHARS).foldl (createNode qsort table) st

/-! ## Phase 3 -/

/-- The new INTERNAL node over `L` and `R`. -/
def merged (id : CInt) (L R : TreeNode) : TreeNode :=
  .node id INTERNAL ⟨L.freq.v + R.freq.v, 0⟩ L R

/-- The loop of `build_tree`; `none` if the bound is used up. -/
def build_tree_loop (qsort : Qsort TreeNode) :
    ℕ → PriorityQueue × CInt → Option (PriorityQueue × CInt)
  | 0, _ => none
  | fuel + 1, (pq, ids) =>
      if pqueue_size pq > 1 then
        let (L, pq) := pqueue_dequeue pq
        let (R, pq) := pqueue_dequeue pq
        build_tree_loop qsort fuel (pqueue_enqueue qsort pq (merged ids L R), ids + 1)
      else some (pq, ids)

/-- `build_tree`: each round takes one node off the queue. -/
def build_tree (qsort : Qsort TreeNode) (st : PriorityQueue × CInt) : Option (TreeNode × CInt) :=
  (build_tree_loop qsort (st.1.count + 1) st).map (fun st => ((pqueue_dequeue st.1).1, st.2))

/-- `huffman_build_tree`, in a process that has not made a node before. -/
def huffman_build_tree (qsort : Qsort TreeNode) (beyond : ℕ → TreeNode) (bytes : List Byte) :
    Option (TreeNode × CInt) :=
  build_tree qsort (create_tree_nodes qsort (compute_freq bytes) (pqueue_new beyond, 1))

/-! ## `huffman_find` -/

/-- `huffman_find`; `none` for a NULL tree and for a failing assertion. -/
def huffman_find : TreeNode → List Byte → Option CInt
  | .null, _ => none
  | .node _ type freq _ _, [] => if type = LEAF then some (freq.c.signExtend 32) else none
  | .node _ _ _ left right, ch :: encoding =>
      if ch = 49 then if left = .null then some (-1) else huffman_find left encoding
      else if right = .null then some (-1) else huffman_find right encoding

end ProjectsInC.Huffman
