/-
Which slots of the queue the compressor uses.

The second and the third phase are written once more over the recorded operations
of the queue, and return what the plain ones do. They leave the array for one kind
of table only: with all 256 characters in it the first `pqueue_dequeue` reads
behind the last slot ([`phases_in_bounds_iff`]). The first phase never counts the
character 255, so that no file leads there.
-/
import ProjectsInC.Huffman.Phases
import ProjectsInC.Huffman.QueueBounds

set_option autoImplicit false

namespace ProjectsInC.Huffman

open NodeType

/-! ## The phases with their accesses -/

/-- One round of the loop of `create_tree_nodes`. -/
def createNode_traced (qsort : Qsort TreeNode) (table : FrequencyTable)
    (st : (PriorityQueue × CInt) × List ℤ) (i : ℕ) : (PriorityQueue × CInt) × List ℤ :=
  if 0 < (table i).v.toInt then
    let (pq, indices) := pqueue_enqueue_traced qsort st.1.1
      (.node st.1.2 LEAF ⟨(table i).v, (table i).c⟩ .null .null)
    ((pq, st.1.2 + 1), st.2 ++ indices)
  else st

/-- `create_tree_nodes` -/
def create_tree_nodes_traced (qsort : Qsort TreeNode) (table : FrequencyTable)
    (st : PriorityQueue × CInt) : (PriorityQueue × CInt) × List ℤ :=
  (List.range NUMBER_OF_CHARS).foldl (createNode_traced qsort table) (st, [])

/-- The loop of `build_tree`. -/
def build_tree_loop_traced (qsort : Qsort TreeNode) :
    ℕ → PriorityQueue × CInt → Option ((PriorityQueue × CInt) × List ℤ)
  | 0, _ => none
  | fuel + 1, (pq, ids) =>
      if pqueue_size pq > 1 then
        let ((L, pq), first) := pqueue_dequeue_traced pq
        let ((R, pq), second) := pqueue_dequeue_traced pq
        let (pq, third) := pqueue_enqueue_traced qsort pq (merged ids L R)
        (build_tree_loop_traced qsort fuel (pq, ids + 1)).map
          (fun (st, rest) => (st, first ++ second ++ third ++ rest))
      else some ((pq, ids), [])

/-- `build_tree` -/
def build_tree_traced (qsort : Qsort TreeNode) (st : PriorityQueue × CInt) :
    Option ((TreeNode × CInt) × List ℤ) :=
  (build_tree_loop_traced qsort (st.1.count + 1) st).map (fun (st, indices) =>
    let ((root, _), last) := pqueue_dequeue_traced st.1
    ((root, st.2), indices ++ last))

/-- `create_tree_nodes` and then `build_tree`. -/
def phases_traced (qsort : Qsort TreeNode) (table : FrequencyTable) (beyond : ℕ → TreeNode) :
    Option ((TreeNode × CInt) × List ℤ) :=
  let (st, indices) := create_tree_nodes_traced qsort table (pqueue_new beyond, 1)
  (build_tree_traced qsort st).map (fun (result, rest) => (result, indices ++ rest))

/-! ## The accesses of a phase -/

section Phases

variable {pq : PriorityQueue} {j : ℤ}

/-- The rounds of `create_tree_nodes` fill the slots one after the other. -/
theorem created (qsort : Qsort TreeNode) (table : FrequencyTable) (beyond : ℕ → TreeNode) {n : ℕ}
    (hn : n ≤ NUMBER_OF_CHARS) :
    ∃ indices, (List.range n).foldl (createNode_traced qsort table) ((pqueue_new beyond, 1), [])
        = (filled qsort table beyond n, indices) ∧
      ∀ j ∈ indices, 0 ≤ j ∧ j < (entriesTo table n).length := by
  induction n with
  | zero => exact ⟨[], rfl, fun _ h => absurd h List.not_mem_nil⟩
  | succ n ih =>
      obtain ⟨indices, hfold, hindices⟩ := ih (Nat.le_of_succ_le hn)
      have hcount := (filled_leaves qsort table beyond (Nat.le_of_succ_le hn)).count
      have hfilled : filled qsort table beyond (n + 1)
          = createNode qsort table (filled qsort table beyond n) n := by
        rw [filled, List.range_succ, List.foldl_append]
        rfl
      rw [List.range_succ, List.foldl_append, hfold, List.foldl_cons, List.foldl_nil, hfilled,
        createNode_traced, createNode, entriesTo_succ]
      by_cases hv : 0 < (table n).v.toInt
      · rw [if_pos hv, if_pos hv, if_pos hv]
        refine ⟨_, Prod.ext (Prod.ext ?_ rfl) rfl, ?_⟩
        · exact traced_enqueue_fst qsort _ _
        · intro j hj
          rw [List.length_append, List.length_singleton]
          rcases List.mem_append.mp hj with hold | hnew
          · have hbound := hindices j hold
            omega
          · obtain ⟨-, hpos, hle⟩ := (mem_enqueue_indices qsort _).mp hnew
            have hslot : j ≤ (filled qsort table beyond n).1.count := hle
            omega
      · rw [if_neg hv, if_neg hv, if_neg hv, List.append_nil]
        exact ⟨indices, rfl, hindices⟩

/-- The first of the nodes that are taken is the one the highest slot is used for. -/
theorem looped (qsort : Qsort TreeNode) {n fuel : ℕ} (hcount : pq.count = n) (hn : n ≤ MAXSIZE)
    (ids : CInt) (hfuel : n < fuel) :
    ∃ st indices, build_tree_loop_traced qsort fuel (pq, ids) = some (st, indices) ∧
      build_tree_loop qsort fuel (pq, ids) = some st ∧ st.1.count ≤ 1 ∧ st.1.count ≤ n ∧
      (∀ j ∈ indices, 0 ≤ j ∧ j ≤ n) ∧ (1 < n → (n : ℤ) ∈ indices) := by
  induction fuel generalizing pq n ids with
  | zero => exact absurd hfuel (Nat.not_lt_zero n)
  | succ fuel ih =>
      rw [build_tree_loop_traced, build_tree_loop, pqueue_size, hcount]
      by_cases hmore : n > 1
      · rw [if_pos hmore, if_pos hmore]
        have hfst := traced_dequeue_fst pq
        have hfst' := traced_dequeue_fst (pqueue_dequeue pq).2
        have hcount₁ : (pqueue_dequeue pq).2.count = n - 1 := by rw [count_dequeue, hcount]
        have hcount₂ : (pqueue_dequeue (pqueue_dequeue pq).2).2.count = n - 2 := by
          rw [count_dequeue, hcount₁]
          omega
        have hroom : (pqueue_dequeue (pqueue_dequeue pq).2).2.count < MAXSIZE := by omega
        have hfst'' := traced_enqueue_fst qsort (pqueue_dequeue (pqueue_dequeue pq).2).2
          (merged ids (pqueue_dequeue pq).1 (pqueue_dequeue (pqueue_dequeue pq).2).1)
        have hcount₃ := count_enqueue qsort hroom
          (merged ids (pqueue_dequeue pq).1 (pqueue_dequeue (pqueue_dequeue pq).2).1)
        rw [hcount₂] at hcount₃
        obtain ⟨st, indices, hloop, hplain, hone, hle, hindices, -⟩ :=
          @ih _ (n - 1) (by rw [hcount₃]; omega) (by omega) (ids + 1) (by omega)
        simp only [hfst, hfst', hfst'', hloop, Option.map_some]
        refine ⟨st, _, rfl, hplain, hone, by omega, ?_, ?_⟩
        · intro j hj
          simp only [List.mem_append, mem_dequeue_indices, mem_enqueue_indices, hcount, hcount₁,
            hcount₂] at hj
          rcases hj with ((hj | hj) | hj) | hj
          · omega
          · omega
          · omega
          · have hbound := hindices j hj
            omega
        · intro _
          simp only [List.mem_append, mem_dequeue_indices, hcount]
          left; left; left
          omega
      · rw [if_neg hmore, if_neg hmore]
        refine ⟨(pq, ids), [], rfl, rfl, ?_, hcount.le, fun _ h => absurd h List.not_mem_nil, ?_⟩
        · rw [hcount]
          omega
        · intro hlt
          exact absurd hlt hmore

end Phases

/-- **Where the phases use the queue.** They return what they return without the recording, and
all their accesses are inside the array if and only if the table has at most 255 entries above
zero; the table of a file never has more. -/
theorem phases_in_bounds_iff (qsort : Qsort TreeNode) (beyond : ℕ → TreeNode)
    (table : FrequencyTable) :
    ∃ result indices, phases_traced qsort table beyond = some (result, indices) ∧
      build_tree qsort (create_tree_nodes qsort table (pqueue_new beyond, 1)) = some result ∧
      ((∀ j ∈ indices, 0 ≤ j ∧ j < MAXSIZE) ↔ (entries table).length ≤ 255) ∧
      ∀ bytes, table = compute_freq bytes → ∀ j ∈ indices, 0 ≤ j ∧ j < MAXSIZE := by
  obtain ⟨first, hcreate, hfirst⟩ := created qsort table beyond le_rfl
  have hcount : (filled qsort table beyond NUMBER_OF_CHARS).1.count = (entries table).length :=
    (filled_leaves qsort table beyond le_rfl).count
  have hfew : (entries table).length ≤ MAXSIZE := length_entriesTo_le table NUMBER_OF_CHARS
  obtain ⟨st, second, hloop, hplain, hone, hle, hsecond, hlast⟩ := looped qsort hcount hfew
    (filled qsort table beyond NUMBER_OF_CHARS).2 (Nat.lt_succ_self _)
  have hall : ∀ j ∈ first ++ (second ++ (pqueue_dequeue_traced st.1).2),
      0 ≤ j ∧ j ≤ (entries table).length := by
    intro j hj
    rcases List.mem_append.mp hj with hj | hj
    · have hbound : 0 ≤ j ∧ j < (entries table).length := hfirst j hj
      omega
    · rcases List.mem_append.mp hj with hj | hj
      · exact hsecond j hj
      · obtain ⟨-, hpos, hslot⟩ := mem_dequeue_indices.mp hj
        omega
  have hiff : (∀ j ∈ first ++ (second ++ (pqueue_dequeue_traced st.1).2), 0 ≤ j ∧ j < MAXSIZE) ↔
      (entries table).length ≤ 255 := by
    constructor
    · intro hinside
      by_contra hmany
      -- the first node that is taken moves what lies behind the last slot
      have hmem := hlast (by omega)
      have hbound := hinside _ (List.mem_append_right _ (List.mem_append_left _ hmem))
      have hmax : MAXSIZE = 256 := rfl
      omega
    · intro h j hj
      have hbound := hall j hj
      have hmax : MAXSIZE = 256 := rfl
      omega
  refine ⟨((pqueue_dequeue st.1).1, st.2), _, ?_, ?_, hiff, ?_⟩
  · rw [phases_traced, create_tree_nodes_traced, hcreate]
    simp only [build_tree_traced, hcount, hloop, Option.map_some, ← traced_dequeue_fst]
  · show build_tree qsort (filled qsort table beyond NUMBER_OF_CHARS) = _
    rw [build_tree, hcount, hplain, Option.map_some]
  · rintro bytes rfl
    exact hiff.mpr (length_entries_compute_freq bytes)

end ProjectsInC.Huffman
