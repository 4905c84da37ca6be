/-
The second and the third phase lose and duplicate nothing.

From a table with at most 255 entries the queue is filled and emptied without ever being full or
empty at the wrong time ([`SafeRound`]): one tree less behind each round, until the last one is the
root. The tree is made of the entries of the table, and every INTERNAL node of it adds up its
children exactly ([`tree_construction`]).
-/
import ProjectsInC.Huffman.Frequencies

set_option autoImplicit false

namespace ProjectsInC.Huffman

open NodeType

/-! ## The tree -/

/-- The frequency of an INTERNAL node is the sum of those of its children. -/
def SumsUp : TreeNode → Prop
  | .null => True
  | .node _ LEAF _ _ _ => True
  | .node _ INTERNAL freq left right =>
      freq.v.toInt = left.weight + right.weight ∧ SumsUp left ∧ SumsUp right

/-- A tree that has the entries of a table as its leaves. -/
structure Constructed (table : FrequencyTable) (root : TreeNode) : Prop where
  full : Full root
  leaves : root.leaves.Perm (entries table)
  sums : SumsUp root
  weight : root.weight = total (entries table)
  ids_nodup : root.ids.Nodup
  ids_pos : ∀ id ∈ root.ids, 0 < id.toInt

theorem SumsUp.leaf {t : TreeNode} (h : IsLeaf t) : SumsUp t := by
  obtain ⟨id, f, rfl⟩ := h
  trivial

/-- The two phases make such a tree. -/
theorem build_tree_constructed (qsort : Qsort TreeNode) (beyond : ℕ → TreeNode) {table : FrequencyTable}
    (hne : entries table ≠ []) (hsum : total (entries table) < 2 ^ 31) :
    ∃ root ids, build_tree qsort (create_tree_nodes qsort table (pqueue_new beyond, 1))
      = some (root, ids) ∧ Constructed table root := by
  have hpos : ∀ f ∈ entries table, 0 ≤ f.v.toInt := fun f hf => (entries_pos f hf).le
  have hperm : ∀ ts ts' : List TreeNode, ts'.Perm ts → (∀ t ∈ ts, SumsUp t) →
      ∀ t ∈ ts', SumsUp t := by
    intro ts ts' hp h t ht
    exact h t (hp.mem_iff.mp ht)
  -- the sum of two weights does not wrap around, as both are part of the total
  have hjoin : ∀ L R ts ids, Forest (entries table) (L :: R :: ts) ids →
      (∀ t ∈ R :: ts, L.weight ≤ t.weight) → (∀ t ∈ ts, R.weight ≤ t.weight) →
      (∀ t ∈ L :: R :: ts, SumsUp t) → ∀ t ∈ merged ids L R :: ts, SumsUp t := by
    intro L R ts ids hforest _ _ h t ht
    rcases List.mem_cons.mp ht with rfl | hold
    · exact ⟨hforest.weight_add hpos hsum, h L (by simp), h R (by simp)⟩
    · exact h t (by simp [hold])
  have hstart : ∀ ts ids, Forest (entries table) ts ids → (∀ t ∈ ts, IsLeaf t) →
      ∀ t ∈ ts, SumsUp t := by
    intro ts ids _ h t ht
    exact SumsUp.leaf (h t ht)
  obtain ⟨root, ids, hbuild, hforest, hsums⟩ := build_tree_spec qsort beyond hne hsum hperm hjoin hstart
  have hroot : root ∈ [root] := List.mem_cons_self
  obtain ⟨hfull, hleaves, hnodup, hids⟩ := hforest.shape.root
  refine ⟨root, ids, hbuild, hfull, hleaves, hsums root hroot, ?_, hnodup, hids⟩
  rw [hforest.weights root hroot]
  exact (hleaves.map _).sum_eq

/-! ## The queue -/

/-- A round of `build_tree` in which the queue is not too long and not too short. -/
structure SafeRound (pq : PriorityQueue) : Prop where
  continues : pqueue_size pq > 1
  few : pq.count ≤ 255
  left : (pqueue_dequeue pq).1 ≠ .null
  right : (pqueue_dequeue (pqueue_dequeue pq).2).1 ≠ .null
  room : (pqueue_dequeue (pqueue_dequeue pq).2).2.count < MAXSIZE

theorem Full.ne_null {tree : TreeNode} (h : Full tree) : tree ≠ .null := by
  rintro rfl
  cases h

/-- The third phase: a round for each entry but the last, and all of them are safe. -/
theorem build_rounds_safe (qsort : Qsort TreeNode) (beyond : ℕ → TreeNode) {table : FrequencyTable}
    (hfew : (entries table).length ≤ 255) {j : ℕ} (hj : j < (entries table).length) :
    ((build_round qsort)^[j]
      (create_tree_nodes qsort table (pqueue_new beyond, 1))).1.count = (entries table).length - j ∧
    (j < (entries table).length - 1 → SafeRound ((build_round qsort)^[j]
      (create_tree_nodes qsort table (pqueue_new beyond, 1))).1) := by
  have hlen : (entries table).length ≤ NUMBER_OF_CHARS := length_entriesTo_le table NUMBER_OF_CHARS
  have hleaves : Leaves (entries table) (create_tree_nodes qsort table (pqueue_new beyond, 1)).1
      (create_tree_nodes qsort table (pqueue_new beyond, 1)).2 :=
    filled_leaves qsort table beyond le_rfl
  have hstart := hleaves.count
  obtain ⟨hcount, hshape⟩ := @build_rounds qsort (Shape (entries table))
    (fun L R ts ids h => (h.join (h.ids_lt hlen)).perm
      ((qsort.perm comparator _).trans (List.perm_append_singleton _ _)))
    _ (by rw [hstart]; exact hlen) hleaves.forest.shape j (by rwa [hstart])
  rw [hstart] at hcount
  refine ⟨hcount, ?_⟩
  intro hmore
  generalize (build_round qsort)^[j] (create_tree_nodes qsort table (pqueue_new beyond, 1)) = st
    at hcount hshape
  -- a full tree is not NULL
  obtain ⟨L, R, ts, hs⟩ := @slots_two st.1 (by rw [hcount]; omega)
  have hfull := hshape.full
  rw [hs] at hfull
  obtain ⟨hL, hR, hroom, -, -⟩ := build_round_slots qsort hs (by rw [hcount, MAXSIZE]; omega) st.2
  refine ⟨?_, ?_, ?_, ?_, hroom⟩
  · rw [pqueue_size, hcount]
    omega
  · rw [hcount]
    omega
  · rw [hL]
    exact (hfull L (by simp)).ne_null
  · rw [hR]
    exact (hfull R (by simp)).ne_null

theorem entriesTo_sublist (table : FrequencyTable) {n m : ℕ} (h : n ≤ m) :
    (entriesTo table n).Sublist (entriesTo table m) :=
  ((List.range_sublist.mpr h).filter _).map _

/-- The queue from the first character to the last round. -/
structure QueueRun (qsort : Qsort TreeNode) (beyond : ℕ → TreeNode) (table : FrequencyTable) :
    Prop where
  /-- Behind any number of rounds of `create_tree_nodes` a further enqueue would find room. -/
  filling : ∀ n ≤ NUMBER_OF_CHARS, (filled qsort table beyond n).1.count ≤ 255
  rounds : ∀ j < (entries table).length - 1,
    SafeRound ((build_round qsort)^[j] (create_tree_nodes qsort table (pqueue_new beyond, 1))).1
  last : ((build_round qsort)^[(entries table).length - 1]
    (create_tree_nodes qsort table (pqueue_new beyond, 1))).1.count = 1
  /-- These are the rounds that the loop makes. -/
  loop : build_tree_loop qsort ((create_tree_nodes qsort table (pqueue_new beyond, 1)).1.count + 1)
    (create_tree_nodes qsort table (pqueue_new beyond, 1))
    = some ((build_round qsort)^[(entries table).length - 1]
      (create_tree_nodes qsort table (pqueue_new beyond, 1)))

theorem queueRun (qsort : Qsort TreeNode) (beyond : ℕ → TreeNode) {table : FrequencyTable}
    (hne : entries table ≠ []) (hfew : (entries table).length ≤ 255) :
    QueueRun qsort beyond table := by
  have hpos : 0 < (entries table).length := List.length_pos_iff.mpr hne
  have hstart : (create_tree_nodes qsort table (pqueue_new beyond, 1)).1.count
      = (entries table).length := (filled_leaves qsort table beyond le_rfl).count
  have hrounds : ∀ j < (entries table).length - 1, SafeRound
      ((build_round qsort)^[j] (create_tree_nodes qsort table (pqueue_new beyond, 1))).1 := by
    intro j hj
    exact (build_rounds_safe qsort beyond hfew (by omega)).2 hj
  have hlast : ((build_round qsort)^[(entries table).length - 1]
      (create_tree_nodes qsort table (pqueue_new beyond, 1))).1.count = 1 := by
    rw [(build_rounds_safe qsort beyond hfew (Nat.sub_lt hpos Nat.one_pos)).1]
    exact Nat.sub_sub_self hpos
  refine ⟨?_, hrounds, hlast, ?_⟩
  · intro n hn
    rw [(filled_leaves qsort table beyond hn).count]
    exact (entriesTo_sublist table hn).length_le.trans hfew
  · -- the loop makes just these rounds
    apply build_tree_loop_rounds qsort
    · omega
    · intro j hj
      exact (hrounds j hj).continues
    · rw [pqueue_size, hlast]
      exact lt_irrefl 1

/-! ## The tables -/

/-- The entries that are not zero. -/
def nonzero (table : FrequencyTable) : List Frequency :=
  ((List.range NUMBER_OF_CHARS).filter (fun i => (table i).v ≠ 0)).map table

/-- A table of frequencies has no negative entry. -/
theorem entries_eq_nonzero {table : FrequencyTable}
    (hnonneg : ∀ i < NUMBER_OF_CHARS, 0 ≤ (table i).v.toInt) : entries table = nonzero table := by
  rw [entries, entriesTo, nonzero]
  congr 1
  apply List.filter_congr
  intro i hi
  have hi' := hnonneg i (List.mem_range.mp hi)
  have hzero : (table i).v = 0 ↔ (table i).v.toInt = 0 := (BitVec.toInt_inj (y := 0)).symm
  rw [decide_eq_decide, ne_eq, hzero]
  omega

/-- The character 255 is never counted, so there are 255 others at most. -/
theorem length_entries_compute_freq (bytes : List Byte) :
    (entries (compute_freq bytes)).length ≤ 255 := by
  have hlast : (compute_freq bytes 255).v = 0 := by
    have hcount := (@compute_freq_loop_apply freshTable (fun _ _ => rfl) bytes).2 255 (by decide)
    have hnone : (counted bytes).count (BitVec.ofNat 8 255) = 0 :=
      List.count_eq_zero_of_not_mem (not_mem_counted bytes)
    rw [compute_freq, hcount, hnone]
    rfl
  have hnot : ¬ 0 < (compute_freq bytes 255).v.toInt := by
    rw [hlast]
    decide
  have hentries : entries (compute_freq bytes) = entriesTo (compute_freq bytes) 255 := by
    rw [entries, NUMBER_OF_CHARS, entriesTo_succ, if_neg hnot, List.append_nil]
  rw [hentries]
  exact length_entriesTo_le _ 255

/-- **Tree construction loses and duplicates nothing.** For a table with 1 to 255 entries above
zero and a sum that fits: the queue is never too long or too short, and the tree has the entries
as its leaves, exact sums and distinct positive ids. The entries above zero are those that are not
zero, as no frequency is negative, and `compute_freq` makes no more than 255. -/
theorem tree_construction (qsort : Qsort TreeNode) (beyond : ℕ → TreeNode) {table : FrequencyTable}
    (hne : entries table ≠ []) (hfew : (entries table).length ≤ 255)
    (hsum : total (entries table) < 2 ^ 31) :
    QueueRun qsort beyond table ∧
    (∃ root ids, build_tree qsort (create_tree_nodes qsort table (pqueue_new beyond, 1))
      = some (root, ids) ∧ Constructed table root) ∧
    ((∀ i < NUMBER_OF_CHARS, 0 ≤ (table i).v.toInt) → entries table = nonzero table ∧
      total (entries table) = ∑ i ∈ Finset.range NUMBER_OF_CHARS, (table i).v.toInt) ∧
    ∀ bytes, (entries (compute_freq bytes)).length ≤ 255 := by
  refine ⟨queueRun qsort beyond hne hfew, build_tree_constructed qsort beyond hne hsum, ?_,
    length_entries_compute_freq⟩
  intro hnonneg
  exact ⟨entries_eq_nonzero hnonneg, total_entriesTo NUMBER_OF_CHARS hnonneg⟩

/-- A table with two characters. -/
def twoEntries : FrequencyTable := ⟨fun i =>
  ⟨if i = 97 then 5 else if i = 98 then 2 else 0, BitVec.ofNat 8 i⟩⟩

theorem tree_construction_two :
    ∃ root ids, build_tree (insertionQsort TreeNode)
        (create_tree_nodes (insertionQsort TreeNode) twoEntries (pqueue_new (fun _ => .null), 1))
        = some (root, ids) ∧ Constructed twoEntries root := by
  obtain ⟨-, htree, -⟩ := @tree_construction (insertionQsort TreeNode) (fun _ => .null) twoEntries
    (by decide) (by decide) (by decide)
  exact htree

end ProjectsInC.Huffman
