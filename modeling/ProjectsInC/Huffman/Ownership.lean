/-
Who frees what in `huffc`, `treeg` and `tableg`.

A node of the tree lies in the queue or below a node that does, so the blocks of the trees in
the queue are the nodes that have been allocated ([`build_tree_replay`]), and at the end they are
the tree that is returned. `treeg` and `tableg` free everything on every file
([`tools_free_all`]); `huffc` does so too unless an output call fails, and says with its result
what it leaves ([`huffc_frees`]).
-/
import ProjectsInC.Huffman.TableOwnership
import ProjectsInC.Huffman.Phases
import ProjectsInC.Huffman.TwoPasses
import ProjectsInC.Huffman.WriteErrors

set_option autoImplicit false

namespace ProjectsInC.Huffman

open NodeType
open Lib (MemEvent replay replay_append replay_malloc replay_access replay_free Allocates Releases)
open Lib.MemEvent

/-! ## `tree.c` and `pqueue.c` -/

/-- `tree_free` -/
def tree_free_events : TreeNode → List (MemEvent Block)
  | .null => []
  | .node id _ _ left right =>
      access (.node id) :: (tree_free_events left
        ++ (access (.node id) :: (tree_free_events right ++ [free (.node id)])))

/-- `tree_print`, and with two accesses more in each node `tree_size`. -/
def tree_walk_events : TreeNode → List (MemEvent Block)
  | .null => []
  | .node id _ _ left right =>
      access (.node id) :: (tree_walk_events left ++ tree_walk_events right)

/-- `tree->left == NULL ? 0 : tree->left->id` -/
def child_id_events (child : TreeNode) : List (MemEvent Block) :=
  if child = .null then [] else [access (.node child.idOr0)]

/-- `tree_serialize_rec`, as far as it goes if no call of `fprintf` fails. -/
def tree_serialize_rec_events : TreeNode → List (MemEvent Block)
  | .null => []
  | .node id LEAF _ left right =>
      access (.node id) :: (child_id_events left ++ child_id_events right
        ++ [access (.stream .outfile)])
  | .node id INTERNAL _ left right =>
      access (.node id) :: (tree_serialize_rec_events left ++ tree_serialize_rec_events right
        ++ child_id_events left ++ child_id_events right ++ [access (.stream .outfile)])

/-- `pqueue_enqueue`. If there is room, the comparator reads the nodes in the used slots. -/
def pqueue_enqueue_events (pq : PriorityQueue) (n : TreeNode) : List (MemEvent Block) :=
  access .queue ::
    if pq.count ≥ MAXSIZE then []
    else (pq.slots ++ [n]).map (fun n => access (Block.node n.idOr0))

/-! ## `huffman.c` -/

/-- `compute_freq` -/
def compute_freq_events : List Byte → List (MemEvent Block)
  | [] => [access (.stream .counted)]
  | c :: rest =>
      access (.stream .counted) :: if c.signExtend 32 = EOF then [] else compute_freq_events rest

/-- One round of the loop of `create_tree_nodes`. -/
def createNode_events (table : FrequencyTable) (st : PriorityQueue × CInt) (i : ℕ) :
    List (MemEvent Block) :=
  if 0 < (table i).v.toInt then
    malloc (.node st.2) :: access (.node st.2) ::
      pqueue_enqueue_events st.1 (.node st.2 LEAF ⟨(table i).v, (table i).c⟩ .null .null)
  else []

/-- The first `n` rounds. -/
def createRounds (qsort : Qsort TreeNode) (table : FrequencyTable) (beyond : ℕ → TreeNode) (n : ℕ) :
    List (MemEvent Block) :=
  (List.range n).flatMap (fun i => createNode_events table (filled qsort table beyond i) i)

/-- `create_tree_nodes` -/
def create_tree_nodes_events (qsort : Qsort TreeNode) (table : FrequencyTable)
    (beyond : ℕ → TreeNode) : List (MemEvent Block) :=
  createRounds qsort table beyond NUMBER_OF_CHARS

/-- One round of the loop of `build_tree`. -/
def build_round_events (st : PriorityQueue × CInt) : List (MemEvent Block) :=
  let (L, pq) := pqueue_dequeue st.1
  let (R, pq) := pqueue_dequeue pq
  [access .queue, access .queue, access (.node L.idOr0), access (.node R.idOr0),
    malloc (.node st.2), access (.node st.2)] ++ pqueue_enqueue_events pq (merged st.2 L R)

/-- The loop of `build_tree`. -/
def build_tree_loop_events (qsort : Qsort TreeNode) :
    ℕ → PriorityQueue × CInt → List (MemEvent Block)
  | 0, _ => []
  | fuel + 1, st =>
      access .queue ::
        if pqueue_size st.1 > 1 then
          build_round_events st ++ build_tree_loop_events qsort fuel (build_round qsort st)
        else []

/-- `build_tree` -/
def build_tree_events (qsort : Qsort TreeNode) (st : PriorityQueue × CInt) :
    List (MemEvent Block) :=
  build_tree_loop_events qsort (st.1.count + 1) st ++ [access .queue]

/-- `huffman_build_tree` -/
def huffman_build_tree_events (qsort : Qsort TreeNode) (beyond : ℕ → TreeNode) (bytes : List Byte) :
    List (MemEvent Block) :=
  [malloc .queue, access .queue, malloc (.stream .counted)] ++ compute_freq_events bytes
    ++ [free (.stream .counted)]
    ++ create_tree_nodes_events qsort (compute_freq bytes) beyond
    ++ build_tree_events qsort (create_tree_nodes qsort (compute_freq bytes) (pqueue_new beyond, 1))
    ++ [free .queue]

/-! ## The nodes of the trees in the queue -/

/-- The nodes of some trees. -/
def nodesOf (ts : List TreeNode) : Finset Block :=
  (ts.flatMap TreeNode.ids).toFinset.image Block.node

section Nodes

variable {ts ts' : List TreeNode} {t : TreeNode} {live : Finset Block} {fs : List Frequency}
  {ids : CInt}

theorem mem_nodesOf {id : CInt} : Block.node id ∈ nodesOf ts ↔ id ∈ ts.flatMap TreeNode.ids := by
  simp [nodesOf]

theorem nodesOf_perm (h : (ts'.flatMap TreeNode.ids).Perm (ts.flatMap TreeNode.ids)) :
    nodesOf ts' = nodesOf ts := by
  rw [nodesOf, nodesOf, List.toFinset_eq_of_perm _ _ h]

/-- The trees have one node more. -/
theorem nodesOf_insert {id : CInt}
    (h : (ts'.flatMap TreeNode.ids).Perm (id :: ts.flatMap TreeNode.ids)) :
    nodesOf ts' = insert (Block.node id) (nodesOf ts) := by
  rw [nodesOf, nodesOf, List.toFinset_eq_of_perm _ _ h, List.toFinset_cons, Finset.image_insert]

theorem nodesOf_singleton (t : TreeNode) : nodesOf [t] = nodeBlocks t := by
  rw [nodesOf, nodeBlocks, List.flatMap_singleton]

theorem root_mem_nodesOf (hfull : Full t) (ht : t ∈ ts) : Block.node t.idOr0 ∈ nodesOf ts :=
  mem_nodesOf.mpr (List.mem_flatMap.mpr ⟨t, ht, hfull.root_mem⟩)

/-- The counter `ids` is the id of no node. -/
theorem Shape.new_not_mem (h : Shape fs ts ids) : Block.node ids ∉ nodesOf ts := by
  rw [mem_nodesOf]
  intro hmem
  exact Nat.lt_irrefl _ (h.fresh ids hmem).2

/-- An insertion accesses the queue and nodes that are in it then. -/
theorem pqueue_enqueue_replay {pq : PriorityQueue} {n : TreeNode} (hqueue : Block.queue ∈ live)
    (hfull : ∀ t ∈ pq.slots ++ [n], Full t) (hnodes : nodesOf (pq.slots ++ [n]) ⊆ live) :
    replay live (pqueue_enqueue_events pq n) = some live := by
  apply Lib.Reads.replay
  intro event hevent
  rw [pqueue_enqueue_events, List.mem_cons] at hevent
  rcases hevent with rfl | hevent
  · exact ⟨_, hqueue, rfl⟩
  · split_ifs at hevent with hroom
    · exact absurd hevent List.not_mem_nil
    · obtain ⟨t, ht, rfl⟩ := List.mem_map.mp hevent
      exact ⟨_, hnodes (root_mem_nodesOf (hfull t ht) ht), rfl⟩

end Nodes

/-! ## Building the tree -/

section Construction

variable {base : Finset Block} {qsort : Qsort TreeNode} {table : FrequencyTable}
  {beyond : ℕ → TreeNode}

/-- What is allocated besides the nodes, while the tree is built. -/
structure Workshop (base : Finset Block) : Prop where
  queue : Block.queue ∈ base
  nodes : ∀ id, Block.node id ∉ base

theorem Workshop.new_not_mem (h : Workshop base) {fs : List Frequency} {ts : List TreeNode}
    {ids : CInt} (hshape : Shape fs ts ids) : Block.node ids ∉ base ∪ nodesOf ts := by
  rw [Finset.mem_union, not_or]
  exact ⟨h.nodes ids, hshape.new_not_mem⟩

/-- One round of `create_tree_nodes`. -/
theorem createNode_replay (h : Workshop base) {n : ℕ} (hn : n < NUMBER_OF_CHARS)
    {pq : PriorityQueue} {ids : CInt} (hleaves : Leaves (entriesTo table n) pq ids) :
    replay (base ∪ nodesOf pq.slots) (createNode_events table (pq, ids) n)
      = some (base ∪ nodesOf (createNode qsort table (pq, ids) n).1.slots) := by
  rw [createNode_events, createNode]
  split_ifs with hv
  swap
  · rfl
  have hroom : pq.count < MAXSIZE := by
    have hfew := length_entriesTo_le table n
    rw [NUMBER_OF_CHARS] at hn
    rw [hleaves.count, MAXSIZE]
    omega
  generalize hleaf : TreeNode.node ids LEAF ⟨(table n).v, (table n).c⟩ .null .null = leaf
  have hfull : ∀ t ∈ pq.slots ++ [leaf], Full t := by
    intro t ht
    rcases List.mem_append.mp ht with hold | hnew
    · exact hleaves.forest.full t hold
    · rw [List.mem_singleton.mp hnew, ← hleaf]
      exact Full.leaf _ _
  have hadd : nodesOf (pq.slots ++ [leaf]) = insert (Block.node ids) (nodesOf pq.slots) := by
    apply nodesOf_insert
    rw [← hleaf, List.flatMap_append]
    exact List.perm_append_singleton _ _
  have hlive : base ∪ nodesOf (pq.slots ++ [leaf])
      = insert (Block.node ids) (base ∪ nodesOf pq.slots) := by
    rw [hadd, Finset.union_insert]
  have hsorted : nodesOf (pqueue_enqueue qsort pq leaf).slots = nodesOf (pq.slots ++ [leaf]) := by
    rw [slots_enqueue qsort hroom]
    exact nodesOf_perm ((qsort.perm _ _).flatMap_right _)
  rw [replay_malloc (h.new_not_mem hleaves.forest.shape),
    replay_access (Finset.mem_insert_self _ _), ← hlive,
    pqueue_enqueue_replay (Finset.mem_union_left _ h.queue) hfull Finset.subset_union_right,
    hsorted]

/-- The rounds, by the step lemma. -/
theorem createRounds_replay (h : Workshop base) {n : ℕ} (hn : n ≤ NUMBER_OF_CHARS) :
    replay base (createRounds qsort table beyond n)
      = some (base ∪ nodesOf (filled qsort table beyond n).1.slots) := by
  induction n with
  | zero =>
      rw [createRounds, filled]
      exact congrArg some (Finset.union_empty base).symm
  | succ n ih =>
      have hleaves := filled_leaves qsort table beyond (Nat.le_of_succ_le hn)
      have hrounds : createRounds qsort table beyond (n + 1)
          = createRounds qsort table beyond n
            ++ createNode_events table (filled qsort table beyond n) n := by
        rw [createRounds, createRounds, List.range_succ, List.flatMap_append,
          List.flatMap_singleton]
      have hfilled : filled qsort table beyond (n + 1)
          = createNode qsort table (filled qsort table beyond n) n := by
        rw [filled, List.range_succ, List.foldl_append]
        rfl
      rw [hrounds, replay_append, ih (Nat.le_of_succ_le hn), Option.bind_some, hfilled]
      exact createNode_replay h hn hleaves

/-- One round of `build_tree`: the new node comes in addition. -/
theorem build_round_replay (h : Workshop base) {fs : List Frequency} {pq : PriorityQueue}
    {ids : CInt} (hshape : Shape fs pq.slots ids) (hlt : ids.toNat < 2 ^ 31)
    (hroom : pq.count ≤ MAXSIZE) (hmore : 1 < pq.count) :
    replay (base ∪ nodesOf pq.slots) (build_round_events (pq, ids))
        = some (base ∪ nodesOf (build_round qsort (pq, ids)).1.slots) ∧
      Shape fs (build_round qsort (pq, ids)).1.slots (build_round qsort (pq, ids)).2 := by
  obtain ⟨L, R, ts, hslots⟩ := slots_two hmore
  obtain ⟨hL, hR, hroom₂, hround, hids⟩ := build_round_slots qsort hslots hroom ids
  have hrest := (dequeue_cons (dequeue_cons hslots).2).2
  rw [hslots] at hshape ⊢
  have hjoin := hshape.join hlt
  have hperm : (qsort.run comparator (ts ++ [merged ids L R])).Perm (merged ids L R :: ts) :=
    (qsort.perm _ _).trans (List.perm_append_singleton _ _)
  have hnodes : nodesOf (qsort.run comparator (ts ++ [merged ids L R]))
      = insert (Block.node ids) (nodesOf (L :: R :: ts)) := by
    apply nodesOf_insert
    refine (hperm.flatMap_right _).trans ?_
    have hsplit : (merged ids L R :: ts).flatMap TreeNode.ids
        = (L.ids ++ R.ids) ++ ids :: ts.flatMap TreeNode.ids := by
      simp [merged, TreeNode.ids]
    rw [hsplit, List.flatMap_cons, List.flatMap_cons, ← List.append_assoc]
    exact List.perm_middle
  have hfull : ∀ t ∈ ts ++ [merged ids L R], Full t := by
    intro t ht
    exact hjoin.full t ((List.perm_append_singleton _ _).mem_iff.mp ht)
  have hsub : nodesOf (ts ++ [merged ids L R])
      ⊆ insert (Block.node ids) (base ∪ nodesOf (L :: R :: ts)) := by
    rw [← nodesOf_perm ((qsort.perm comparator _).flatMap_right TreeNode.ids), hnodes]
    exact Finset.insert_subset_insert _ Finset.subset_union_right
  have hmem : ∀ t ∈ L :: R :: ts, Block.node t.idOr0 ∈ base ∪ nodesOf (L :: R :: ts) := fun t ht =>
    Finset.mem_union_right _ (root_mem_nodesOf (hshape.full t ht) ht)
  have hqueue : Block.queue ∈ base ∪ nodesOf (L :: R :: ts) := Finset.mem_union_left _ h.queue
  refine ⟨?_, by rw [hround, hids]; exact hjoin.perm hperm⟩
  rw [hround, hnodes, Finset.union_insert]
  simp only [build_round_events, hL, hR, List.cons_append, List.nil_append]
  rw [replay_access hqueue, replay_access hqueue, replay_access (hmem L (by simp)),
    replay_access (hmem R (by simp)), replay_malloc (h.new_not_mem hshape),
    replay_access (Finset.mem_insert_self _ _)]
  apply pqueue_enqueue_replay (Finset.mem_insert_of_mem hqueue)
  · rw [hrest]
    exact hfull
  · rw [hrest]
    exact hsub

/-- The loop, by the step lemma. -/
theorem build_tree_loop_replay (h : Workshop base) {fs : List Frequency} {st : PriorityQueue × CInt}
    {fuel : ℕ} (hshape : Shape fs st.1.slots st.2) (hfew : fs.length ≤ NUMBER_OF_CHARS)
    (hroom : st.1.count ≤ MAXSIZE) (hfuel : st.1.count < fuel) :
    ∃ st', build_tree_loop qsort fuel st = some st' ∧ Shape fs st'.1.slots st'.2 ∧
      st'.1.count ≤ 1 ∧
      replay (base ∪ nodesOf st.1.slots) (build_tree_loop_events qsort fuel st)
        = some (base ∪ nodesOf st'.1.slots) := by
  induction fuel generalizing st with
  | zero => exact absurd hfuel (Nat.not_lt_zero _)
  | succ fuel ih =>
      have hqueue : Block.queue ∈ base ∪ nodesOf st.1.slots := Finset.mem_union_left _ h.queue
      rw [build_tree_loop_succ, build_tree_loop_events, replay_access hqueue, pqueue_size]
      by_cases hmore : st.1.count > 1
      · obtain ⟨hround, hshape'⟩ :=
          @build_round_replay base qsort h fs st.1 st.2 hshape (hshape.ids_lt hfew) hroom hmore
        have hcount : (build_round qsort st).1.count = st.1.count - 1 := by
          obtain ⟨L, R, ts, hslots⟩ := slots_two hmore
          obtain ⟨-, -, -, hafter, -⟩ := build_round_slots qsort hslots hroom st.2
          rw [← length_slots, hafter, qsort.length_run, ← length_slots, hslots]
          simp
        obtain ⟨st', hloop, hshape'', hone, hreplay⟩ :=
          @ih (build_round qsort st) hshape' (by rw [hcount]; omega) (by rw [hcount]; omega)
        rw [if_pos hmore, if_pos hmore, replay_append, hround, Option.bind_some]
        exact ⟨st', hloop, hshape'', hone, hreplay⟩
      · rw [if_neg hmore, if_neg hmore]
        exact ⟨st, rfl, hshape, not_lt.mp hmore, rfl⟩

/-- **`build_tree`** on the nodes that `create_tree_nodes` has made: they and the new ones are the
nodes of the tree. -/
theorem build_tree_replay (h : Workshop base) (qsort : Qsort TreeNode) (table : FrequencyTable)
    (beyond : ℕ → TreeNode) :
    ∃ root ids, build_tree qsort (create_tree_nodes qsort table (pqueue_new beyond, 1))
        = some (root, ids) ∧
      replay base (create_tree_nodes_events qsort table beyond
          ++ build_tree_events qsort (create_tree_nodes qsort table (pqueue_new beyond, 1)))
        = some (base ∪ nodeBlocks root) ∧
      (root = .null ∨ Shape (entries table) [root] ids) := by
  have hleaves := filled_leaves qsort table beyond (le_refl NUMBER_OF_CHARS)
  have hfew := length_entriesTo_le table NUMBER_OF_CHARS
  have hcreated := @createRounds_replay base qsort table beyond h _ (le_refl NUMBER_OF_CHARS)
  have hfilled : create_tree_nodes qsort table (pqueue_new beyond, 1)
      = filled qsort table beyond NUMBER_OF_CHARS := rfl
  rw [hfilled]
  generalize filled qsort table beyond NUMBER_OF_CHARS = st at hleaves hcreated
  obtain ⟨st', hloop, hshape, hone, hreplay⟩ := @build_tree_loop_replay base qsort h _ st
    (st.1.count + 1) hleaves.forest.shape hfew (by rw [hleaves.count]; exact hfew)
    (Nat.lt_succ_self _)
  -- what is left in the queue is the tree that is returned
  have hroot : nodesOf st'.1.slots = nodeBlocks (pqueue_dequeue st'.1).1 ∧
      ((pqueue_dequeue st'.1).1 = .null ∨
        Shape (entries table) [(pqueue_dequeue st'.1).1] st'.2) := by
    rcases hslots : st'.1.slots with _ | ⟨root, ts⟩
    · rw [(dequeue_nil hslots).1]
      exact ⟨rfl, .inl rfl⟩
    · have hnone : ts = [] := by
        rw [← length_slots, hslots, List.length_cons] at hone
        exact List.eq_nil_of_length_eq_zero (by omega)
      rw [hnone] at hslots
      rw [hslots] at hshape
      rw [hnone, (dequeue_cons hslots).1, nodesOf_singleton]
      exact ⟨rfl, .inr hshape⟩
  refine ⟨(pqueue_dequeue st'.1).1, st'.2, by rw [build_tree, hloop]; rfl, ?_, hroot.2⟩
  rw [create_tree_nodes_events, replay_append, hcreated, Option.bind_some, build_tree_events,
    replay_append, hreplay, Option.bind_some, replay_access (Finset.mem_union_left _ h.queue),
    hroot.1]
  rfl

theorem compute_freq_replay {live : Finset Block} (h : Block.stream .counted ∈ live)
    (bytes : List Byte) : replay live (compute_freq_events bytes) = some live := by
  induction bytes with
  | nil => exact replay_access h []
  | cons c rest ih =>
      rw [compute_freq_events, replay_access h]
      split_ifs
      · rfl
      · exact ih

/-- **`huffman_build_tree`** leaves the nodes of the tree and nothing else, on every file. -/
theorem huffman_build_tree_replay (qsort : Qsort TreeNode) (beyond : ℕ → TreeNode)
    (bytes : List Byte) (hqueue : Block.queue ∉ base) (hcounted : Block.stream .counted ∉ base)
    (hnodes : ∀ id, Block.node id ∉ base) :
    ∃ root ids, huffman_build_tree qsort beyond bytes = some (root, ids) ∧
      replay base (huffman_build_tree_events qsort beyond bytes) = some (base ∪ nodeBlocks root) ∧
      (root = .null ∨ Shape (entries (compute_freq bytes)) [root] ids) := by
  have hworkshop : Workshop (insert .queue base) :=
    ⟨Finset.mem_insert_self _ _, fun id => by simp [hnodes id]⟩
  obtain ⟨root, ids, hbuild, hreplay, hshape⟩ :=
    build_tree_replay hworkshop qsort (compute_freq bytes) beyond
  have hopen : Block.stream .counted ∉ insert .queue base := by simp [hcounted]
  have hnew : Block.queue ∉ nodeBlocks root := by simp [nodeBlocks]
  refine ⟨root, ids, hbuild, ?_, hshape⟩
  rw [huffman_build_tree_events]
  simp only [List.append_assoc, List.cons_append, List.nil_append]
  rw [replay_malloc hqueue, replay_access (Finset.mem_insert_self _ _), replay_malloc hopen,
    replay_append, compute_freq_replay (Finset.mem_insert_self _ _), Option.bind_some,
    replay_free (Finset.mem_insert_self _ _), Finset.erase_insert hopen, ← List.append_assoc,
    replay_append, hreplay, Option.bind_some,
    replay_free (Finset.mem_union_left _ (Finset.mem_insert_self _ _)), Finset.insert_union,
    Finset.erase_insert (by simp [hqueue, hnew])]
  rfl

/-- **`tree_free`** frees every node of a tree with distinct ids once. -/
theorem tree_free_releases {tree : TreeNode} (h : tree.ids.Nodup) :
    Releases ∅ (nodeBlocks tree) (tree_free_events tree) := by
  induction tree with
  | null => exact Releases.nil ∅
  | node id type freq left right ihl ihr =>
      rw [TreeNode.ids] at h
      obtain ⟨hchildren, -, hid⟩ := List.nodup_append.mp h
      obtain ⟨hl, hr, hdisj⟩ := List.nodup_append.mp hchildren
      have hroot : ∀ child : TreeNode, child.ids ⊆ left.ids ++ right.ids →
          Block.node id ∉ nodeBlocks child := by
        intro child hsub hmem
        have hin : id ∈ child.ids := by simpa [nodeBlocks] using hmem
        exact hid id (hsub hin) id List.mem_cons_self rfl
      have hapart : Disjoint (nodeBlocks left) (nodeBlocks right) := by
        rw [nodeBlocks, nodeBlocks, Finset.disjoint_image (fun _ _ heq => Block.node.inj heq),
          Finset.disjoint_left]
        intro x hx hx'
        exact hdisj x (List.mem_toFinset.mp hx) x (List.mem_toFinset.mp hx') rfl
      rw [nodeBlocks_node, tree_free_events]
      exact (ihl hl).postOrder (ihr hr) (hroot left (List.subset_append_left _ _))
        (hroot right (List.subset_append_right _ _)) hapart

/-- A tree is only read. -/
theorem tree_walk_replay {tree : TreeNode} {live : Finset Block} (h : nodeBlocks tree ⊆ live) :
    replay live (tree_walk_events tree) = some live := by
  induction tree with
  | null => rfl
  | node id type freq left right ihl ihr =>
      rw [nodeBlocks_node] at h
      obtain ⟨hid, hchildren⟩ := Finset.insert_subset_iff.mp h
      obtain ⟨hl, hr⟩ := Finset.union_subset_iff.mp hchildren
      rw [tree_walk_events, replay_access hid, replay_append, ihl hl, Option.bind_some, ihr hr]

end Construction

/-! ## `treeg.c` and `tableg.c` -/

/-- `main` of `treeg`. -/
def treeg_events (qsort : Qsort TreeNode) (beyond : ℕ → TreeNode) (bytes : List Byte) :
    List (MemEvent Block) :=
  huffman_build_tree_events qsort beyond bytes ++
    match huffman_build_tree qsort beyond bytes with
    | none => []
    | some (tree, _) =>
        if tree = .null then [] else tree_walk_events tree ++ tree_free_events tree

/-- `table_print`: the characters and strings of all entries are printed. -/
def table_print_events (etab : EncodeTable) : List (MemEvent Block) :=
  (List.range NUMBER_OF_CHARS).flatMap (fun i =>
    access .table ::
      match etab (BitVec.ofNat 8 i) with
      | none => []
      | some b => [access (.array b.bits), access (.bits b.bits)])

/-- `main` of `tableg`. -/
def tableg_events (qsort : Qsort TreeNode) (beyond : ℕ → TreeNode) (bytes : List Byte) :
    List (MemEvent Block) :=
  huffman_build_tree_events qsort beyond bytes ++
    match huffman_build_tree qsort beyond bytes with
    | none => []
    | some (tree, _) =>
        match table_build tree with
        | none => []
        | some etab =>
            table_build_events tree ++ table_print_events etab ++ table_free_events etab
              ++ tree_free_events tree

section Tools

variable {root : TreeNode} {live : Finset Block}

theorem table_print_replay {etab : EncodeTable} (htable : Block.table ∈ live)
    (harrays : tableBlocks etab ⊆ live) : replay live (table_print_events etab) = some live := by
  apply Lib.Reads.replay
  intro event hevent
  obtain ⟨i, -, hround⟩ := List.mem_flatMap.mp hevent
  rcases List.mem_cons.mp hround with rfl | hentry
  · exact ⟨_, htable, rfl⟩
  · cases hb : etab (BitVec.ofNat 8 i) with
    | none =>
        rw [hb] at hentry
        exact absurd hentry List.not_mem_nil
    | some b =>
        rw [hb] at hentry
        have hpair : pair b.bits ⊆ live := fun x hx =>
          harrays (mem_tableBlocks.mpr ⟨_, b, hb, hx⟩)
        simp only [List.mem_cons, List.not_mem_nil, or_false] at hentry
        rcases hentry with rfl | rfl
        · exact ⟨_, hpair (array_mem_pair _), rfl⟩
        · exact ⟨_, hpair (bits_mem_pair _), rfl⟩

/-- What the tools need of the tree of a file. -/
structure Freeable (root : TreeNode) : Prop where
  full : Full root
  ids : root.ids.Nodup
  chars : root.chars.Nodup

theorem Freeable.ne_null (h : Freeable root) : root ≠ .null := h.full.ne_null

theorem Shape.freeable {bytes : List Byte} {ids : CInt}
    (h : Shape (entries (compute_freq bytes)) [root] ids) : Freeable root := by
  obtain ⟨hfull, hleaves, hnodup, -⟩ := h.root
  refine ⟨hfull, hnodup, ?_⟩
  rw [hfull.chars_eq, (hleaves.map Frequency.c).nodup_iff]
  exact (labelled_compute_freq bytes).nodup_entries

/-- `huffman_build_tree` at the start of a program that has opened a few things only. -/
theorem huffman_build_tree_freeable (qsort : Qsort TreeNode) (beyond : ℕ → TreeNode)
    (bytes : List Byte) {base : Finset Block} (hqueue : Block.queue ∉ base)
    (hcounted : Block.stream .counted ∉ base) (hnodes : ∀ id, Block.node id ∉ base) :
    ∃ root ids, huffman_build_tree qsort beyond bytes = some (root, ids) ∧
      replay base (huffman_build_tree_events qsort beyond bytes) = some (base ∪ nodeBlocks root) ∧
      (root = .null ∨ Freeable root) := by
  obtain ⟨root, ids, hbuild, hreplay, hshape⟩ :=
    huffman_build_tree_replay qsort beyond bytes hqueue hcounted hnodes
  exact ⟨root, ids, hbuild, hreplay, hshape.imp_right Shape.freeable⟩

/-- `table_free` on the table of a tree with different characters: what was allocated before
`table_build` is left. -/
theorem Freeable.table_free_replay (h : Freeable root) (htable : Block.table ∉ live)
    (hfresh : ∀ s, Disjoint (pair s) live) :
    replay (insert .table live ∪ leafBlocks root []) (table_free_events (rootTable root))
      = some live := by
  have hfreed := rootTable_free_releases root
  rw [tableBlocks_of_nodup h.chars] at hfreed
  have hlive : insert .table live ∪ leafBlocks root []
      = live ∪ insert .table (leafBlocks root []) := by
    rw [Finset.insert_union, Finset.union_insert]
  have hapart : Disjoint live (insert .table (leafBlocks root [])) := by
    rw [Finset.disjoint_insert_right]
    exact ⟨htable, (leafBlocks_disjoint fun s => hfresh _).symm⟩
  rw [hlive, hfreed _ (Finset.empty_subset _) Finset.subset_union_right,
    Finset.union_sdiff_cancel_right hapart]

/-- **`treeg` and `tableg` free everything** they have allocated, each block once and none before
its last use, for every file there is. -/
theorem tools_free_all (qsort : Qsort TreeNode) (beyond : ℕ → TreeNode) (bytes : List Byte) :
    replay ∅ (treeg_events qsort beyond bytes) = some ∅ ∧
      replay ∅ (tableg_events qsort beyond bytes) = some ∅ := by
  obtain ⟨root, ids, hbuild, hreplay, htree⟩ := huffman_build_tree_freeable qsort beyond bytes
    (Finset.notMem_empty _) (Finset.notMem_empty _) (fun id => Finset.notMem_empty _)
  rw [Finset.empty_union] at hreplay
  rw [treeg_events, tableg_events, replay_append, replay_append, hreplay, Option.bind_some, hbuild]
  rcases htree with rfl | htree
  · -- an empty file, or one that begins with a 255
    exact ⟨rfl, rfl⟩
  · have hfreed := tree_free_releases htree.ids (nodeBlocks root) (Finset.empty_subset _)
      Finset.Subset.rfl
    rw [Finset.sdiff_self] at hfreed
    constructor
    · simp only [if_neg htree.ne_null]
      rw [replay_append, tree_walk_replay Finset.Subset.rfl, Option.bind_some, hfreed]
    · have hbuilt := table_build_replay htree.ne_null Finset.Subset.rfl
        (table_not_mem_nodeBlocks root) (fun s => pair_disjoint_nodeBlocks s root)
      have hprinted : replay (insert .table (nodeBlocks root) ∪ leafBlocks root [])
          (table_print_events (rootTable root))
          = some (insert .table (nodeBlocks root) ∪ leafBlocks root []) :=
        table_print_replay (Finset.mem_union_left _ (Finset.mem_insert_self _ _))
          ((tableBlocks_subset root).trans Finset.subset_union_right)
      have hfreed' := htree.table_free_replay (table_not_mem_nodeBlocks root)
        (fun s => pair_disjoint_nodeBlocks s root)
      simp only [table_build_root htree.ne_null, Option.bind_some]
      rw [replay_append, replay_append, replay_append, hbuilt, Option.bind_some, hprinted,
        Option.bind_some, hfreed', Option.bind_some, hfreed]

end Tools

/-! ## `encoder.c`, `bits-io.c` and `huffc.c` -/

/-- `bits_io_write_tree`: the tree is printed and then its nodes are counted. -/
def bits_io_write_tree_events (tree : TreeNode) : List (MemEvent Block) :=
  [access .bfile, access (.stream .outfile)] ++ tree_serialize_rec_events tree
    ++ [access (.stream .outfile)] ++ tree_walk_events tree

/-- The loop over the encoding `estr`; a bit may be the last of a byte. -/
def writeEncoding_events (i : ℕ) (bfile : BitsIOFile) : List Byte → List (MemEvent Block)
  | [] => [access (.string i)]
  | c :: estr =>
      [access (.string i), access .encoder, access .bfile, access (.stream .outfile)] ++
        match bits_io_write_bit bfile (c.signExtend 32 - 48) with
        | none => []
        | some (result, bfile) => if result = EOF then [] else writeEncoding_events i bfile estr

/-- The loop over the bytes of the input file. -/
def encodeLoop_events (etab : EncodeTable) (i : ℕ) (bfile : BitsIOFile) :
    List Byte → List (MemEvent Block)
  | [] => [access .encoder, access (.stream .infile)]
  | ch :: infile =>
      [access .encoder, access (.stream .infile), access .encoder, access .table] ++
        match etab ch with
        -- NULL is dereferenced
        | none => []
        | some b =>
            [access (.array b.bits), malloc (.string i), access (.array b.bits),
              access (.bits b.bits), access (.string i)] ++ writeEncoding_events i bfile b.bits ++
              match writeEncoding bfile b.bits with
              | some (true, bfile) =>
                  free (.string i) :: encodeLoop_events etab (i + 1) bfile infile
              | _ => []

/-- `encoder_encode` -/
def encoder_encode_events (encoder : Encoder) : List (MemEvent Block) :=
  access .encoder :: (bits_io_write_tree_events encoder.tree ++
    let (r, bfile) := bits_io_write_tree encoder.bfile encoder.tree
    if r = EOF then [] else encodeLoop_events encoder.etab 0 bfile encoder.infile)

/-- `bits_io_close`: after an error it returns before it closes and frees. -/
def bits_io_close_events (bfile : BitsIOFile) : List (MemEvent Block) :=
  access .bfile :: access (.stream .outfile) ::
    if (bits_io_close bfile).1 = EOF then [access .bfile]
    else [free (.stream .outfile), free .bfile]

/-- `encoder_free` -/
def encoder_free_events (encoder : Encoder) : List (MemEvent Block) :=
  [access .encoder, free (.stream .infile), access .encoder] ++ tree_free_events encoder.tree
    ++ [access .encoder] ++ table_free_events encoder.etab
    ++ [access .encoder] ++ bits_io_close_events encoder.bfile ++ [free .encoder]

/-- `main` of `huffc`, with `encoder_new`; a program that exits frees nothing any more. -/
def huffc_events (qsort : Qsort TreeNode) (beyond : ℕ → TreeNode) (infile : List Byte)
    (outfile : FILE) : List (MemEvent Block) :=
  malloc (.stream .infile) :: (huffman_build_tree_events qsort beyond infile ++
    match encoder_new qsort beyond infile outfile with
    | none => []
    | some encoder =>
        table_build_events encoder.tree
          ++ [malloc (.stream .outfile), malloc .bfile, access .bfile, malloc .encoder,
            access .encoder]
          ++ encoder_encode_events encoder ++
          match encoder_encode encoder with
          | none => []
          | some (result, encoder) => if result = -1 then [] else encoder_free_events encoder)

section Encoder

variable {live : Finset Block} {tree : TreeNode} {etab : EncodeTable} {fails : ℕ → Bool}

/-- The blocks that are there while a file is encoded. -/
structure Encoding (tree : TreeNode) (etab : EncodeTable) (live : Finset Block) : Prop where
  encoder : Block.encoder ∈ live
  bfile : Block.bfile ∈ live
  infile : Block.stream .infile ∈ live
  outfile : Block.stream .outfile ∈ live
  table : Block.table ∈ live
  arrays : tableBlocks etab ⊆ live
  nodes : nodeBlocks tree ⊆ live
  strings : ∀ i, Block.string i ∉ live

/-- The walk that prints the tree. -/
theorem tree_serialize_rec_replay (hfull : Full tree) (hnodes : nodeBlocks tree ⊆ live)
    (hout : Block.stream .outfile ∈ live) :
    replay live (tree_serialize_rec_events tree) = some live := by
  induction hfull with
  | leaf id freq =>
      have hid := hnodes (node_mem_nodeBlocks id LEAF freq)
      rw [tree_serialize_rec_events, replay_access hid]
      exact replay_access hout []
  | @internal id freq left right hleft hright ihl ihr =>
      rw [nodeBlocks_node] at hnodes
      obtain ⟨hid, hchildren⟩ := Finset.insert_subset_iff.mp hnodes
      obtain ⟨hl, hr⟩ := Finset.union_subset_iff.mp hchildren
      have hchild : ∀ child : TreeNode, Full child → nodeBlocks child ⊆ live →
          replay live (child_id_events child) = some live := by
        intro child hfull hsub
        have hroot : Block.node child.idOr0 ∈ nodeBlocks child := by
          simp [nodeBlocks, hfull.root_mem]
        rw [child_id_events, if_neg hfull.ne_null]
        exact replay_access (hsub hroot) []
      rw [tree_serialize_rec_events, replay_access hid, replay_append, replay_append, replay_append,
        replay_append, ihl hl, Option.bind_some, ihr hr, Option.bind_some, hchild left hleft hl,
        Option.bind_some, hchild right hright hr, Option.bind_some]
      exact replay_access hout []

theorem bits_io_write_tree_replay (h : Encoding tree etab live) (hfull : Full tree) :
    replay live (bits_io_write_tree_events tree) = some live := by
  rw [bits_io_write_tree_events, replay_append, replay_append, replay_append]
  have hprint := tree_serialize_rec_replay hfull h.nodes h.outfile
  have hfirst : replay live [access .bfile, access (.stream .outfile)] = some live := by
    rw [replay_access h.bfile]
    exact replay_access h.outfile []
  have hlast : replay live [access (.stream .outfile)] = some live := replay_access h.outfile []
  rw [hfirst, Option.bind_some, hprint, Option.bind_some, hlast, Option.bind_some,
    tree_walk_replay h.nodes]

/-- The bits of an encoding, as far as they are written. -/
theorem writeEncoding_replay (h : Encoding tree etab live) (i : ℕ) (bfile : BitsIOFile)
    (estr : List Byte) :
    replay (insert (.string i) live) (writeEncoding_events i bfile estr)
      = some (insert (.string i) live) := by
  have hstring : Block.string i ∈ insert (Block.string i) live := Finset.mem_insert_self _ _
  induction estr generalizing bfile with
  | nil => exact replay_access hstring []
  | cons c estr ih =>
      rw [writeEncoding_events]
      simp only [List.cons_append, List.nil_append]
      rw [replay_access hstring, replay_access (Finset.mem_insert_of_mem h.encoder),
        replay_access (Finset.mem_insert_of_mem h.bfile),
        replay_access (Finset.mem_insert_of_mem h.outfile)]
      rcases bits_io_write_bit bfile (c.signExtend 32 - 48) with _ | ⟨result, bfile⟩
      · rfl
      · dsimp only
        split_ifs
        · rfl
        · exact ih bfile

/-- **The bytes of the file**: the string of each is freed, unless one of its bits could not be
written, and then -1 is returned. -/
theorem encodeLoop_replay (h : Encoding tree etab live) (htexts : BitTexts etab) {start n : ℕ}
    {bfile : BitsIOFile} (hsent : Sent fails start n bfile) {infile : List Byte}
    (hentry : ∀ c ∈ infile, etab c ≠ none) (count : CInt) (i : ℕ) :
    ∃ result bfile' live', encodeLoop etab count bfile infile = some (result, bfile') ∧
      replay live (encodeLoop_events etab i bfile infile) = some live' ∧
      (result ≠ -1 → live' = live) := by
  induction infile generalizing bfile n count i with
  | nil =>
      refine ⟨count, bfile, live, rfl, ?_, fun _ => rfl⟩
      rw [encodeLoop_events, replay_access h.encoder]
      exact replay_access h.infile []
  | cons ch infile ih =>
      obtain ⟨b, hb⟩ := Option.ne_none_iff_exists'.mp (hentry ch List.mem_cons_self)
      have hestr : table_bit_encode etab ch = some b.bits := by rw [table_bit_encode, hb]; rfl
      obtain ⟨path, hpath⟩ := htexts ch b.bits hestr
      have hpair : pair b.bits ⊆ live := fun x hx => h.arrays (mem_tableBlocks.mpr ⟨ch, b, hb, hx⟩)
      have harray := hpair (array_mem_pair b.bits)
      have hbits := hpair (bits_mem_pair b.bits)
      obtain ⟨written, bfile₁, hwrite, hcases⟩ := hsent.writeEncoding path
      rw [← hpath] at hwrite
      rw [encodeLoop, encodeLoop_events, hb, hestr]
      simp only [Option.bind_eq_bind, Option.bind_some, List.cons_append, List.nil_append, hwrite]
      rw [replay_access h.encoder, replay_access h.infile, replay_access h.encoder,
        replay_access h.table, replay_access harray, replay_malloc (h.strings i),
        replay_access (Finset.mem_insert_of_mem harray),
        replay_access (Finset.mem_insert_of_mem hbits), replay_access (Finset.mem_insert_self _ _),
        replay_append, writeEncoding_replay h, Option.bind_some]
      rcases hcases with ⟨rfl, -, -⟩ | ⟨rfl, hsent'⟩
      · exact ⟨-1, bfile₁, _, rfl, rfl, fun hne => absurd rfl hne⟩
      · obtain ⟨result, bfile', live', hloop, hreplay, hsame⟩ :=
          ih hsent' (fun c hc => hentry c (List.mem_cons_of_mem _ hc)) (count + 1) (i + 1)
        refine ⟨result, bfile', live', hloop, ?_, hsame⟩
        simp only
        rw [replay_free (Finset.mem_insert_self _ _), Finset.erase_insert (h.strings i)]
        exact hreplay

/-- `encoder_encode` -/
theorem encoder_encode_replay {encoder : Encoder} (h : Encoding encoder.tree encoder.etab live)
    (hfull : Full encoder.tree) (htexts : BitTexts encoder.etab)
    (hbfile : encoder.bfile = bits_io_open (FILE.writing fails) 119)
    (hsize : tree_size encoder.tree < 2 ^ 31)
    (hentry : ∀ c ∈ encoder.infile, encoder.etab c ≠ none) :
    ∃ result bfile live', encoder_encode encoder
        = some (result, { encoder with infile := [], bfile := bfile }) ∧
      replay live (encoder_encode_events encoder) = some live' ∧ (result ≠ -1 → live' = live) := by
  obtain ⟨r, bfile, hwrite, hr, hsent⟩ := sent_write_tree hbfile hsize
  obtain ⟨result, bfile', live', hloop, hreplay, hsame⟩ :=
    encodeLoop_replay h htexts hsent hentry 0 0
  refine ⟨result, bfile', live', ?_, ?_, hsame⟩
  · rw [encoder_encode, hwrite]
    simp only [if_neg hr, hloop, Option.map_some]
  · rw [encoder_encode_events, replay_access h.encoder, replay_append,
      bits_io_write_tree_replay h hfull, Option.bind_some, hwrite]
    simp only [if_neg hr]
    exact hreplay

/-- What belongs to the output file. -/
def outfileBlocks : Finset Block := {.encoder, .bfile, .stream .outfile}

/-- All that is allocated when `encoder_new` returns. -/
def encoderBlocks (tree : TreeNode) : Finset Block :=
  insert (.stream .infile) (insert .table outfileBlocks ∪ leafBlocks tree [] ∪ nodeBlocks tree)

/-- What `bits_io_close` leaves of the output file. -/
def unclosed (bfile : BitsIOFile) : Finset Block :=
  if (bits_io_close bfile).1 = EOF then {.bfile, .stream .outfile} else ∅

theorem bits_io_close_replay (bfile : BitsIOFile) :
    replay outfileBlocks (access .encoder :: (bits_io_close_events bfile ++ [free Block.encoder]))
      = some (unclosed bfile) := by
  rw [bits_io_close_events, unclosed]
  split_ifs <;> decide

/-- Neither the table nor the nodes are among these blocks. -/
theorem outfileBlocks_apart :
    Block.table ∉ outfileBlocks ∧ (∀ s, Disjoint (pair s) outfileBlocks) ∧
      Disjoint (insert .table outfileBlocks ∪ leafBlocks tree []) (nodeBlocks tree) := by
  refine ⟨by decide, fun s => by simp [Finset.disjoint_left, mem_pair, outfileBlocks], ?_⟩
  rw [Finset.disjoint_union_left, Finset.disjoint_insert_left]
  refine ⟨⟨table_not_mem_nodeBlocks tree, ?_⟩,
    leafBlocks_disjoint fun s => pair_disjoint_nodeBlocks _ tree⟩
  simp [Finset.disjoint_left, outfileBlocks, nodeBlocks]

theorem mem_encoderBlocks_outfile {x : Block} (h : x ∈ outfileBlocks) : x ∈ encoderBlocks tree :=
  Finset.mem_insert_of_mem (Finset.mem_union_left _ (Finset.mem_union_left _
    (Finset.mem_insert_of_mem h)))

/-- **`encoder_free`** frees what `encoder_new` has made, but not the output file if its last byte
cannot be written. -/
theorem encoder_free_replay {encoder : Encoder} (htree : Freeable encoder.tree)
    (hetab : encoder.etab = rootTable encoder.tree) :
    replay (encoderBlocks encoder.tree) (encoder_free_events encoder)
      = some (unclosed encoder.bfile) := by
  obtain ⟨htable, hpairs, hnodes⟩ := @outfileBlocks_apart encoder.tree
  have hencoder : Block.encoder ∈ insert .table outfileBlocks ∪ leafBlocks encoder.tree [] :=
    Finset.mem_union_left _ (by decide)
  have hinfile : Block.stream .infile
      ∉ insert .table outfileBlocks ∪ leafBlocks encoder.tree [] ∪ nodeBlocks encoder.tree := by
    simp [outfileBlocks, mem_leafBlocks, mem_pair, nodeBlocks]
  have hfreed := tree_free_releases htree.ids
    (insert .table outfileBlocks ∪ leafBlocks encoder.tree [] ∪ nodeBlocks encoder.tree)
    (Finset.empty_subset _) Finset.subset_union_right
  rw [Finset.union_sdiff_cancel_right hnodes] at hfreed
  rw [encoder_free_events, hetab]
  simp only [List.append_assoc, List.cons_append, List.nil_append]
  rw [replay_access (mem_encoderBlocks_outfile (by decide)), encoderBlocks,
    replay_free (Finset.mem_insert_self _ _), Finset.erase_insert hinfile,
    replay_access (Finset.mem_union_left _ hencoder), replay_append, hfreed, Option.bind_some,
    replay_access hencoder, replay_append, htree.table_free_replay htable hpairs, Option.bind_some,
    bits_io_close_replay]

/-- `encoder_new` -/
theorem encoder_new_replay (htree : Freeable tree) :
    replay ({.stream .infile} ∪ nodeBlocks tree) (table_build_events tree
        ++ [malloc (.stream .outfile), malloc .bfile, access .bfile, malloc .encoder,
          access .encoder])
      = some (encoderBlocks tree) := by
  have hbuilt := table_build_replay htree.ne_null
    (Finset.subset_union_right : nodeBlocks tree ⊆ {Block.stream .infile} ∪ nodeBlocks tree)
    (by simp [nodeBlocks]) (fun s => by simp [Finset.disjoint_left, mem_pair, nodeBlocks])
  have hblocks : insert .encoder (insert .bfile (insert (.stream .outfile)
      (insert .table ({.stream .infile} ∪ nodeBlocks tree) ∪ leafBlocks tree [])))
      = encoderBlocks tree := by
    ext x
    simp only [encoderBlocks, outfileBlocks, Finset.mem_insert, Finset.mem_union,
      Finset.mem_singleton]
    tauto
  rw [replay_append, hbuilt, Option.bind_some, replay_malloc, replay_malloc,
    replay_access (Finset.mem_insert_self _ _), replay_malloc,
    replay_access (Finset.mem_insert_self _ _), hblocks]
  · rfl
  · simp [mem_leafBlocks, mem_pair, nodeBlocks]
  · simp [mem_leafBlocks, mem_pair, nodeBlocks]
  · simp [mem_leafBlocks, mem_pair, nodeBlocks]

theorem encoding_encoderBlocks (tree : TreeNode) :
    Encoding tree (rootTable tree) (encoderBlocks tree) := by
  refine ⟨mem_encoderBlocks_outfile (by decide), mem_encoderBlocks_outfile (by decide),
    Finset.mem_insert_self _ _, mem_encoderBlocks_outfile (by decide), ?_, ?_, ?_, ?_⟩
  · simp [encoderBlocks]
  · refine (tableBlocks_subset tree).trans ?_
    intro x hx
    simp [encoderBlocks, hx]
  · intro x hx
    simp [encoderBlocks, hx]
  · intro i
    simp [encoderBlocks, outfileBlocks, mem_leafBlocks, mem_pair, nodeBlocks]

/-- **What `huffc` leaves allocated.** For every file of bytes other than 255 and every pattern of
failing output calls, no block is accessed or freed that is not allocated. If `encoder_encode` has
succeeded, everything is freed in the end but the output file where its last byte could not be
written. -/
theorem huffc_frees (qsort : Qsort TreeNode) (beyond : ℕ → TreeNode) {bytes : List Byte}
    (hlen : bytes.length < 2 ^ 31) (h255 : 255 ∉ bytes) (hne : bytes ≠ []) (fails : ℕ → Bool) :
    ∃ encoder result encoder' live,
      encoder_new qsort beyond bytes (FILE.writing fails) = some encoder ∧
      encoder_encode encoder = some (result, encoder') ∧
      replay ∅ (huffc_events qsort beyond bytes (FILE.writing fails)) = some live ∧
      (result ≠ -1 → live =
        if (encoder_free encoder').1 = EOF then {.bfile, .stream .outfile} else ∅) := by
  have hall := counted_eq_self h255
  obtain ⟨root, ids, hbuild, htree⟩ := huffman_build_tree_spec qsort beyond hlen (by rwa [hall])
  obtain ⟨root', ids', hbuild', hreplay, -⟩ := huffman_build_tree_freeable qsort beyond bytes
    (by decide : Block.queue ∉ ({.stream .infile} : Finset Block)) (by decide) (fun id => by simp)
  obtain ⟨rfl, -⟩ := Prod.mk.inj (Option.some.inj (hbuild.symm.trans hbuild'))
  have hfree : Freeable root := ⟨htree.full, htree.nodup_ids, htree.nodup⟩
  have hnew : encoder_new qsort beyond bytes (FILE.writing fails)
      = some ⟨bytes, root, rootTable root, bits_io_open (FILE.writing fails) 119⟩ := by
    rw [encoder_new, hbuild]
    simp only [Option.bind_eq_bind, Option.bind_some, table_build_root hfree.ne_null]
  obtain ⟨-, hbfile, htexts, hsize⟩ := encoder_new_some hnew
  have hentry : ∀ c ∈ bytes, rootTable root c ≠ none := by
    intro c hc
    obtain ⟨path, hpath⟩ := exists_path ((htree.mem_chars c).mpr (by rwa [hall]))
    rw [rootTable, rec_gen_table_of_mem htree.nodup hpath _ _ rfl]
    exact Option.some_ne_none _
  obtain ⟨result, bfile, live, hencode, hencoded, hsame⟩ :=
    @encoder_encode_replay _ fails _ (encoding_encoderBlocks root) htree.full htexts hbfile hsize
      hentry
  have hfreed := @encoder_free_replay ⟨[], root, rootTable root, bfile⟩ hfree rfl
  have hrun : replay ∅ (huffc_events qsort beyond bytes (FILE.writing fails))
      = replay live (if result = -1 then []
          else encoder_free_events ⟨[], root, rootTable root, bfile⟩) := by
    rw [huffc_events, replay_malloc (Finset.notMem_empty _), insert_empty_eq, replay_append,
      hreplay, Option.bind_some, hnew]
    simp only [hencode]
    rw [replay_append, replay_append, encoder_new_replay hfree, Option.bind_some, hencoded,
      Option.bind_some]
  by_cases hresult : result = -1
  · rw [if_pos hresult] at hrun
    exact ⟨_, result, _, live, hnew, hencode, hrun, fun hne => absurd hresult hne⟩
  · rw [if_neg hresult, hsame hresult, hfreed] at hrun
    exact ⟨_, result, _, _, hnew, hencode, hrun, fun _ => rfl⟩

/-- The text "aab", where no call fails. -/
theorem huffc_frees_aab :
    ∃ encoder result encoder' live,
      encoder_new (insertionQsort TreeNode) (fun _ => .null) [97, 97, 98]
        (FILE.writing fun _ => false) = some encoder ∧
      encoder_encode encoder = some (result, encoder') ∧
      replay ∅ (huffc_events (insertionQsort TreeNode) (fun _ => .null) [97, 97, 98]
        (FILE.writing fun _ => false)) = some live ∧
      (result ≠ -1 → live =
        if (encoder_free encoder').1 = EOF then {.bfile, .stream .outfile} else ∅) :=
  huffc_frees (insertionQsort TreeNode) (fun _ => .null) (by decide) (by decide) (by decide)
    (fun _ => false)

end Encoder

end ProjectsInC.Huffman
