/-
A tree survives being written as text.

The list of the parser is not what its comments say: besides the roots of the
finished subtrees it carries the children that did not get off it. What holds is
that no two nodes on it have the same id ([`OnList`]), and that is enough for every
record to find its two children ([`grow_tree`]). The nodes left over are what the
last loop of the function lives on, which dereferences NULL for a list of one node.
-/
import ProjectsInC.Huffman.Deserialize

set_option autoImplicit false

namespace ProjectsInC.Huffman

open NodeType Lib

variable {wide : ℤ → CInt}

/-! ## The search for the children -/

/-- A node that is not a child of the record. -/
def Foreign (node : ℕ → HeapNode) (r : Record) (a : ℕ) : Prop :=
  (node a).id ≠ r.left ∧ (node a).id ≠ r.right

section findChildren

variable {node : ℕ → HeapNode} {r : Record} {n : HeapNode} {list : Chain ℕ} {p : Option ℕ}
  {fuel : ℕ}

/-- The search passes over nodes that are no children. -/
theorem findChildren_skip {xs ys : List ℕ} {c : Option ℕ} (hxs : ∀ a ∈ xs, Foreign node r a)
    (hlinks : Links list.next c (xs ++ ys)) :
    findChildren node r (xs.length + fuel) n list p c
      = findChildren node r fuel n list (xs.getLast?.or p) ys.head? := by
  induction xs generalizing p c with
  | nil =>
      rw [show c = ys.head? from hlinks.head, List.length_nil, Nat.zero_add]
      rfl
  | cons a xs ih =>
      obtain ⟨rfl, hnext⟩ := hlinks
      obtain ⟨hleft, hright⟩ := hxs a List.mem_cons_self
      rw [List.length_cons, Nat.add_right_comm, findChildren, takeChild, if_neg hleft]
      simp only [bind, Except.bind, takeChild, if_neg hright]
      rw [ih (fun b hb => hxs b (List.mem_cons_of_mem a hb)) hnext]
      cases xs <;> simp [List.getLast?_cons]

/-- Nothing on the list is a child. -/
theorem findChildren_foreign {xs : List ℕ} {c : Option ℕ} (hxs : ∀ a ∈ xs, Foreign node r a)
    (hlinks : Links list.next c xs) (hfuel : xs.length ≤ fuel) :
    findChildren node r fuel n list p c = .ok (n, list) := by
  obtain ⟨k, rfl⟩ := Nat.exists_eq_add_of_le hfuel
  have hall : Links list.next c (xs ++ []) := by rwa [List.append_nil]
  rw [findChildren_skip hxs hall]
  cases k <;> rfl

/-- The right child comes first on the list. -/
theorem findChildren_right {R : ℕ} (hhead : list.head = some R) (hleft : (node R).id ≠ r.left)
    (hright : (node R).id = r.right) :
    findChildren node r (fuel + 1) n list none (some R)
      = findChildren node r fuel { n with right := some R } { list with head := list.next R }
          (some R) (list.next R) := by
  rw [findChildren, takeChild, if_neg hleft]
  simp only [bind, Except.bind, takeChild, if_pos hright, unlink, hhead, Except.map]

/-- The left child comes behind a node `p`. -/
theorem findChildren_left {L a : ℕ} (hleft : (node L).id = r.left)
    (hright : (node L).id ≠ r.right) (ha : a ≠ L) :
    findChildren node r (fuel + 1) n list (some a) (some L)
      = findChildren node r fuel { n with left := some L } (list.set (.next a) (list.next L))
          (some L) (list.next L) := by
  rw [findChildren, takeChild, if_pos hleft]
  simp only [bind, Except.bind, takeChild, if_neg hright, unlink, Except.map, Chain.set]
  rw [Function.update_of_ne (Ne.symm ha)]

/-- What the search leaves in front of the nodes behind the left child: the nodes
between the children, or the left child itself if there are none. -/
def kept (L : ℕ) (xs : List ℕ) : List ℕ := if xs = [] then [L] else xs

/-- **Both children are found.** The left one stays on the list if it came right behind
the right one. -/
theorem findChildren_internal {R L : ℕ} {xs ys : List ℕ}
    (hlist : list.Holds (R :: (xs ++ L :: ys))) (hnodup : (R :: (xs ++ L :: ys)).Nodup)
    (hR : (node R).id = r.right) (hL : (node L).id = r.left) (hne : r.left ≠ r.right)
    (hxs : ∀ a ∈ xs, Foreign node r a) (hys : ∀ a ∈ ys, Foreign node r a)
    (hfuel : (R :: (xs ++ L :: ys)).length ≤ fuel) :
    ∃ list', findChildren node r fuel n list none list.head
        = .ok ({ n with left := some L, right := some R }, list') ∧
      list'.Holds (kept L xs ++ ys) := by
  have hRrest : R ∉ xs ++ L :: ys := (List.nodup_cons.mp hnodup).1
  have hrest : (xs ++ L :: ys).Nodup := (List.nodup_cons.mp hnodup).2
  have hafter : ∀ a ∈ R :: xs, a ∉ L :: ys := fun a ha hmem => by
    rcases List.mem_cons.mp ha with rfl | ha
    · exact hRrest (List.mem_append_right _ hmem)
    · exact (List.nodup_append.mp hrest).2.2 a ha a hmem rfl
  obtain ⟨hhead, hnext⟩ := hlist
  -- the node the search comes to `L` from
  obtain ⟨a, ha⟩ : ∃ a, xs.getLast?.or (some R) = some a := by
    cases hlast : xs.getLast? with
    | none => exact ⟨R, rfl⟩
    | some a => exact ⟨a, rfl⟩
  have hamem : a ∈ R :: xs := by
    cases hlast : xs.getLast? with
    | none =>
        rw [hlast] at ha
        exact Option.some.inj ha ▸ List.mem_cons_self
    | some b =>
        rw [hlast] at ha
        exact Option.some.inj ha ▸ List.mem_cons_of_mem R (List.mem_of_getLast? hlast)
  have haL : a ≠ L := fun h => hafter a hamem (h ▸ List.mem_cons_self)
  have haRest : Links list.next (list.next L) ys := by
    have hL' : list.Holds ((R :: xs) ++ L :: ys) := ⟨hhead, hnext⟩
    exact Links.next_of_append hL'
  obtain ⟨k, rfl⟩ : ∃ k, fuel = (xs.length + (k + 1)) + 1 := by
    rw [List.length_cons, List.length_append, List.length_cons] at hfuel
    exact ⟨fuel - xs.length - 2, by omega⟩
  have hk : ys.length ≤ k := by
    rw [List.length_cons, List.length_append, List.length_cons] at hfuel
    omega
  have hcut : ({ list with head := list.next R } : Chain ℕ).Holds (xs ++ L :: ys) := hnext
  refine ⟨({ list with head := list.next R } : Chain ℕ).set (.next a) (list.next L), ?_, ?_⟩
  · rw [hhead, findChildren_right hhead (by rw [hR]; exact hne.symm) hR,
      findChildren_skip hxs hcut, ha, List.head?_cons, findChildren_left hL (by rw [hL]; exact hne) haL]
    refine findChildren_foreign hys ?_ hk
    exact haRest.update (fun h => hafter a hamem (List.mem_cons_of_mem L h))
  · rw [kept]
    by_cases hnil : xs = []
    · -- `a` is the right child, which is off the list, so its cell is nobody's
      rw [if_pos hnil]
      subst hnil
      exact Links.update hcut (hafter a hamem)
    · rw [if_neg hnil]
      have hcell : cellAfter xs = .next a := by
        rw [cellAfter]
        rw [List.getLast?_eq_getLast_of_ne_nil hnil] at ha ⊢
        rw [Option.some.inj ha]
      rw [← hcell]
      exact hcut.unlink hrest

end findChildren

theorem kept_ne_nil (L : ℕ) (xs : List ℕ) : kept L xs ≠ [] := by
  rw [kept]
  split_ifs with hnil
  · exact List.cons_ne_nil L []
  · exact hnil

theorem kept_sublist (R L : ℕ) (xs ys : List ℕ) :
    (kept L xs ++ ys).Sublist (R :: (xs ++ L :: ys)) := by
  rw [kept]
  split_ifs with hnil
  · rw [hnil]
    exact List.sublist_cons_self ..
  · exact ((List.Sublist.refl xs).append (List.sublist_cons_self ..)).trans
      (List.sublist_cons_self ..)

/-! ## Trees in memory -/

/-- The pointer leads to the tree, and every child is older than its parent. -/
def Points (node : ℕ → HeapNode) : ℕ → Option ℕ → TreeNode → Prop
  | _, p, .null => p = none
  | bound, p, .node id type freq left right =>
      ∃ a < bound, p = some a ∧ (node a).id = id ∧ (node a).type = type ∧ (node a).freq = freq ∧
        Points node a (node a).left left ∧ Points node a (node a).right right

/-- Newer nodes play no part. -/
theorem Points.mono {node node' : ℕ → HeapNode} {bound bound' : ℕ} {p : Option ℕ}
    {tree : TreeNode} (h : Points node bound p tree) (hle : bound ≤ bound')
    (hsame : ∀ a < bound, node' a = node a) : Points node' bound' p tree := by
  induction tree generalizing bound bound' p with
  | null => exact h
  | node id type freq left right ihl ihr =>
      obtain ⟨a, ha, hp, hid, htype, hfreq, hleft, hright⟩ := h
      have hbelow : ∀ b < a, node' b = node b := fun b hb => hsame b (hb.trans ha)
      rw [← hsame a ha] at hid htype hfreq hleft hright
      exact ⟨a, ha.trans_le hle, hp, hid, htype, hfreq, ihl hleft le_rfl hbelow,
        ihr hright le_rfl hbelow⟩

/-- The tree is read off the memory. -/
theorem Points.treeAt_eq {node : ℕ → HeapNode} {bound depth : ℕ} {p : Option ℕ} {tree : TreeNode}
    (h : Points node bound p tree) (hle : bound ≤ depth) : treeAt node depth p = tree := by
  induction tree generalizing bound depth p with
  | null =>
      rw [show p = none from h]
      cases depth <;> rfl
  | node id type freq left right ihl ihr =>
      obtain ⟨a, ha, rfl, hid, htype, hfreq, hleft, hright⟩ := h
      obtain ⟨depth, rfl⟩ := Nat.exists_eq_add_of_le' (Nat.one_le_of_lt (ha.trans_le hle))
      rw [treeAt, ihl hleft (by omega), ihr hright (by omega), hid, htype, hfreq]

/-! ## The list of the parser -/

/-- The list holds these nodes; they have been made, and their ids are distinct and
not the 0 that stands for no child. -/
structure OnList (heap : Heap) (l : List ℕ) : Prop where
  holds : heap.list.Holds l
  made : ∀ a ∈ l, a < heap.size
  named : ∀ a ∈ l, (heap.node a).id ≠ 0
  distinct : (l.map (fun a => (heap.node a).id)).Nodup

theorem onList_empty : OnList Heap.empty [] where
  holds := rfl
  made := fun _ h => absurd h List.not_mem_nil
  named := fun _ h => absurd h List.not_mem_nil
  distinct := List.nodup_nil

section OnList

variable {heap : Heap} {l : List ℕ}

theorem OnList.nodup (h : OnList heap l) : l.Nodup := List.Nodup.of_map _ h.distinct

theorem OnList.length_le (h : OnList heap l) : l.length ≤ heap.size :=
  length_le_of_lt h.nodup h.made

/-- Two places on the list have different ids. -/
theorem OnList.id_ne (xs : List ℕ) {ys : List ℕ} (h : OnList heap (xs ++ ys)) {a b : ℕ} (ha : a ∈ xs)
    (hb : b ∈ ys) : (heap.node a).id ≠ (heap.node b).id := by
  have hdistinct := h.distinct
  rw [List.map_append, List.nodup_append] at hdistinct
  exact hdistinct.2.2 _ (List.mem_map_of_mem ha) _ (List.mem_map_of_mem hb)

/-- Distinct ids make everything but the children themselves foreign to the record, so
the search finds them. -/
theorem OnList.findChildren {R L : ℕ} {xs ys : List ℕ} (h : OnList heap (R :: (xs ++ L :: ys)))
    {r : Record} (hR : (heap.node R).id = r.right) (hL : (heap.node L).id = r.left)
    (n : HeapNode) :
    ∃ list', findChildren heap.node r heap.size n heap.list none heap.list.head
        = .ok ({ n with left := some L, right := some R }, list') ∧
      list'.Holds (kept L xs ++ ys) := by
  have hne : r.left ≠ r.right := by
    rw [← hL, ← hR]
    exact (h.id_ne [R] List.mem_cons_self (List.mem_append_right _ List.mem_cons_self)).symm
  have hxs : ∀ a ∈ xs, Foreign heap.node r a := fun a ha =>
    ⟨hL ▸ h.id_ne (R :: xs) (List.mem_cons_of_mem R ha) List.mem_cons_self,
      hR ▸ (h.id_ne [R] List.mem_cons_self (List.mem_append_left _ ha)).symm⟩
  have hcut : OnList heap ((R :: (xs ++ [L])) ++ ys) := by
    simpa using h
  have hys : ∀ a ∈ ys, Foreign heap.node r a := fun a ha =>
    ⟨hL ▸ (hcut.id_ne _ (by simp) ha).symm, hR ▸ (hcut.id_ne _ List.mem_cons_self ha).symm⟩
  exact findChildren_internal h.holds h.nodup hR hL hne hxs hys h.length_le

/-- The search has left `l'` of the list, and the record's node goes to the front. -/
theorem OnList.push (h : OnList heap l) {l' : List ℕ} (hsub : l'.Sublist l) {list : Chain ℕ}
    (hlist : list.Holds l') {n : HeapNode} (hzero : n.id ≠ 0)
    (hfresh : ∀ a ∈ l, (heap.node a).id ≠ n.id) :
    OnList (heap.push n list) (heap.size :: l') := by
  have hold : ∀ a ∈ l', a ∈ l := fun a ha => hsub.subset ha
  have hsame : ∀ a ∈ l', (heap.push n list).node a = heap.node a := fun a ha =>
    push_node_old heap n list (h.made a (hold a ha))
  refine ⟨hlist.push (fun hmem => lt_irrefl _ (h.made _ (hold _ hmem))), ?_, ?_, ?_⟩
  · intro a ha
    rw [push_size]
    rcases List.mem_cons.mp ha with rfl | ha
    · exact Nat.lt_succ_self _
    · exact (h.made a (hold a ha)).trans (Nat.lt_succ_self _)
  · intro a ha
    rcases List.mem_cons.mp ha with rfl | ha
    · rwa [push_node_new]
    · rw [hsame a ha]
      exact h.named a (hold a ha)
  · have hmap : l'.map (fun a => ((heap.push n list).node a).id)
        = l'.map (fun a => (heap.node a).id) :=
      List.map_congr_left (fun a ha => by rw [hsame a ha])
    rw [List.map_cons, hmap, push_node_new, List.nodup_cons]
    refine ⟨fun hmem => ?_, h.distinct.sublist (hsub.map _)⟩
    obtain ⟨a, ha, hid⟩ := List.mem_map.mp hmem
    exact hfresh a (hold a ha) hid

end OnList

/-! ## A subtree grows -/

/-- From a memory with `l` on the list, the records of `tree` have made its nodes; its
root is in front now and `junk` behind it. -/
structure Grown (heap heap' : Heap) (l : List ℕ) (tree : TreeNode) (root : ℕ) (junk : List ℕ) :
    Prop where
  onList : OnList heap' (root :: (junk ++ l))
  grows : heap.size ≤ heap'.size
  old : ∀ a < heap.size, heap'.node a = heap.node a
  points : Points heap'.node heap'.size (some root) tree
  ids : ∀ a ∈ root :: junk, (heap'.node a).id ∈ tree.ids
  junk_ne_nil : 2 ≤ tree.leaves.length → junk ≠ []

theorem Grown.root_id {heap heap' : Heap} {l junk : List ℕ} {tree : TreeNode} {root : ℕ}
    (h : Grown heap heap' l tree root junk) : (heap'.node root).id = tree.idOr0 := by
  have hpoints := h.points
  cases tree with
  | null => cases hpoints
  | node id type freq left right =>
      obtain ⟨a, -, ha, hid, -⟩ := hpoints
      rw [Option.some.inj ha, hid]
      rfl

/-- The new node has the fields of the serialized one. -/
theorem newNode_recordOf (id : CInt) (type : NodeType) (freq : Frequency) (left right : TreeNode) :
    newNode (recordOf id type freq left right) = ⟨id, type, freq, none, none⟩ := by
  have htype : typeOf type.code = type := by
    cases type <;> decide
  rw [newNode, recordOf, htype, setWidth_char]

/-- The record of a leaf. -/
theorem grow_leaf {heap : Heap} {l : List ℕ} (h : OnList heap l) {id : CInt} (hid : id ≠ 0)
    (hfresh : ∀ a ∈ l, (heap.node a).id ≠ id) (freq : Frequency) :
    ∃ heap' root, addRecord heap (recordOf id LEAF freq .null .null) = .ok heap' ∧
      Grown heap heap' l (.node id LEAF freq .null .null) root [] := by
  have hforeign : ∀ a ∈ l, Foreign heap.node (recordOf id LEAF freq .null .null) a :=
    fun a ha => ⟨h.named a ha, h.named a ha⟩
  rw [addRecord, findChildren_foreign hforeign h.holds h.length_le, newNode_recordOf]
  refine ⟨_, heap.size, rfl, h.push (List.Sublist.refl l) h.holds hid hfresh, Nat.le_succ _,
    fun a ha => push_node_old _ _ _ ha, ?_, ?_, ?_⟩
  · exact ⟨heap.size, Nat.lt_succ_self _, rfl, by rw [push_node_new]; exact ⟨rfl, rfl, rfl, rfl, rfl⟩⟩
  · intro a ha
    rw [List.mem_singleton.mp ha, push_node_new]
    exact List.mem_singleton_self id
  · intro hmany
    exact absurd hmany (by simp [TreeNode.leaves])

section Two

variable {heap heap₁ heap₂ : Heap} {l JL JR : List ℕ} {left right : TreeNode} {L R : ℕ}

/-- Two subtrees in a row have made what is in front of `l`. -/
theorem Grown.two_ids (hl : Grown heap heap₁ l left L JL)
    (hr : Grown heap₁ heap₂ (L :: (JL ++ l)) right R JR) {a : ℕ}
    (ha : a ∈ R :: (JR ++ L :: JL)) : (heap₂.node a).id ∈ left.ids ++ right.ids := by
  rw [← List.cons_append, List.mem_append] at ha
  rw [List.mem_append]
  rcases ha with ha | ha
  · exact .inr (hr.ids a ha)
  · rw [hr.old a (hl.onList.made a (List.mem_append_left l ha))]
    exact .inl (hl.ids a ha)

theorem Grown.two_old (hl : Grown heap heap₁ l left L JL)
    (hr : Grown heap₁ heap₂ (L :: (JL ++ l)) right R JR) {a : ℕ} (ha : a < heap.size) :
    heap₂.node a = heap.node a := by
  rw [hr.old a (ha.trans_le hl.grows), hl.old a ha]

/-- An id that is in neither subtree and was not on the list is on it nowhere now. -/
theorem Grown.two_fresh (hl : Grown heap heap₁ l left L JL)
    (hr : Grown heap₁ heap₂ (L :: (JL ++ l)) right R JR) {id : CInt}
    (hid : id ∉ left.ids ++ right.ids) (h : OnList heap l) (hout : ∀ a ∈ l, (heap.node a).id ≠ id) :
    ∀ a ∈ R :: (JR ++ L :: (JL ++ l)), (heap₂.node a).id ≠ id := by
  intro a ha heq
  have hcut : R :: (JR ++ L :: (JL ++ l)) = R :: (JR ++ L :: JL) ++ l := by simp
  rw [hcut, List.mem_append] at ha
  rcases ha with ha | ha
  · exact hid (heq ▸ hl.two_ids hr ha)
  · rw [hl.two_old hr (h.made a ha)] at heq
    exact hout a ha heq

/-- The roots of both are still there to be pointed at when a node is put on top. -/
theorem Grown.two_points (hl : Grown heap heap₁ l left L JL)
    (hr : Grown heap₁ heap₂ (L :: (JL ++ l)) right R JR) (n : HeapNode) (list : Chain ℕ) :
    Points (heap₂.push n list).node heap₂.size (some L) left ∧
      Points (heap₂.push n list).node heap₂.size (some R) right := by
  refine ⟨hl.points.mono hr.grows (fun a ha => ?_),
    hr.points.mono le_rfl (fun a ha => push_node_old _ _ _ ha)⟩
  rw [push_node_old _ _ _ (ha.trans_le hr.grows), hr.old a ha]

/-- The record of an INTERNAL node, behind those of its two subtrees. -/
theorem grow_internal (hl : Grown heap heap₁ l left L JL)
    (hr : Grown heap₁ heap₂ (L :: (JL ++ l)) right R JR) {id : CInt} (freq : Frequency)
    (hnodup : (TreeNode.node id INTERNAL freq left right).ids.Nodup) (hid : id ≠ 0)
    (h : OnList heap l) (hout : ∀ a ∈ l, (heap.node a).id ≠ id) :
    ∃ heap' root junk, addRecord heap₂ (recordOf id INTERNAL freq left right) = .ok heap' ∧
      Grown heap heap' l (.node id INTERNAL freq left right) root junk := by
  have hL : (heap₂.node L).id = left.idOr0 := by
    rw [hr.old L (hl.onList.made L List.mem_cons_self), hl.root_id]
  have hnew : id ∉ left.ids ++ right.ids := fun hmem =>
    (List.nodup_append.mp hnodup).2.2 id hmem id (List.mem_singleton_self id) rfl
  obtain ⟨list', hfind, hholds⟩ := hr.onList.findChildren
    (r := recordOf id INTERNAL freq left right) hr.root_id hL
    (newNode (recordOf id INTERNAL freq left right))
  -- the list now: what is kept of the two subtrees, and `l`
  have hcut : kept L JR ++ (JL ++ l) = (kept L JR ++ JL) ++ l := (List.append_assoc ..).symm
  have hsub := kept_sublist R L JR (JL ++ l)
  have hjunk := kept_sublist R L JR JL
  rw [hcut] at hholds hsub
  rw [addRecord, hfind, newNode_recordOf]
  refine ⟨_, heap₂.size, kept L JR ++ JL, rfl,
    hr.onList.push hsub hholds hid (hl.two_fresh hr hnew h hout), ?_, ?_, ?_, ?_, ?_⟩
  · rw [push_size]
    exact (hl.grows.trans hr.grows).trans (Nat.le_succ _)
  · intro a ha
    rw [push_node_old _ _ _ (ha.trans_le (hl.grows.trans hr.grows)), hl.two_old hr ha]
  · refine ⟨heap₂.size, Nat.lt_succ_self _, rfl, ?_⟩
    rw [push_node_new]
    exact ⟨rfl, rfl, rfl, hl.two_points hr _ _⟩
  · intro a ha
    rw [TreeNode.ids, List.mem_append]
    rcases List.mem_cons.mp ha with rfl | ha
    · rw [push_node_new]
      exact .inr (List.mem_singleton_self id)
    · rw [push_node_old _ _ _ (hr.onList.made a (hsub.subset (List.mem_append_left l ha)))]
      exact .inl (hl.two_ids hr (hjunk.subset ha))
  · intro _ happ
    exact kept_ne_nil L JR (List.append_eq_nil_iff.mp happ).1

end Two

/-- **The records of a tree grow the tree.** -/
theorem grow_tree {tree : TreeNode} (hfull : Full tree) {heap : Heap} {l : List ℕ}
    (h : OnList heap l) (hnodup : tree.ids.Nodup) (hzero : 0 ∉ tree.ids)
    (hout : ∀ a ∈ l, (heap.node a).id ∉ tree.ids) :
    ∃ heap' root junk, (recordsOf tree).foldlM addRecord heap = .ok heap' ∧
      Grown heap heap' l tree root junk := by
  induction hfull generalizing heap l with
  | leaf id freq =>
      have hself : id ∈ (TreeNode.node id LEAF freq .null .null).ids := List.mem_singleton_self id
      obtain ⟨heap', root, hadd, hgrown⟩ := grow_leaf h (fun h0 => hzero (h0 ▸ hself))
        (fun a ha heq => hout a ha (heq ▸ hself)) freq
      refine ⟨heap', root, [], ?_, hgrown⟩
      rw [recordsOf, List.foldlM_cons, hadd]
      rfl
  | @internal id freq left right hleft hright ihl ihr =>
      have hids : (TreeNode.node id INTERNAL freq left right).ids
          = left.ids ++ right.ids ++ [id] := rfl
      rw [hids] at hzero hout
      simp only [List.mem_append, List.mem_singleton, not_or] at hzero hout
      have hboth := hnodup
      rw [hids] at hboth
      obtain ⟨hleftNodup, hrightNodup, hdisj⟩ :=
        List.nodup_append.mp (List.nodup_append.mp hboth).1
      -- the left subtree grows on the list it finds, the right one behind the left
      obtain ⟨heap₁, L, JL, hfold₁, hl⟩ :=
        ihl h hleftNodup hzero.1.1 (fun a ha => (hout a ha).1.1)
      have hout₁ : ∀ a ∈ L :: (JL ++ l), (heap₁.node a).id ∉ right.ids := by
        intro a ha hmem
        rw [← List.cons_append, List.mem_append] at ha
        rcases ha with ha | ha
        · exact hdisj _ (hl.ids a ha) _ hmem rfl
        · rw [hl.old a (h.made a ha)] at hmem
          exact (hout a ha).1.2 hmem
      obtain ⟨heap₂, R, JR, hfold₂, hr⟩ := ihr hl.onList hrightNodup hzero.1.2 hout₁
      obtain ⟨heap', root, junk, hadd, hgrown⟩ := grow_internal hl hr freq hnodup
        (Ne.symm hzero.2) h (fun a ha => (hout a ha).2)
      refine ⟨heap', root, junk, ?_, hgrown⟩
      rw [recordsOf, List.foldlM_append, List.foldlM_append, hfold₁]
      simp only [bind, Except.bind, hfold₂]
      rw [List.foldlM_cons, hadd]
      rfl

/-! ## The whole text -/

/-- The last loop ends well if it gets to see a node. -/
theorem clearNext_ok {l : List ℕ} {list : Chain ℕ} {p c : Option ℕ} {fuel : ℕ}
    (hlinks : Links list.next c l) (hnodup : l.Nodup) (hp : ∀ a ∈ p, a ∉ l)
    (hsome : p ≠ none ∨ l ≠ []) (hfuel : l.length ≤ fuel) :
    ∃ list', clearNext fuel list p c = .ok list' := by
  induction l generalizing list p c fuel with
  | nil =>
      obtain rfl : c = none := hlinks
      -- at the end of the list `p` is the last node, if there was one
      cases p with
      | none => simp at hsome
      | some a => cases fuel <;> exact ⟨_, rfl⟩
  | cons a l ih =>
      obtain ⟨rfl, hnext⟩ := hlinks
      obtain ⟨hmem, hnodup⟩ := List.nodup_cons.mp hnodup
      obtain ⟨fuel, rfl⟩ := Nat.exists_eq_add_of_le' (Nat.one_le_of_lt hfuel)
      rw [List.length_cons] at hfuel
      have hself : ∀ b ∈ some a, b ∉ l := fun b hb => Option.some.inj hb ▸ hmem
      cases p with
      | none =>
          rw [clearNext]
          exact ih hnext hnodup hself (.inl (Option.some_ne_none a)) (by omega)
      | some b =>
          have hb := hp b rfl
          rw [List.mem_cons, not_or] at hb
          rw [clearNext]
          refine ih ?_ hnodup hself (.inl (Option.some_ne_none a)) (by omega)
          simp only [Chain.set]
          rw [Function.update_of_ne (Ne.symm hb.1)]
          exact hnext.update hb.2

/-- **A serialized tree is read back** if it has two leaves, and the file is left
behind the closing '#'. -/
theorem tree_deserialize_spec (wide : ℤ → CInt) {tree : TreeNode} (hfull : Full tree)
    (hmany : 2 ≤ tree.leaves.length) (hnodup : tree.ids.Nodup) (hzero : 0 ∉ tree.ids) {fp : FILE}
    {rest : List Byte} (h : fp.rest = 35 :: (recordsText (recordsOf tree) ++ 35 :: rest)) :
    ∃ heap root, tree_deserialize wide fp = .ok (some (heap, root, { fp with rest := rest })) ∧
      treeAt heap.node heap.size (some root) = tree := by
  obtain ⟨heap, root, junk, hfold, hgrown⟩ := grow_tree hfull onList_empty hnodup hzero
    (fun a ha => absurd ha List.not_mem_nil)
  have hne : recordsOf tree ≠ [] := by
    cases hfull <;> simp [recordsOf]
  have hlen : (recordsOf tree).length ≤ (recordsText (recordsOf tree) ++ 35 :: rest).length + 1 := by
    have hrecords := length_le_recordsText (recordsOf tree)
    rw [List.length_append]
    omega
  have hloop : deserializeLoop wide ((recordsText (recordsOf tree) ++ 35 :: rest).length + 1)
      Heap.empty { fp with rest := recordsText (recordsOf tree) ++ 35 :: rest }
        = .ok (some (heap, { fp with rest := rest })) :=
    deserializeLoop_text hne hfold rfl hlen
  obtain ⟨hhead, hnext⟩ := hgrown.onList.holds
  have hroot := List.nodup_cons.mp hgrown.onList.nodup
  -- behind the root there is a leftover, so the last loop does not see an empty list
  obtain ⟨list', hclear⟩ :
      ∃ list', clearNext heap.size heap.list none (heap.list.next root) = .ok list' :=
    clearNext_ok hnext hroot.2 (fun a ha => absurd ha (by simp))
      (.inr (by simp [hgrown.junk_ne_nil hmany])) ((Nat.le_succ _).trans hgrown.onList.length_le)
  refine ⟨{ heap with list := list' }, root, ?_, hgrown.points.treeAt_eq le_rfl⟩
  rw [tree_deserialize, h]
  simp only [ne_eq, not_true_eq_false, if_false, hloop, bind, Except.bind, hhead, hclear]

/-- **The round trip of a tree.** A tree whose root is INTERNAL, with distinct positive
ids and any frequencies and characters, is printed as a text, and from the text in front
of any payload the same tree is made and the payload is left. -/
theorem tree_deserialize_tree_serialize (wide : ℤ → CInt) {id : CInt} {freq : Frequency}
    {left right : TreeNode}
    (hfull : Full (.node id INTERNAL freq left right))
    (hnodup : (TreeNode.node id INTERNAL freq left right).ids.Nodup)
    (hpos : ∀ i ∈ (TreeNode.node id INTERNAL freq left right).ids, 0 < i.toInt) {outfile : FILE}
    (hok : ∀ n, outfile.fails n = false) :
    ∃ text, (tree_serialize (.node id INTERNAL freq left right) outfile).2.written
        = outfile.written ++ text ∧
      ∀ (infile : FILE) (payload : List Byte), infile.rest = text ++ payload →
        ∃ heap root,
          tree_deserialize wide infile = .ok (some (heap, root, { infile with rest := payload })) ∧
          treeAt heap.node heap.size (some root) = .node id INTERNAL freq left right := by
  have hzero : 0 ∉ (TreeNode.node id INTERNAL freq left right).ids := by
    intro hmem
    exact absurd (hpos 0 hmem) (by decide)
  obtain ⟨result, fp, hser, -, htook⟩ :=
    tree_serialize_spec (.node id INTERNAL freq left right) hok
  refine ⟨_, by rw [hser]; exact htook.written, ?_⟩
  intro infile payload hrest
  apply tree_deserialize_spec wide hfull hfull.two_le_leaves hnodup hzero
  rw [hrest, List.cons_append, List.append_assoc]
  rfl

/-- A tree with ids and frequencies out of order, and "xyz" behind it. -/
theorem tree_deserialize_tree_serialize_three :
    ∃ text, (tree_serialize (.node 5 INTERNAL ⟨-3, 0⟩ (.node 9 LEAF ⟨7, 255⟩ .null .null)
        (.node 2 LEAF ⟨-10, 35⟩ .null .null)) FILE.reliable).2.written = [] ++ text ∧
      ∃ heap root, tree_deserialize saturate (FILE.reading (text ++ [120, 121, 122]))
          = .ok (some (heap, root, FILE.reading [120, 121, 122])) ∧
        treeAt heap.node heap.size (some root) = .node 5 INTERNAL ⟨-3, 0⟩
          (.node 9 LEAF ⟨7, 255⟩ .null .null) (.node 2 LEAF ⟨-10, 35⟩ .null .null) := by
  obtain ⟨text, hwritten, hread⟩ := tree_deserialize_tree_serialize saturate
    (Full.internal 5 ⟨-3, 0⟩ (Full.leaf 9 ⟨7, 255⟩) (Full.leaf 2 ⟨-10, 35⟩)) (by decide)
    (by simp [TreeNode.ids]) (show ∀ n, FILE.reliable.fails n = false from fun _ => rfl)
  exact ⟨text, hwritten, hread (FILE.reading (text ++ [120, 121, 122])) [120, 121, 122] rfl⟩

end ProjectsInC.Huffman
