/-
What the second and the third phase build.

The queue holds a forest. A round of `build_tree` joins two trees of least
frequency, so what is true of the forest at the start, does not depend on the
order of the trees and is kept by such a join holds of the tree at the end
([`build_tree_induct`]). One such invariant is [`Forest`]: full trees with the
given leaves, exact sums of frequencies and fresh ids.
-/
import Mathlib.Algebra.Order.BigOperators.Group.List
import ProjectsInC.Huffman.Huffman

set_option autoImplicit false

namespace ProjectsInC.Huffman

open NodeType

/-! ## Order in the queue -/

/-- The frequency of a tree, as a number. -/
def TreeNode.weight (tree : TreeNode) : ℤ := tree.freq.v.toInt

/-- No tree in the list has a negative frequency. -/
def NonNeg (ts : List TreeNode) : Prop := ∀ t ∈ ts, 0 ≤ t.weight

theorem NonNeg.perm {ts ts' : List TreeNode} (h : NonNeg ts) (hp : ts'.Perm ts) : NonNeg ts' :=
  fun t ht => h t (hp.mem_iff.mp ht)

/-- On non-negative frequencies `a - b` does not overflow, so `comparator` orders
by frequency. -/
theorem comparator_le_iff {x y : TreeNode} (hx : 0 ≤ x.weight) (hy : 0 ≤ y.weight) :
    (comparator x y).toInt ≤ 0 ↔ x.weight ≤ y.weight := by
  have hbx := (toInt_bounds x.freq.v).2
  have hby := (toInt_bounds y.freq.v).2
  simp only [TreeNode.weight] at hx hy ⊢
  rw [comparator, toInt_sub_of_fits (by omega) (by omega)]
  omega

/-- Ascending in frequency. -/
def Ascending (ts : List TreeNode) : Prop := ts.Pairwise (fun x y => x.weight ≤ y.weight)

theorem ascending_run (qsort : Qsort TreeNode) {ts : List TreeNode} (h : NonNeg ts) :
    Ascending (qsort.run comparator ts) :=
  qsort.pairwise_key (fun x hx y hy => comparator_le_iff (h x hx) (h y hy))

/-! ## The rule for `build_tree` -/

/-- The join of `L` and `R` keeps an invariant of the forest and of `ids`, if `L`
and `R` are trees of least frequency. -/
def KeptByJoin (I : List TreeNode → CInt → Prop) : Prop :=
  ∀ (L R : TreeNode) (ts : List TreeNode) (ids : CInt), I (L :: R :: ts) ids →
    (∀ t ∈ R :: ts, L.weight ≤ t.weight) → (∀ t ∈ ts, R.weight ≤ t.weight) →
    I (merged ids L R :: ts) (ids + 1)

/-- An invariant that does not depend on the order of the trees. -/
def Unordered (I : List TreeNode → CInt → Prop) : Prop :=
  ∀ (ts ts' : List TreeNode) (ids : CInt), ts'.Perm ts → I ts ids → I ts' ids

/-- One round of the loop of `build_tree`. -/
def build_round (qsort : Qsort TreeNode) (st : PriorityQueue × CInt) : PriorityQueue × CInt :=
  let (L, pq) := pqueue_dequeue st.1
  let (R, pq) := pqueue_dequeue pq
  (pqueue_enqueue qsort pq (merged st.2 L R), st.2 + 1)

theorem build_tree_loop_succ (qsort : Qsort TreeNode) (fuel : ℕ) (st : PriorityQueue × CInt) :
    build_tree_loop qsort (fuel + 1) st
      = if pqueue_size st.1 > 1 then build_tree_loop qsort fuel (build_round qsort st)
        else some st := rfl

/-- The loop makes `k` rounds, if the queue is long enough for them and not for one more. -/
theorem build_tree_loop_rounds (qsort : Qsort TreeNode) {k fuel : ℕ} (hfuel : k < fuel)
    {st : PriorityQueue × CInt}
    (hmore : ∀ j < k, pqueue_size ((build_round qsort)^[j] st).1 > 1)
    (hend : ¬ pqueue_size ((build_round qsort)^[k] st).1 > 1) :
    build_tree_loop qsort fuel st = some ((build_round qsort)^[k] st) := by
  obtain ⟨fuel, rfl⟩ := Nat.exists_eq_add_of_le' (Nat.one_le_of_lt hfuel)
  induction k generalizing st fuel with
  | zero =>
      rw [build_tree_loop_succ]
      exact if_neg hend
  | succ k ih =>
      obtain ⟨fuel, rfl⟩ := Nat.exists_eq_add_of_le' (Nat.one_le_of_lt (Nat.lt_of_succ_lt_succ hfuel))
      have hfirst : pqueue_size st.1 > 1 := hmore 0 (Nat.succ_pos k)
      rw [build_tree_loop_succ, if_pos hfirst]
      apply ih
      · intro j hj
        exact hmore (j + 1) (Nat.succ_lt_succ hj)
      · exact hend
      · exact Nat.lt_of_succ_lt_succ hfuel

/-- Two trees or more: both calls of `pqueue_dequeue` return one, there is room for the new tree, and
it is sorted in with the others. -/
theorem build_round_slots (qsort : Qsort TreeNode) {pq : PriorityQueue} {L R : TreeNode}
    {ts : List TreeNode} (hslots : pq.slots = L :: R :: ts) (hroom : pq.count ≤ MAXSIZE)
    (ids : CInt) :
    (pqueue_dequeue pq).1 = L ∧ (pqueue_dequeue (pqueue_dequeue pq).2).1 = R ∧
    (pqueue_dequeue (pqueue_dequeue pq).2).2.count < MAXSIZE ∧
    (build_round qsort (pq, ids)).1.slots = qsort.run comparator (ts ++ [merged ids L R]) ∧
    (build_round qsort (pq, ids)).2 = ids + 1 := by
  have hcount : pq.count = ts.length + 2 := by
    rw [← length_slots, hslots]
    rfl
  obtain ⟨hL, hslots₁⟩ := dequeue_cons hslots
  obtain ⟨hR, hslots₂⟩ := dequeue_cons hslots₁
  have hcount₂ : (pqueue_dequeue (pqueue_dequeue pq).2).2.count = ts.length := by
    rw [← length_slots, hslots₂]
  have hroom₂ : (pqueue_dequeue (pqueue_dequeue pq).2).2.count < MAXSIZE := by omega
  have henq := slots_enqueue qsort hroom₂ (merged ids L R)
  rw [hslots₂] at henq
  refine ⟨hL, hR, hroom₂, ?_, rfl⟩
  rw [← henq, ← hL, ← hR]
  rfl

/-- What holds of the sorted queue at the start and is kept by every round holds behind every
round, and every round leaves one tree less. -/
theorem build_rounds (qsort : Qsort TreeNode) {J : List TreeNode → CInt → Prop}
    (hround : ∀ L R ts ids, J (L :: R :: ts) ids →
      J (qsort.run comparator (ts ++ [merged ids L R])) (ids + 1))
    {st : PriorityQueue × CInt} (hroom : st.1.count ≤ MAXSIZE) (h : J st.1.slots st.2) {j : ℕ}
    (hj : j < st.1.count) :
    ((build_round qsort)^[j] st).1.count = st.1.count - j ∧
    J ((build_round qsort)^[j] st).1.slots ((build_round qsort)^[j] st).2 := by
  induction j with
  | zero => exact ⟨rfl, h⟩
  | succ j ih =>
      obtain ⟨hcount, hJ⟩ := ih (Nat.lt_of_succ_lt hj)
      rw [Function.iterate_succ_apply']
      generalize (build_round qsort)^[j] st = st' at hcount hJ
      -- there are two trees to join
      obtain ⟨L, R, ts, hs⟩ := @slots_two st'.1 (by rw [hcount]; omega)
      have hlen : ts.length + 2 = st.1.count - j := by rw [← hcount, ← length_slots, hs]; rfl
      obtain ⟨-, -, -, hslots, hids⟩ := build_round_slots qsort hs (by omega) st'.2
      rw [hs] at hJ
      constructor
      · rw [← length_slots, hslots, qsort.length_run, List.length_append, List.length_singleton]
        omega
      · rw [hslots, hids]
        exact hround L R ts st'.2 hJ

/-- What holds of the sorted queue at the start and is kept by every round holds at the end. -/
theorem build_tree_rounds (qsort : Qsort TreeNode) {J : List TreeNode → CInt → Prop}
    (hround : ∀ L R ts ids, J (L :: R :: ts) ids →
      J (qsort.run comparator (ts ++ [merged ids L R])) (ids + 1))
    {pq : PriorityQueue} {ids : CInt} (h0 : pq.slots ≠ []) (hroom : pq.count ≤ MAXSIZE)
    (h : J pq.slots ids) :
    ∃ root ids', build_tree qsort (pq, ids) = some (root, ids') ∧ J [root] ids' := by
  have hpos : 0 < pq.count := by
    rw [← length_slots]
    exact List.length_pos_iff.mpr h0
  have hrounds {j : ℕ} (hj : j < pq.count) := @build_rounds qsort J hround (pq, ids) hroom h j hj
  obtain ⟨hcount, hJ⟩ := hrounds (Nat.sub_lt hpos Nat.one_pos)
  -- one tree left: the loop stops
  have hone : ((build_round qsort)^[pq.count - 1] (pq, ids)).1.slots.length = 1 := by
    rw [length_slots, hcount]
    exact Nat.sub_sub_self hpos
  have hmore : ∀ j < pq.count - 1, pqueue_size ((build_round qsort)^[j] (pq, ids)).1 > 1 := by
    intro j hj
    have hleft : pq.count - j > 1 := by omega
    have hcount := (hrounds (show j < pq.count by omega)).1
    rw [pqueue_size, hcount]
    exact hleft
  have hend : ¬ pqueue_size ((build_round qsort)^[pq.count - 1] (pq, ids)).1 > 1 := by
    rw [pqueue_size, ← length_slots, hone]
    exact lt_irrefl 1
  have hloop := @build_tree_loop_rounds qsort _ (pq.count + 1) (by omega) _ hmore hend
  obtain ⟨root, hslots⟩ := List.length_eq_one_iff.mp hone
  rw [hslots] at hJ
  refine ⟨root, _, ?_, hJ⟩
  rw [build_tree, hloop, Option.map_some, (dequeue_cons hslots).1]

/-- **The rule of induction for `build_tree`.** -/
theorem build_tree_induct (qsort : Qsort TreeNode) {I : List TreeNode → CInt → Prop}
    (hperm : Unordered I) (hjoin : KeptByJoin I) (hnonneg : ∀ ts ids, I ts ids → NonNeg ts)
    {pq : PriorityQueue} {ids : CInt} (h0 : pq.slots ≠ []) (hroom : pq.count ≤ MAXSIZE)
    (hsorted : Ascending pq.slots) (h : I pq.slots ids) :
    ∃ root ids', build_tree qsort (pq, ids) = some (root, ids') ∧ I [root] ids' := by
  have hround : ∀ L R ts ids, Ascending (L :: R :: ts) ∧ I (L :: R :: ts) ids →
      Ascending (qsort.run comparator (ts ++ [merged ids L R])) ∧
        I (qsort.run comparator (ts ++ [merged ids L R])) (ids + 1) := by
    rintro L R ts ids ⟨hsorted, h⟩
    -- the two trees in front are of least frequency
    have hleast := List.pairwise_cons.mp hsorted
    have hleast' := List.pairwise_cons.mp hleast.2
    have hI := hjoin L R ts ids h hleast.1 hleast'.1
    have happend : (ts ++ [merged ids L R]).Perm (merged ids L R :: ts) :=
      List.perm_append_singleton _ _
    -- the enqueue sorts again, which is where the order of the trees is lost
    exact ⟨ascending_run qsort ((hnonneg _ _ hI).perm happend),
      hperm _ _ _ ((qsort.perm comparator _).trans happend) hI⟩
  obtain ⟨root, ids', hbuild, -, hI⟩ := @build_tree_rounds qsort
    (fun ts ids => Ascending ts ∧ I ts ids) hround pq ids h0 hroom ⟨hsorted, h⟩
  exact ⟨root, ids', hbuild, hI⟩

/-! ## The forest -/

/-- The sum of the frequencies in a list of leaves. -/
def total (fs : List Frequency) : ℤ := (fs.map (fun f => f.v.toInt)).sum

theorem total_append (fs fs' : List Frequency) : total (fs ++ fs') = total fs + total fs' := by
  rw [total, List.map_append, List.sum_append]
  rfl

theorem total_nonneg {fs : List Frequency} (h : ∀ f ∈ fs, 0 ≤ f.v.toInt) : 0 ≤ total fs := by
  apply List.sum_nonneg
  intro x hx
  obtain ⟨f, hf, rfl⟩ := List.mem_map.mp hx
  exact h f hf

/-- The trees are full and have the given leaves between them; their ids are distinct, positive
and below `ids`. -/
structure Shape (fs : List Frequency) (ts : List TreeNode) (ids : CInt) : Prop where
  full : ∀ t ∈ ts, Full t
  leaves : (ts.flatMap TreeNode.leaves).Perm fs
  nodup : (ts.flatMap TreeNode.ids).Nodup
  fresh : ∀ id ∈ ts.flatMap TreeNode.ids, 0 < id.toNat ∧ id.toNat < ids.toNat
  count : ids.toNat = 1 + (ts.flatMap TreeNode.ids).length

/-- The trees are full, have the given leaves between them and the sum of their
leaves as frequency; their ids are distinct, positive and below `ids`. -/
structure Forest (fs : List Frequency) (ts : List TreeNode) (ids : CInt) : Prop where
  full : ∀ t ∈ ts, Full t
  leaves : (ts.flatMap TreeNode.leaves).Perm fs
  weights : ∀ t ∈ ts, t.weight = total t.leaves
  nodup : (ts.flatMap TreeNode.ids).Nodup
  fresh : ∀ id ∈ ts.flatMap TreeNode.ids, 0 < id.toNat ∧ id.toNat < ids.toNat
  count : ids.toNat = 1 + (ts.flatMap TreeNode.ids).length

theorem Forest.shape {fs : List Frequency} {ts : List TreeNode} {ids : CInt}
    (h : Forest fs ts ids) : Shape fs ts ids := ⟨h.full, h.leaves, h.nodup, h.fresh, h.count⟩

theorem Shape.forest {fs : List Frequency} {ts : List TreeNode} {ids : CInt} (h : Shape fs ts ids)
    (hweights : ∀ t ∈ ts, t.weight = total t.leaves) : Forest fs ts ids :=
  ⟨h.full, h.leaves, hweights, h.nodup, h.fresh, h.count⟩

theorem length_ids (tree : TreeNode) : tree.ids.length = tree_size tree := by
  induction tree with
  | null => rfl
  | node id type freq left right ihl ihr =>
      simp only [TreeNode.ids, tree_size, List.length_append, List.length_singleton, ihl, ihr]

section Forest

variable {fs : List Frequency} {ts : List TreeNode} {ids : CInt}

theorem forest_nil : Forest [] [] 1 where
  full := fun _ h => absurd h List.not_mem_nil
  leaves := List.Perm.nil
  weights := fun _ h => absurd h List.not_mem_nil
  nodup := List.nodup_nil
  fresh := fun _ h => absurd h List.not_mem_nil
  count := rfl

theorem Shape.perm (h : Shape fs ts ids) {ts' : List TreeNode} (hp : ts'.Perm ts) :
    Shape fs ts' ids where
  full := fun t ht => h.full t (hp.mem_iff.mp ht)
  leaves := (hp.flatMap_right _).trans h.leaves
  nodup := (hp.flatMap_right _).nodup_iff.mpr h.nodup
  fresh := fun id hid => h.fresh id ((hp.flatMap_right _).mem_iff.mp hid)
  count := by rw [(hp.flatMap_right TreeNode.ids).length_eq]; exact h.count

theorem Forest.perm (h : Forest fs ts ids) {ts' : List TreeNode} (hp : ts'.Perm ts) :
    Forest fs ts' ids :=
  (h.shape.perm hp).forest (fun t ht => h.weights t (hp.mem_iff.mp ht))

/-- Two nodes for each leaf, less one for each tree. -/
theorem Shape.length_ids_add (h : Shape fs ts ids) :
    (ts.flatMap TreeNode.ids).length + ts.length = 2 * fs.length := by
  rw [← h.leaves.length_eq]
  have hfull := h.full
  clear h
  induction ts with
  | nil => rfl
  | cons t ts ih =>
      have hsize := (hfull t List.mem_cons_self).size_eq
      have hrest := ih (fun t' ht' => hfull t' (List.mem_cons_of_mem t ht'))
      rw [List.flatMap_cons, List.flatMap_cons, List.length_append, List.length_append,
        length_ids, List.length_cons]
      omega

/-- A counter that is far from its limit goes up by one. -/
theorem toNat_succ_id (h : ids.toNat < 2 ^ 31) : (ids + 1).toNat = ids.toNat + 1 := by
  have hone : (1 : CInt).toNat = 1 := rfl
  rw [BitVec.toNat_add, hone]
  omega

/-- Adding a fresh node `t` over (or beside) a forest: the ids stay distinct. -/
theorem ids_concat {l : List CInt} (hnodup : l.Nodup)
    (hfresh : ∀ id ∈ l, 0 < id.toNat ∧ id.toNat < ids.toNat) (hcount : ids.toNat = 1 + l.length)
    (hlt : ids.toNat < 2 ^ 31) :
    (l ++ [ids]).Nodup ∧ (∀ id ∈ l ++ [ids], 0 < id.toNat ∧ id.toNat < (ids + 1).toNat) ∧
      (ids + 1).toNat = 1 + (l ++ [ids]).length := by
  rw [toNat_succ_id hlt]
  refine ⟨?_, fun id hid => ?_, ?_⟩
  · refine List.nodup_append.mpr ⟨hnodup, List.nodup_singleton _, fun a ha b hb heq => ?_⟩
    have := (hfresh a ha).2
    rw [heq, List.mem_singleton.mp hb] at this
    omega
  · rcases List.mem_append.mp hid with hold | hnew
    · have := hfresh id hold
      omega
    · rw [List.mem_singleton.mp hnew]
      omega
  · rw [List.length_append, List.length_singleton]
    omega

/-- A leaf for one more frequency record. -/
theorem Forest.leaf (h : Forest fs ts ids) (f : Frequency) (hlt : ids.toNat < 2 ^ 31) :
    Forest (fs ++ [f]) (ts ++ [.node ids LEAF f .null .null]) (ids + 1) := by
  obtain ⟨hnodup, hfresh, hcount⟩ := ids_concat h.nodup h.fresh h.count hlt
  have hids : (ts ++ [TreeNode.node ids LEAF f .null .null]).flatMap TreeNode.ids
      = ts.flatMap TreeNode.ids ++ [ids] := by
    rw [List.flatMap_append]
    rfl
  refine ⟨fun t ht => ?_, ?_, fun t ht => ?_, hids ▸ hnodup, hids ▸ hfresh, hids ▸ hcount⟩
  · rcases List.mem_append.mp ht with hold | hnew
    · exact h.full t hold
    · rw [List.mem_singleton.mp hnew]
      exact Full.leaf ids f
  · rw [List.flatMap_append]
    exact h.leaves.append_right [f]
  · rcases List.mem_append.mp ht with hold | hnew
    · exact h.weights t hold
    · rw [List.mem_singleton.mp hnew]
      exact (add_zero _).symm

/-- The frequencies of two trees of a forest can be added. -/
theorem Forest.weight_add {L R : TreeNode} (h : Forest fs (L :: R :: ts) ids)
    (hpos : ∀ f ∈ fs, 0 ≤ f.v.toInt) (hsum : total fs < 2 ^ 31) :
    (merged ids L R).weight = L.weight + R.weight := by
  have hmem : ∀ t ∈ L :: R :: ts, ∀ f ∈ t.leaves, 0 ≤ f.v.toInt := fun t ht f hf =>
    hpos f (h.leaves.mem_iff.mp (List.mem_flatMap.mpr ⟨t, ht, hf⟩))
  have hL := h.weights L (by simp)
  have hR := h.weights R (by simp)
  have hLpos := total_nonneg (hmem L (by simp))
  have hRpos := total_nonneg (hmem R (by simp))
  have hrest : 0 ≤ total (ts.flatMap TreeNode.leaves) := by
    apply total_nonneg
    intro f hf
    obtain ⟨t, ht, hft⟩ := List.mem_flatMap.mp hf
    exact hmem t (by simp [ht]) f hft
  -- both are part of the total, so their sum is below the limit of the type
  have hall : total fs = total L.leaves + (total R.leaves + total (ts.flatMap TreeNode.leaves)) := by
    rw [← total_append, ← total_append]
    exact ((h.leaves.map _).sum_eq).symm
  simp only [TreeNode.weight] at hL hR
  refine toInt_add_of_fits ?_ ?_
  · rw [hL, hR]
    omega
  · rw [hL, hR]
    omega

/-- The ids stay far from their limit. -/
theorem Shape.ids_lt (h : Shape fs ts ids) (hfew : fs.length ≤ NUMBER_OF_CHARS) :
    ids.toNat < 2 ^ 31 := by
  have hcount := h.count
  have hlen := h.length_ids_add
  rw [NUMBER_OF_CHARS] at hfew
  omega

/-- Two trees are joined. -/
theorem Shape.join {L R : TreeNode} (h : Shape fs (L :: R :: ts) ids) (hlt : ids.toNat < 2 ^ 31) :
    Shape fs (merged ids L R :: ts) (ids + 1) := by
  obtain ⟨hnodup, hfresh, hcount⟩ := ids_concat h.nodup h.fresh h.count hlt
  have hids : ((merged ids L R :: ts).flatMap TreeNode.ids).Perm
      ((L :: R :: ts).flatMap TreeNode.ids ++ [ids]) := by
    simp only [merged, List.flatMap_cons, TreeNode.ids, List.append_assoc]
    refine List.Perm.append_left _ (List.Perm.append_left _ ?_)
    exact List.perm_append_comm
  refine ⟨fun t ht => ?_, ?_, hids.nodup_iff.mpr hnodup,
    fun id hid => hfresh id (hids.mem_iff.mp hid), by rw [hids.length_eq]; exact hcount⟩
  · rcases List.mem_cons.mp ht with rfl | hold
    · exact Full.internal ids _ (h.full L (by simp)) (h.full R (by simp))
    · exact h.full t (by simp [hold])
  · have hleaves := h.leaves
    simp only [merged, List.flatMap_cons, TreeNode.leaves, List.append_assoc] at hleaves ⊢
    exact hleaves

/-- Their frequencies are added. -/
theorem Forest.join {L R : TreeNode} (h : Forest fs (L :: R :: ts) ids)
    (hpos : ∀ f ∈ fs, 0 ≤ f.v.toInt) (hsum : total fs < 2 ^ 31) (hlt : ids.toNat < 2 ^ 31) :
    Forest fs (merged ids L R :: ts) (ids + 1) := by
  apply (h.shape.join hlt).forest
  intro t ht
  rcases List.mem_cons.mp ht with rfl | hold
  · rw [h.weight_add hpos hsum, h.weights L (by simp), h.weights R (by simp), ← total_append]
    rfl
  · exact h.weights t (by simp [hold])

theorem Forest.nonneg (h : Forest fs ts ids) (hpos : ∀ f ∈ fs, 0 ≤ f.v.toInt) : NonNeg ts := by
  intro t ht
  rw [h.weights t ht]
  exact total_nonneg (fun f hf => hpos f (h.leaves.mem_iff.mp (List.mem_flatMap.mpr ⟨t, ht, hf⟩)))

end Forest

/-! ## From a table to a tree -/

/-- The entries among the first `n` that a node is made for. -/
def entriesTo (table : FrequencyTable) (n : ℕ) : List Frequency :=
  ((List.range n).filter (fun i => 0 < (table i).v.toInt)).map table

/-- The entries with a frequency above zero. -/
def entries (table : FrequencyTable) : List Frequency := entriesTo table NUMBER_OF_CHARS

theorem entriesTo_succ (table : FrequencyTable) (n : ℕ) :
    entriesTo table (n + 1)
      = entriesTo table n ++ if 0 < (table n).v.toInt then [table n] else [] := by
  rw [entriesTo, List.range_succ, List.filter_append, List.map_append]
  by_cases h : 0 < (table n).v.toInt <;> simp [entriesTo, h]

theorem entries_pos {table : FrequencyTable} : ∀ f ∈ entries table, 0 < f.v.toInt := by
  intro f hf
  obtain ⟨i, hi, rfl⟩ := List.mem_map.mp hf
  simpa using (List.mem_filter.mp hi).2

theorem length_entriesTo_le (table : FrequencyTable) (n : ℕ) : (entriesTo table n).length ≤ n := by
  rw [entriesTo, List.length_map]
  exact (List.length_filter_le _ _).trans (by simp)

/-- The tree of a table has few nodes. -/
theorem Full.size_lt {root : TreeNode} {table : FrequencyTable} (h : Full root)
    (hleaves : root.leaves.Perm (entries table)) : tree_size root < 2 ^ 31 := by
  have hsize := h.size_eq
  have hlen := hleaves.length_eq
  have hentries : (entries table).length ≤ 256 := length_entriesTo_le table NUMBER_OF_CHARS
  omega

/-- When one tree is left it has all the leaves; and at most 511 nodes were made, so that no id has
become negative. -/
theorem Shape.root {table : FrequencyTable} {root : TreeNode} {ids : CInt}
    (h : Shape (entries table) [root] ids) :
    Full root ∧ root.leaves.Perm (entries table) ∧ root.ids.Nodup ∧
      ∀ id ∈ root.ids, 0 < id.toInt := by
  have hlt := h.ids_lt (length_entriesTo_le table NUMBER_OF_CHARS)
  have hleaves := h.leaves
  have hnodup := h.nodup
  have hfresh := h.fresh
  rw [List.flatMap_singleton] at hleaves hnodup hfresh
  refine ⟨h.full root List.mem_cons_self, hleaves, hnodup, ?_⟩
  intro id hid
  obtain ⟨hlow, hhigh⟩ := hfresh id hid
  rw [BitVec.toInt_eq_toNat_of_lt (by omega)]
  exact_mod_cast hlow

/-- A tree that is one leaf. -/
def IsLeaf (t : TreeNode) : Prop := ∃ id f, t = .node id LEAF f .null .null

/-- The queue after some rounds of `create_tree_nodes`: one leaf for each entry. -/
structure Leaves (fs : List Frequency) (pq : PriorityQueue) (ids : CInt) : Prop where
  forest : Forest fs pq.slots ids
  sorted : Ascending pq.slots
  leaves : ∀ t ∈ pq.slots, IsLeaf t

theorem Leaves.count {fs : List Frequency} {pq : PriorityQueue} {ids : CInt}
    (h : Leaves fs pq ids) : pq.count = fs.length := by
  have hids := h.forest.shape.length_ids_add
  -- a leaf is one node, so the bound on the nodes counts the leaves
  have hone : ∀ ts : List TreeNode, (∀ t ∈ ts, IsLeaf t) →
      (ts.flatMap TreeNode.ids).length = ts.length := by
    intro ts hts
    induction ts with
    | nil => rfl
    | cons t ts ih =>
        obtain ⟨id, f, rfl⟩ := hts t List.mem_cons_self
        rw [List.flatMap_cons, List.length_append, List.length_cons,
          ih (fun t ht => hts t (List.mem_cons_of_mem _ ht))]
        exact Nat.add_comm _ _
  have := hone _ h.leaves
  rw [length_slots] at this hids
  omega

theorem Leaves.slots_ne_nil {fs : List Frequency} {pq : PriorityQueue} {ids : CInt}
    (h : Leaves fs pq ids) (hne : fs ≠ []) : pq.slots ≠ [] := by
  intro hnil
  have hcount := h.count
  rw [← length_slots, hnil] at hcount
  exact hne (List.length_eq_zero_iff.mp hcount.symm)

/-- One round of the loop. -/
theorem createNode_leaves (qsort : Qsort TreeNode) {table : FrequencyTable} {n : ℕ}
    (hn : n < NUMBER_OF_CHARS) {pq : PriorityQueue} {ids : CInt}
    (h : Leaves (entriesTo table n) pq ids) :
    Leaves (entriesTo table (n + 1)) (createNode qsort table (pq, ids) n).1
      (createNode qsort table (pq, ids) n).2 := by
  rw [createNode, entriesTo_succ]
  by_cases hv : 0 < (table n).v.toInt
  swap
  · -- a character that does not occur gets no node
    rw [if_neg hv, if_neg hv, List.append_nil]
    exact h
  rw [if_pos hv, if_pos hv]
  have hfew := length_entriesTo_le table n
  rw [NUMBER_OF_CHARS] at hn
  have hroom : pq.count < MAXSIZE := by
    rw [h.count, MAXSIZE]
    omega
  have hids : ids.toNat < 2 ^ 31 :=
    h.forest.shape.ids_lt (hfew.trans (by rw [NUMBER_OF_CHARS]; omega))
  have hslots := slots_enqueue qsort hroom (.node ids LEAF ⟨(table n).v, (table n).c⟩ .null .null)
  have hleaf := h.forest.leaf (table n) hids
  have hpos : ∀ f ∈ entriesTo table n ++ [table n], 0 ≤ f.v.toInt := by
    intro f hf
    rcases List.mem_append.mp hf with hold | hnew
    · obtain ⟨i, hi, rfl⟩ := List.mem_map.mp hold
      have hpos : 0 < (table i).v.toInt := by simpa using (List.mem_filter.mp hi).2
      exact hpos.le
    · rw [List.mem_singleton.mp hnew]
      exact hv.le
  refine ⟨?_, ?_, fun t ht => ?_⟩
  · rw [hslots]
    exact hleaf.perm (qsort.perm _ _)
  · rw [hslots]
    exact ascending_run qsort (hleaf.nonneg hpos)
  · rw [hslots, qsort.mem_run] at ht
    rcases List.mem_append.mp ht with hold | hnew
    · exact h.leaves t hold
    · exact ⟨ids, table n, List.mem_singleton.mp hnew⟩

/-- The queue and the counter after `n` rounds of `create_tree_nodes`. -/
def filled (qsort : Qsort TreeNode) (table : FrequencyTable) (beyond : ℕ → TreeNode) (n : ℕ) :
    PriorityQueue × CInt :=
  (List.range n).foldl (createNode qsort table) (pqueue_new beyond, 1)

theorem filled_leaves (qsort : Qsort TreeNode) (table : FrequencyTable) (beyond : ℕ → TreeNode)
    {n : ℕ} (hn : n ≤ NUMBER_OF_CHARS) :
    Leaves (entriesTo table n) (filled qsort table beyond n).1 (filled qsort table beyond n).2 := by
  induction n with
  | zero => exact ⟨forest_nil, List.Pairwise.nil, fun t h => absurd h List.not_mem_nil⟩
  | succ n ih =>
      have hsucc : filled qsort table beyond (n + 1)
          = createNode qsort table (filled qsort table beyond n) n := by
        rw [filled, List.range_succ, List.foldl_append]
        rfl
      rw [hsucc]
      exact createNode_leaves qsort hn (ih (Nat.le_of_succ_le hn))

/-- `create_tree_nodes` fills the queue with one leaf for each entry. -/
theorem create_tree_nodes_leaves (qsort : Qsort TreeNode) (table : FrequencyTable)
    (beyond : ℕ → TreeNode) :
    ∃ pq ids, create_tree_nodes qsort table (pqueue_new beyond, 1) = (pq, ids) ∧
      Leaves (entries table) pq ids :=
  ⟨_, _, rfl, filled_leaves qsort table beyond le_rfl⟩

/-- **The second and the third phase.** For a table with some frequency above zero
and a sum that fits, `build_tree` returns a tree of the entries; and any further
property of the forest that the leaves have, that does not depend on their
order and that the joins keep, holds of it. -/
theorem build_tree_spec (qsort : Qsort TreeNode) (beyond : ℕ → TreeNode) {table : FrequencyTable}
    (hne : entries table ≠ []) (hsum : total (entries table) < 2 ^ 31)
    {I : List TreeNode → Prop} (hperm : ∀ ts ts', ts'.Perm ts → I ts → I ts')
    (hjoin : ∀ L R ts ids, Forest (entries table) (L :: R :: ts) ids →
      (∀ t ∈ R :: ts, L.weight ≤ t.weight) → (∀ t ∈ ts, R.weight ≤ t.weight) →
      I (L :: R :: ts) → I (merged ids L R :: ts))
    (hstart : ∀ ts ids, Forest (entries table) ts ids → (∀ t ∈ ts, IsLeaf t) → I ts) :
    ∃ root ids, build_tree qsort (create_tree_nodes qsort table (pqueue_new beyond, 1))
      = some (root, ids) ∧ Forest (entries table) [root] ids ∧ I [root] := by
  obtain ⟨pq, ids, hst, hleaves⟩ := create_tree_nodes_leaves qsort table beyond
  have hpos : ∀ f ∈ entries table, 0 ≤ f.v.toInt := fun f hf => (entries_pos f hf).le
  have hlen : (entries table).length ≤ 256 := length_entriesTo_le table NUMBER_OF_CHARS
  rw [hst]
  -- the forest itself is part of the invariant, and the rest of it may use that
  refine build_tree_induct qsort (I := fun ts ids => Forest (entries table) ts ids ∧ I ts)
    (fun ts ts' ids hp h => ⟨h.1.perm hp, hperm ts ts' hp h.2⟩)
    (fun L R ts ids h hL hR => ⟨?_, hjoin L R ts ids h.1 hL hR h.2⟩)
    (fun ts ids h => h.1.nonneg hpos) ?_ ?_ hleaves.sorted
    ⟨hleaves.forest, hstart _ _ hleaves.forest hleaves.leaves⟩
  · exact h.1.join hpos hsum (h.1.shape.ids_lt hlen)
  · exact hleaves.slots_ne_nil hne
  · rw [hleaves.count]
    exact hlen

/-- **The shape of the tree**, for any table with some frequency above zero, whether the sums
fit or not. -/
theorem build_tree_shape (qsort : Qsort TreeNode) (beyond : ℕ → TreeNode) {table : FrequencyTable}
    (hne : entries table ≠ []) :
    ∃ root ids, build_tree qsort (create_tree_nodes qsort table (pqueue_new beyond, 1))
      = some (root, ids) ∧ Shape (entries table) [root] ids := by
  obtain ⟨pq, ids, hst, hleaves⟩ := create_tree_nodes_leaves qsort table beyond
  have hlen : (entries table).length ≤ NUMBER_OF_CHARS := length_entriesTo_le table NUMBER_OF_CHARS
  rw [hst]
  refine build_tree_rounds qsort ?_ ?_ ?_ hleaves.forest.shape
  · intro L R ts ids h
    exact (h.join (h.ids_lt hlen)).perm
      ((qsort.perm comparator _).trans (List.perm_append_singleton _ _))
  · exact hleaves.slots_ne_nil hne
  · rw [hleaves.count]
    exact hlen

/-- Without such a frequency there is no tree. -/
theorem build_tree_null (qsort : Qsort TreeNode) (beyond : ℕ → TreeNode) {table : FrequencyTable}
    (hnone : entries table = []) :
    ∃ ids, build_tree qsort (create_tree_nodes qsort table (pqueue_new beyond, 1))
      = some (.null, ids) := by
  obtain ⟨pq, ids, hst, hleaves⟩ := create_tree_nodes_leaves qsort table beyond
  have hcount : pq.count = 0 := by
    rw [hleaves.count, hnone]
    rfl
  have hempty : pq.slots = [] := List.eq_nil_of_length_eq_zero (by rw [length_slots, hcount])
  refine ⟨ids, ?_⟩
  rw [hst, build_tree, build_tree_loop, pqueue_size, hcount, if_neg (Nat.not_lt_zero 1),
    Option.map_some, (dequeue_nil hempty).1]

/-! ## The memory behind the array -/

/-- Two states that differ at most in what lies behind the used slots. -/
structure Alike (st st' : PriorityQueue × CInt) : Prop where
  slots : st.1.slots = st'.1.slots
  ids : st.2 = st'.2

section Alike

variable {st st' : PriorityQueue × CInt}

theorem Alike.count (h : Alike st st') : st.1.count = st'.1.count := by
  rw [← length_slots, h.slots, length_slots]

theorem Alike.createNode (h : Alike st st') (qsort : Qsort TreeNode) (table : FrequencyTable)
    (i : ℕ) : Alike (createNode qsort table st i) (createNode qsort table st' i) := by
  rw [Huffman.createNode, Huffman.createNode, ← h.ids]
  by_cases hv : 0 < (table i).v.toInt
  · rw [if_pos hv, if_pos hv]
    exact ⟨enqueue_congr qsort h.slots _, rfl⟩
  · rw [if_neg hv, if_neg hv]
    exact h

theorem Alike.build_round (h : Alike st st') (qsort : Qsort TreeNode) :
    Alike (build_round qsort st) (build_round qsort st') := by
  obtain ⟨hL, hslots⟩ := dequeue_congr h.slots
  obtain ⟨hR, hslots⟩ := dequeue_congr hslots
  simp only [Huffman.build_round, hL, hR, h.ids]
  exact ⟨enqueue_congr qsort hslots _, rfl⟩

/-- Both make the same number of rounds. -/
theorem Alike.build_tree_loop (h : Alike st st') (qsort : Qsort TreeNode) (fuel : ℕ) :
    Option.Rel Alike (build_tree_loop qsort fuel st) (build_tree_loop qsort fuel st') := by
  induction fuel generalizing st st' with
  | zero => exact .none
  | succ fuel ih =>
      rw [build_tree_loop_succ, build_tree_loop_succ, pqueue_size, pqueue_size, ← h.count]
      by_cases hmore : st.1.count > 1
      · rw [if_pos hmore, if_pos hmore]
        exact ih (h.build_round qsort)
      · rw [if_neg hmore, if_neg hmore]
        exact .some h

theorem Alike.build_tree (h : Alike st st') (qsort : Qsort TreeNode) :
    build_tree qsort st = build_tree qsort st' := by
  have hloop := h.build_tree_loop qsort (st.1.count + 1)
  rw [Huffman.build_tree, Huffman.build_tree, ← h.count]
  generalize Huffman.build_tree_loop qsort (st.1.count + 1) st = ended at hloop ⊢
  generalize Huffman.build_tree_loop qsort (st.1.count + 1) st' = ended' at hloop ⊢
  cases hloop with
  | none => rfl
  | some hend =>
      rw [Option.map_some, Option.map_some, (dequeue_congr hend.slots).1, hend.ids]

end Alike

/-- The tree does not depend on what lies behind the array. -/
theorem huffman_build_tree_beyond (qsort : Qsort TreeNode) (beyond beyond' : ℕ → TreeNode)
    (bytes : List Byte) :
    huffman_build_tree qsort beyond bytes = huffman_build_tree qsort beyond' bytes := by
  have hnew : Alike (pqueue_new beyond, 1) (pqueue_new beyond', 1) := ⟨rfl, rfl⟩
  have hcreated := List.foldl_rel hnew
    (fun i _ st st' (h : Alike st st') => h.createNode qsort (compute_freq bytes) i)
    (l := List.range NUMBER_OF_CHARS)
  exact hcreated.build_tree qsort

end ProjectsInC.Huffman
