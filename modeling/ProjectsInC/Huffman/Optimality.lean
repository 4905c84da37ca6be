/-
The tree that `build_tree` returns is optimal.

The forest in the queue is compared with all weighted depths at once: whatever
depths that fit a binary tree somebody gives to the entries of the table, there
are depths for the trees of the forest that cost no more together with what the
trees have cost so far ([`Ahead`]). A join of two lightest trees keeps this by the
greedy step of [`Lib.greedy_merge`], and in the end there is one tree and nothing
left to pay.
-/
import ProjectsInC.Lib.Kraft
import ProjectsInC.Huffman.Frequencies

set_option autoImplicit false

namespace ProjectsInC.Huffman

open NodeType
open Lib (Fits kraftSum cost PrefixFree)

/-! ## The payload of a tree -/

/-- The frequency of a character in the table. -/
def freqOf (table : FrequencyTable) (c : Byte) : ℤ := (table c.toNat).v.toInt

/-- The weighted depths of the leaves of a tree. -/
def profile (table : FrequencyTable) (tree : TreeNode) : Multiset (ℤ × ℕ) :=
  (tree.codes.map (fun p => (freqOf table p.1, p.2.length)) : List (ℤ × ℕ))

/-- The number of payload bits: for every leaf, frequency times depth. -/
def payload (table : FrequencyTable) (tree : TreeNode) : ℤ :=
  (tree.codes.map (fun p => (p.2.length : ℤ) * freqOf table p.1)).sum

theorem cost_profile (table : FrequencyTable) (tree : TreeNode) :
    cost (profile table tree) = payload table tree := by
  simp only [cost, profile, payload, Multiset.map_coe, Multiset.sum_coe, List.map_map]
  congr 1

theorem profile_weights (table : FrequencyTable) (tree : TreeNode) :
    (profile table tree).map Prod.fst = (tree.chars.map (freqOf table) : List ℤ) := by
  simp only [profile, Multiset.map_coe, List.map_map, TreeNode.chars]
  rfl

/-- The depths of the leaves of any tree satisfy Kraft's inequality, also where
an INTERNAL node lacks a child. -/
theorem fits_codes (tree : TreeNode) :
    Fits (tree.codes.map (fun p => p.2.length) : List ℕ) := by
  induction tree with
  | null => exact fun D _ => Nat.zero_le _
  | node id type freq left right ihl ihr =>
      cases type with
      | LEAF =>
          intro D _
          simp [TreeNode.codes, kraftSum]
      | INTERNAL =>
          -- the depths below the root are those of the two subtrees, each one more
          have hcodes : ((TreeNode.node id INTERNAL freq left right).codes.map
                (fun p => p.2.length) : Multiset ℕ)
              = Multiset.map (· + 1) (left.codes.map (fun p => p.2.length) : List ℕ)
                + Multiset.map (· + 1) (right.codes.map (fun p => p.2.length) : List ℕ) := by
            rw [TreeNode.codes, List.map_append, ← Multiset.coe_add, Multiset.map_coe,
              Multiset.map_coe, List.map_map, List.map_map, List.map_map, List.map_map]
            rfl
          rw [hcodes]
          exact ihl.join ihr

theorem fits_profile (table : FrequencyTable) (tree : TreeNode) :
    Fits ((profile table tree).map Prod.snd) := by
  have h := fits_codes tree
  rw [profile, Multiset.map_coe, List.map_map]
  exact h

/-! ## Joining two trees -/

/-- A tree whose leaves carry the frequencies of the table. -/
def Carries (table : FrequencyTable) (tree : TreeNode) : Prop :=
  ∀ f ∈ tree.leaves, f.v.toInt = freqOf table f.c

theorem Labelled.carries {table : FrequencyTable} (h : Labelled table) :
    ∀ f ∈ entries table, f.v.toInt = freqOf table f.c := by
  intro f hf
  obtain ⟨i, hi, rfl⟩ := List.mem_map.mp hf
  have hlt := List.mem_range.mp (List.mem_of_mem_filter hi)
  rw [freqOf, h i hlt, BitVec.toNat_ofNat, Nat.mod_eq_of_lt (show i < 2 ^ 8 from hlt)]

theorem sum_chars_eq_total {table : FrequencyTable} {tree : TreeNode} (hfull : Full tree)
    (h : Carries table tree) : (tree.chars.map (freqOf table)).sum = total tree.leaves := by
  rw [hfull.chars_eq, List.map_map, total]
  congr 1
  exact List.map_congr_left (fun f hf => (h f hf).symm)

/-- Every leaf of the two trees goes one level down. -/
theorem payload_merged (table : FrequencyTable) (ids : CInt) (L R : TreeNode) :
    payload table (merged ids L R) = payload table L + payload table R
      + ((L.chars.map (freqOf table)).sum + (R.chars.map (freqOf table)).sum) := by
  have hdown : ∀ (l : List (Byte × List Bool)) (bit : Bool),
      ((l.map (fun p => (p.1, bit :: p.2))).map
          (fun p => (p.2.length : ℤ) * freqOf table p.1)).sum
        = (l.map (fun p => (p.2.length : ℤ) * freqOf table p.1)).sum
          + ((l.map Prod.fst).map (freqOf table)).sum := by
    intro l bit
    induction l with
    | nil => rfl
    | cons p l ih =>
        simp only [List.map_cons, List.sum_cons, ih, List.length_cons, Nat.cast_add, Nat.cast_one]
        ring
  simp only [payload, merged, TreeNode.codes, List.map_append, List.sum_append, hdown,
    TreeNode.chars]
  ring

/-! ## The invariant -/

/-- The weights of the entries. -/
def weights (fs : List Frequency) : Multiset ℤ := (fs.map (fun f => f.v.toInt) : List ℤ)

/-- Any depths for the entries can be matched: with some depths for the trees of
the forest, these and the trees themselves cost no more. -/
def Ahead (table : FrequencyTable) (ts : List TreeNode) : Prop :=
  ∀ P : Multiset (ℤ × ℕ), P.map Prod.fst = weights (entries table) → Fits (P.map Prod.snd) →
    ∃ P' : Multiset (ℤ × ℕ), P'.map Prod.fst = (ts.map TreeNode.weight : List ℤ) ∧
      Fits (P'.map Prod.snd) ∧ (ts.map (payload table)).sum + cost P' ≤ cost P

theorem Ahead.perm {table : FrequencyTable} {ts ts' : List TreeNode} (hp : ts'.Perm ts)
    (h : Ahead table ts) : Ahead table ts' := by
  intro P hP hfits
  obtain ⟨P', hP', hfits', hcost⟩ := h P hP hfits
  refine ⟨P', hP'.trans (Multiset.coe_eq_coe.mpr (hp.map _).symm), hfits', ?_⟩
  rw [(hp.map (payload table)).sum_eq]
  exact hcost

theorem Ahead.start {table : FrequencyTable} {ts : List TreeNode} {ids : CInt}
    (hforest : Forest (entries table) ts ids) (hleaf : ∀ t ∈ ts, IsLeaf t) : Ahead table ts := by
  intro P hP hfits
  refine ⟨P, hP.trans ?_, hfits, ?_⟩
  · -- the weight of a leaf is its frequency
    have hweights : ts.map TreeNode.weight
        = (ts.flatMap TreeNode.leaves).map (fun f => f.v.toInt) := by
      clear hforest
      induction ts with
      | nil => rfl
      | cons t ts ih =>
          obtain ⟨id, f, rfl⟩ := hleaf t List.mem_cons_self
          rw [List.flatMap_cons, List.map_append, List.map_cons,
            ih (fun t ht => hleaf t (List.mem_cons_of_mem _ ht))]
          rfl
    rw [hweights]
    exact Multiset.coe_eq_coe.mpr (hforest.leaves.map _).symm
  · -- and its payload is nothing: it is its own root
    have hzero : (ts.map (payload table)).sum = 0 := by
      apply List.sum_eq_zero
      intro x hx
      obtain ⟨t, ht, rfl⟩ := List.mem_map.mp hx
      obtain ⟨id, f, rfl⟩ := hleaf t ht
      simp [payload, TreeNode.codes]
    rw [hzero, zero_add]

/-- **A join keeps the forest ahead.** -/
theorem Ahead.join {table : FrequencyTable} (hlabel : Labelled table)
    (hsum : total (entries table) < 2 ^ 31) {L R : TreeNode} {ts : List TreeNode} {ids : CInt}
    (hforest : Forest (entries table) (L :: R :: ts) ids) (hL : ∀ t ∈ R :: ts, L.weight ≤ t.weight)
    (hR : ∀ t ∈ ts, R.weight ≤ t.weight) (h : Ahead table (L :: R :: ts)) :
    Ahead table (merged ids L R :: ts) := by
  intro P hP hfits
  obtain ⟨P', hP', hfits', hcost⟩ := h P hP hfits
  have hpos : ∀ f ∈ entries table, 0 ≤ f.v.toInt := fun f hf => (entries_pos f hf).le
  -- any depths for the forest before the join can be merged into depths for it after
  obtain ⟨P'', hP'', hfits'', hcost'⟩ := Lib.greedy_merge (a := L.weight) (b := R.weight)
    (ts.map TreeNode.weight : List ℤ) hP' (hL R List.mem_cons_self)
    (fun w hw => by
      obtain ⟨t, ht, rfl⟩ := List.mem_map.mp (Multiset.mem_coe.mp hw)
      exact hR t ht)
    (hforest.nonneg hpos L List.mem_cons_self) hfits'
  have hadd := hforest.weight_add hpos hsum
  -- the payload grows by exactly the two weights
  have hcarries : ∀ t ∈ L :: R :: ts, Carries table t := fun t ht f hf =>
    hlabel.carries f (hforest.leaves.mem_iff.mp (List.mem_flatMap.mpr ⟨t, ht, hf⟩))
  have hchars : ∀ t ∈ L :: R :: ts, (t.chars.map (freqOf table)).sum = t.weight := fun t ht => by
    rw [sum_chars_eq_total (hforest.full t ht) (hcarries t ht), hforest.weights t ht]
  have hpayload : payload table (merged ids L R)
      = payload table L + payload table R + (L.weight + R.weight) := by
    rw [payload_merged, hchars L (by simp), hchars R (by simp)]
  refine ⟨P'', ?_, hfits'', ?_⟩
  · rw [hP'', List.map_cons, hadd]
    rfl
  · rw [List.map_cons, List.sum_cons, hpayload]
    rw [List.map_cons, List.sum_cons, List.map_cons, List.sum_cons] at hcost
    linarith

/-! ## Optimality -/

/-- The payload of a code: for every entry, frequency times word length. -/
def codePayload (table : FrequencyTable) (code : Byte → List Bool) : ℤ :=
  ((entries table).map (fun f => ((code f.c).length : ℤ) * f.v.toInt)).sum

/-- No depths that fit a binary tree cost less than the tree of the table. -/
theorem build_tree_le_cost (qsort : Qsort TreeNode) (beyond : ℕ → TreeNode)
    {table : FrequencyTable} (hlabel : Labelled table) (hne : entries table ≠ [])
    (hsum : total (entries table) < 2 ^ 31) :
    ∃ root ids, build_tree qsort (create_tree_nodes qsort table (pqueue_new beyond, 1))
        = some (root, ids) ∧ Forest (entries table) [root] ids ∧
      ∀ P : Multiset (ℤ × ℕ), P.map Prod.fst = weights (entries table) → Fits (P.map Prod.snd) →
        payload table root ≤ cost P := by
  obtain ⟨root, ids, hbuild, hforest, hahead⟩ := build_tree_spec qsort beyond hne hsum
    (I := Ahead table) (fun ts ts' hp h => h.perm hp)
    (fun L R ts ids hforest hL hR h => h.join hlabel hsum hforest hL hR)
    (fun ts ids hforest hleaf => Ahead.start hforest hleaf)
  refine ⟨root, ids, hbuild, hforest, fun P hP hfits => ?_⟩
  have hpos : ∀ f ∈ entries table, 0 ≤ f.v.toInt := fun f hf => (entries_pos f hf).le
  obtain ⟨P', hP', -, hcost⟩ := hahead P hP hfits
  -- in the end the depth of the one tree costs nothing, or only more
  have hnonneg : 0 ≤ cost P' := by
    apply Lib.cost_nonneg
    intro p hp
    have hmem : p.1 ∈ P'.map Prod.fst := Multiset.mem_map_of_mem Prod.fst hp
    rw [hP', List.map_singleton, Multiset.mem_coe, List.mem_singleton] at hmem
    rw [hmem]
    exact hforest.nonneg hpos root List.mem_cons_self
  rw [List.map_singleton, List.sum_singleton] at hcost
  linarith

/-- The word lengths of a prefix code are such depths. -/
theorem exists_wordLengths {table : FrequencyTable} (hlabel : Labelled table)
    {code : Byte → List Bool}
    (hcode : PrefixFree ((entries table).map Frequency.c).toFinset code) :
    ∃ P : Multiset (ℤ × ℕ), P.map Prod.fst = weights (entries table) ∧ Fits (P.map Prod.snd) ∧
      cost P = codePayload table code := by
  have hfits := hcode.fits
  rw [List.toFinset_val, hlabel.nodup_entries.dedup, Multiset.map_coe, List.map_map] at hfits
  refine ⟨((entries table).map (fun f => (f.v.toInt, (code f.c).length)) : List (ℤ × ℕ)), ?_, ?_, ?_⟩
  · rw [Multiset.map_coe, List.map_map]
    rfl
  · rw [Multiset.map_coe, List.map_map]
    exact hfits
  · simp only [cost, codePayload, Multiset.map_coe, Multiset.sum_coe, List.map_map]
    congr 1

/-- **Huffman's algorithm is optimal.** For every table with some frequency above
zero and a sum that fits an `int`, and every order `qsort` may give to equal
frequencies, the tree has a leaf for each such entry, no tree with these leaves
has a smaller payload, and no prefix code for them has. -/
theorem build_tree_optimal (qsort : Qsort TreeNode) (beyond : ℕ → TreeNode)
    {table : FrequencyTable} (hlabel : Labelled table) (hne : entries table ≠ [])
    (hsum : total (entries table) < 2 ^ 31) :
    ∃ root ids, build_tree qsort (create_tree_nodes qsort table (pqueue_new beyond, 1))
        = some (root, ids) ∧
      root.chars.Perm ((entries table).map Frequency.c) ∧
      (∀ tree : TreeNode, tree.chars.Perm ((entries table).map Frequency.c) →
        payload table root ≤ payload table tree) ∧
      (∀ code : Byte → List Bool, PrefixFree ((entries table).map Frequency.c).toFinset code →
        payload table root ≤ codePayload table code) := by
  obtain ⟨root, ids, hbuild, hforest, hleast⟩ := build_tree_le_cost qsort beyond hlabel hne hsum
  obtain ⟨hfull, hleaves, -, -⟩ := hforest.shape.root
  have hchars : root.chars.Perm ((entries table).map Frequency.c) := by
    rw [hfull.chars_eq]
    exact hleaves.map _
  have hentry : ((entries table).map Frequency.c).map (freqOf table)
      = (entries table).map (fun f => f.v.toInt) := by
    rw [List.map_map]
    exact List.map_congr_left (fun f hf => (hlabel.carries f hf).symm)
  refine ⟨root, ids, hbuild, hchars, fun tree htree => ?_, fun code hcode => ?_⟩
  · -- the leaves of another tree have such depths
    rw [← cost_profile table tree]
    refine hleast _ ?_ (fits_profile table tree)
    rw [profile_weights, weights, ← hentry]
    exact Multiset.coe_eq_coe.mpr (htree.map _)
  · obtain ⟨P, hP, hfits, hcost⟩ := exists_wordLengths hlabel hcode
    rw [← hcost]
    exact hleast P hP hfits

/-- A table with three characters. -/
def threeEntries : FrequencyTable := ⟨fun i =>
  ⟨if i = 97 then 5 else if i = 98 then 2 else if i = 99 then 1 else 0, BitVec.ofNat 8 i⟩⟩

theorem build_tree_optimal_three :
    ∃ root ids, build_tree (insertionQsort TreeNode)
        (create_tree_nodes (insertionQsort TreeNode) threeEntries (pqueue_new (fun _ => .null), 1))
        = some (root, ids) ∧
      ∀ tree : TreeNode, tree.chars.Perm ((entries threeEntries).map Frequency.c) →
        payload threeEntries root ≤ payload threeEntries tree := by
  obtain ⟨root, ids, hbuild, -, hopt, -⟩ := @build_tree_optimal (insertionQsort TreeNode)
    (fun _ => .null) threeEntries (fun _ _ => rfl) (by decide) (by decide)
  exact ⟨root, ids, hbuild, hopt⟩

end ProjectsInC.Huffman
