/-
The methods as operations on a bounded recency list.

A set of capacity `n` stands for a list of at most `n` values, the most recently used
first, and each method does to the list what [`RecencyList`] says and returns what it
says: one lemma for each method and each of its endings, and from them the run of any
calls ([`run_refines`]).
-/
import ProjectsInC.JavaSet.ListBoundedIntSet

set_option autoImplicit false

namespace ProjectsInC.JavaSet

open Lib (Links)

/-! ## The bounded recency list -/

/-- A call of a method. -/
inductive Call
  | add (value : CInt)
  | contains (value : CInt)
  | remove (value : CInt)
  | size
  | capacity

/-- The argument is one a set can hold. -/
def Call.NonNeg : Call → Prop
  | .add value | .contains value | .remove value => 0 ≤ value.toInt
  | .size | .capacity => True

/-- What a call returns. -/
inductive Answer
  | int (result : ℤ)
  | bool (result : Bool)
deriving DecidableEq

/-- A call on a list of at most `n` values. -/
def RecencyList.call (n : ℕ) (L : List CInt) : Call → Answer × List CInt
  | .add v =>
      if v ∈ L then (.int 0, v :: L.erase v)
      else if L.length < n then (.int 1, v :: L)
      else (.int 2, v :: L.dropLast)
  | .contains v => if v ∈ L then (.bool true, v :: L.erase v) else (.bool false, L)
  | .remove v => (.bool (decide (v ∈ L)), L.erase v)
  | .size => (.int L.length, L)
  | .capacity => (.int n, L)

/-- One call after the other. -/
def RecencyList.run (n : ℕ) : List CInt → List Call → List Answer × List CInt
  | L, [] => ([], L)
  | L, call :: calls =>
      let (answer, L) := RecencyList.call n L call
      let (answers, L) := RecencyList.run n L calls
      (answer :: answers, L)

/-- A call on the object. -/
def ListBoundedIntSet.call (set : ListBoundedIntSet) : Call → Except Fault (Answer × ListBoundedIntSet)
  | .add v => (set.add v).map (fun r => (.int r.1.toInt, r.2))
  | .contains v => (set.contains v).map (fun r => (.bool r.1, r.2))
  | .remove v => (set.remove v).map (fun r => (.bool r.1, r.2))
  | .size => set.size.map (fun r => (.int r.toInt, set))
  | .capacity => set.capacity.map (fun r => (.int r.toInt, set))

/-- One call after the other. -/
def ListBoundedIntSet.run : ListBoundedIntSet → List Call →
    Except Fault (List Answer × ListBoundedIntSet)
  | set, [] => .ok ([], set)
  | set, call :: calls => do
      let (answer, set) ← set.call call
      let (answers, set) ← set.run calls
      .ok (answer :: answers, set)

/-! ## `size` and `capacity` -/

section Methods

variable {n : ℕ} {set : ListBoundedIntSet} {chain : List ℕ} {L : List CInt} {v : CInt}

theorem capacityLoop_spec {p : Option ℕ} (hlinks : Links set.list.next p chain) (count : CInt)
    {fuel : ℕ} (hfuel : chain.length ≤ fuel) :
    capacityLoop set fuel count p = .ok (count + BitVec.ofNat 32 chain.length) := by
  induction chain generalizing p count fuel with
  | nil =>
      obtain rfl : p = none := hlinks
      cases fuel <;> exact congrArg Except.ok (BitVec.add_zero count).symm
  | cons c chain ih =>
      obtain ⟨rfl, hnext⟩ := hlinks
      obtain ⟨fuel, rfl⟩ := Nat.exists_eq_add_of_le' (Nat.one_le_of_lt hfuel)
      rw [List.length_cons] at hfuel
      rw [capacityLoop, ih hnext (count + 1) (by omega), List.length_cons, add_ofNat_succ]

/-- `size` stops at the first node that is empty. -/
theorem sizeLoop_spec {p : Option ℕ} {k : ℕ} (hlinks : Links set.list.next p chain)
    (hvalues : chain.map set.value = L ++ List.replicate k (-1)) (hL : ∀ v ∈ L, 0 ≤ v.toInt)
    (count : CInt) {fuel : ℕ} (hfuel : chain.length ≤ fuel) :
    sizeLoop set fuel count p = .ok (count + BitVec.ofNat 32 L.length) := by
  induction L generalizing p chain count fuel with
  | nil =>
      have hzero : count = count + BitVec.ofNat 32 ([] : List CInt).length :=
        (BitVec.add_zero count).symm
      rw [← hzero]
      cases chain with
      | nil =>
          obtain rfl : p = none := hlinks
          cases fuel <;> rfl
      | cons c chain =>
          obtain ⟨rfl, -⟩ := hlinks
          obtain ⟨fuel, rfl⟩ := Nat.exists_eq_add_of_le' (Nat.one_le_of_lt hfuel)
          have hempty : set.value c = -1 := by
            have hmem : set.value c ∈ List.replicate k (-1 : CInt) := by
              rw [List.nil_append] at hvalues
              rw [← hvalues]
              exact List.mem_map_of_mem List.mem_cons_self
            exact (List.mem_replicate.mp hmem).2
          rw [sizeLoop, hempty, if_pos (by decide)]
  | cons w L ih =>
      obtain ⟨c, rest, rfl, hc, hrest⟩ := List.map_eq_cons_iff.mp hvalues
      obtain ⟨rfl, hnext⟩ := hlinks
      obtain ⟨fuel, rfl⟩ := Nat.exists_eq_add_of_le' (Nat.one_le_of_lt hfuel)
      rw [List.length_cons] at hfuel
      have hw : ¬ (set.value c).toInt < 0 := by
        rw [hc]
        exact not_lt.mpr (hL w List.mem_cons_self)
      rw [sizeLoop, if_neg hw, ih hnext hrest (fun v hv => hL v (List.mem_cons_of_mem w hv))
        (count + 1) (by omega), List.length_cons, add_ofNat_succ]

theorem Holds.capacity (h : Holds n set chain L) : set.capacity = .ok (BitVec.ofNat 32 n) := by
  have hlen := h.length_chain
  have hloop := capacityLoop_spec h.holds 0 (le_of_eq (hlen.trans h.nodes.symm))
  unfold ListBoundedIntSet.capacity
  rw [hloop, hlen, zero_add]

theorem Holds.size (h : Holds n set chain L) : set.size = .ok (BitVec.ofNat 32 L.length) := by
  have hlen := h.length_chain
  have hloop := sizeLoop_spec h.holds h.values h.nonneg 0 (le_of_eq (hlen.trans h.nodes.symm))
  unfold ListBoundedIntSet.size
  rw [hloop, zero_add]

theorem Holds.empty_node {c : ℕ} {ys : List ℕ} {k : ℕ}
    (hys : (c :: ys).map set.value = List.replicate k (-1)) : set.value c = -1 := by
  have hmem : set.value c ∈ List.replicate k (-1 : CInt) :=
    hys ▸ List.mem_map_of_mem List.mem_cons_self
  exact (List.mem_replicate.mp hmem).2

/-! ## `contains` -/

section Walk

variable {xs ys : List ℕ}

/-- The loop of `contains` passes by the nodes `xs`. -/
theorem Holds.contains_walk (h : Holds n set (xs ++ ys) L)
    (hpass : ∀ y ∈ xs, set.value y ≠ -1 ∧ set.value y ≠ v) :
    set.contains v = containsLoop set v ys.length xs.getLast? ys.head? := by
  have hholds : set.list.Holds ([] ++ (xs ++ ys)) := h.holds
  have hwalk := hholds.walk (containsLoop set v) (fun fuel prev y hy => by
    rw [containsLoop, if_neg (hpass y hy).1, if_neg (hpass y hy).2]) ys.length
  have hnodes : set.nodes = xs.length + ys.length := by
    rw [h.nodes, ← h.length_chain, List.length_append]
  unfold ListBoundedIntSet.contains
  rw [hnodes, Links.head h.holds]
  exact hwalk

/-- So does the first loop of `remove`. -/
theorem Holds.find_walk (h : Holds n set (xs ++ ys) L)
    (hpass : ∀ y ∈ xs, set.value y ≠ -1 ∧ set.value y ≠ v) :
    findLoop set v set.nodes set.list.head = findLoop set v ys.length ys.head? := by
  have hholds : set.list.Holds ([] ++ (xs ++ ys)) := h.holds
  have hwalk := hholds.walk (fun fuel _ curr => findLoop set v fuel curr)
    (fun fuel prev y hy => by
      rw [findLoop, if_neg (hpass y hy).1, if_neg (hpass y hy).2]) ys.length
  have hnodes : set.nodes = xs.length + ys.length := by
    rw [h.nodes, ← h.length_chain, List.length_append]
  rw [hnodes, Links.head h.holds]
  exact hwalk

/-- And the loop of `add`, if there is a node behind them. -/
theorem Holds.add_walk (h : Holds n set (xs ++ ys) L)
    (hpass : ∀ y ∈ xs, set.value y ≠ -1 ∧ set.value y ≠ v) (hys : ys ≠ []) :
    set.add v = addLoop set v ys.length xs.getLast? ys.head? := by
  have hholds : set.list.Holds ([] ++ (xs ++ ys)) := h.holds
  have hwalk := hholds.walk (addLoop set v) (fun fuel prev y hy => by
    rw [addLoop, if_neg (hpass y hy).2, if_neg (hpass y hy).1,
      if_neg (hholds.next_ne_none hys hy)]) ys.length
  have hnodes : set.nodes = xs.length + ys.length := by
    rw [h.nodes, ← h.length_chain, List.length_append]
  unfold ListBoundedIntSet.add
  rw [hnodes, Links.head h.holds]
  exact hwalk

end Walk

/-- `contains` of a value that is there. -/
theorem Holds.contains_mem (h : Holds n set chain L) (hv : v ∈ L) :
    ∃ set', set.contains v = .ok (true, set') ∧ Models n set' (v :: L.erase v) := by
  obtain ⟨A, B, xs, c, ys, rfl, hA, rfl, hxs, hc, hys⟩ := h.at_value hv
  have hne := ne_neg_one_of_nonneg (h.nonneg v hv)
  refine ⟨set.pullToHead xs.getLast? (some c), ?_, c :: (xs ++ ys), ?_⟩
  · rw [h.contains_walk (h.passed hxs (List.subset_append_left _ _) hA), List.length_cons,
      List.head?_cons, containsLoop, hc, if_neg hne, if_pos rfl]
  · rw [List.erase_append_right _ hA, List.erase_cons_head]
    exact h.pull hxs hc hys

/-- Of a value that is not: the walk ends at the first empty node or behind the last. -/
theorem Holds.contains_not_mem (h : Holds n set chain L) (hv : v ∉ L) :
    set.contains v = .ok (false, set) := by
  obtain ⟨xs, ys, rfl, hxs, hys⟩ := h.split
  rw [h.contains_walk (h.passed hxs (List.Subset.refl L) hv)]
  cases ys with
  | nil => rfl
  | cons c ys => rw [List.head?_cons, List.length_cons, containsLoop, if_pos (Holds.empty_node hys)]

/-! ## `remove` -/

theorem map_update {c : ℕ} {l : List ℕ} (h : c ∉ l) (value : ℕ → CInt) (v : CInt) :
    l.map (Function.update value c v) = l.map value :=
  List.map_congr_left (fun _ ha => Function.update_of_ne (ne_of_mem_of_not_mem ha h) ..)

/-- The values behind the node `c` move up by one node; the other nodes keep theirs. -/
theorem shuffle_spec {c : ℕ} {ys : List ℕ} {B : List CInt} {k : ℕ}
    (hlinks : Links set.list.next (some c) (c :: ys)) (hnodup : (c :: ys).Nodup)
    (hys : ys.map set.value = B ++ List.replicate k (-1)) (hB : ∀ w ∈ B, 0 ≤ w.toInt) {fuel : ℕ}
    (hfuel : ys.length < fuel) :
    ∃ value', shuffle fuel set c = .ok { set with value := value' } ∧
      (c :: ys).map value' = B ++ List.replicate (k + 1) (-1) ∧
      ∀ a, a ∉ c :: ys → value' a = set.value a := by
  induction ys generalizing set c B fuel with
  | nil =>
      obtain ⟨fuel, rfl⟩ := Nat.exists_eq_add_of_le' (Nat.one_le_of_lt hfuel)
      obtain ⟨rfl, hk⟩ := List.append_eq_nil_iff.mp hys.symm
      obtain rfl : k = 0 := by simpa using hk
      have hlast : set.list.next c = none := hlinks.2
      refine ⟨Function.update set.value c (-1), ?_, ?_, ?_⟩
      · rw [shuffle, hlast]
        rfl
      · rw [List.map_singleton, Function.update_self]
        rfl
      · intro a ha
        exact Function.update_of_ne (fun h : a = c => ha (h ▸ List.mem_singleton_self a)) ..
  | cons d ys ih =>
      obtain ⟨fuel, rfl⟩ := Nat.exists_eq_add_of_le' (Nat.one_le_of_lt hfuel)
      rw [List.length_cons] at hfuel
      obtain ⟨-, hnext⟩ := hlinks
      have hd : set.list.next c = some d := hnext.1
      obtain ⟨hc, hnodup⟩ := List.nodup_cons.mp hnodup
      have hmoved : (set.setValue c (set.value d)).value c = set.value d := Function.update_self ..
      rw [shuffle, hd]
      simp only [hmoved]
      cases B with
      | nil =>
          -- an empty node: it was the last value that moved
          have hempty := Holds.empty_node hys
          rw [hempty, if_pos (by decide)]
          refine ⟨Function.update set.value c (-1), rfl, ?_, ?_⟩
          · rw [List.map_cons, map_update hc, hys, Function.update_self]
            rfl
          · intro a ha
            exact Function.update_of_ne (fun h : a = c => ha (h ▸ List.mem_cons_self)) ..
      | cons w B =>
          obtain ⟨hw, hrest⟩ := List.cons.inj hys
          have hlive : ¬ (set.value d).toInt < 0 := by
            rw [hw]
            exact not_lt.mpr (hB w List.mem_cons_self)
          rw [hd] at hnext
          have hrest' : ys.map (set.setValue c (set.value d)).value = B ++ List.replicate k (-1) := by
            exact (map_update (fun h => hc (List.mem_cons_of_mem d h)) ..).trans hrest
          obtain ⟨value', hshuffle, hvalues, hframe⟩ := @ih (set.setValue c (set.value d)) d B hnext
            hnodup hrest' (fun x hx => hB x (List.mem_cons_of_mem w hx)) fuel (by omega)
          rw [if_neg hlive]
          refine ⟨value', hshuffle, ?_, ?_⟩
          · rw [List.map_cons, hvalues, hframe c hc, hmoved, hw]
            rfl
          · intro a ha
            rw [List.mem_cons, not_or] at ha
            rw [hframe a ha.2]
            exact Function.update_of_ne ha.1 ..

/-- `remove` of a value that is there. -/
theorem Holds.remove_mem (h : Holds n set chain L) (hv : v ∈ L) :
    ∃ set', set.remove v = .ok (true, set') ∧ Models n set' (L.erase v) := by
  obtain ⟨A, B, xs, c, ys, rfl, hA, rfl, hxs, hc, hys⟩ := h.at_value hv
  have hne := ne_neg_one_of_nonneg (h.nonneg v hv)
  have hlen := h.length_le
  have hchain := h.length_chain
  rw [List.length_append, List.length_cons] at hlen hchain
  have hfind : findLoop set v set.nodes set.list.head = .ok (some c) := by
    rw [h.find_walk (h.passed hxs (List.subset_append_left _ _) hA), List.length_cons,
      List.head?_cons, findLoop, hc, if_neg hne, if_pos rfl]
  have hlinks : Links set.list.next (some c) (c :: ys) := ⟨rfl, Links.next_of_append h.holds⟩
  have hnodup := List.nodup_append.mp h.nodup_chain
  obtain ⟨value', hshuffle, hvalues, hframe⟩ := shuffle_spec hlinks hnodup.2.1 hys
    (fun w hw => h.nonneg w (List.mem_append_right A (List.mem_cons_of_mem v hw)))
    (show ys.length < set.nodes by rw [h.nodes]; omega)
  refine ⟨{ set with value := value' }, ?_, xs ++ c :: ys, ?_⟩
  · unfold ListBoundedIntSet.remove
    rw [hfind]
    simp only [bind, Except.bind, hshuffle]
    rfl
  · rw [List.erase_append_right _ hA, List.erase_cons_head]
    have hfront : xs.map value' = A := by
      rw [← hxs]
      apply List.map_congr_left
      intro a ha
      exact hframe a (fun hmem => hnodup.2.2 a ha a hmem rfl)
    have hmore : n - (A ++ v :: B).length + 1 = n - (A ++ B).length := by
      simp only [List.length_append, List.length_cons]
      omega
    have hrest := List.perm_middle.nodup_iff.mp h.nodup
    refine ⟨h.nodes, h.holds, h.perm, ?_, ?_, (List.nodup_cons.mp hrest).2, ?_⟩
    · rw [List.length_append]
      omega
    · rw [List.map_append, hfront, hvalues, hmore, List.append_assoc]
    · intro w hw
      exact h.nonneg w (List.perm_middle.mem_iff.mpr (List.mem_cons_of_mem v hw))

theorem Holds.remove_not_mem (h : Holds n set chain L) (hv : v ∉ L) :
    set.remove v = .ok (false, set) := by
  obtain ⟨xs, ys, rfl, hxs, hys⟩ := h.split
  have hfind : findLoop set v set.nodes set.list.head = .ok none := by
    rw [h.find_walk (h.passed hxs (List.Subset.refl L) hv)]
    cases ys with
    | nil => rfl
    | cons c ys => rw [List.head?_cons, List.length_cons, findLoop, if_pos (Holds.empty_node hys)]
  unfold ListBoundedIntSet.remove
  rw [hfind]
  rfl

/-! ## `add` -/

/-- `add` of a value that is there. -/
theorem Holds.add_mem (h : Holds n set chain L) (hv : v ∈ L) :
    ∃ set', set.add v = .ok (0, set') ∧ Models n set' (v :: L.erase v) := by
  obtain ⟨A, B, xs, c, ys, rfl, hA, rfl, hxs, hc, hys⟩ := h.at_value hv
  refine ⟨set.pullToHead xs.getLast? (some c), ?_, c :: (xs ++ ys), ?_⟩
  · rw [h.add_walk (h.passed hxs (List.subset_append_left _ _) hA) (List.cons_ne_nil c ys),
      List.length_cons, List.head?_cons, addLoop, if_pos hc]
  · rw [List.erase_append_right _ hA, List.erase_cons_head]
    exact h.pull hxs hc hys

/-- Of a new value, when a node is empty: the first such node is pulled and then filled. -/
theorem Holds.add_room (h : Holds n set chain L) (hv : v ∉ L) (hnonneg : 0 ≤ v.toInt)
    (hroom : L.length < n) :
    ∃ set', set.add v = .ok (1, set') ∧ Models n set' (v :: L) := by
  obtain ⟨xs, ys, rfl, hxs, hys⟩ := h.split
  cases ys with
  | nil =>
      -- there would be no empty node
      have hnone : n - L.length = 0 := by simpa using hys.symm
      omega
  | cons c ys =>
      have hc := Holds.empty_node hys
      have hne : set.value c ≠ v := by
        rw [hc]
        exact (ne_neg_one_of_nonneg hnonneg).symm
      have hmid : (c :: (xs ++ ys)).Nodup := List.perm_middle.nodup_iff.mp h.nodup_chain
      obtain ⟨k, hk⟩ : ∃ k, n - L.length = k + 1 := ⟨n - L.length - 1, by omega⟩
      rw [hk] at hys
      refine ⟨(set.pullToHead xs.getLast? (some c)).setValue c v, ?_, c :: (xs ++ ys), ?_⟩
      · rw [h.add_walk (h.passed hxs (List.Subset.refl L) hv) (List.cons_ne_nil c ys),
          List.length_cons, List.head?_cons, addLoop, if_neg hne, if_pos hc]
      · refine ⟨(pullToHead_nodes ..).trans h.nodes, pullToHead_holds h.holds h.nodup_chain,
          List.perm_middle.symm.trans h.perm, hroom, ?_, List.nodup_cons.mpr ⟨hv, h.nodup⟩, ?_⟩
        · have hrest : ys.map set.value = List.replicate k (-1) := (List.cons.inj hys).2
          have hless : n - (v :: L).length = k := by
            rw [List.length_cons]
            omega
          rw [setValue_value, pullToHead_value, List.map_cons,
            map_update (List.nodup_cons.mp hmid).1, Function.update_self,
            List.map_append, hxs, hrest, hless]
          rfl
        · intro w hw
          rcases List.mem_cons.mp hw with rfl | hw
          · exact hnonneg
          · exact h.nonneg w hw

/-- Of a new value, when no node is empty: the last node is filled and then pulled. -/
theorem Holds.add_full (h : Holds n set chain L) (hv : v ∉ L) (hnonneg : 0 ≤ v.toInt)
    (hn : 1 ≤ n) (hfull : L.length = n) :
    ∃ set', set.add v = .ok (2, set') ∧ Models n set' (v :: L.dropLast) := by
  obtain ⟨A, w, rfl⟩ : ∃ A w, L = A ++ [w] := by
    rcases List.eq_nil_or_concat L with rfl | ⟨A, w, rfl⟩
    · rw [List.length_nil] at hfull
      omega
    · exact ⟨A, w, List.concat_eq_append⟩
  have hvalues := h.values
  rw [hfull, Nat.sub_self, List.replicate_zero, List.append_nil] at hvalues
  obtain ⟨xs, rest, rfl, hxs, hrest⟩ := List.map_eq_append_iff.mp hvalues
  obtain ⟨c, rfl, hc⟩ := List.map_eq_singleton_iff.mp hrest
  rw [List.mem_append, List.mem_singleton, not_or] at hv
  have hw : set.value c ≠ -1 := by
    rw [hc]
    exact ne_neg_one_of_nonneg (h.nonneg w (List.mem_append_right A (List.mem_singleton_self w)))
  have hne : set.value c ≠ v := by
    rw [hc]
    exact Ne.symm hv.2
  have hlast : set.list.next c = none := Links.next_of_append h.holds
  have hout : c ∉ xs := by
    intro hmem
    exact (List.nodup_append.mp h.nodup_chain).2.2 c hmem c (List.mem_singleton_self c) rfl
  -- the node with the new value, at its old place
  have hlen : (A ++ [v]).length = n := by
    rw [List.length_append, List.length_singleton] at hfull ⊢
    exact hfull
  have hfilled : Holds n (set.setValue c v) (xs ++ [c]) (A ++ [v]) := by
    have hnodup := List.nodup_append.mp h.nodup
    refine ⟨h.nodes, h.holds, h.perm, hlen.le, ?_, ?_, ?_⟩
    · rw [hlen, Nat.sub_self, List.replicate_zero, List.append_nil, List.map_append]
      rw [setValue_value, map_update hout, hxs, List.map_singleton, Function.update_self]
    · refine List.nodup_append.mpr ⟨hnodup.1, List.nodup_singleton v, ?_⟩
      intro a ha b hb hab
      rw [List.mem_singleton.mp hb] at hab
      exact hv.1 (hab ▸ ha)
    · intro x hx
      rcases List.mem_append.mp hx with hx | hx
      · exact h.nonneg x (List.mem_append_left _ hx)
      · rw [List.mem_singleton.mp hx]
        exact hnonneg
  have hpull : Holds n ((set.setValue c v).pullToHead xs.getLast? (some c)) (c :: (xs ++ []))
      (v :: (A ++ [])) := by
    apply hfilled.pull
    · rw [setValue_value, map_update hout, hxs]
    · exact Function.update_self ..
    · rw [hlen, Nat.sub_self]
      rfl
  refine ⟨(set.setValue c v).pullToHead xs.getLast? (some c), ?_, c :: (xs ++ []), ?_⟩
  · rw [h.add_walk (h.passed hxs (List.subset_append_left _ _) hv.1) (List.cons_ne_nil c []),
      List.length_singleton, List.head?_cons, addLoop, if_neg hne, if_neg hw, if_pos hlast]
  · rw [List.append_nil A] at hpull
    rwa [List.dropLast_concat]

end Methods

/-! ## Any calls -/

section Runs

variable {n : ℕ} {set : ListBoundedIntSet} {L : List CInt}

/-- **One call** does to the object what it does to the list. -/
theorem Models.call (hn : 1 ≤ n) (hint : n < 2 ^ 31) (h : Models n set L) {call : Call}
    (hcall : call.NonNeg) :
    ∃ set', set.call call = .ok ((RecencyList.call n L call).1, set') ∧
      Models n set' (RecencyList.call n L call).2 := by
  obtain ⟨chain, h⟩ := h
  have hlen := h.length_le
  unfold ListBoundedIntSet.call RecencyList.call
  cases call with
  | add v =>
      simp only
      by_cases hv : v ∈ L
      · obtain ⟨set', hadd, h'⟩ := h.add_mem hv
        rw [if_pos hv, hadd]
        exact ⟨set', rfl, h'⟩
      · rw [if_neg hv]
        by_cases hroom : L.length < n
        · obtain ⟨set', hadd, h'⟩ := h.add_room hv hcall hroom
          rw [if_pos hroom, hadd]
          exact ⟨set', rfl, h'⟩
        · obtain ⟨set', hadd, h'⟩ := h.add_full hv hcall hn (by omega)
          rw [if_neg hroom, hadd]
          exact ⟨set', rfl, h'⟩
  | contains v =>
      simp only
      by_cases hv : v ∈ L
      · obtain ⟨set', hcontains, h'⟩ := h.contains_mem hv
        rw [if_pos hv, hcontains]
        exact ⟨set', rfl, h'⟩
      · rw [if_neg hv, h.contains_not_mem hv]
        exact ⟨set, rfl, chain, h⟩
  | remove v =>
      simp only
      by_cases hv : v ∈ L
      · obtain ⟨set', hremove, h'⟩ := h.remove_mem hv
        rw [decide_eq_true hv, hremove]
        exact ⟨set', rfl, h'⟩
      · rw [decide_eq_false hv, h.remove_not_mem hv, List.erase_of_not_mem hv]
        exact ⟨set, rfl, chain, h⟩
  | size =>
      refine ⟨set, ?_, chain, h⟩
      rw [h.size]
      simp only [Except.map, toInt_ofNat_of_lt (hlen.trans_lt hint)]
  | capacity =>
      refine ⟨set, ?_, chain, h⟩
      rw [h.capacity]
      simp only [Except.map, toInt_ofNat_of_lt hint]

/-- Any number of calls. -/
theorem Models.run (hn : 1 ≤ n) (hint : n < 2 ^ 31) (h : Models n set L) {calls : List Call}
    (hcalls : ∀ call ∈ calls, call.NonNeg) :
    ∃ set', set.run calls = .ok ((RecencyList.run n L calls).1, set') ∧
      Models n set' (RecencyList.run n L calls).2 := by
  induction calls generalizing set L with
  | nil => exact ⟨set, rfl, h⟩
  | cons call calls ih =>
      obtain ⟨set₁, hfirst, h₁⟩ := h.call hn hint (hcalls call List.mem_cons_self)
      obtain ⟨set', hrest, h'⟩ := ih h₁ (fun c hc => hcalls c (List.mem_cons_of_mem call hc))
      refine ⟨set', ?_, h'⟩
      rw [ListBoundedIntSet.run, hfirst]
      simp only [bind, Except.bind, hrest]
      rfl

end Runs

/-! ## A new set -/

/-- A round of a constructor puts one more value in front. -/
theorem addNode_spec {set : ListBoundedIntSet} {m : ℕ} {values : List CInt} (v : CInt)
    (hnodes : set.nodes = m) (hholds : set.list.Holds (List.range m).reverse)
    (hvalues : (List.range m).reverse.map set.value = values) :
    (set.addNode v).nodes = m + 1 ∧ (set.addNode v).list.Holds (List.range (m + 1)).reverse ∧
      (List.range (m + 1)).reverse.map (set.addNode v).value = v :: values := by
  have hout : m ∉ (List.range m).reverse := by simp
  have hrange : (List.range (m + 1)).reverse = m :: (List.range m).reverse := by
    rw [List.range_succ, List.reverse_append, List.reverse_singleton, List.singleton_append]
  unfold ListBoundedIntSet.addNode
  rw [hnodes, hrange]
  refine ⟨rfl, hholds.push hout, ?_⟩
  rw [List.map_cons, map_update hout, hvalues]
  exact congrArg (· :: values) (Function.update_self ..)

theorem foldl_addNode (values : List CInt) :
    let set := values.foldl ListBoundedIntSet.addNode .noNodes
    set.nodes = values.length ∧ set.list.Holds (List.range values.length).reverse ∧
      (List.range values.length).reverse.map set.value = values.reverse := by
  induction values using List.reverseRecOn with
  | nil => exact ⟨rfl, rfl, rfl⟩
  | append_singleton values v ih =>
      obtain ⟨hnodes, hholds, hvalues⟩ := ih
      rw [List.foldl_append, List.length_append, List.length_singleton, List.reverse_append]
      exact addNode_spec v hnodes hholds hvalues

/-- The sets a program begins with, the capacity of each and its list. -/
inductive Start (initial : CInt) : ListBoundedIntSet → ℕ → List CInt → Prop
  | ofSize (size : CInt) (h : 1 ≤ size.toInt) : Start initial (.ofSize initial size) size.toInt.toNat []
  | ofElements (L : List CInt) (k : ℕ) (hnodup : L.Nodup) (hnonneg : ∀ v ∈ L, 0 ≤ v.toInt)
      (hpos : 1 ≤ L.length + k) (hint : L.length + k < 2 ^ 31) :
      Start initial (.ofElements (L ++ List.replicate k (-1))) (L.length + k) L

theorem Start.bounds {initial : CInt} {set : ListBoundedIntSet} {n : ℕ} {L : List CInt}
    (h : Start initial set n L) : 1 ≤ n ∧ n < 2 ^ 31 := by
  cases h with
  | ofSize size h =>
      have hlt := (toInt_bounds size).2
      omega
  | ofElements L k hnodup hnonneg hpos hint => exact ⟨hpos, hint⟩

theorem Start.models {set : ListBoundedIntSet} {n : ℕ} {L : List CInt}
    (h : Start (-1) set n L) : Models n set L := by
  cases h with
  | ofSize size h =>
      obtain ⟨hnodes, hholds, hvalues⟩ := foldl_addNode (List.replicate size.toInt.toNat (-1))
      rw [List.length_replicate] at hnodes hholds hvalues
      refine ⟨_, hnodes, hholds, List.reverse_perm _, Nat.zero_le _, ?_, List.nodup_nil, ?_⟩
      · exact hvalues.trans List.reverse_replicate
      · intro v hv
        exact absurd hv List.not_mem_nil
  | ofElements L k hnodup hnonneg hpos hint =>
      obtain ⟨hnodes, hholds, hvalues⟩ := foldl_addNode (L ++ List.replicate k (-1)).reverse
      rw [List.length_reverse, List.length_append, List.length_replicate] at hnodes hholds hvalues
      refine ⟨_, hnodes, hholds, List.reverse_perm _, Nat.le_add_right _ _, ?_, hnodup, hnonneg⟩
      rw [Nat.add_sub_cancel_left]
      exact hvalues.trans (List.reverse_reverse _)

/-- **The object is a bounded recency list.** Whichever constructor made it, any calls with
non-negative values return what they return of the list, and behind them the chain leads
through the same nodes, with the values of the list in front and -1 in all others. -/
theorem run_refines {initial : CInt} (hinitial : initial = -1) {start : ListBoundedIntSet} {n : ℕ}
    {L : List CInt} (hstart : Start initial start n L) {calls : List Call}
    (hcalls : ∀ call ∈ calls, call.NonNeg) :
    ∃ set, start.run calls = .ok ((RecencyList.run n L calls).1, set) ∧
      Models n set (RecencyList.run n L calls).2 := by
  subst hinitial
  obtain ⟨hn, hint⟩ := hstart.bounds
  exact hstart.models.run hn hint hcalls

/-- The elements 5 and 7 and a third place: 7 comes to the front, 9 and 4 are added, so that 5
is discarded, and 9 is removed. -/
theorem run_refines_three :
    ∃ set, (ListBoundedIntSet.ofElements [5, 7, -1]).run
        [.contains 7, .add 9, .add 4, .remove 9, .size, .capacity]
      = .ok ([.bool true, .int 1, .int 2, .bool true, .int 2, .int 3], set) ∧
      Models 3 set [4, 7] :=
  run_refines rfl (Start.ofElements [5, 7] 1 (by decide) (by simp) (by decide) (by decide))
    (by simp [Call.NonNeg])

end ProjectsInC.JavaSet
