/-
`ListBoundedIntSet.java`: a bounded set of non-negative ints on a list.

The nodes are numbered in the order they are made; their fields `next` and the field
`head` are a chain. The class `ListNode` is known by its use only: `getNext` returns what
`setNext` stored, and the value of a new node is a parameter.

What a set stands for is the list of its values up to the first node with -1
([`Models`]), and each of the three mutators changes the chain or the values in a way of
its own: a node is pulled to the head ([`Models.pull`]), values move up by one node
([`shuffle_spec`]), or a value is overwritten first and its node pulled then.
-/
import ProjectsInC.Machine
import ProjectsInC.Lib.LinkedList

set_option autoImplicit false

namespace ProjectsInC.JavaSet

open Lib (Chain Cell Links cellAfter)

/-- The nodes made for the set, their values and how they are linked. -/
structure ListBoundedIntSet where
  nodes : ℕ
  value : ℕ → CInt
  list : Chain ℕ

/-! ## The constructors -/

/-- One round of the constructors: a new node in front of the others. -/
def ListBoundedIntSet.addNode (set : ListBoundedIntSet) (value : CInt) : ListBoundedIntSet where
  nodes := set.nodes + 1
  value := Function.update set.value set.nodes value
  list := (set.list.set (.next set.nodes) set.list.head).set .head (some set.nodes)

/-- Before the first round. -/
def ListBoundedIntSet.noNodes : ListBoundedIntSet := ⟨0, fun _ => 0, ⟨none, fun _ => none⟩⟩

/-- `ListBoundedIntSet(int size)`; `initial` is the value of a new `ListNode`. -/
def ListBoundedIntSet.ofSize (initial : CInt) (size : CInt) : ListBoundedIntSet :=
  (List.replicate size.toInt.toNat initial).foldl ListBoundedIntSet.addNode .noNodes

/-- `ListBoundedIntSet(int [] elements)`, from the last element to the first. -/
def ListBoundedIntSet.ofElements (elements : List CInt) : ListBoundedIntSet :=
  elements.reverse.foldl ListBoundedIntSet.addNode .noNodes

/-! ## The methods

A dereferenced null is a `NullPointerException`. -/

/-- The loop of `size`. -/
def sizeLoop (set : ListBoundedIntSet) : ℕ → CInt → Option ℕ → Except Fault CInt
  | _, count, none => .ok count
  | 0, _, some _ => .error .outOfFuel
  | fuel + 1, count, some curr =>
      if (set.value curr).toInt < 0 then .ok count
      else sizeLoop set fuel (count + 1) (set.list.next curr)

/-- `size` -/
def ListBoundedIntSet.size (set : ListBoundedIntSet) : Except Fault CInt :=
  sizeLoop set set.nodes 0 set.list.head

/-- The loop of `capacity`. -/
def capacityLoop (set : ListBoundedIntSet) : ℕ → CInt → Option ℕ → Except Fault CInt
  | _, count, none => .ok count
  | 0, _, some _ => .error .outOfFuel
  | fuel + 1, count, some curr => capacityLoop set fuel (count + 1) (set.list.next curr)

/-- `capacity` -/
def ListBoundedIntSet.capacity (set : ListBoundedIntSet) : Except Fault CInt :=
  capacityLoop set set.nodes 0 set.list.head

/-- `pullToHead` -/
def ListBoundedIntSet.pullToHead (set : ListBoundedIntSet) (prev curr : Option ℕ) :
    ListBoundedIntSet :=
  match prev, curr with
  | some prev, some curr =>
      let list := set.list.set (.next prev) (set.list.next curr)
      let list := list.set (.next curr) list.head
      { set with list := list.set .head (some curr) }
  | _, _ => set

/-- `curr.value = value` -/
def ListBoundedIntSet.setValue (set : ListBoundedIntSet) (curr : ℕ) (value : CInt) :
    ListBoundedIntSet :=
  { set with value := Function.update set.value curr value }

@[simp] theorem setValue_value (set : ListBoundedIntSet) (curr : ℕ) (value : CInt) :
    (set.setValue curr value).value = Function.update set.value curr value := rfl

/-- The loop of `contains`. -/
def containsLoop (set : ListBoundedIntSet) (value : CInt) :
    ℕ → Option ℕ → Option ℕ → Except Fault (Bool × ListBoundedIntSet)
  | _, _, none => .ok (false, set)
  | 0, _, some _ => .error .outOfFuel
  | fuel + 1, prev, some curr =>
      if set.value curr = -1 then .ok (false, set)
      else if set.value curr = value then .ok (true, set.pullToHead prev (some curr))
      else containsLoop set value fuel (some curr) (set.list.next curr)

/-- `contains` -/
def ListBoundedIntSet.contains (set : ListBoundedIntSet) (value : CInt) :
    Except Fault (Bool × ListBoundedIntSet) :=
  containsLoop set value set.nodes none set.list.head

/-- The first loop of `remove`: the node with the value; `none` where the method
returns false. -/
def findLoop (set : ListBoundedIntSet) (value : CInt) :
    ℕ → Option ℕ → Except Fault (Option ℕ)
  | _, none => .ok none
  | 0, some _ => .error .outOfFuel
  | fuel + 1, some curr =>
      if set.value curr = -1 then .ok none
      else if set.value curr = value then .ok (some curr)
      else findLoop set value fuel (set.list.next curr)

/-- The second loop of `remove`. -/
def shuffle : ℕ → ListBoundedIntSet → ℕ → Except Fault ListBoundedIntSet
  | 0, _, _ => .error .outOfFuel
  | fuel + 1, set, curr =>
      match set.list.next curr with
      | none => .ok (set.setValue curr (-1))
      | some next =>
          let set := set.setValue curr (set.value next)
          if (set.value curr).toInt < 0 then .ok set else shuffle fuel set next

/-- `remove` -/
def ListBoundedIntSet.remove (set : ListBoundedIntSet) (value : CInt) :
    Except Fault (Bool × ListBoundedIntSet) := do
  match ← findLoop set value set.nodes set.list.head with
  | none => .ok (false, set)
  | some curr => (shuffle set.nodes set curr).map ((true, ·))

/-- The loop of `add`. -/
def addLoop (set : ListBoundedIntSet) (value : CInt) :
    ℕ → Option ℕ → Option ℕ → Except Fault (CInt × ListBoundedIntSet)
  | _, _, none => .error .nullDeref
  | 0, _, some _ => .error .outOfFuel
  | fuel + 1, prev, some curr =>
      if set.value curr = value then .ok (0, set.pullToHead prev (some curr))
      else if set.value curr = -1 then
        .ok (1, (set.pullToHead prev (some curr)).setValue curr value)
      else if set.list.next curr = none then
        .ok (2, (set.setValue curr value).pullToHead prev (some curr))
      else addLoop set value fuel (some curr) (set.list.next curr)

/-- `add` -/
def ListBoundedIntSet.add (set : ListBoundedIntSet) (value : CInt) :
    Except Fault (CInt × ListBoundedIntSet) :=
  addLoop set value set.nodes none set.list.head

/-! ## The list a set stands for -/

/-- A chain of all `n` nodes, with the values of `L` and behind them -1s. -/
structure Holds (n : ℕ) (set : ListBoundedIntSet) (chain : List ℕ) (L : List CInt) : Prop where
  nodes : set.nodes = n
  holds : set.list.Holds chain
  perm : chain.Perm (List.range n)
  length_le : L.length ≤ n
  values : chain.map set.value = L ++ List.replicate (n - L.length) (-1)
  nodup : L.Nodup
  nonneg : ∀ v ∈ L, 0 ≤ v.toInt

/-- The set of capacity `n` stands for the list `L`. -/
def Models (n : ℕ) (set : ListBoundedIntSet) (L : List CInt) : Prop :=
  ∃ chain, Holds n set chain L

section Chain

variable {n : ℕ} {set : ListBoundedIntSet} {chain xs ys : List ℕ} {c : ℕ} {L A B : List CInt}
  {v : CInt}

theorem Holds.nodup_chain (h : Holds n set chain L) : chain.Nodup :=
  h.perm.nodup_iff.mpr List.nodup_range

theorem Holds.length_chain (h : Holds n set chain L) : chain.length = n := by
  rw [h.perm.length_eq, List.length_range]

/-- A value of the set is no mark of an empty node. -/
theorem ne_neg_one_of_nonneg (h : 0 ≤ v.toInt) : v ≠ -1 := by
  rintro rfl
  exact absurd h (by decide)

/-- The nodes of the values and the empty nodes. -/
theorem Holds.split (h : Holds n set chain L) :
    ∃ xs ys, chain = xs ++ ys ∧ xs.map set.value = L ∧
      ys.map set.value = List.replicate (n - L.length) (-1) :=
  List.map_eq_append_iff.mp h.values

/-- The node of a value. -/
theorem Holds.at_value (h : Holds n set chain L) (hv : v ∈ L) :
    ∃ A B xs c ys, L = A ++ v :: B ∧ v ∉ A ∧ chain = xs ++ c :: ys ∧ xs.map set.value = A ∧
      set.value c = v ∧ ys.map set.value = B ++ List.replicate (n - L.length) (-1) := by
  obtain ⟨A, B, hL, hA⟩ := List.eq_append_cons_of_mem hv
  have hvalues := h.values
  rw [hL, List.append_assoc] at hvalues
  obtain ⟨xs, rest, hchain, hxs, hrest⟩ := List.map_eq_append_iff.mp hvalues
  obtain ⟨c, ys, rfl, hc, hys⟩ := List.map_eq_cons_iff.mp hrest
  rw [← hL] at hys
  exact ⟨A, B, xs, c, ys, hL, hA, hchain, hxs, hc, hys⟩

/-- The nodes in front of the value are passed by. -/
theorem Holds.passed (h : Holds n set chain L) (hxs : xs.map set.value = A) (hA : A ⊆ L)
    (hv : v ∉ A) : ∀ y ∈ xs, set.value y ≠ -1 ∧ set.value y ≠ v := by
  intro y hy
  have hmem : set.value y ∈ A := hxs ▸ List.mem_map_of_mem hy
  refine ⟨ne_neg_one_of_nonneg (h.nonneg _ (hA hmem)), ?_⟩
  rintro rfl
  exact hv hmem

/-! ## Pulling a node to the head -/

/-- `pullToHead` moves one node to the front of the chain. -/
theorem pullToHead_holds (hholds : set.list.Holds (xs ++ c :: ys))
    (hnodup : (xs ++ c :: ys).Nodup) :
    (set.pullToHead xs.getLast? (some c)).list.Holds (c :: (xs ++ ys)) := by
  rcases List.eq_nil_or_concat xs with rfl | ⟨before, p, rfl⟩
  · -- it is there already
    exact hholds
  · rw [List.concat_eq_append] at hholds hnodup ⊢
    have hunlink := hholds.unlink hnodup
    rw [Lib.cellAfter_concat] at hunlink
    rw [List.getLast?_concat]
    apply hunlink.push
    have hmid := List.perm_middle.nodup_iff.mp hnodup
    exact (List.nodup_cons.mp hmid).1

theorem pullToHead_value (set : ListBoundedIntSet) (prev curr : Option ℕ) :
    (set.pullToHead prev curr).value = set.value := by
  unfold ListBoundedIntSet.pullToHead
  split <;> rfl

theorem pullToHead_nodes (set : ListBoundedIntSet) (prev curr : Option ℕ) :
    (set.pullToHead prev curr).nodes = set.nodes := by
  unfold ListBoundedIntSet.pullToHead
  split <;> rfl

/-- The value goes to the front with its node. -/
theorem Holds.pull (h : Holds n set (xs ++ c :: ys) (A ++ v :: B)) (hxs : xs.map set.value = A)
    (hc : set.value c = v)
    (hys : ys.map set.value = B ++ List.replicate (n - (A ++ v :: B).length) (-1)) :
    Holds n (set.pullToHead xs.getLast? (some c)) (c :: (xs ++ ys)) (v :: (A ++ B)) where
  nodes := (pullToHead_nodes ..).trans h.nodes
  holds := pullToHead_holds h.holds h.nodup_chain
  perm := List.perm_middle.symm.trans h.perm
  length_le := by
    have hlen := h.length_le
    rw [List.length_append, List.length_cons] at hlen
    rw [List.length_cons, List.length_append]
    omega
  values := by
    have hlen : (v :: (A ++ B)).length = (A ++ v :: B).length := by
      simp only [List.length_append, List.length_cons]
      omega
    rw [pullToHead_value, List.map_cons, List.map_append, hxs, hc, hys, hlen, List.cons_append,
      List.append_assoc]
  nodup := List.perm_middle.nodup_iff.mp h.nodup
  nonneg := by
    intro w hw
    exact h.nonneg w (List.perm_middle.mem_iff.mpr hw)

end Chain

end ProjectsInC.JavaSet
