/-
Does the parser of trees make trees?

A child that stays on the list can be found by another record, and then two nodes point to it. The
search takes for a child the last node with its id that was on the list ([`findChildren_picks`]), so
that the machine on ids of [`addId`] tells which nodes are found: one bit with each id, whether the
node has been found before, is enough to say when a node gets a second parent ([`addMarked`]). Where
none does, `tree_free` frees every node below the root once.
-/
import ProjectsInC.Lib.Forest
import ProjectsInC.Huffman.ParserSafety

set_option autoImplicit false

namespace ProjectsInC.Huffman

open NodeType Lib

variable {wide : ℤ → CInt}

/-- `tree_free`: the nodes in the order they are freed, for so many levels. -/
def tree_free (node : ℕ → HeapNode) : ℕ → Option ℕ → Except Fault (List ℕ)
  | _, none => .ok []
  | 0, some _ => .error .outOfFuel
  | depth + 1, some tree => do
      let freed ← tree_free node depth (node tree).left
      let freed' ← tree_free node depth (node tree).right
      .ok (freed ++ freed' ++ [tree])

/-- `tree_free` walks over the nodes in postorder. -/
theorem tree_free_eq (node : ℕ → HeapNode) {depth : ℕ} {p : Option ℕ} {visited : List ℕ}
    (h : postorder (fun a => (node a).left) (fun a => (node a).right) depth p = some visited) :
    tree_free node depth p = .ok visited := by
  induction depth generalizing p visited with
  | zero =>
      cases p with
      | none => exact congrArg Except.ok (Option.some.inj h)
      | some a => cases h
  | succ depth ih =>
      cases p with
      | none => exact congrArg Except.ok (Option.some.inj h)
      | some a =>
          obtain ⟨depth', below, below', hdepth, hbelow, hbelow', rfl⟩ := postorder_some h
          obtain rfl := Nat.succ.inj hdepth
          rw [tree_free, ih hbelow, ih hbelow']
          rfl

/-! ## What the search finds -/

section Search

variable {node : ℕ → HeapNode} {child : CInt} {x : ℕ} {xs : List ℕ}

/-- The last node with the id. -/
def lastChild (node : ℕ → HeapNode) (child : CInt) (l : List ℕ) : Option ℕ :=
  (l.filter (fun a => (node a).id = child)).getLast?

theorem lastChild_cons (node : ℕ → HeapNode) (child : CInt) (x : ℕ) (xs : List ℕ) :
    lastChild node child (x :: xs)
      = (lastChild node child xs).or (if (node x).id = child then some x else none) := by
  unfold lastChild
  by_cases h : (node x).id = child
  · rw [if_pos h, List.filter_cons_of_pos (by simpa using h), List.getLast?_cons]
    cases (xs.filter (fun a => (node a).id = child)).getLast? <;> rfl
  · rw [if_neg h, List.filter_cons_of_neg (by simpa using h), Option.or_none]

theorem lastChild_some (h : lastChild node child xs = some x) : x ∈ xs ∧ (node x).id = child := by
  have hmem := List.mem_filter.mp (List.mem_of_getLast? h)
  exact ⟨hmem.1, of_decide_eq_true hmem.2⟩

/-- There is a last one if there is one. -/
theorem lastChild_eq_none_iff :
    lastChild node child xs = none ↔ child ∉ xs.map (fun a => (node a).id) := by
  unfold lastChild
  rw [List.getLast?_eq_none_iff, List.filter_eq_nil_iff, List.mem_map]
  constructor
  · rintro h ⟨a, ha, hid⟩
    exact h a ha (by simpa using hid)
  · intro h a ha hid
    exact h ⟨a, ha, of_decide_eq_true hid⟩

/-- One of the two `if`s of the search: what the new node becomes, and that the rest of the old
list can still be walked. -/
theorem takeChild_ok {n n' m : HeapNode} {list list' : Chain ℕ} {p : Option ℕ} {c : ℕ}
    (h : takeChild node child n n' list p c = .ok (m, list')) :
    m = (if (node c).id = child then n' else n) ∧
      ∀ a, p ≠ some a → list'.next a = list.next a := by
  unfold takeChild at h
  by_cases hid : (node c).id = child
  · rw [if_pos hid] at h
    rw [if_pos hid]
    unfold unlink at h
    cases p with
    | none =>
        cases hhead : list.head with
        | none =>
            rw [hhead] at h
            cases h
        | some head =>
            rw [hhead] at h
            cases h
            exact ⟨rfl, fun _ _ => rfl⟩
    | some b =>
        cases h
        refine ⟨rfl, fun a ha => ?_⟩
        exact Function.update_of_ne (fun hab => ha (congrArg some hab.symm)) ..
  · rw [if_neg hid] at h
    rw [if_neg hid]
    cases h
    exact ⟨rfl, fun _ _ => rfl⟩

/-- One round of the search that goes through: the node becomes the children it is, and the rest of
the old list is as it was. -/
theorem findChildren_step {r : Record} {n n' : HeapNode} {list list' : Chain ℕ} {fuel : ℕ}
    {p : Option ℕ} (h : findChildren node r (fuel + 1) n list p (some x) = .ok (n', list')) :
    ∃ n₁ list₁, findChildren node r fuel n₁ list₁ (some x) (list₁.next x) = .ok (n', list') ∧
      n₁ = { n with
        left := (if (node x).id = r.left then some x else none).or n.left
        right := (if (node x).id = r.right then some x else none).or n.right } ∧
      ∀ a, p ≠ some a → list₁.next a = list.next a := by
  rw [findChildren] at h
  simp only [bind, Except.bind] at h
  cases hfirst : takeChild node r.left n { n with left := some x } list p x with
  | error e =>
      rw [hfirst] at h
      cases h
  | ok first =>
      obtain ⟨n₁, list₁⟩ := first
      rw [hfirst] at h
      simp only at h
      cases hsecond : takeChild node r.right n₁ { n₁ with right := some x } list₁ p x with
      | error e =>
          rw [hsecond] at h
          cases h
      | ok second =>
          obtain ⟨n₂, list₂⟩ := second
          rw [hsecond] at h
          obtain ⟨hn₁, hsame₁⟩ := takeChild_ok hfirst
          obtain ⟨hn₂, hsame₂⟩ := takeChild_ok hsecond
          refine ⟨n₂, list₂, h, ?_, fun a hpa => (hsame₂ a hpa).trans (hsame₁ a hpa)⟩
          rw [hn₂, hn₁]
          split_ifs <;> rfl

/-- **The search** takes for each child the last node with its id. -/
theorem findChildren_picks {r : Record} {n n' : HeapNode} {list list' : Chain ℕ} {fuel : ℕ}
    {p c : Option ℕ} (hlinks : Links list.next c xs) (hnodup : xs.Nodup)
    (hp : ∀ a, p = some a → a ∉ xs) (h : findChildren node r fuel n list p c = .ok (n', list')) :
    n' = { n with
      left := (lastChild node r.left xs).or n.left
      right := (lastChild node r.right xs).or n.right } := by
  induction xs generalizing n list p c fuel with
  | nil =>
      obtain rfl : c = none := hlinks
      cases fuel <;> cases h <;> rfl
  | cons x xs ih =>
      obtain ⟨rfl, hrest⟩ := hlinks
      obtain ⟨hx, hnodup⟩ := List.nodup_cons.mp hnodup
      cases fuel with
      | zero => cases h
      | succ fuel =>
          obtain ⟨n₁, list₁, hloop, hn₁, hother⟩ := findChildren_step h
          -- the pointers of `x` and of the nodes behind it are as they were
          have hsame : ∀ a ∈ x :: xs, list₁.next a = list.next a := by
            intro a ha
            exact hother a (fun hpa => hp a hpa ha)
          have hlinks₁ : Links list₁.next (list₁.next x) xs := by
            rw [hsame x List.mem_cons_self]
            exact hrest.congr (fun a ha => hsame a (List.mem_cons_of_mem x ha))
          have hself : ∀ a, some x = some a → a ∉ xs := by
            intro a ha
            obtain rfl := Option.some.inj ha
            exact hx
          rw [ih hlinks₁ hnodup hself hloop, hn₁, lastChild_cons, lastChild_cons, Option.or_assoc,
            Option.or_assoc]

end Search

/-! ## A record -/

/-- The pointers of the nodes. -/
def Heap.left (heap : Heap) (a : ℕ) : Option ℕ := (heap.node a).left

def Heap.right (heap : Heap) (a : ℕ) : Option ℕ := (heap.node a).right

/-- No node has two parents or is both children of one. -/
def NoneShared (heap : Heap) : Prop := Unshared heap.left heap.right heap.size

/-- The node has a parent. -/
def Taken (heap : Heap) (b : ℕ) : Prop := ∃ a < heap.size, Child heap.left heap.right a b

instance (heap : Heap) (b : ℕ) : Decidable (Taken heap b) :=
  inferInstanceAs (Decidable (∃ a < heap.size, Child heap.left heap.right a b))

/-- The ids of the nodes, and whether they have a parent. -/
def marksOf (heap : Heap) (l : List ℕ) : List (CInt × Bool) :=
  l.map (fun a => ((heap.node a).id, decide (Taken heap a)))

/-- The last entry with the id. -/
def lastWith (id : CInt) (marks : List (CInt × Bool)) : Option (CInt × Bool) :=
  (marks.filter (fun e => e.1 = id)).getLast?

/-- The last entry with the id is marked. -/
def markLast (id : CInt) : List (CInt × Bool) → List (CInt × Bool)
  | [] => []
  | e :: marks =>
      if e.1 = id ∧ id ∉ marks.map Prod.fst then (e.1, true) :: marks else e :: markLast id marks

/-- The record finds a node that has been found already, or one node twice. -/
def Shares (r : Record) (marks : List (CInt × Bool)) : Prop :=
  lastWith r.left marks = some (r.left, true) ∨ lastWith r.right marks = some (r.right, true) ∨
    (r.left = r.right ∧ r.left ∈ marks.map Prod.fst)

instance (r : Record) (marks : List (CInt × Bool)) : Decidable (Shares r marks) :=
  inferInstanceAs (Decidable (_ ∨ _ ∨ _))

/-- The ids on the list behind a record, each with its mark; `none` where a node is shared, or
where NULL is dereferenced. -/
def addMarked (marks : List (CInt × Bool)) (r : Record) : Option (List (CInt × Bool)) :=
  if Shares r marks then none
  else
    (takeOff (fun e => r.hits e.1) (markLast r.left (markLast r.right marks))).map
      (fun marks => (r.id, false) :: marks)

section Marks

variable {node : ℕ → HeapNode} {l : List ℕ}

theorem lastWith_map (id : CInt) (m : ℕ → Bool) :
    lastWith id (l.map (fun a => ((node a).id, m a)))
      = (lastChild node id l).map (fun a => ((node a).id, m a)) := by
  unfold lastWith lastChild
  rw [List.filter_map, List.getLast?_map]
  rfl

/-- The last node with the id is marked. -/
theorem markLast_map (id : CInt) (m : ℕ → Bool) (hnodup : l.Nodup) :
    markLast id (l.map (fun a => ((node a).id, m a)))
      = l.map (fun a => ((node a).id, m a || decide (lastChild node id l = some a))) := by
  induction l with
  | nil => rfl
  | cons x l ih =>
      obtain ⟨hx, hnodup⟩ := List.nodup_cons.mp hnodup
      have hids : (l.map (fun a => ((node a).id, m a))).map Prod.fst
          = l.map (fun a => (node a).id) := by
        rw [List.map_map]
        rfl
      rw [List.map_cons, List.map_cons, markLast, hids]
      split_ifs with hlast
      · -- `x` is the last node with the id
        have hchild : lastChild node id (x :: l) = some x := by
          rw [lastChild_cons, if_pos hlast.1, lastChild_eq_none_iff.mpr hlast.2]
          rfl
        rw [hchild]
        congr 1
        · simp
        · apply List.map_congr_left
          intro a ha
          have hne : x ≠ a := fun h => hx (h ▸ ha)
          simp [hne]
      · have hchild : lastChild node id (x :: l) = lastChild node id l := by
          rw [lastChild_cons]
          by_cases hid : (node x).id = id
          · -- there is another one behind it
            have hsome : lastChild node id l ≠ none := fun hnone =>
              hlast ⟨hid, lastChild_eq_none_iff.mp hnone⟩
            obtain ⟨a, ha⟩ := Option.ne_none_iff_exists'.mp hsome
            rw [ha]
            rfl
          · rw [if_neg hid, Option.or_none]
        have hne : lastChild node id l ≠ some x := fun h => hx (lastChild_some h).1
        rw [hchild, ih hnodup]
        congr 1
        simp [hne]

end Marks

section Push

variable {heap heap' : Heap} {n : HeapNode} {list : Chain ℕ} {l l' : List ℕ} {r : Record}

theorem push_left_old {a : ℕ} (ha : a < heap.size) : (heap.push n list).left a = heap.left a :=
  congrArg HeapNode.left (push_node_old heap n list ha)

theorem push_right_old {a : ℕ} (ha : a < heap.size) : (heap.push n list).right a = heap.right a :=
  congrArg HeapNode.right (push_node_old heap n list ha)

/-- The children of the new node. -/
theorem child_push {b : ℕ} :
    Child (heap.push n list).left (heap.push n list).right heap.size b
      ↔ n.left = some b ∨ n.right = some b := by
  unfold Child Heap.left Heap.right
  rw [push_node_new]

theorem taken_push {b : ℕ} :
    Taken (heap.push n list) b ↔ Taken heap b ∨ n.left = some b ∨ n.right = some b := by
  unfold Taken
  rw [← @child_push heap n list b]
  constructor
  · rintro ⟨a, ha, hchild⟩
    rcases Nat.lt_succ_iff_lt_or_eq.mp ha with ha | rfl
    · rw [Child.congr (push_left_old ha) (push_right_old ha)] at hchild
      exact .inl ⟨a, ha, hchild⟩
    · exact .inr hchild
  · rintro (⟨a, ha, hchild⟩ | hchild)
    · refine ⟨a, Nat.lt_succ_of_lt ha, ?_⟩
      rw [Child.congr (push_left_old ha) (push_right_old ha)]
      exact hchild
    · exact ⟨heap.size, Nat.lt_succ_self _, hchild⟩

/-- What the parser keeps: the list holds nodes that have been made, and children are older than
their parents. -/
structure Layered (heap : Heap) (l : List ℕ) : Prop extends Threaded heap l where
  falling : Falling heap.left heap.right heap.size

theorem noneShared_empty : NoneShared Heap.empty where
  parent := fun _ h => absurd h (Nat.not_lt_zero _)
  once := fun _ h => absurd h (Nat.not_lt_zero _)

theorem layered_empty : Layered Heap.empty [] where
  toThreaded := threaded_empty
  falling := fun _ h => absurd h (Nat.not_lt_zero _)

/-- The new node with the children the search has found. -/
def parentOf (heap : Heap) (l : List ℕ) (r : Record) : HeapNode :=
  { newNode r with
    left := lastChild heap.node r.left l
    right := lastChild heap.node r.right l }

/-- A record that is added: what is left of the list, and the new node. -/
theorem Threaded.added (h : Threaded heap l) (hadd : Huffman.addRecord heap r = .ok heap') :
    ∃ l' list, takeOff (fun a => r.hits (heap.node a).id) l = some l' ∧ list.Holds l' ∧
      heap' = heap.push (parentOf heap l r) list := by
  cases htake : takeOff (fun a => r.hits (heap.node a).id) l with
  | none =>
      unfold Huffman.addRecord at hadd
      rw [h.findChildren_null htake] at hadd
      cases hadd
  | some l' =>
      obtain ⟨n', list, hfind, -, hholds⟩ :=
        @Threaded.findChildren heap l l' r (newNode r) h htake
      have hpicks := findChildren_picks h.holds h.nodup (fun a ha => absurd ha (by simp)) hfind
      have hparent : n' = parentOf heap l r := by
        rw [hpicks]
        simp [parentOf, newNode]
      unfold Huffman.addRecord at hadd
      rw [hfind, hparent] at hadd
      exact ⟨l', list, rfl, hholds, (Except.ok.inj hadd).symm⟩

/-- The children of the new node are on the list. -/
theorem mem_of_parentOf {b : ℕ}
    (hb : (parentOf heap l r).left = some b ∨ (parentOf heap l r).right = some b) : b ∈ l := by
  rcases hb with hb | hb
  · exact (lastChild_some hb).1
  · exact (lastChild_some hb).1

theorem Layered.push (h : Layered heap l) (hsub : l'.Sublist l) (hlist : list.Holds l') :
    Layered (heap.push (parentOf heap l r) list) (heap.size :: l') where
  toThreaded := h.toThreaded.push hsub hlist
  falling := by
    have hold : Falling (heap.push (parentOf heap l r) list).left
        (heap.push (parentOf heap l r) list).right heap.size :=
      h.falling.congr (fun a ha => push_left_old ha) (fun a ha => push_right_old ha)
    apply hold.succ
    intro b hb
    exact h.made b (mem_of_parentOf (child_push.mp hb))

/-- Nothing points to a node that is not made yet. -/
theorem Layered.not_taken (h : Layered heap l) {a : ℕ} (ha : heap.size ≤ a) : ¬ Taken heap a := by
  rintro ⟨p, hp, hchild⟩
  have hlt := h.falling p hp a hchild
  omega

/-- What the machine asks: is there a parent already, or is a node both children? -/
theorem shares_iff : Shares r (marksOf heap l) ↔
    (∃ b, (parentOf heap l r).left = some b ∧ Taken heap b) ∨
    (∃ b, (parentOf heap l r).right = some b ∧ Taken heap b) ∨
    ∃ b, (parentOf heap l r).left = some b ∧ (parentOf heap l r).right = some b := by
  have hlast : ∀ id, lastWith id (marksOf heap l) = some (id, true) ↔
      ∃ b, lastChild heap.node id l = some b ∧ Taken heap b := by
    intro id
    unfold marksOf
    rw [lastWith_map, Option.map_eq_some_iff]
    constructor
    · rintro ⟨b, hb, heq⟩
      exact ⟨b, hb, of_decide_eq_true (congrArg Prod.snd heq)⟩
    · rintro ⟨b, hb, htaken⟩
      refine ⟨b, hb, ?_⟩
      rw [(lastChild_some hb).2, decide_eq_true htaken]
  have hids : (marksOf heap l).map Prod.fst = l.map (fun a => (heap.node a).id) := by
    unfold marksOf
    rw [List.map_map]
    rfl
  have hboth : (r.left = r.right ∧ r.left ∈ (marksOf heap l).map Prod.fst) ↔
      ∃ b, lastChild heap.node r.left l = some b ∧ lastChild heap.node r.right l = some b := by
    rw [hids]
    constructor
    · rintro ⟨hsame, hmem⟩
      cases hchild : lastChild heap.node r.left l with
      | none => exact absurd hmem (lastChild_eq_none_iff.mp hchild)
      | some b => exact ⟨b, rfl, hsame ▸ hchild⟩
    · rintro ⟨b, hleft, hright⟩
      obtain ⟨hmem, hidl⟩ := lastChild_some hleft
      refine ⟨hidl.symm.trans (lastChild_some hright).2, ?_⟩
      rw [← hidl]
      exact List.mem_map_of_mem hmem
  unfold Shares
  rw [hlast, hlast, hboth]
  rfl

/-- **A record** makes a node shared exactly if the machine stops there. -/
theorem noneShared_push_iff :
    NoneShared (heap.push (parentOf heap l r) list) ↔
      NoneShared heap ∧ ¬ Shares r (marksOf heap l) := by
  have hold : Unshared (heap.push (parentOf heap l r) list).left
      (heap.push (parentOf heap l r) list).right heap.size
        ↔ Unshared heap.left heap.right heap.size := by
    constructor
    · exact fun h => h.congr (fun a ha => (push_left_old ha).symm)
        (fun a ha => (push_right_old ha).symm)
    · exact fun h => h.congr (fun a ha => push_left_old ha) (fun a ha => push_right_old ha)
  have htaken : ∀ b, (∃ a < heap.size, Child (heap.push (parentOf heap l r) list).left
      (heap.push (parentOf heap l r) list).right a b) ↔ Taken heap b := by
    intro b
    refine exists_congr (fun a => and_congr_right (fun ha => ?_))
    exact Child.congr (push_left_old ha) (push_right_old ha)
  have honce : ∀ b, ((heap.push (parentOf heap l r) list).left heap.size = some b ∧
      (heap.push (parentOf heap l r) list).right heap.size = some b) ↔
        (parentOf heap l r).left = some b ∧ (parentOf heap l r).right = some b := by
    intro b
    unfold Heap.left Heap.right
    rw [push_node_new]
  unfold NoneShared
  rw [push_size, unshared_succ_iff, hold, shares_iff]
  refine and_congr_right (fun _ => ?_)
  simp only [child_push, htaken, honce]
  constructor
  · rintro ⟨hnew, hboth⟩ (⟨b, hb, hparent⟩ | ⟨b, hb, hparent⟩ | ⟨b, hb⟩)
    · exact hnew b (.inl hb) hparent
    · exact hnew b (.inr hb) hparent
    · exact hboth b hb
  · intro hshares
    refine ⟨?_, fun b hb => hshares (.inr (.inr ⟨b, hb⟩))⟩
    rintro b (hb | hb) hparent
    · exact hshares (.inl ⟨b, hb, hparent⟩)
    · exact hshares (.inr (.inl ⟨b, hb, hparent⟩))

/-- The marks behind a record that shares nothing. -/
theorem Layered.marks_push (h : Layered heap l)
    (htake : takeOff (fun a => r.hits (heap.node a).id) l = some l')
    (hshares : ¬ Shares r (marksOf heap l)) :
    addMarked (marksOf heap l) r
      = some (marksOf (heap.push (parentOf heap l r) list) (heap.size :: l')) := by
  have hsub := takeOff_sublist htake
  -- the marks of the old nodes, with the two that have just been found
  have hmarks : markLast r.left (markLast r.right (marksOf heap l))
      = l.map (fun a => ((heap.node a).id,
          decide (Taken (heap.push (parentOf heap l r) list) a))) := by
    unfold marksOf
    rw [markLast_map r.right _ h.nodup, markLast_map r.left _ h.nodup]
    apply List.map_congr_left
    intro a _
    simp only [taken_push, Bool.decide_or, Bool.or_assoc]
    rw [Bool.or_comm (decide (lastChild heap.node r.right l = some a))]
    rfl
  have hnew : ¬ Taken (heap.push (parentOf heap l r) list) heap.size := by
    rw [taken_push]
    rintro (htaken | hchild)
    · exact h.not_taken (Nat.le_refl _) htaken
    · exact Nat.lt_irrefl _ (h.made _ (mem_of_parentOf hchild))
  have hold : marksOf (heap.push (parentOf heap l r) list) l'
      = l'.map (fun a => ((heap.node a).id,
          decide (Taken (heap.push (parentOf heap l r) list) a))) := by
    apply List.map_congr_left
    intro a ha
    rw [push_node_old heap _ list (h.made a (hsub.subset ha))]
  unfold addMarked
  rw [if_neg hshares, hmarks,
    ← takeOff_map (fun a => ((heap.node a).id,
      decide (Taken (heap.push (parentOf heap l r) list) a))) (fun e => r.hits e.1) l, htake,
    Option.map_some, Option.map_some, ← hold]
  unfold marksOf
  rw [List.map_cons, push_node_new, decide_eq_false hnew]
  rfl

end Push

/-! ## The whole text -/

section Text

variable {heap heap' : Heap} {l : List ℕ} {rs : List Record} {fp fp' : FILE} {fuel head : ℕ}

/-- **The records** share a node exactly if the machine stops at one of them. -/
theorem Layered.addRecords (h : Layered heap l) (hadd : rs.foldlM addRecord heap = .ok heap') :
    ∃ l', Layered heap' l' ∧ (NoneShared heap' ↔
      NoneShared heap ∧ ∃ marks, rs.foldlM addMarked (marksOf heap l) = some marks) := by
  induction rs generalizing heap l with
  | nil =>
      obtain rfl : heap = heap' := Except.ok.inj hadd
      exact ⟨l, h, (and_iff_left ⟨marksOf heap l, rfl⟩).symm⟩
  | cons r rs ih =>
      rw [List.foldlM_cons] at hadd
      cases hstep : addRecord heap r with
      | error e =>
          rw [hstep] at hadd
          cases hadd
      | ok heap₁ =>
          rw [hstep] at hadd
          obtain ⟨l₁, list, htake, hholds, rfl⟩ := h.toThreaded.added hstep
          obtain ⟨l', h', hiff⟩ := ih (h.push (takeOff_sublist htake) hholds) hadd
          refine ⟨l', h', ?_⟩
          rw [hiff, noneShared_push_iff, and_assoc, List.foldlM_cons]
          refine and_congr_right (fun _ => ?_)
          by_cases hshares : Shares r (marksOf heap l)
          · have hstop : addMarked (marksOf heap l) r = none := if_pos hshares
            rw [hstop]
            apply iff_of_false (fun hnot => hnot.1 hshares)
            rintro ⟨marks, hmarks⟩
            cases hmarks
          · rw [h.marks_push htake hshares]
            exact and_iff_right hshares

/-- What the main loop returns it has made of the records it scanned. -/
theorem deserializeLoop_fold (h : deserializeLoop wide fuel heap fp = .ok (some (heap', fp'))) :
    (scanRecords wide fuel fp).2 = true ∧
      (scanRecords wide fuel fp).1.foldlM addRecord heap = .ok heap' := by
  induction fuel generalizing heap fp with
  | zero => cases h
  | succ fuel ih =>
      rw [deserializeLoop] at h
      rw [scanRecords]
      cases hscan : scanRecord wide fp with
      | none =>
          rw [hscan] at h
          cases h
      | some scanned =>
          obtain ⟨r, fp₁⟩ := scanned
          rw [hscan] at h
          simp only [bind, Except.bind] at h ⊢
          cases hadd : addRecord heap r with
          | error e =>
              rw [hadd] at h
              cases h
          | ok heap₁ =>
              rw [hadd] at h
              simp only at h
              split_ifs at h with hhash
              · rw [if_pos hhash, List.foldlM_cons, hadd]
                cases h
                exact ⟨rfl, rfl⟩
              · rw [if_neg hhash, List.foldlM_cons, hadd]
                exact ih h

/-- Every record is on the list when it has been added. -/
theorem addIds_ne_nil {ids ids' : List CInt} (h : rs.foldlM addId ids = some ids')
    (hne : ids ≠ [] ∨ rs ≠ []) : ids' ≠ [] := by
  induction rs generalizing ids with
  | nil =>
      obtain rfl : ids = ids' := Option.some.inj h
      exact hne.resolve_right (fun hnil => hnil rfl)
  | cons r rs ih =>
      rw [List.foldlM_cons, Option.bind_eq_bind, Option.bind_eq_some_iff] at h
      obtain ⟨ids₁, hadd, hrest⟩ := h
      unfold addId at hadd
      obtain ⟨left, -, rfl⟩ := Option.map_eq_some_iff.mp hadd
      exact ih hrest (.inl (List.cons_ne_nil _ _))

/-- Only records make a file that is closed. -/
theorem scanRecords_ne_nil (h : (scanRecords wide fuel fp).2 = true) :
    (scanRecords wide fuel fp).1 ≠ [] := by
  cases fuel with
  | zero => cases h
  | succ fuel =>
      rw [scanRecords] at h ⊢
      cases hscan : scanRecord wide fp with
      | none =>
          rw [hscan] at h
          cases h
      | some scanned =>
          simp only
          split_ifs
          · exact List.cons_ne_nil _ _
          · exact List.cons_ne_nil _ _

/-- What comes behind the main loop leaves the nodes alone. -/
theorem finish_some {heap₁ : Heap} {fp₁ : FILE}
    (h : finish (some (heap₁, fp₁)) = .ok (some (heap, head, fp))) :
    heap.size = heap₁.size ∧ heap.node = heap₁.node ∧ heap₁.list.head = some head := by
  unfold finish at h
  cases hhead : heap₁.list.head with
  | none =>
      simp only [hhead] at h
      cases h
  | some head₁ =>
      simp only [hhead, bind, Except.bind] at h
      cases hclear : clearNext heap₁.size heap₁.list none (heap₁.list.next head₁) with
      | error e =>
          rw [hclear] at h
          cases h
      | ok list =>
          rw [hclear] at h
          cases h
          exact ⟨rfl, rfl, rfl⟩

/-- What is returned was made in the main loop. -/
theorem tree_deserialize_some (h : tree_deserialize wide fp = .ok (some (heap, head, fp'))) :
    ∃ rest heap₁ fp₁, fp.rest = 35 :: rest ∧
      deserializeLoop wide (rest.length + 1) Heap.empty { fp with rest := rest }
        = .ok (some (heap₁, fp₁)) ∧
      finish (some (heap₁, fp₁)) = .ok (some (heap, head, fp')) := by
  cases hrest : fp.rest with
  | nil =>
      unfold tree_deserialize at h
      rw [hrest] at h
      cases h
  | cons delim rest =>
      by_cases hhash : delim = 35
      · subst hhash
        rw [tree_deserialize_hash hrest] at h
        cases hloop : deserializeLoop wide (rest.length + 1) Heap.empty { fp with rest := rest } with
        | error e =>
            rw [hloop] at h
            cases h
        | ok result =>
            rw [hloop] at h
            cases result with
            | none => cases h
            | some result => exact ⟨rest, result.1, result.2, rfl, hloop, h⟩
      · unfold tree_deserialize at h
        rw [hrest] at h
        simp only [ne_eq, hhash, not_false_eq_true, if_true] at h
        cases h

/-- The nodes of the tree are freed once each, and no other. -/
def FreedOnce (heap : Heap) (head : ℕ) : Prop :=
  ∃ freed, tree_free heap.node heap.size (some head) = .ok freed ∧ freed.Nodup ∧
    ∀ a, a ∈ freed ↔ Relation.ReflTransGen (Child heap.left heap.right) head a

/-- **`tree_free`** frees a tree that shares no node. -/
theorem tree_free_once (hfall : Falling heap.left heap.right heap.size) (h : NoneShared heap)
    (hhead : head < heap.size) : FreedOnce heap head := by
  obtain ⟨freed, hwalk⟩ := hfall.postorder hhead hhead
  refine ⟨freed, tree_free_eq heap.node hwalk, h.postorder_nodup hfall hhead hwalk, ?_⟩
  intro a
  exact mem_postorder_iff hwalk

/-- The machine gets through the records, unless they are those of no tree. -/
def SharesNothing (wide : ℤ → CInt) (fp : FILE) : Prop :=
  ∀ rest ids, fp.rest = 35 :: rest →
    (scanRecords wide (rest.length + 1) { fp with rest := rest }).2 = true →
    (scanRecords wide (rest.length + 1) { fp with rest := rest }).1.foldlM addId [] = some ids →
    ids.length ≠ 1 →
    ∃ marks, (scanRecords wide (rest.length + 1) { fp with rest := rest }).1.foldlM addMarked []
      = some marks

end Text

/-- **The parser of trees** makes a tree out of a text, one that `tree_free` can free, exactly if
the machine with marks gets through the records, whatever `%d` stores for a number too wide for
an `int`. -/
theorem tree_deserialize_unshared_iff (wide : ℤ → CInt) (fp : FILE) :
    (∀ heap head fp', tree_deserialize wide fp = .ok (some (heap, head, fp')) →
      NoneShared heap ∧ FreedOnce heap head) ↔ SharesNothing wide fp := by
  constructor
  · intro h rest ids hrest hclosed hids hmany
    have hloop := deserialize_outcome wide { fp with rest := rest }
    simp only [hids, hclosed] at hloop
    obtain ⟨heap, l, fp₁, hloop, hthreaded, rfl⟩ := hloop
    have hne : l ≠ [] := by
      have hnil := addIds_ne_nil hids (.inr (scanRecords_ne_nil hclosed))
      exact fun hl => hnil (by rw [hl]; rfl)
    rw [idsOf, List.length_map] at hmany
    obtain ⟨x, y, l, rfl⟩ : ∃ x y l', l = x :: y :: l' := by
      obtain ⟨x, l₁, rfl⟩ := List.exists_cons_of_ne_nil hne
      cases l₁ with
      | nil => exact absurd rfl hmany
      | cons y l => exact ⟨x, y, l, rfl⟩
    -- there are two nodes on the list, so the tree is returned
    obtain ⟨list, hfinish⟩ := finish_many hthreaded fp₁
    obtain ⟨hshared, -⟩ := h _ _ _ (by
      rw [tree_deserialize_hash hrest, hloop]
      exact hfinish)
    obtain ⟨l', -, hiff⟩ := layered_empty.addRecords (deserializeLoop_fold hloop).2
    exact (hiff.mp hshared).2
  · intro h heap head fp' hread
    obtain ⟨rest, heap₁, fp₁, hrest, hloop, hfinish⟩ := tree_deserialize_some hread
    obtain ⟨hclosed, hadd⟩ := deserializeLoop_fold hloop
    obtain ⟨hsize, hnode, hhead⟩ := finish_some hfinish
    obtain ⟨l, hlayered, hiff⟩ := layered_empty.addRecords hadd
    have houtcome := deserialize_outcome wide { fp with rest := rest }
    simp only [hclosed, hloop] at houtcome
    cases hids : (scanRecords wide (rest.length + 1) { fp with rest := rest }).1.foldlM addId [] with
    | none =>
        rw [hids] at houtcome
        cases houtcome
    | some ids =>
        rw [hids] at houtcome
        obtain ⟨heap₂, l₂, fp₂, heq, hthreaded, rfl⟩ := houtcome
        cases heq
        have hmany := (finish_returns_iff hthreaded fp₁).mp ⟨_, hfinish⟩
        have hmarks := h rest _ hrest hclosed hids (by rwa [idsOf, List.length_map])
        have hnone : NoneShared heap₁ := hiff.mpr ⟨noneShared_empty, hmarks⟩
        have hmade : head < heap₁.size := by
          have hlist := hlayered.holds.head
          rw [hhead] at hlist
          exact hlayered.made head (List.mem_of_head? hlist.symm)
        have hsame : heap.left = heap₁.left ∧ heap.right = heap₁.right := by
          unfold Heap.left Heap.right
          rw [hnode]
          exact ⟨rfl, rfl⟩
        have hfall := hlayered.falling
        unfold NoneShared at hnone ⊢
        rw [← hsame.1, ← hsame.2, ← hsize] at hnone hfall
        rw [← hsize] at hmade
        exact ⟨hnone, tree_free_once hfall hnone hmade⟩

/-- A leaf that is the second of two neighbours stays on the list, and the next record takes it for
a child again: the records 1, 2, 3 with the children 2 and 1, and 4 with the children 3 and 1. -/
theorem tree_deserialize_shares :
    ∃ fp heap head fp', fp = FILE.reading
        [35, 49, 32, 49, 32, 49, 32, 57, 55, 32, 48, 32, 48, 44,
          49, 32, 50, 32, 49, 32, 57, 56, 32, 48, 32, 48, 44,
          48, 32, 51, 32, 50, 32, 48, 32, 50, 32, 49, 44,
          48, 32, 52, 32, 51, 32, 48, 32, 51, 32, 49, 44, 35] ∧
      tree_deserialize saturate fp = .ok (some (heap, head, fp')) ∧
      Child heap.left heap.right 2 0 ∧ Child heap.left heap.right 3 0 ∧ ¬ NoneShared heap ∧
      tree_free heap.node heap.size (some head) = .ok [1, 0, 2, 0, 3] ∧ ¬ FreedOnce heap head := by
  refine ⟨_, _, _, _, rfl, rfl, .inr rfl, .inr rfl, ?_, rfl, ?_⟩
  · intro h
    exact absurd (h.parent 2 (by decide) 3 (by decide) 0 (.inr rfl) (.inr rfl)) (by decide)
  · rintro ⟨freed, hfreed, hnodup, -⟩
    obtain rfl : [1, 0, 2, 0, 3] = freed := Except.ok.inj hfreed
    exact absurd hnodup (by decide)

end ProjectsInC.Huffman
