/-
On which texts does the parser of trees dereference NULL?

The search for the children follows the list as it was when the record came, and an unlinking
goes through the node visited before, on the list or not. What it leaves can be said of the
list alone ([`sweep`]): a child goes, unless the node before it has just gone. So the ids on
the list are those of a small machine over the records ([`addId`]), and NULL is dereferenced
in two places only: in the search, when a single node is both children of the record, and in
the last loop, when the list has a single node ([`tree_deserialize_returns_iff`]).
-/
import ProjectsInC.Huffman.Construction
import ProjectsInC.Huffman.TreeText

set_option autoImplicit false

namespace ProjectsInC.Huffman

open NodeType Lib

variable {wide : ℤ → CInt}

/-! ## The machine on ids -/

section Sweep

variable {α β : Type*}

/-- What is left of a list when the elements with `m` are taken off, but none right behind
one that was; `gone` says whether the one in front was. -/
def sweep (m : α → Bool) : Bool → List α → List α
  | _, [] => []
  | gone, a :: l => if m a && !gone then sweep m true l else a :: sweep m false l

/-- The first element goes as often as it is hit, and what was behind it then stays; `none` if
there is nothing left to go. -/
def takeOff (hits : α → ℕ) : List α → Option (List α)
  | [] => some []
  | a :: l =>
      if hits a = 2 ∧ l = [] then none
      else some (sweep (fun b => hits b ≠ 0) true ((a :: l).drop (hits a)))

theorem sweep_sublist (m : α → Bool) (gone : Bool) (l : List α) :
    (sweep m gone l).Sublist l := by
  induction l generalizing gone with
  | nil => exact List.Sublist.refl []
  | cons a l ih =>
      unfold sweep
      split_ifs
      · exact (ih true).cons a
      · exact (ih false).cons_cons a

theorem sweep_map (f : α → β) (m : β → Bool) (gone : Bool) (l : List α) :
    (sweep (fun a => m (f a)) gone l).map f = sweep m gone (l.map f) := by
  induction l generalizing gone with
  | nil => rfl
  | cons a l ih =>
      rw [List.map_cons, sweep, sweep]
      split_ifs
      · exact ih true
      · rw [List.map_cons, ih false]

theorem takeOff_map (f : α → β) (hits : β → ℕ) (l : List α) :
    (takeOff (fun a => hits (f a)) l).map (List.map f) = takeOff hits (l.map f) := by
  cases l with
  | nil => rfl
  | cons a l =>
      rw [List.map_cons, takeOff, takeOff]
      by_cases hend : hits (f a) = 2 ∧ l = []
      · rw [if_pos hend, if_pos ⟨hend.1, by rw [hend.2]; rfl⟩]
        rfl
      · have hsweep := sweep_map f (fun b => hits b ≠ 0) true ((a :: l).drop (hits (f a)))
        rw [if_neg hend, if_neg (fun h => hend ⟨h.1, List.map_eq_nil_iff.mp h.2⟩), Option.map_some,
          hsweep, List.map_drop, List.map_cons]

theorem takeOff_sublist {hits : α → ℕ} {l l' : List α} (h : takeOff hits l = some l') :
    l'.Sublist l := by
  cases l with
  | nil =>
      obtain rfl : [] = l' := Option.some.inj h
      exact List.Sublist.refl []
  | cons a l =>
      rw [takeOff] at h
      split_ifs at h
      obtain rfl := Option.some.inj h
      exact (sweep_sublist _ _ _).trans (List.drop_sublist _ _)

end Sweep

/-- How many of the two children of the record have this id. -/
def Record.hits (r : Record) (id : CInt) : ℕ :=
  (if id = r.left then 1 else 0) + (if id = r.right then 1 else 0)

/-- The ids on the list behind a record; `none` where NULL is dereferenced. -/
def addId (ids : List CInt) (r : Record) : Option (List CInt) :=
  (takeOff r.hits ids).map (fun ids => r.id :: ids)

/-! ## The search -/

section Search

variable {node : ℕ → HeapNode} {r : Record} {n : HeapNode} {list : Chain ℕ} {fuel : ℕ}

/-- Is the node a child of the record? -/
def isChild (node : ℕ → HeapNode) (r : Record) (a : ℕ) : Bool := r.hits (node a).id ≠ 0

/-- A round of the search behind a node `b`: a child is bypassed by `b`. -/
theorem findChildren_round {b x : ℕ} (hne : b ≠ x) :
    ∃ n', findChildren node r (fuel + 1) n list (some b) (some x)
        = findChildren node r fuel n'
          (if isChild node r x then list.set (.next b) (list.next x) else list) (some x)
          (list.next x) ∧
      n'.id = n.id := by
  have hnext : (list.set (.next b) (list.next x)).next x = list.next x :=
    Function.update_of_ne (Ne.symm hne) ..
  have htwice : (list.set (.next b) (list.next x)).set (.next b) (list.next x)
      = list.set (.next b) (list.next x) := by
    simp only [Chain.set, Function.update_idem]
  rw [findChildren]
  unfold isChild Record.hits takeChild unlink
  by_cases hleft : (node x).id = r.left
  · by_cases hright : (node x).id = r.right
    · simp only [if_pos hleft, if_pos hright, bind, Except.bind, Except.map, hnext, htwice]
      exact ⟨_, rfl, rfl⟩
    · simp only [if_pos hleft, if_neg hright, bind, Except.bind, Except.map, hnext]
      exact ⟨_, rfl, rfl⟩
  · by_cases hright : (node x).id = r.right
    · simp only [if_neg hleft, if_pos hright, bind, Except.bind, Except.map, hnext]
      exact ⟨_, rfl, rfl⟩
    · simp only [if_neg hleft, if_neg hright, bind, Except.bind]
      exact ⟨_, rfl, rfl⟩

/-- What the search makes of the list behind a node `b`. Wherever one enters the rest of the
old list, from there on nothing has gone but children behind nodes that stayed. -/
theorem findChildren_sweep {b : ℕ} {xs : List ℕ} (hlinks : Links list.next (list.next b) xs)
    (hnodup : (b :: xs).Nodup) (hfuel : xs.length ≤ fuel) :
    ∃ n' list', findChildren node r fuel n list (some b) (list.next b) = .ok (n', list') ∧
      n'.id = n.id ∧ list'.head = list.head ∧
      Links list'.next (list'.next b) (sweep (isChild node r) false xs) ∧
      (∀ zs, zs <:+ xs → Links list'.next zs.head? (sweep (isChild node r) true zs)) ∧
      ∀ a ∉ b :: xs, list'.next a = list.next a := by
  induction xs generalizing b n list fuel with
  | nil =>
      have hend : list.next b = none := hlinks
      refine ⟨n, list, ?_, rfl, rfl, hlinks, ?_, fun a _ => rfl⟩
      · rw [hend]
        cases fuel <;> rfl
      · intro zs hzs
        rw [List.suffix_nil.mp hzs]
        rfl
  | cons x xs ih =>
      obtain ⟨hx, hrest⟩ := hlinks
      obtain ⟨hb, hnodup⟩ := List.nodup_cons.mp hnodup
      have hbx : b ≠ x := fun h => hb (h ▸ List.mem_cons_self)
      obtain ⟨fuel, rfl⟩ := Nat.exists_eq_add_of_le' (Nat.one_le_of_lt hfuel)
      rw [List.length_cons] at hfuel
      obtain ⟨n₁, hround, hid₁⟩ := @findChildren_round node r n list fuel b x hbx
      -- the pointer of `b` alone has changed
      obtain ⟨list₁, hlist₁⟩ : ∃ list₁, list₁ =
          if isChild node r x then list.set (.next b) (list.next x) else list := ⟨_, rfl⟩
      have hhead₁ : list₁.head = list.head := by
        rw [hlist₁]
        split_ifs <;> rfl
      have hsame : ∀ a ≠ b, list₁.next a = list.next a := by
        intro a ha
        rw [hlist₁]
        split_ifs
        · exact Function.update_of_ne ha ..
        · rfl
      have hlinks₁ : Links list₁.next (list₁.next x) xs := by
        rw [hsame x (Ne.symm hbx)]
        exact hrest.congr (fun a ha =>
          hsame a (fun h => hb (h ▸ List.mem_cons_of_mem x ha)))
      obtain ⟨n', list', hfind, hid, hhead, hafter, hsuffix, hother⟩ :=
        ih hlinks₁ hnodup (Nat.le_of_succ_le_succ hfuel)
      have hstay : Links list'.next (some x) (sweep (isChild node r) true (x :: xs)) := by
        rw [sweep, Bool.not_true, Bool.and_false, if_neg Bool.false_ne_true]
        exact ⟨rfl, hafter⟩
      refine ⟨n', list', ?_, hid.trans hid₁, hhead.trans hhead₁, ?_, ?_, ?_⟩
      · rw [hx, hround, ← hlist₁, ← hsame x (Ne.symm hbx)]
        exact hfind
      · rw [hother b hb, sweep, Bool.not_false, Bool.and_true, hlist₁]
        split_ifs with hchild
        · -- the child is bypassed, and what comes behind it stays
          have hnext : (list.set (.next b) (list.next x)).next b = list.next x :=
            Function.update_self ..
          rw [hnext, hrest.head]
          exact hsuffix xs (List.suffix_refl xs)
        · rw [hx]
          exact ⟨rfl, hafter⟩
      · intro zs hzs
        rcases List.suffix_cons_iff.mp hzs with rfl | hzs
        · exact hstay
        · exact hsuffix zs hzs
      · intro a ha
        rw [List.mem_cons, not_or] at ha
        rw [hother a ha.2, hsame a ha.1]

/-- The first round, at the head: every hit moves the head on. -/
theorem findChildren_first {x : ℕ} {xs : List ℕ} (hholds : list.Holds (x :: xs))
    (hmore : ¬ (r.hits (node x).id = 2 ∧ xs = [])) :
    ∃ n', findChildren node r (fuel + 1) n list none (some x)
        = findChildren node r fuel n'
          { list with head := ((x :: xs).drop (r.hits (node x).id)).head? } (some x)
          (list.next x) ∧
      n'.id = n.id := by
  obtain ⟨hhead, hrest⟩ := hholds
  have hnext := hrest.head
  rw [findChildren]
  unfold Record.hits at hmore ⊢
  unfold takeChild unlink
  by_cases hleft : (node x).id = r.left
  · by_cases hright : (node x).id = r.right
    · -- the head is both children, so there must be another node
      simp only [if_pos hleft, if_pos hright] at hmore ⊢
      cases xs with
      | nil => exact absurd hmore (by simp)
      | cons y ys =>
          rw [List.head?_cons] at hnext
          rw [hnext] at hrest
          have hnext' : list.next y = ys.head? := hrest.2.head
          simp only [bind, Except.bind, Except.map, hhead, hnext, hnext']
          exact ⟨_, rfl, rfl⟩
    · simp only [if_pos hleft, if_neg hright, bind, Except.bind, Except.map, hhead, hnext]
      exact ⟨_, rfl, rfl⟩
  · by_cases hright : (node x).id = r.right
    · simp only [if_neg hleft, if_pos hright, bind, Except.bind, Except.map, hhead, hnext]
      exact ⟨_, rfl, rfl⟩
    · simp only [if_neg hleft, if_neg hright, bind, Except.bind]
      refine ⟨n, ?_, rfl⟩
      rw [← show list.head = ((x :: xs).drop (0 + 0)).head? from hhead]

/-- A single node that is both children: `head->next` of a head that is NULL. -/
theorem findChildren_null {x : ℕ} (hholds : list.Holds [x]) (hboth : r.hits (node x).id = 2) :
    findChildren node r (fuel + 1) n list none (some x) = .error .nullDeref := by
  obtain ⟨hhead, hnext⟩ := hholds
  have hend : list.next x = none := hnext
  unfold Record.hits at hboth
  have hchildren : (node x).id = r.left ∧ (node x).id = r.right := by
    by_cases hleft : (node x).id = r.left
    · by_cases hright : (node x).id = r.right
      · exact ⟨hleft, hright⟩
      · rw [if_pos hleft, if_neg hright] at hboth
        omega
    · rw [if_neg hleft] at hboth
      split_ifs at hboth <;> omega
  rw [findChildren]
  unfold takeChild unlink
  simp only [if_pos hchildren.1, if_pos hchildren.2, bind, Except.bind, Except.map, hhead, hend]

end Search

/-! ## A record -/

/-- The list holds these nodes, and they have been made. -/
structure Threaded (heap : Heap) (l : List ℕ) : Prop where
  holds : heap.list.Holds l
  nodup : l.Nodup
  made : ∀ a ∈ l, a < heap.size

theorem threaded_empty : Threaded Heap.empty [] where
  holds := rfl
  nodup := List.nodup_nil
  made := fun _ h => absurd h List.not_mem_nil

section Threaded

variable {heap : Heap} {l l' : List ℕ} {r : Record} {n : HeapNode}

theorem Threaded.length_le (h : Threaded heap l) : l.length ≤ heap.size :=
  length_le_of_lt h.nodup h.made

/-- The ids of the nodes. -/
def idsOf (heap : Heap) (l : List ℕ) : List CInt := l.map (fun a => (heap.node a).id)

/-- The search leaves what `takeOff` leaves. -/
theorem Threaded.findChildren (h : Threaded heap l)
    (htake : takeOff (fun a => r.hits (heap.node a).id) l = some l') :
    ∃ n' list', findChildren heap.node r heap.size n heap.list none heap.list.head
        = .ok (n', list') ∧
      n'.id = n.id ∧ list'.Holds l' := by
  have hlen := h.length_le
  have hholds := h.holds
  cases l with
  | nil =>
      obtain rfl : [] = l' := Option.some.inj htake
      have hhead : heap.list.head = none := hholds
      refine ⟨n, heap.list, ?_, rfl, hholds⟩
      rw [hhead]
      cases heap.size <;> rfl
  | cons x xs =>
      rw [takeOff] at htake
      split_ifs at htake with hend
      obtain rfl := Option.some.inj htake
      rw [List.length_cons] at hlen
      obtain ⟨fuel, hfuel⟩ := Nat.exists_eq_add_of_le' (Nat.one_le_of_lt hlen)
      obtain ⟨n₁, hfirst, hid₁⟩ := @findChildren_first heap.node r n heap.list fuel x xs hholds hend
      obtain ⟨hhead, hrest⟩ := hholds
      -- behind the first node the search goes on as it would with an older head
      obtain ⟨n', list', hfind, hid, hhead', hafter, hsuffix, -⟩ := @findChildren_sweep heap.node r
        n₁ { heap.list with head := ((x :: xs).drop (r.hits (heap.node x).id)).head? } fuel x xs
        hrest h.nodup (by omega)
      refine ⟨n', list', ?_, hid.trans hid₁, ?_⟩
      · rw [hhead, hfuel, hfirst]
        exact hfind
      · unfold Chain.Holds
        rw [hhead']
        cases hhits : r.hits (heap.node x).id with
        | zero =>
            rw [List.drop_zero, sweep, Bool.not_true, Bool.and_false, if_neg Bool.false_ne_true]
            exact ⟨rfl, hafter⟩
        | succ k =>
            rw [List.drop_succ_cons]
            exact hsuffix _ (List.drop_suffix k xs)

/-- Where nothing is left to take off, NULL is dereferenced. -/
theorem Threaded.findChildren_null (h : Threaded heap l)
    (htake : takeOff (fun a => r.hits (heap.node a).id) l = none) :
    Huffman.findChildren heap.node r heap.size n heap.list none heap.list.head
      = .error .nullDeref := by
  have hlen := h.length_le
  have hholds := h.holds
  cases l with
  | nil => exact absurd htake (Option.some_ne_none _)
  | cons x xs =>
      rw [takeOff] at htake
      split_ifs at htake with hend
      obtain ⟨hboth, rfl⟩ := hend
      rw [List.length_cons] at hlen
      obtain ⟨fuel, hfuel⟩ := Nat.exists_eq_add_of_le' (Nat.one_le_of_lt hlen)
      have hhead : heap.list.head = some x := hholds.1
      rw [hhead, hfuel, Huffman.findChildren_null hholds hboth]

/-- The new node goes to the front. -/
theorem Threaded.push (h : Threaded heap l) (hsub : l'.Sublist l) {list : Chain ℕ}
    (hlist : list.Holds l') : Threaded (heap.push n list) (heap.size :: l') := by
  have hmade : ∀ a ∈ l', a < heap.size := fun a ha => h.made a (hsub.subset ha)
  have hnew : heap.size ∉ l' := fun hmem => lt_irrefl _ (hmade _ hmem)
  refine ⟨hlist.push hnew, List.nodup_cons.mpr ⟨hnew, h.nodup.sublist hsub⟩, ?_⟩
  intro a ha
  rw [push_size]
  rcases List.mem_cons.mp ha with rfl | ha
  · exact Nat.lt_succ_self _
  · exact (hmade a ha).trans (Nat.lt_succ_self _)

theorem Threaded.idsOf_push (h : Threaded heap l) (hsub : l'.Sublist l) (list : Chain ℕ) :
    idsOf (heap.push n list) (heap.size :: l') = n.id :: idsOf heap l' := by
  unfold idsOf
  rw [List.map_cons, push_node_new]
  congr 1
  apply List.map_congr_left
  intro a ha
  rw [push_node_old heap n list (h.made a (hsub.subset ha))]

/-- **A record** does to the list what the machine does to its ids. -/
theorem Threaded.addRecord (h : Threaded heap l) {ids : List CInt}
    (hids : addId (idsOf heap l) r = some ids) :
    ∃ heap' l', addRecord heap r = .ok heap' ∧ Threaded heap' l' ∧ idsOf heap' l' = ids := by
  unfold addId at hids
  obtain ⟨left, htake, rfl⟩ := Option.map_eq_some_iff.mp hids
  rw [idsOf, ← takeOff_map] at htake
  obtain ⟨l', htake', rfl⟩ := Option.map_eq_some_iff.mp htake
  obtain ⟨n', list', hfind, hid, hholds⟩ := @Threaded.findChildren heap l l' r (newNode r) h htake'
  have hsub := takeOff_sublist htake'
  refine ⟨heap.push n' list', heap.size :: l', ?_, h.push hsub hholds, ?_⟩
  · unfold Huffman.addRecord
    rw [hfind]
    rfl
  · rw [h.idsOf_push hsub, hid]
    rfl

theorem Threaded.addRecord_null (h : Threaded heap l) (hids : addId (idsOf heap l) r = none) :
    Huffman.addRecord heap r = .error .nullDeref := by
  unfold addId at hids
  rw [Option.map_eq_none_iff, idsOf, ← takeOff_map, Option.map_eq_none_iff] at hids
  unfold Huffman.addRecord
  rw [h.findChildren_null hids]
  rfl

end Threaded

/-! ## The whole text -/

/-- The records the main loop scans, and whether a '#' closes them. -/
def scanRecords (wide : ℤ → CInt) : ℕ → FILE → List Record × Bool
  | 0, _ => ([], false)
  | fuel + 1, fp =>
      match scanRecord wide fp with
      | none => ([], false)
      | some (r, fp) =>
          let (c, fp) := fgetc fp
          let delim : Byte := c.setWidth 8
          if delim = 35 then ([r], true)
          else
            let (rs, closed) := scanRecords wide fuel (ungetc (delim.signExtend 32) fp)
            (r :: rs, closed)

/-! ## What the parser returns -/

/-- What the main loop makes of the records: the ids that are on the list behind them, or
`none` where the machine stops, and whether a '#' closes them. -/
def Outcome (result : Except Fault (Option (Heap × FILE))) : Option (List CInt) → Bool → Prop
  | none, _ => result = .error .nullDeref
  | some _, false => result = .ok none
  | some ids, true =>
      ∃ heap l fp, result = .ok (some (heap, fp)) ∧ Threaded heap l ∧ idsOf heap l = ids

/-- **The main loop** goes as the machine on ids does. -/
theorem deserializeLoop_outcome {heap : Heap} {l : List ℕ} (h : Threaded heap l) {fp : FILE}
    {fuel : ℕ} (hfuel : fp.rest.length < fuel) :
    Outcome (deserializeLoop wide fuel heap fp)
      ((scanRecords wide fuel fp).1.foldlM addId (idsOf heap l)) (scanRecords wide fuel fp).2 := by
  induction fuel generalizing heap l fp with
  | zero => exact absurd hfuel (Nat.not_lt_zero _)
  | succ fuel ih =>
      rw [scanRecords, deserializeLoop]
      cases hscan : scanRecord wide fp with
      | none => exact rfl
      | some scanned =>
          obtain ⟨r, fp₁⟩ := scanned
          have hshort := scanRecord_shorter hscan
          have hpeek := length_ungetc_fgetc fp₁
          simp only
          cases hadd : addId (idsOf heap l) r with
          | none =>
              -- NULL in this record, whatever comes behind it
              simp only [h.addRecord_null hadd, bind, Except.bind]
              split_ifs
              · rw [List.foldlM_cons, hadd]
                exact rfl
              · rw [List.foldlM_cons, hadd]
                exact rfl
          | some ids =>
              obtain ⟨heap₁, l₁, hrec, h₁, hids₁⟩ := h.addRecord hadd
              simp only [hrec, bind, Except.bind]
              split_ifs with hhash
              · rw [List.foldlM_cons, hadd]
                exact ⟨heap₁, l₁, _, rfl, h₁, hids₁⟩
              · have hrest := @ih heap₁ l₁ h₁
                  (ungetc (((fgetc fp₁).1.setWidth 8 : Byte).signExtend 32) (fgetc fp₁).2) (by omega)
                rw [hids₁] at hrest
                rw [List.foldlM_cons, hadd]
                exact hrest

/-- From the first record on. -/
theorem deserialize_outcome (wide : ℤ → CInt) (fp : FILE) :
    Outcome (deserializeLoop wide (fp.rest.length + 1) Heap.empty fp)
      ((scanRecords wide (fp.rest.length + 1) fp).1.foldlM addId [])
      (scanRecords wide (fp.rest.length + 1) fp).2 :=
  deserializeLoop_outcome threaded_empty (Nat.lt_succ_self _)

/-- The text of the file, without the '#' in front, is none on which NULL is dereferenced: the
machine on ids gets through the records, and a '#' behind them does not find a single one. -/
def NullSafe (wide : ℤ → CInt) (fp : FILE) : Prop :=
  ∀ rest, fp.rest = 35 :: rest →
    ∃ ids,
      (scanRecords wide (rest.length + 1) { fp with rest := rest }).1.foldlM addId [] = some ids ∧
      ((scanRecords wide (rest.length + 1) { fp with rest := rest }).2 = true → ids.length ≠ 1)

/-- The last loop on a list that has a second node. -/
theorem clearNext_many {heap : Heap} {x y : ℕ} {l : List ℕ} (h : Threaded heap (x :: y :: l)) :
    ∃ list', clearNext heap.size heap.list none (heap.list.next x) = .ok list' := by
  have hlen := h.length_le
  rw [List.length_cons] at hlen
  refine clearNext_ok h.holds.2 (List.nodup_cons.mp h.nodup).2 ?_
    (.inr (List.cons_ne_nil y l)) (by omega)
  intro a ha
  cases ha

/-- Everything behind the main loop. -/
def finish (result : Option (Heap × FILE)) : Except Fault (Option (Heap × ℕ × FILE)) :=
  match result with
  | none => .ok none
  | some (heap, fp) =>
      match heap.list.head with
      | none => .ok none
      | some head => do
          let list ← clearNext heap.size heap.list none (heap.list.next head)
          .ok (some ({ heap with list := list }, head, fp))

theorem tree_deserialize_hash {fp : FILE} {rest : List Byte} (h : fp.rest = 35 :: rest) :
    tree_deserialize wide fp
      = deserializeLoop wide (rest.length + 1) Heap.empty { fp with rest := rest } >>= finish := by
  unfold tree_deserialize
  rw [h]
  rfl

/-- The first of the nodes that are left is the root. -/
theorem finish_many {heap : Heap} {x y : ℕ} {l : List ℕ} (h : Threaded heap (x :: y :: l))
    (fp : FILE) :
    ∃ list', finish (some (heap, fp)) = .ok (some ({ heap with list := list' }, x, fp)) := by
  obtain ⟨list', hclear⟩ := clearNext_many h
  have hhead : heap.list.head = some x := h.holds.1
  refine ⟨list', ?_⟩
  unfold finish
  simp only [hhead, bind, Except.bind, hclear]

/-- The last loop needs two nodes on the list. -/
theorem finish_returns_iff {heap : Heap} {l : List ℕ} (h : Threaded heap l) (fp : FILE) :
    (∃ result, finish (some (heap, fp)) = .ok result) ↔ l.length ≠ 1 := by
  have hhead := h.holds.head
  match l with
  | [] =>
      rw [List.head?_nil] at hhead
      refine iff_of_true ⟨none, ?_⟩ (by decide)
      unfold finish
      simp only [hhead]
  | [x] =>
      obtain ⟨-, hend⟩ := h.holds
      have hnext : heap.list.next x = none := hend
      rw [List.head?_cons] at hhead
      refine iff_of_false ?_ (by simp)
      rintro ⟨result, hresult⟩
      unfold finish at hresult
      simp only [hhead, hnext, bind, Except.bind] at hresult
      cases hsize : heap.size <;> rw [hsize] at hresult <;> cases hresult
  | x :: y :: l =>
      obtain ⟨list', hfinish⟩ := finish_many h fp
      exact iff_of_true ⟨_, hfinish⟩ (by simp)

/-- **`tree_deserialize`** returns on a text exactly if it is one of these. -/
theorem tree_deserialize_returns_iff (fp : FILE) :
    (∃ result, tree_deserialize wide fp = .ok result) ↔ NullSafe wide fp := by
  cases hrest : fp.rest with
  | nil =>
      refine iff_of_true ⟨none, ?_⟩ (fun rest h => ?_)
      · unfold tree_deserialize
        rw [hrest]
      · rw [hrest] at h
        cases h
  | cons delim rest =>
      by_cases hhash : delim = 35
      · subst hhash
        have hloop := deserialize_outcome wide { fp with rest := rest }
        have hsafe : NullSafe wide fp ↔ ∃ ids,
            (scanRecords wide (rest.length + 1) { fp with rest := rest }).1.foldlM addId []
              = some ids ∧
            ((scanRecords wide (rest.length + 1) { fp with rest := rest }).2 = true →
              ids.length ≠ 1) := by
          unfold NullSafe
          rw [hrest]
          simp
        rw [hsafe, tree_deserialize_hash hrest]
        -- what the machine on ids says, and whether there is a '#' at the end
        generalize (scanRecords wide (rest.length + 1) { fp with rest := rest }).2 = closed at hloop ⊢
        cases hids : (scanRecords wide (rest.length + 1) { fp with rest := rest }).1.foldlM addId [] with
        | none =>
            rw [hids] at hloop
            have hnull : deserializeLoop wide (rest.length + 1) Heap.empty { fp with rest := rest }
                = .error .nullDeref := hloop
            refine iff_of_false ?_ ?_
            · rintro ⟨result, hresult⟩
              rw [hnull] at hresult
              cases hresult
            · rintro ⟨ids, hsome, -⟩
              cases hsome
        | some ids =>
            rw [hids] at hloop
            cases closed with
            | false =>
                have hloop' : deserializeLoop wide (rest.length + 1) Heap.empty
                    { fp with rest := rest } = .ok none := hloop
                rw [hloop']
                exact iff_of_true ⟨none, rfl⟩ ⟨ids, rfl, fun h => absurd h Bool.false_ne_true⟩
            | true =>
                obtain ⟨heap, l, fp', hloop', h, rfl⟩ := hloop
                have hfinish := finish_returns_iff h fp'
                rw [hloop']
                simp only [bind, Except.bind, hfinish]
                simp [idsOf]
      · refine iff_of_true ⟨none, ?_⟩ (fun rest' h => ?_)
        · unfold tree_deserialize
          rw [hrest]
          exact if_pos hhash
        · rw [hrest] at h
          exact absurd (List.cons.inj h).1 hhash

/-! ## The texts of the encoder -/

/-- The text of a single leaf: the last loop dereferences NULL. -/
theorem tree_deserialize_leaf {id : CInt} {freq : Frequency} {fp : FILE} {rest : List Byte}
    (h : fp.rest = 35 :: (recordsText (recordsOf (.node id LEAF freq .null .null)) ++ 35 :: rest)) :
    tree_deserialize wide fp = .error .nullDeref := by
  have hadd : (recordsOf (.node id LEAF freq .null .null)).foldlM addRecord Heap.empty
      = .ok (Heap.empty.push (newNode (recordOf id LEAF freq .null .null)) Heap.empty.list) := rfl
  have hloop := @deserializeLoop_text wide _ (List.cons_ne_nil _ _) _ _ hadd
    { fp with rest := recordsText (recordsOf (.node id LEAF freq .null .null)) ++ 35 :: rest }
    rest rfl ((recordsText (recordsOf (.node id LEAF freq .null .null)) ++ 35 :: rest).length + 1)
    (Nat.succ_le_succ (Nat.zero_le _))
  rw [tree_deserialize_hash h, hloop]
  rfl

/-- What `tree_serialize` writes. -/
theorem written_tree_serialize (tree : TreeNode) :
    (tree_serialize tree FILE.reliable).2.written
      = 35 :: (recordsText (recordsOf tree) ++ [35]) := by
  obtain ⟨result, fp, hser, -, htook⟩ :=
    tree_serialize_spec tree (show ∀ n, FILE.reliable.fails n = false from fun _ => rfl)
  rw [hser, htook.written]
  rfl

section Encoder

variable {qsort : Qsort TreeNode} {beyond : ℕ → TreeNode} {bytes : List Byte} {root : TreeNode}
  {ids : CInt}

/-- The tree of any file has the shape the parser relies on. -/
theorem shape_of_build (hbuild : huffman_build_tree qsort beyond bytes = some (root, ids))
    (hroot : root ≠ .null) : Shape (entries (compute_freq bytes)) [root] ids := by
  rw [huffman_build_tree] at hbuild
  by_cases hnone : entries (compute_freq bytes) = []
  · obtain ⟨ids', hnull⟩ := build_tree_null qsort beyond hnone
    rw [hbuild] at hnull
    exact absurd (congrArg Prod.fst (Option.some.inj hnull)) hroot
  · obtain ⟨root', ids', htree, hshape⟩ := build_tree_shape qsort beyond hnone
    rw [hbuild] at htree
    obtain ⟨rfl, rfl⟩ := Prod.mk.inj (Option.some.inj htree)
    exact hshape

/-- **The text of the tree of a file** is read back exactly if the tree has two leaves. -/
theorem deserialize_serialized_iff
    (hbuild : huffman_build_tree qsort beyond bytes = some (root, ids)) (hroot : root ≠ .null)
    {infile : FILE} {payload : List Byte}
    (hrest : infile.rest = (tree_serialize root FILE.reliable).2.written ++ payload) :
    (∃ heap head fp, tree_deserialize wide infile = .ok (some (heap, head, fp))) ↔
      2 ≤ (entries (compute_freq bytes)).length := by
  obtain ⟨hfull, hleaves, hnodup, hpos⟩ := (shape_of_build hbuild hroot).root
  rw [← hleaves.length_eq]
  have hzero : 0 ∉ root.ids := fun hmem => absurd (hpos 0 hmem) (by decide)
  have htext : infile.rest = 35 :: (recordsText (recordsOf root) ++ 35 :: payload) := by
    rw [hrest, written_tree_serialize, List.cons_append, List.append_assoc]
    rfl
  cases hfull with
  | leaf id freq =>
      refine iff_of_false ?_ (by simp [TreeNode.leaves])
      rintro ⟨heap, head, fp, hread⟩
      rw [tree_deserialize_leaf htext] at hread
      cases hread
  | internal id freq hleft hright =>
      have hmany := (Full.internal id freq hleft hright).two_le_leaves
      obtain ⟨heap, head, hread, -⟩ :=
        tree_deserialize_spec wide (Full.internal id freq hleft hright) hmany hnodup hzero htext
      exact iff_of_true ⟨heap, head, _, hread⟩ hmany

end Encoder

/-- **The parser of trees** returns NULL or a tree exactly on the texts on which the machine on
ids gets through, whatever `%d` stores for a number too wide for an `int`; and what
`tree_serialize` writes of the tree of a file is read back exactly if there are two different
characters to count in it. -/
theorem tree_deserialize_safe_iff (wide : ℤ → CInt) (fp : FILE) (qsort : Qsort TreeNode)
    (beyond : ℕ → TreeNode) (bytes : List Byte) :
    ((∃ result, tree_deserialize wide fp = .ok result) ↔ NullSafe wide fp) ∧
      ∀ root ids, huffman_build_tree qsort beyond bytes = some (root, ids) → root ≠ .null →
        ∀ (infile : FILE) (payload : List Byte),
          infile.rest = (tree_serialize root FILE.reliable).2.written ++ payload →
          ((∃ heap head fp, tree_deserialize wide infile = .ok (some (heap, head, fp))) ↔
            2 ≤ (entries (compute_freq bytes)).length) := by
  refine ⟨tree_deserialize_returns_iff fp, ?_⟩
  intro root ids hbuild hroot infile payload hrest
  exact deserialize_serialized_iff hbuild hroot hrest

/-- The text of the tree of "ab". -/
theorem tree_deserialize_safe_iff_ab :
    ∃ root ids, huffman_build_tree (insertionQsort TreeNode) (fun _ => .null) [97, 98]
        = some (root, ids) ∧
      ∃ heap head fp, tree_deserialize saturate
        (FILE.reading ((tree_serialize root FILE.reliable).2.written ++ []))
          = .ok (some (heap, head, fp)) := by
  have hbuild : huffman_build_tree (insertionQsort TreeNode) (fun _ => .null) [97, 98]
      = some (.node 3 INTERNAL ⟨2, 0⟩ (.node 1 LEAF ⟨1, 97⟩ .null .null)
        (.node 2 LEAF ⟨1, 98⟩ .null .null), 4) := by
    decide +kernel
  have hmany : 2 ≤ (entries (compute_freq [97, 98])).length := by decide +kernel
  refine ⟨_, _, hbuild, ?_⟩
  exact ((tree_deserialize_safe_iff saturate (FILE.reading []) (insertionQsort TreeNode)
    (fun _ => .null) [97, 98]).2 _ _ hbuild (by decide) _ [] rfl).mpr hmany

/-- The archive of "aaa" begins with a text on which NULL is dereferenced; and in a record with
both children the same single node it happens in the search. -/
theorem tree_deserialize_null :
    huffman_build_tree (insertionQsort TreeNode) (fun _ => .null) [97, 97, 97]
        = some (.node 1 LEAF ⟨3, 97⟩ .null .null, 2) ∧
      (tree_serialize (.node 1 LEAF ⟨3, 97⟩ .null .null) FILE.reliable).2.written
        = [35, 49, 32, 49, 32, 51, 32, 57, 55, 32, 48, 32, 48, 44, 35] ∧
      tree_deserialize saturate (FILE.reading
        [35, 49, 32, 49, 32, 51, 32, 57, 55, 32, 48, 32, 48, 44, 35]) = .error .nullDeref ∧
      tree_deserialize saturate (FILE.reading
        [35, 49, 32, 49, 32, 49, 32, 57, 55, 32, 48, 32, 48, 44,
          48, 32, 50, 32, 50, 32, 48, 32, 49, 32, 49, 44, 35]) = .error .nullDeref := by
  refine ⟨by decide +kernel, by decide +kernel, ?_, ?_⟩
  · rfl
  · rfl

end ProjectsInC.Huffman
