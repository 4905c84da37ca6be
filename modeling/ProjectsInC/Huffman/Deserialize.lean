/-
`tree.c`: a tree made out of text again.

The parser keeps its nodes on a list through their field `next`. Each new record
looks for its children on that list, takes them off and goes to the front itself.
A node is the number of nodes made before it, and the memory is the list
together with the other fields of all nodes ([`Heap`]).

The pointer `p` of the search stays on a node that has just been taken off, so of
two children that are neighbours only the first leaves the list
([`findChildren_internal`]).
-/
import ProjectsInC.Lib.LinkedList
import ProjectsInC.Huffman.Serialize

set_option autoImplicit false

namespace ProjectsInC.Huffman

open NodeType Lib

variable {wide : ℤ → CInt}

/-- A `TreeNode` in memory, but for its field `next`. -/
structure HeapNode where
  id : CInt
  type : NodeType
  freq : Frequency
  left : Option ℕ
  right : Option ℕ
deriving DecidableEq, Repr

/-- The nodes made so far and the list they are on: the variable `head` and the
fields `next`. -/
structure Heap where
  size : ℕ
  node : ℕ → HeapNode
  list : Chain ℕ

/-- Before the first record. -/
def Heap.empty : Heap := ⟨0, fun _ => ⟨0, INTERNAL, ⟨0, 0⟩, none, none⟩, ⟨none, fun _ => none⟩⟩

/-- A `type` that was scanned; every number but LEAF's is taken for INTERNAL. -/
def typeOf (type : CInt) : NodeType := if type = 1 then LEAF else INTERNAL

/-- The `fscanf` of a record: its six numbers and the comma, if there is one;
`none` if fewer than six numbers can be read. -/
def scanRecord (wide : ℤ → CInt) (fp : FILE) : Option (Record × FILE) := do
  let (type, s) ← scanInt wide fp.rest
  let (id, s) ← scanInt wide s
  let (v, s) ← scanInt wide s
  let (c, s) ← scanInt wide s
  let (left, s) ← scanInt wide s
  let (right, s) ← scanInt wide s
  some (⟨type, id, v, c, left, right⟩, { fp with rest := if s.head? = some 44 then s.tail else s })

/-- "Adjust pointers to remove the child node from the list." -/
def unlink (list : Chain ℕ) (p : Option ℕ) (c : ℕ) : Except Fault (Chain ℕ) :=
  match p with
  | none =>
      match list.head with
      | none => .error .nullDeref
      | some head => .ok { list with head := list.next head }
  | some p => .ok (list.set (.next p) (list.next c))

/-- One of the two `if`s of the search: a current node `c` with the id `child` turns
`n` into `n'` and goes off the list. -/
def takeChild (node : ℕ → HeapNode) (child : CInt) (n n' : HeapNode) (list : Chain ℕ)
    (p : Option ℕ) (c : ℕ) : Except Fault (HeapNode × Chain ℕ) :=
  if (node c).id = child then (unlink list p c).map ((n', ·)) else .ok (n, list)

/-- The search for the children of the new node `n`. -/
def findChildren (node : ℕ → HeapNode) (r : Record) :
    ℕ → HeapNode → Chain ℕ → Option ℕ → Option ℕ → Except Fault (HeapNode × Chain ℕ)
  | _, n, list, _, none => .ok (n, list)
  | 0, _, _, _, some _ => .error .outOfFuel
  | fuel + 1, n, list, p, some c => do
      let (n, list) ← takeChild node r.left n { n with left := some c } list p c
      let (n, list) ← takeChild node r.right n { n with right := some c } list p c
      findChildren node r fuel n list (some c) (list.next c)

/-- `n` as `tree_new` and the assignments after it leave it. -/
def newNode (r : Record) : HeapNode :=
  ⟨r.id, typeOf r.type, ⟨r.v, r.c.setWidth 8⟩, none, none⟩

/-- "Add the new node into the list"; `list` is what the search has left. -/
def Heap.push (heap : Heap) (n : HeapNode) (list : Chain ℕ) : Heap where
  size := heap.size + 1
  node := Function.update heap.node heap.size n
  list := (list.set (.next heap.size) list.head).set .head (some heap.size)

/-- What the main loop does with a record: it is made a node. -/
def addRecord (heap : Heap) (r : Record) : Except Fault Heap := do
  let (n, list) ← findChildren heap.node r heap.size (newNode r) heap.list none heap.list.head
  .ok (heap.push n list)

/-- The main loop; `none` where the function returns NULL. What `fgetc` returned
is kept in a `char`. -/
def deserializeLoop (wide : ℤ → CInt) : ℕ → Heap → FILE → Except Fault (Option (Heap × FILE))
  | 0, _, _ => .error .outOfFuel
  | fuel + 1, heap, fp =>
      match scanRecord wide fp with
      | none => .ok none
      | some (r, fp) => do
          let heap ← addRecord heap r
          let (c, fp) := fgetc fp
          let delim : Byte := c.setWidth 8
          if delim = 35 then .ok (some (heap, fp))
          else deserializeLoop wide fuel heap (ungetc (delim.signExtend 32) fp)

/-- "Reset all next pointers to NULL." -/
def clearNext : ℕ → Chain ℕ → Option ℕ → Option ℕ → Except Fault (Chain ℕ)
  | _, _, none, none => .error .nullDeref
  | _, list, some p, none => .ok (list.set (.next p) none)
  | 0, _, _, some _ => .error .outOfFuel
  | fuel + 1, list, p, some c =>
      let list := match p with
        | none => list
        | some p => list.set (.next p) none
      clearNext fuel list (some c) (list.next c)

/-- `tree_deserialize`: the memory, the node returned and the file; `none` where the
function returns NULL. A record takes at least one byte of the file, so there are
no more rounds than bytes. -/
def tree_deserialize (wide : ℤ → CInt) (fp : FILE) : Except Fault (Option (Heap × ℕ × FILE)) :=
  match fp.rest with
  | [] => .ok none
  | delim :: rest =>
      if delim ≠ 35 then .ok none
      else do
        match ← deserializeLoop wide (rest.length + 1) Heap.empty { fp with rest := rest } with
        | none => .ok none
        | some (heap, fp) =>
            match heap.list.head with
            | none => .ok none
            | some head => do
                let list ← clearNext heap.size heap.list none (heap.list.next head)
                .ok (some ({ heap with list := list }, head, fp))

/-- The tree below a pointer, down to the given depth. -/
def treeAt (node : ℕ → HeapNode) : ℕ → Option ℕ → TreeNode
  | _, none => .null
  | 0, some _ => .null
  | depth + 1, some a =>
      .node (node a).id (node a).type (node a).freq (treeAt node depth (node a).left)
        (treeAt node depth (node a).right)

@[simp] theorem push_size (heap : Heap) (n : HeapNode) (list : Chain ℕ) :
    (heap.push n list).size = heap.size + 1 := rfl

@[simp] theorem push_node_new (heap : Heap) (n : HeapNode) (list : Chain ℕ) :
    (heap.push n list).node heap.size = n := Function.update_self ..

theorem push_node_old (heap : Heap) (n : HeapNode) (list : Chain ℕ) {a : ℕ} (h : a < heap.size) :
    (heap.push n list).node a = heap.node a := Function.update_of_ne (Nat.ne_of_lt h) ..

/-! ## Scanning -/

/-- Numbers end at a space or a comma. -/
theorem noDigit_cons {b : Byte} (h : isDigit b = false) (rest : List Byte) :
    NoDigit (b :: rest) := by
  intro b' hb'
  rw [List.head?_cons, Option.mem_some_iff] at hb'
  rw [← hb', h]

/-- A record that was printed is scanned. -/
theorem scanRecord_text (r : Record) {fp : FILE} {rest : List Byte}
    (h : fp.rest = r.text ++ rest) : scanRecord wide fp = some (r, { fp with rest := rest }) := by
  have hspace : ∀ s, NoDigit (32 :: s) := noDigit_cons (by decide)
  have hcomma : ∀ s, NoDigit (44 :: s) := noDigit_cons (by decide)
  rw [scanRecord, h, Record.text]
  simp only [List.append_assoc, List.cons_append, List.nil_append,
    scanInt_intText _ (hspace _), scanInt_space_intText _ (hspace _),
    scanInt_space_intText _ (hcomma _), Option.bind_eq_bind, Option.bind_some]
  rfl

/-- A record takes a byte at least. -/
theorem scanRecord_shorter {fp fp' : FILE} {r : Record} (h : scanRecord wide fp = some (r, fp')) :
    fp'.rest.length < fp.rest.length := by
  unfold scanRecord at h
  simp only [Option.bind_eq_bind, Option.bind_eq_some_iff] at h
  obtain ⟨⟨_, s₁⟩, h₁, ⟨_, s₂⟩, h₂, ⟨_, s₃⟩, h₃, ⟨_, s₄⟩, h₄, ⟨_, s₅⟩, h₅, ⟨_, s₆⟩, h₆, heq⟩ := h
  obtain ⟨-, rfl⟩ := Prod.mk.inj (Option.some.inj heq)
  have hshort₁ : s₁.length < fp.rest.length := scanInt_shorter h₁
  have hshort₂ : s₂.length < s₁.length := scanInt_shorter h₂
  have hshort₃ : s₃.length < s₂.length := scanInt_shorter h₃
  have hshort₄ : s₄.length < s₃.length := scanInt_shorter h₄
  have hshort₅ : s₅.length < s₄.length := scanInt_shorter h₅
  have hshort₆ : s₆.length < s₅.length := scanInt_shorter h₆
  -- the comma, if there is one, makes it shorter still
  have hcomma : (if s₆.head? = some 44 then s₆.tail else s₆).length ≤ s₆.length := by
    split_ifs
    · rw [List.length_tail]
      exact Nat.sub_le _ _
    · exact le_rfl
  change (if s₆.head? = some 44 then s₆.tail else s₆).length < fp.rest.length
  exact Nat.lt_of_le_of_lt hcomma (by omega)

/-- A record begins with a digit or a minus sign. -/
theorem text_head (r : Record) : ∃ b rest, r.text = b :: rest ∧ b ≠ 35 ∧ b ≠ 255 := by
  have hdigit : ∀ b : Byte, isDigit b = true → b ≠ 35 ∧ b ≠ 255 := by decide
  rw [Record.text, intText]
  split_ifs with hneg
  · exact ⟨45, _, rfl, by decide, by decide⟩
  · obtain ⟨b, ds, hds⟩ := List.exists_cons_of_ne_nil (natText_ne_nil r.type.toInt.natAbs)
    have hb := hdigit b (natText_digits r.type.toInt.natAbs b (hds ▸ List.mem_cons_self))
    exact ⟨b, _, by rw [hds]; rfl, hb⟩

/-- **The main loop** adds the records of the text one after the other. -/
theorem deserializeLoop_text {rs : List Record} (hne : rs ≠ []) {heap heap' : Heap}
    (hadd : rs.foldlM addRecord heap = .ok heap') {fp : FILE} {rest : List Byte}
    (h : fp.rest = recordsText rs ++ 35 :: rest) {fuel : ℕ} (hfuel : rs.length ≤ fuel) :
    deserializeLoop wide fuel heap fp = .ok (some (heap', { fp with rest := rest })) := by
  induction rs generalizing heap fp fuel with
  | nil => exact absurd rfl hne
  | cons r rs ih =>
      obtain ⟨fuel, rfl⟩ := Nat.exists_eq_add_of_le' (Nat.one_le_of_lt hfuel)
      rw [List.length_cons] at hfuel
      have htext : fp.rest = r.text ++ (recordsText rs ++ 35 :: rest) := by
        rw [h, recordsText, List.flatMap_cons, List.append_assoc]
        rfl
      rw [List.foldlM_cons] at hadd
      cases hstep : addRecord heap r with
      | error e =>
          -- then the fold had failed as well
          rw [hstep] at hadd
          cases hadd
      | ok heap₁ =>
          rw [hstep] at hadd
          rw [deserializeLoop, scanRecord_text r htext]
          simp only [hstep, bind, Except.bind]
          cases rs with
          | nil =>
              -- the last record: the byte behind it is the '#'
              obtain rfl : heap₁ = heap' := Except.ok.inj hadd
              rw [fgetc_cons rfl]
              rfl
          | cons r' rs =>
              -- the first byte of the next record is read and pushed back
              obtain ⟨b, tail, htail, hhash, h255⟩ := text_head r'
              have hnext : recordsText (r' :: rs) ++ 35 :: rest
                  = b :: (tail ++ recordsText rs ++ 35 :: rest) := by
                rw [recordsText, List.flatMap_cons, htail]
                rfl
              rw [hnext, fgetc_cons rfl]
              simp only [setWidth_byte, if_neg hhash, ungetc_char h255]
              rw [← hnext]
              exact ih (List.cons_ne_nil _ _) hadd rfl (by omega)

end ProjectsInC.Huffman
