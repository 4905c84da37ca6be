/-
Singly linked lists, by the pointers that make them up.

A chain is a pointer to a first node and a `next` pointer in every node. C code
walks a chain with a pointer to the pointer it came through, so such a place
has a name here ([`Cell`]): the head variable or the `next` field of a node.
[`Chain.Holds`] says which nodes a chain leads through, and each of the usual
edits (cut, push, append) is a write to one or two cells. Nodes are addresses
of any type `A`; what else a node carries plays no part.
-/
import Mathlib.Data.List.Basic
import Mathlib.Data.List.Perm.Subperm
import Mathlib.Logic.Function.Basic

set_option autoImplicit false

namespace ProjectsInC.Lib

section LinkedList

variable {A : Type*}

/-! ## Cells and chains -/

/-- A place that holds a pointer to a node. -/
inductive Cell (A : Type*)
  | head
  | next (a : A)
deriving DecidableEq, Repr

/-- A head pointer and the `next` pointers of all nodes. -/
structure Chain (A : Type*) where
  head : Option A
  next : A → Option A

/-- Read a cell. -/
def Chain.get (c : Chain A) : Cell A → Option A
  | .head => c.head
  | .next a => c.next a

/-- Write a cell. -/
def Chain.set [DecidableEq A] (c : Chain A) (cell : Cell A) (p : Option A) : Chain A :=
  match cell with
  | .head => { c with head := p }
  | .next a => { c with next := Function.update c.next a p }

/-- Starting at `p`, the `next` pointers lead through the nodes of the list and
then to NULL. -/
def Links (next : A → Option A) : Option A → List A → Prop
  | p, [] => p = none
  | p, a :: l => p = some a ∧ Links next (next a) l

/-- The chain leads through the nodes of the list. -/
def Chain.Holds (c : Chain A) (l : List A) : Prop := Links c.next c.head l

/-- The cell that points past the nodes `xs` of a chain. -/
def cellAfter (xs : List A) : Cell A :=
  match xs.getLast? with
  | none => .head
  | some a => .next a

@[simp] theorem cellAfter_nil : cellAfter ([] : List A) = .head := rfl

@[simp] theorem cellAfter_concat (xs : List A) (a : A) : cellAfter (xs ++ [a]) = .next a := by
  simp [cellAfter]

theorem mem_of_cellAfter {xs : List A} {a : A} (h : cellAfter xs = .next a) : a ∈ xs := by
  rcases List.eq_nil_or_concat xs with rfl | ⟨xs, b, rfl⟩
  · cases h
  · rw [List.concat_eq_append] at h ⊢
    rw [cellAfter_concat] at h
    obtain rfl := Cell.next.inj h
    exact List.mem_append_right _ (List.mem_singleton_self b)

/-- Of numbered nodes a chain without repetition has at most as many as there are numbers. -/
theorem length_le_of_lt {l : List ℕ} {n : ℕ} (hnodup : l.Nodup) (hlt : ∀ a ∈ l, a < n) :
    l.length ≤ n := by
  have hsub : l ⊆ List.range n := fun a ha => List.mem_range.mpr (hlt a ha)
  have hlen := (List.subperm_of_subset hnodup hsub).length_le
  rwa [List.length_range] at hlen

/-! ## Links -/

/-- Only the `next` pointers of the nodes in the list matter. -/
theorem Links.congr {next next' : A → Option A} {p : Option A} {l : List A}
    (h : Links next p l) (heq : ∀ a ∈ l, next' a = next a) : Links next' p l := by
  induction l generalizing p with
  | nil => exact h
  | cons a l ih =>
      refine ⟨h.1, ?_⟩
      rw [heq a List.mem_cons_self]
      exact ih h.2 (fun b hb => heq b (List.mem_cons_of_mem a hb))

/-- A write to a node outside the list does not show. -/
theorem Links.update [DecidableEq A] {next : A → Option A} {p q : Option A} {l : List A} {a : A}
    (h : Links next p l) (ha : a ∉ l) : Links (Function.update next a q) p l :=
  h.congr (fun _ hb => Function.update_of_ne (ne_of_mem_of_not_mem hb ha) ..)

theorem Links.head {next : A → Option A} {p : Option A} {l : List A} (h : Links next p l) :
    p = l.head? := by
  cases l with
  | nil => exact h
  | cons a l => exact h.1

/-- The `next` pointer of a node leads to the rest of the list. -/
theorem Links.next_of_append {next : A → Option A} {p : Option A} {xs ys : List A} {a : A}
    (h : Links next p (xs ++ a :: ys)) : Links next (next a) ys := by
  induction xs generalizing p with
  | nil => exact h.2
  | cons x xs ih => exact ih h.2

/-- Write the `next` pointer of the last node of `xs` and the nodes after it are
the ones the new pointer leads to. -/
theorem Links.splice [DecidableEq A] {next : A → Option A} {p q : Option A} {xs ys zs : List A}
    {a : A} (h : Links next p (xs ++ a :: ys)) (hzs : Links next q zs) (hxs : a ∉ xs)
    (ha : a ∉ zs) : Links (Function.update next a q) p (xs ++ a :: zs) := by
  induction xs generalizing p with
  | nil =>
      refine ⟨h.1, ?_⟩
      rw [Function.update_self]
      exact hzs.update ha
  | cons x xs ih =>
      rw [List.mem_cons, not_or] at hxs
      refine ⟨h.1, ?_⟩
      rw [Function.update_of_ne (Ne.symm hxs.1)]
      exact ih h.2 hxs.2

/-- The pointers lead through one list only. -/
theorem Links.unique {next : A → Option A} {p : Option A} {l l' : List A} (h : Links next p l)
    (h' : Links next p l') : l = l' := by
  induction l generalizing p l' with
  | nil =>
      obtain rfl : p = none := h
      cases l' with
      | nil => rfl
      | cons a' l' => exact absurd h'.1 (by simp)
  | cons a l ih =>
      obtain ⟨rfl, hrest⟩ := h
      cases l' with
      | nil => exact absurd (show some a = none from h') (by simp)
      | cons a' l' =>
          obtain ⟨heq, hrest'⟩ := h'
          obtain rfl := Option.some.inj heq
          rw [ih hrest hrest']

/-! ## Edits of a chain -/

/-- The cell after `xs` points to the first of the other nodes. -/
theorem Chain.Holds.get_cellAfter {c : Chain A} {xs ys : List A} (h : c.Holds (xs ++ ys)) :
    c.get (cellAfter xs) = ys.head? := by
  rcases List.eq_nil_or_concat xs with rfl | ⟨xs, a, rfl⟩
  · exact Links.head h
  · rw [List.concat_eq_append, List.append_assoc] at h
    rw [List.concat_eq_append, cellAfter_concat]
    exact (Links.next_of_append h).head

/-- A cell of the chain points to a node of it. -/
theorem Chain.Holds.get_mem {c : Chain A} {l : List A} (h : c.Holds l) {p : Cell A} {a : A}
    (hp : ∀ b, p = .next b → b ∈ l) (hget : c.get p = some a) : a ∈ l := by
  cases p with
  | head => exact List.mem_of_head? ((Links.head h).symm.trans hget)
  | next b =>
      obtain ⟨xs, ys, rfl⟩ := List.append_of_mem (hp b rfl)
      have hfirst := (Links.next_of_append h).head.symm.trans hget
      exact List.mem_append_right _ (List.mem_cons_of_mem b (List.mem_of_head? hfirst))

/-- A node that is not the last one has a successor. -/
theorem Chain.Holds.next_ne_none {c : Chain A} {xs ys zs : List A} (h : c.Holds (xs ++ (ys ++ zs)))
    (hzs : zs ≠ []) {y : A} (hy : y ∈ ys) : c.next y ≠ none := by
  obtain ⟨before, after, rfl⟩ := List.append_of_mem hy
  have hsplit : xs ++ (before ++ y :: after ++ zs) = (xs ++ before) ++ y :: (after ++ zs) := by simp
  rw [hsplit] at h
  rw [(Links.next_of_append h).head]
  cases after with
  | nil => simpa using hzs
  | cons a after => simp

/-- A loop with a current and a previous node walks over the nodes `ys` if it goes on at each
of them. -/
theorem Chain.Holds.walk {B : Type*} {c : Chain A} {xs ys zs : List A}
    (h : c.Holds (xs ++ (ys ++ zs))) (loop : ℕ → Option A → Option A → B)
    (hstep : ∀ fuel prev, ∀ y ∈ ys, loop (fuel + 1) prev (some y) = loop fuel (some y) (c.next y))
    (fuel : ℕ) :
    loop (ys.length + fuel) xs.getLast? (ys ++ zs).head?
      = loop fuel (xs ++ ys).getLast? zs.head? := by
  induction ys generalizing xs with
  | nil => rw [List.length_nil, Nat.zero_add, List.nil_append, List.append_nil]
  | cons y ys ih =>
      have hnext : c.next y = (ys ++ zs).head? := (Links.next_of_append h).head
      have hassoc : xs ++ (y :: ys ++ zs) = (xs ++ [y]) ++ (ys ++ zs) := by simp
      rw [hassoc] at h
      have hrest := ih h (fun fuel prev z hz => hstep fuel prev z (List.mem_cons_of_mem y hz))
      rw [List.getLast?_concat] at hrest
      rw [List.length_cons, Nat.add_right_comm, List.cons_append, List.head?_cons,
        hstep _ _ y List.mem_cons_self, hnext, hrest, List.append_assoc]
      rfl

/-- The same for a loop with a cell. -/
theorem Chain.Holds.walkCells {B : Type*} {c : Chain A} {xs ys zs : List A}
    (h : c.Holds (xs ++ (ys ++ zs))) (loop : ℕ → Cell A → B)
    (hstep : ∀ fuel p, ∀ y ∈ ys, c.get p = some y → loop (fuel + 1) p = loop fuel (.next y))
    (fuel : ℕ) : loop (ys.length + fuel) (cellAfter xs) = loop fuel (cellAfter (xs ++ ys)) := by
  induction ys generalizing xs with
  | nil => rw [List.length_nil, Nat.zero_add, List.append_nil]
  | cons y ys ih =>
      have hget : c.get (cellAfter xs) = some y := h.get_cellAfter
      have hassoc : xs ++ (y :: ys ++ zs) = (xs ++ [y]) ++ (ys ++ zs) := by simp
      rw [hassoc] at h
      have hrest := ih h (fun fuel p z hz => hstep fuel p z (List.mem_cons_of_mem y hz))
      rw [cellAfter_concat] at hrest
      rw [List.length_cons, Nat.add_right_comm, hstep _ _ y List.mem_cons_self hget, hrest,
        List.append_assoc]
      rfl

/-- Such a loop that begins at the head. -/
theorem Chain.Holds.walkFromHead {B : Type*} {c : Chain A} {ys zs : List A}
    (h : c.Holds (ys ++ zs)) (loop : ℕ → Cell A → B)
    (hstep : ∀ fuel p, ∀ y ∈ ys, c.get p = some y → loop (fuel + 1) p = loop fuel (.next y))
    (fuel : ℕ) : loop (ys.length + fuel) .head = loop fuel (cellAfter ys) := by
  have hnone : c.Holds ([] ++ (ys ++ zs)) := h
  have hwalk := hnone.walkCells loop hstep fuel
  rwa [cellAfter_nil, List.nil_append] at hwalk

/-- Redirect the cell after `xs` to other nodes `zs` of the same memory. -/
theorem Chain.Holds.splice [DecidableEq A] {c : Chain A} {q : Option A} {xs ys zs : List A}
    (h : c.Holds (xs ++ ys)) (hzs : Links c.next q zs) (hnodup : xs.Nodup)
    (hdisj : ∀ a ∈ xs, a ∉ zs) : (c.set (cellAfter xs) q).Holds (xs ++ zs) := by
  rcases List.eq_nil_or_concat xs with rfl | ⟨xs, a, rfl⟩
  · exact hzs
  · rw [List.concat_eq_append] at h hnodup hdisj ⊢
    rw [List.append_assoc] at h ⊢
    rw [cellAfter_concat]
    refine Links.splice h hzs ?_ (hdisj a (by simp))
    exact fun ha => (List.nodup_append.mp hnodup).2.2 a ha a (List.mem_singleton_self a) rfl

/-- Cut out the node `a`. -/
theorem Chain.Holds.unlink [DecidableEq A] {c : Chain A} {xs ys : List A} {a : A}
    (h : c.Holds (xs ++ a :: ys)) (hnodup : (xs ++ a :: ys).Nodup) :
    (c.set (cellAfter xs) (c.next a)).Holds (xs ++ ys) := by
  obtain ⟨hxs, -, hdisj⟩ := List.nodup_append.mp hnodup
  exact h.splice (Links.next_of_append h) hxs
    (fun b hb hys => hdisj b hb b (List.mem_cons_of_mem a hys) rfl)

/-- Put the node `a` in front. -/
theorem Chain.Holds.push [DecidableEq A] {c : Chain A} {l : List A} {a : A} (h : c.Holds l)
    (ha : a ∉ l) : ((c.set (.next a) c.head).set .head (some a)).Holds (a :: l) := by
  refine ⟨rfl, ?_⟩
  simp only [Chain.set, Function.update_self]
  exact Links.update h ha

/-- Put the node `a` at the end. -/
theorem Chain.Holds.append [DecidableEq A] {c : Chain A} {l : List A} {a : A} (h : c.Holds l)
    (hl : l.Nodup) (ha : a ∉ l) :
    ((c.set (.next a) none).set (cellAfter l) (some a)).Holds (l ++ [a]) := by
  have hsame : (c.set (.next a) none).Holds (l ++ []) := by
    rw [List.append_nil]
    exact Links.update h ha
  refine hsame.splice ⟨rfl, ?_⟩ hl (fun b hb hba => ha (List.mem_singleton.mp hba ▸ hb))
  exact Function.update_self ..

end LinkedList

end ProjectsInC.Lib
