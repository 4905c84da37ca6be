/-
Who frees what.

A run of a program with `malloc` and `free` leaves a list of events on blocks.
[`replay`] follows the set of blocks that are allocated and fails at the first
access to a block that is not, so also at a second `free`. What a piece of code
does to the blocks is said by [`Allocates`] and [`Releases`], which leave all
other blocks alone and therefore compose: the rules for a sequence and for a loop
ask only that the pieces are about different blocks.
-/
import Mathlib.Data.Finset.Union
import Mathlib.Data.List.Basic

set_option autoImplicit false

namespace ProjectsInC.Lib

section Allocation

variable {α ι : Type*} [DecidableEq α]

/-! ## Events -/

/-- Something happens to a block. -/
inductive MemEvent (α : Type*)
  | malloc (a : α)
  | access (a : α)
  | free (a : α)
deriving DecidableEq, Repr

/-- The blocks allocated after an event; `none` if it is an error. A new block is
none of those allocated. -/
def MemEvent.apply (live : Finset α) : MemEvent α → Option (Finset α)
  | .malloc a => if a ∈ live then none else some (insert a live)
  | .access a => if a ∈ live then some live else none
  | .free a => if a ∈ live then some (live.erase a) else none

/-- The blocks allocated after a list of events. -/
def replay (live : Finset α) (events : List (MemEvent α)) : Option (Finset α) :=
  events.foldlM MemEvent.apply live

@[simp] theorem replay_nil (live : Finset α) : replay live [] = some live := rfl

theorem replay_cons (live : Finset α) (event : MemEvent α) (events : List (MemEvent α)) :
    replay live (event :: events) = (event.apply live).bind (fun live => replay live events) :=
  List.foldlM_cons

theorem replay_append (live : Finset α) (xs ys : List (MemEvent α)) :
    replay live (xs ++ ys) = (replay live xs).bind (fun live => replay live ys) :=
  List.foldlM_append

theorem replay_malloc {live : Finset α} {a : α} (h : a ∉ live) (events : List (MemEvent α)) :
    replay live (.malloc a :: events) = replay (insert a live) events := by
  rw [replay_cons, MemEvent.apply, if_neg h, Option.bind_some]

theorem replay_access {live : Finset α} {a : α} (h : a ∈ live) (events : List (MemEvent α)) :
    replay live (.access a :: events) = replay live events := by
  rw [replay_cons, MemEvent.apply, if_pos h, Option.bind_some]

theorem replay_free {live : Finset α} {a : α} (h : a ∈ live) (events : List (MemEvent α)) :
    replay live (.free a :: events) = replay (live.erase a) events := by
  rw [replay_cons, MemEvent.apply, if_pos h, Option.bind_some]

/-! ## Pieces of code -/

/-- With the blocks of `ctx` to access, the events allocate those of `new`. -/
def Allocates (ctx new : Finset α) (events : List (MemEvent α)) : Prop :=
  ∀ live, ctx ⊆ live → Disjoint new live → replay live events = some (live ∪ new)

/-- With the blocks of `ctx` to access, the events free those of `old`, each once. -/
def Releases (ctx old : Finset α) (events : List (MemEvent α)) : Prop :=
  ∀ live, ctx ⊆ live → old ⊆ live → replay live events = some (live \ old)

/-- The events are accesses to blocks of `live`. -/
def Reads (live : Finset α) (events : List (MemEvent α)) : Prop :=
  ∀ event ∈ events, ∃ a ∈ live, event = .access a

section Rules

variable {ctx A B : Finset α} {a : α} {xs ys events : List (MemEvent α)}

omit [DecidableEq α] in
theorem Reads.nil (live : Finset α) : Reads live [] := fun _ h => absurd h List.not_mem_nil

omit [DecidableEq α] in
theorem Reads.cons (h : Reads ctx events) (ha : a ∈ ctx) : Reads ctx (.access a :: events) := by
  intro event hevent
  rcases List.mem_cons.mp hevent with rfl | hevent
  · exact ⟨a, ha, rfl⟩
  · exact h event hevent

omit [DecidableEq α] in
theorem Reads.append (hx : Reads ctx xs) (hy : Reads ctx ys) : Reads ctx (xs ++ ys) := by
  intro event hevent
  rcases List.mem_append.mp hevent with hevent | hevent
  · exact hx event hevent
  · exact hy event hevent

theorem Allocates.nil (ctx : Finset α) : Allocates ctx ∅ [] := by
  intro live _ _
  rw [replay_nil, Finset.union_empty]

theorem Allocates.access (ha : a ∈ ctx) (h : Allocates ctx A events) :
    Allocates ctx A (.access a :: events) := by
  intro live hctx hnew
  rw [replay_access (hctx ha)]
  exact h live hctx hnew

theorem Allocates.mono {ctx' : Finset α} (h : Allocates ctx A events) (hsub : ctx ⊆ ctx') :
    Allocates ctx' A events := fun live hctx hnew => h live (hsub.trans hctx) hnew

/-- What comes second can access what the first has allocated. -/
theorem Allocates.append (hx : Allocates ctx A xs) (hy : Allocates (ctx ∪ A) B ys)
    (hdisj : Disjoint A B) : Allocates ctx (A ∪ B) (xs ++ ys) := by
  intro live hctx hnew
  obtain ⟨hA, hB⟩ := Finset.disjoint_union_left.mp hnew
  rw [replay_append, hx live hctx hA, Option.bind_some,
    hy _ (Finset.union_subset_union_left hctx) (Finset.disjoint_union_right.mpr ⟨hB, hdisj.symm⟩),
    Finset.union_assoc]

/-- A block that has just been allocated can be accessed from then on. -/
theorem Allocates.malloc_cons (h : Allocates (insert a ctx) A events) (ha : a ∉ A) :
    Allocates ctx (insert a A) (.malloc a :: events) := by
  intro live hctx hnew
  obtain ⟨hfresh, hA⟩ := Finset.disjoint_insert_left.mp hnew
  rw [replay_malloc hfresh, h _ (Finset.insert_subset_insert a hctx)
    (Finset.disjoint_insert_right.mpr ⟨ha, hA⟩), Finset.insert_union, Finset.union_insert]

/-- Accesses alone change nothing. -/
theorem Reads.allocates (h : Reads ctx events) : Allocates ctx ∅ events := by
  induction events with
  | nil => exact Allocates.nil ctx
  | cons event events ih =>
      obtain ⟨a, ha, rfl⟩ := h event List.mem_cons_self
      exact (ih (fun e he => h e (List.mem_cons_of_mem _ he))).access ha

theorem Reads.replay {live : Finset α} (h : Reads live events) :
    Lib.replay live events = some live := by
  rw [h.allocates live Finset.Subset.rfl (Finset.disjoint_empty_left live), Finset.union_empty]

/-- A counted loop that allocates. What a round has allocated can be accessed in the
rounds after it. -/
theorem Allocates.range {n : ℕ} {new : ℕ → Finset α} {events : ℕ → List (MemEvent α)}
    (h : ∀ i < n, Allocates (ctx ∪ (Finset.range i).biUnion new) (new i) (events i))
    (hdisj : ∀ i j, i ≠ j → Disjoint (new i) (new j)) :
    Allocates ctx ((Finset.range n).biUnion new) ((List.range n).flatMap events) := by
  induction n with
  | zero => exact Allocates.nil ctx
  | succ n ih =>
      have hrounds := ih (fun i hi => h i (Nat.lt_succ_of_lt hi))
      have hapart : Disjoint ((Finset.range n).biUnion new) (new n) := by
        rw [Finset.disjoint_biUnion_left]
        exact fun i hi => hdisj i n (Finset.mem_range.mp hi).ne
      rw [List.range_succ, List.flatMap_append, List.flatMap_singleton, Finset.range_add_one,
        Finset.biUnion_insert, Finset.union_comm]
      exact hrounds.append (h n (Nat.lt_succ_self n)) hapart

theorem Releases.nil (ctx : Finset α) : Releases ctx ∅ [] := by
  intro live _ _
  rw [replay_nil, Finset.sdiff_empty]

theorem Releases.free (ctx : Finset α) (a : α) : Releases ctx {a} [.free a] := by
  intro live _ hold
  rw [replay_free (hold (Finset.mem_singleton_self a)), replay_nil, Finset.sdiff_singleton_eq_erase]

/-- Blocks of the context and blocks still to be freed can be accessed. -/
theorem Releases.access (ha : a ∈ ctx ∪ A) (h : Releases ctx A events) :
    Releases ctx A (.access a :: events) := by
  intro live hctx hold
  rw [replay_access (Finset.union_subset hctx hold ha)]
  exact h live hctx hold

theorem Releases.mono {ctx' : Finset α} (h : Releases ctx A events) (hsub : ctx ⊆ ctx') :
    Releases ctx' A events := fun live hctx hold => h live (hsub.trans hctx) hold

/-- What comes first can access what the second frees. -/
theorem Releases.append (hx : Releases (ctx ∪ B) A xs) (hy : Releases ctx B ys)
    (hctx : Disjoint ctx A) (hdisj : Disjoint A B) : Releases ctx (A ∪ B) (xs ++ ys) := by
  intro live hlive hold
  obtain ⟨hA, hB⟩ := Finset.union_subset_iff.mp hold
  rw [replay_append, hx live (Finset.union_subset hlive hB) hA, Option.bind_some,
    hy _ (Finset.subset_sdiff.mpr ⟨hlive, hctx⟩) (Finset.subset_sdiff.mpr ⟨hB, hdisj.symm⟩),
    sdiff_sdiff_left, Finset.sup_eq_union]

/-- Blocks that nobody needs any more are freed last. -/
theorem Releases.last (h : Releases (insert a ctx) A xs) (ha : a ∉ A) :
    Releases ctx (insert a A) (xs ++ [.free a]) := by
  intro live hlive hold
  obtain ⟨hmem, hA⟩ := Finset.insert_subset_iff.mp hold
  have hleft : a ∈ live \ A := Finset.mem_sdiff.mpr ⟨hmem, ha⟩
  rw [replay_append, h live (Finset.insert_subset hmem hlive) hA, Option.bind_some,
    replay_free hleft, replay_nil, Finset.sdiff_insert]

/-- A node of a tree that is freed in post-order: its left side, its right side and then
the node, which is read before each of them. -/
theorem Releases.postOrder (hleft : Releases ∅ A xs) (hright : Releases ∅ B ys) (hA : a ∉ A)
    (hB : a ∉ B) (hdisj : Disjoint A B) :
    Releases ∅ (insert a (A ∪ B)) (.access a :: (xs ++ .access a :: (ys ++ [.free a]))) := by
  have hlast : Releases ∅ (insert a B) (.access a :: (ys ++ [.free a])) := by
    refine Releases.access (Finset.mem_union_right _ (Finset.mem_insert_self _ _)) ?_
    exact (hright.mono (Finset.empty_subset _)).last hB
  have hall := (hleft.mono (Finset.empty_subset _)).append hlast (Finset.disjoint_empty_left _)
    (Finset.disjoint_insert_right.mpr ⟨hA, hdisj⟩)
  rw [← Finset.union_insert]
  refine Releases.access ?_ hall
  exact Finset.mem_union_right _ (Finset.mem_union_right _ (Finset.mem_insert_self _ _))

theorem Releases.flatMap {rounds : List ι} [DecidableEq ι] {old : ι → Finset α}
    {events : ι → List (MemEvent α)} (hnodup : rounds.Nodup)
    (h : ∀ i ∈ rounds, Releases ctx (old i) (events i))
    (hctx : ∀ i ∈ rounds, Disjoint ctx (old i))
    (hdisj : ∀ i ∈ rounds, ∀ j ∈ rounds, i ≠ j → Disjoint (old i) (old j)) :
    Releases ctx (rounds.toFinset.biUnion old) (rounds.flatMap events) := by
  induction rounds with
  | nil => exact Releases.nil ctx
  | cons i rounds ih =>
      obtain ⟨hi, hnodup'⟩ := List.nodup_cons.mp hnodup
      have hrest := ih hnodup' (fun j hj => h j (List.mem_cons_of_mem i hj))
        (fun j hj => hctx j (List.mem_cons_of_mem i hj))
        (fun j hj k hk => hdisj j (List.mem_cons_of_mem i hj) k (List.mem_cons_of_mem i hk))
      rw [List.flatMap_cons, List.toFinset_cons, Finset.biUnion_insert]
      apply ((h i List.mem_cons_self).mono Finset.subset_union_left).append hrest
        (hctx i List.mem_cons_self)
      rw [Finset.disjoint_biUnion_right]
      intro j hj
      have hj' : j ∈ rounds := List.mem_toFinset.mp hj
      exact hdisj i List.mem_cons_self j (List.mem_cons_of_mem i hj') (fun heq => hi (heq ▸ hj'))

/-- A counted loop that frees. -/
theorem Releases.range {n : ℕ} {old : ℕ → Finset α} {events : ℕ → List (MemEvent α)}
    (h : ∀ i < n, Releases ctx (old i) (events i)) (hctx : ∀ i, Disjoint ctx (old i))
    (hdisj : ∀ i j, i ≠ j → Disjoint (old i) (old j)) :
    Releases ctx ((Finset.range n).biUnion old) ((List.range n).flatMap events) := by
  have hrange : (List.range n).toFinset = Finset.range n := by
    ext i
    rw [List.mem_toFinset, List.mem_range, Finset.mem_range]
  rw [← hrange]
  exact Releases.flatMap List.nodup_range (fun i hi => h i (List.mem_range.mp hi))
    (fun i _ => hctx i) (fun i _ j _ => hdisj i j)

/-! ## What is freed -/

/-- The blocks the events free, in order. -/
def freedBlocks : List (MemEvent α) → List α
  | [] => []
  | .malloc _ :: events => freedBlocks events
  | .access _ :: events => freedBlocks events
  | .free a :: events => a :: freedBlocks events

omit [DecidableEq α] in
theorem freedBlocks_append (xs ys : List (MemEvent α)) :
    freedBlocks (xs ++ ys) = freedBlocks xs ++ freedBlocks ys := by
  induction xs with
  | nil => rfl
  | cons event xs ih =>
      cases event with
      | malloc a => exact ih
      | access a => exact ih
      | free a => exact congrArg (a :: ·) ih

/-- What goes through without allocating anything frees no block twice. -/
theorem nodup_freedBlocks {live live' : Finset α} (h : replay live events = some live')
    (hnew : ∀ a, .malloc a ∉ events) :
    (freedBlocks events).Nodup ∧ ∀ a ∈ freedBlocks events, a ∈ live := by
  induction events generalizing live with
  | nil => exact ⟨List.nodup_nil, fun a ha => absurd ha List.not_mem_nil⟩
  | cons event events ih =>
      have hnew' : ∀ a, .malloc a ∉ events := fun a ha => hnew a (List.mem_cons_of_mem _ ha)
      rw [replay_cons, Option.bind_eq_some_iff] at h
      obtain ⟨live₁, hstep, hrest⟩ := h
      obtain ⟨hnodup, hmem⟩ := ih hrest hnew'
      cases event with
      | malloc a => exact absurd List.mem_cons_self (hnew a)
      | access a =>
          rw [MemEvent.apply] at hstep
          split_ifs at hstep
          obtain rfl := Option.some.inj hstep
          exact ⟨hnodup, hmem⟩
      | free a =>
          rw [MemEvent.apply] at hstep
          split_ifs at hstep with ha
          obtain rfl := Option.some.inj hstep
          refine ⟨List.nodup_cons.mpr ⟨fun hin => ?_, hnodup⟩, fun b hb => ?_⟩
          · exact Finset.notMem_erase a live (hmem a hin)
          · rcases List.mem_cons.mp hb with rfl | hb
            · exact ha
            · exact Finset.mem_of_mem_erase (hmem b hb)

end Rules

end Allocation

end ProjectsInC.Lib
