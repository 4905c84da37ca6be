/-
Recency lists and reuse distance.

Keep the elements of a sequence of accesses in a list, most recent first: an
access moves its element to the front ([`touch`]). The position of an element is
then the number of distinct elements accessed since its own last access, the
reuse distance ([`recency_split`]), and the first `n` positions can be kept
without the others ([`take_touch`]): that is a cache of size `n` which evicts the
least recently used element.
-/
import Mathlib.Data.Finset.Card
import Mathlib.Data.List.Nodup

set_option autoImplicit false

namespace ProjectsInC.Lib

section Recency

variable {α : Type*} [DecidableEq α]

/-- Access `x`: move it to the front, or insert it there. -/
def touch (x : α) (l : List α) : List α := x :: l.erase x

/-- The elements of a sequence of accesses, oldest access first, in order of
their last access, most recent first. -/
def recency (accesses : List α) : List α := accesses.foldl (fun l x => touch x l) []

@[simp] theorem recency_nil : recency ([] : List α) = [] := rfl

@[simp] theorem recency_concat (accesses : List α) (x : α) :
    recency (accesses ++ [x]) = touch x (recency accesses) := by
  simp [recency, List.foldl_append]

/-! ## The elements of a recency list -/

theorem nodup_touch {x : α} {l : List α} (h : l.Nodup) : (touch x l).Nodup :=
  List.nodup_cons.mpr ⟨h.not_mem_erase, h.erase x⟩

/-- The elements behind `x` stay in their order. -/
theorem tail_touch_sublist (x : α) (l : List α) : (touch x l).tail.Sublist l := List.erase_sublist

theorem touch_of_not_mem {x : α} {l : List α} (h : x ∉ l) : touch x l = x :: l := by
  rw [touch, List.erase_of_not_mem h]

theorem touch_middle {x : α} {front : List α} (h : x ∉ front) (back : List α) :
    touch x (front ++ x :: back) = x :: (front ++ back) := by
  rw [touch, List.erase_append_right _ h, List.erase_cons_head]

theorem mem_touch {x y : α} {l : List α} : y ∈ touch x l ↔ y = x ∨ y ∈ l := by
  rw [touch, List.mem_cons]
  by_cases h : y = x
  · simp [h]
  · simp [h, List.mem_erase_of_ne h]

theorem nodup_recency (accesses : List α) : (recency accesses).Nodup := by
  induction accesses using List.reverseRecOn with
  | nil => exact List.nodup_nil
  | append_singleton accesses x ih => rw [recency_concat]; exact nodup_touch ih

theorem mem_recency {accesses : List α} {y : α} : y ∈ recency accesses ↔ y ∈ accesses := by
  induction accesses using List.reverseRecOn with
  | nil => simp
  | append_singleton accesses x ih =>
      rw [recency_concat, mem_touch, ih, List.mem_append, List.mem_singleton, or_comm]

/-- A recency list is as long as there are distinct elements. -/
theorem length_recency (accesses : List α) :
    (recency accesses).length = accesses.toFinset.card := by
  have hset : (recency accesses).toFinset = accesses.toFinset := by
    ext y
    simp [mem_recency]
  rw [← hset, List.toFinset_card_of_nodup (nodup_recency accesses)]

/-- A recency list is in order of last occurrence, the most recent one first. -/
theorem pairwise_recency [BEq α] [LawfulBEq α] (accesses : List α) :
    (recency accesses).Pairwise
      (fun x y => accesses.reverse.idxOf x < accesses.reverse.idxOf y) := by
  induction accesses using List.reverseRecOn with
  | nil => exact List.Pairwise.nil
  | append_singleton accesses x ih =>
      have hother : ∀ y, x ≠ y →
          (accesses ++ [x]).reverse.idxOf y = accesses.reverse.idxOf y + 1 := by
        intro y hne
        rw [List.reverse_concat, List.idxOf_cons_ne _ hne]
      have hnodup := nodup_recency (accesses ++ [x])
      rw [recency_concat, touch, List.nodup_cons] at hnodup
      rw [recency_concat, touch, List.pairwise_cons]
      constructor
      · intro y hy
        rw [hother y (fun h => hnodup.1 (h ▸ hy)), List.reverse_concat, List.idxOf_cons_self]
        exact Nat.succ_pos _
      · refine (ih.sublist (tail_touch_sublist x _)).imp_of_mem (fun {y z} hy hz hlt => ?_)
        rw [hother y (fun h => hnodup.1 (h ▸ hy)), hother z (fun h => hnodup.1 (h ▸ hz))]
        exact Nat.succ_lt_succ hlt

/-! ## Order of arrival -/

/-- Append `x` if it is new. -/
def arrive (x : α) (l : List α) : List α := if x ∈ l then l else l ++ [x]

/-- The elements of a sequence of accesses in order of their first access. -/
def arrivals (accesses : List α) : List α := accesses.foldl (fun l x => arrive x l) []

@[simp] theorem arrivals_concat (accesses : List α) (x : α) :
    arrivals (accesses ++ [x]) = arrive x (arrivals accesses) := by
  simp [arrivals, List.foldl_append]

theorem mem_arrive {x y : α} {l : List α} : y ∈ arrive x l ↔ y = x ∨ y ∈ l := by
  unfold arrive
  split_ifs with h
  · constructor
    · exact Or.inr
    · rintro (rfl | hy)
      · exact h
      · exact hy
  · rw [List.mem_append, List.mem_singleton, or_comm]

theorem mem_arrivals {accesses : List α} {y : α} : y ∈ arrivals accesses ↔ y ∈ accesses := by
  induction accesses using List.reverseRecOn with
  | nil => exact Iff.rfl
  | append_singleton accesses x ih =>
      rw [arrivals_concat, mem_arrive, ih, List.mem_append, List.mem_singleton, or_comm]

/-- They are in order of first occurrence. -/
theorem pairwise_arrivals [BEq α] [LawfulBEq α] (accesses : List α) :
    (arrivals accesses).Pairwise (fun x y => accesses.idxOf x < accesses.idxOf y) := by
  induction accesses using List.reverseRecOn with
  | nil => exact List.Pairwise.nil
  | append_singleton accesses x ih =>
      have hold : ∀ y ∈ arrivals accesses,
          (accesses ++ [x]).idxOf y = accesses.idxOf y := by
        intro y hy
        exact List.idxOf_append_of_mem (mem_arrivals.mp hy)
      have hkept : (arrivals accesses).Pairwise
          (fun y z => (accesses ++ [x]).idxOf y < (accesses ++ [x]).idxOf z) := by
        refine ih.imp_of_mem (fun {y z} hy hz hlt => ?_)
        rwa [hold y hy, hold z hz]
      rw [arrivals_concat, arrive]
      split_ifs with hx
      · exact hkept
      · refine List.pairwise_append.mpr ⟨hkept, List.pairwise_singleton .., ?_⟩
        intro y hy z hz
        -- the new one comes after everything that was there
        rw [List.mem_singleton.mp hz, hold y hy,
          List.idxOf_append_of_notMem (fun h => hx (mem_arrivals.mpr h)), List.idxOf_cons_self,
          Nat.add_zero]
        exact List.idxOf_lt_length_iff.mpr (mem_arrivals.mp hy)

/-! ## Position and reuse distance -/

/-- In front of `x` stand exactly the elements accessed since its last access. -/
theorem recency_split {x : α} (before after : List α) (hx : x ∉ after) :
    ∃ front back, recency (before ++ x :: after) = front ++ x :: back ∧
      front.toFinset = after.toFinset := by
  induction after using List.reverseRecOn with
  | nil => exact ⟨[], (recency before).erase x, by simp [touch], rfl⟩
  | append_singleton after y ih =>
      rw [List.mem_append, not_or, List.mem_singleton] at hx
      obtain ⟨front, back, hsplit, hset⟩ := ih hx.1
      have hassoc : before ++ x :: (after ++ [y]) = (before ++ x :: after) ++ [y] := by simp
      rw [hassoc, recency_concat, hsplit, touch]
      by_cases hy : y ∈ front
      · -- `y` moves up inside the front part
        refine ⟨y :: front.erase y, back, by rw [List.erase_append_left _ hy]; rfl, ?_⟩
        ext z
        have hz : z ∈ y :: front.erase y ↔ z = y ∨ z ∈ front := mem_touch
        have hfront : z ∈ front ↔ z ∈ after := by simpa using Finset.ext_iff.mp hset z
        simp only [List.mem_toFinset, hz, hfront, List.mem_append, List.mem_singleton]
        exact or_comm
      · -- `y` comes from behind `x`, or is new
        refine ⟨y :: front, back.erase y, ?_, ?_⟩
        · rw [List.erase_append_right _ hy, List.erase_cons_tail (by simpa using hx.2)]
          rfl
        · ext z
          have hfront : z ∈ front ↔ z ∈ after := by simpa using Finset.ext_iff.mp hset z
          simp only [List.mem_toFinset, List.mem_cons, hfront, List.mem_append,
            List.not_mem_nil, or_false]
          exact or_comm

/-- The reuse distance of `x`: it was accessed before, and since its last access
fewer than `n` distinct elements were. -/
def ReusedWithin (n : ℕ) (x : α) (accesses : List α) : Prop :=
  ∃ before after, accesses = before ++ x :: after ∧ x ∉ after ∧ after.toFinset.card < n

omit [DecidableEq α] in
/-- An element that occurs has a last occurrence. -/
theorem exists_last_occurrence {x : α} {l : List α} (h : x ∈ l) :
    ∃ before after, l = before ++ x :: after ∧ x ∉ after := by
  obtain ⟨after, before, hrev, hx⟩ := List.eq_append_cons_of_mem (List.mem_reverse.mpr h)
  refine ⟨before.reverse, after.reverse, ?_, by simpa using hx⟩
  rw [← List.reverse_reverse l, hrev]
  simp

/-- An element is among the first `n` of the recency list exactly if its reuse
distance is below `n`. -/
theorem mem_take_recency_iff {n : ℕ} {x : α} {accesses : List α} :
    x ∈ (recency accesses).take n ↔ ReusedWithin n x accesses := by
  -- `x` stands behind the `front`, so it is among the first `n` if `front` is shorter
  have hlast : ∀ before after, accesses = before ++ x :: after → x ∉ after →
      (x ∈ (recency accesses).take n ↔ after.toFinset.card < n) := by
    intro before after hacc hx
    obtain ⟨front, back, hsplit, hset⟩ := recency_split before after hx
    have hnodup := nodup_recency (before ++ x :: after)
    rw [hsplit] at hnodup
    have hfront : front.Nodup := (List.nodup_append.mp hnodup).1
    have hnotin : x ∉ front := fun h =>
      (List.nodup_append.mp hnodup).2.2 x h x List.mem_cons_self rfl
    rw [hacc, hsplit, ← hset, List.toFinset_card_of_nodup hfront, List.take_append,
      List.mem_append]
    constructor
    · rintro (h | h)
      · exact absurd (List.mem_of_mem_take h) hnotin
      · by_contra hle
        rw [Nat.sub_eq_zero_of_le (not_lt.mp hle)] at h
        exact absurd h (by simp)
    · intro hlt
      obtain ⟨m, hm⟩ : ∃ m, n - front.length = m + 1 := ⟨n - front.length - 1, by omega⟩
      rw [hm]
      exact .inr (by simp)
  constructor
  · intro h
    obtain ⟨before, after, hacc, hx⟩ :=
      exists_last_occurrence (mem_recency.mp (List.mem_of_mem_take h))
    exact ⟨before, after, hacc, hx, (hlast before after hacc hx).mp h⟩
  · rintro ⟨before, after, hacc, hx, hcard⟩
    exact (hlast before after hacc hx).mpr hcard

/-- An injective renaming keeps the number of distinct elements. -/
theorem card_toFinset_map {β : Type*} [DecidableEq β] {f : α → β} (hf : Function.Injective f)
    (l : List α) : (l.map f).toFinset.card = l.toFinset.card := by
  have himage : (l.map f).toFinset = l.toFinset.image f := by
    ext y
    simp
  rw [himage, Finset.card_image_of_injective _ hf]

/-- Reuse distances are the same under any names for the elements. -/
theorem reusedWithin_map_iff {β : Type*} [DecidableEq β] {f : α → β} (hf : Function.Injective f)
    {n : ℕ} {x : α} {accesses : List α} :
    ReusedWithin n (f x) (accesses.map f) ↔ ReusedWithin n x accesses := by
  constructor
  · rintro ⟨before', after', hsplit, hx, hcard⟩
    obtain ⟨before, rest, rfl, rfl, hrest⟩ := List.map_eq_append_iff.mp hsplit
    obtain ⟨y, after, rfl, hy, rfl⟩ := List.map_eq_cons_iff.mp hrest
    rw [card_toFinset_map hf] at hcard
    exact ⟨before, after, by rw [hf hy], fun h => hx (List.mem_map_of_mem h), hcard⟩
  · rintro ⟨before, after, rfl, hx, hcard⟩
    refine ⟨before.map f, after.map f, by simp, fun h => ?_, ?_⟩
    · obtain ⟨y, hy, heq⟩ := List.mem_map.mp h
      exact hx (hf heq ▸ hy)
    · rwa [card_toFinset_map hf]

/-! ## The first `n` positions -/

/-- What an access leaves in the first `n` positions depends on these only. -/
theorem take_touch (n : ℕ) (x : α) (l : List α) :
    (touch x l).take n = (touch x (l.take n)).take n := by
  cases n with
  | zero => rfl
  | succ n =>
      rw [touch, touch, List.take_succ_cons, List.take_succ_cons]
      congr 1
      by_cases hx : x ∈ l.take (n + 1)
      · -- both lose the same element in the first `n + 1` positions
        have hsplit := List.take_append_drop (n + 1) l
        rw [← congrArg (fun l' => l'.erase x) hsplit, List.erase_append_left _ hx,
          List.take_append, List.length_erase_of_mem hx]
        by_cases hlong : n + 1 ≤ l.length
        · rw [List.length_take, min_eq_left hlong]
          simp
        · rw [List.drop_eq_nil_of_le (by omega)]
          simp
      · -- what is erased, if anything, lies behind them
        rw [List.erase_of_not_mem hx, List.take_take, min_eq_left (Nat.le_succ n)]
        have hsplit := List.take_append_drop (n + 1) l
        rw [← congrArg (fun l' => l'.erase x) hsplit, List.erase_append_right _ hx,
          List.take_append, List.length_take, List.take_take, min_eq_left (Nat.le_succ n)]
        by_cases hlong : n + 1 ≤ l.length
        · rw [min_eq_left hlong]
          simp
        · rw [List.drop_eq_nil_of_le (by omega)]
          simp

/-- An access to an element among the first `n`. -/
theorem take_touch_of_mem {n : ℕ} {x : α} {l : List α} (h : x ∈ l.take n) :
    (touch x l).take n = x :: (l.take n).erase x := by
  rw [take_touch, touch, List.take_of_length_le]
  have hpos := List.length_pos_of_mem h
  rw [List.length_cons, List.length_erase_of_mem h]
  have := List.length_take_le n l
  omega

/-- An access to another element while there is room. -/
theorem take_touch_of_room {n : ℕ} {x : α} {l : List α} (h : x ∉ l.take n)
    (hroom : l.length < n) : (touch x l).take n = x :: l.take n := by
  rw [take_touch, touch, List.erase_of_not_mem h, List.take_of_length_le]
  rw [List.length_cons, List.length_take]
  omega

/-- An access to another element in a full list evicts the last one. -/
theorem take_touch_of_full {n : ℕ} {x : α} {l : List α} (h : x ∉ l.take n) (hn : 0 < n)
    (hfull : n ≤ l.length) : (touch x l).take n = x :: (l.take n).dropLast := by
  obtain ⟨m, rfl⟩ : ∃ m, n = m + 1 := ⟨n - 1, by omega⟩
  rw [take_touch, touch, List.erase_of_not_mem h, List.take_succ_cons, List.dropLast_eq_take,
    List.length_take, min_eq_left hfull, Nat.add_sub_cancel]

end Recency

end ProjectsInC.Lib
