/-
`pqueue.c`: the priority queue, an array that is sorted again after each
insertion.

What a queue holds is the list of its used slots ([`PriorityQueue.slots`]), and
both operations are described by what they do to it.
-/
import ProjectsInC.Stdlib
import ProjectsInC.Huffman.Tree

set_option autoImplicit false

namespace ProjectsInC.Huffman

/-- `MAXSIZE` -/
def MAXSIZE : ℕ := 256

/-- `PriorityQueue`; what `queue` is at `MAXSIZE` and above lies outside the
array. -/
structure PriorityQueue where
  queue : ℕ → TreeNode
  count : ℕ

/-- The used part of the array. -/
def PriorityQueue.slots (pq : PriorityQueue) : List TreeNode :=
  (List.range pq.count).map pq.queue

/-- `comparator`; a used slot is never NULL. -/
def comparator (n1 n2 : TreeNode) : CInt := n1.freq.v - n2.freq.v

/-- `sort` -/
def sort (qsort : Qsort TreeNode) (pq : PriorityQueue) : PriorityQueue :=
  let sorted := qsort.run comparator pq.slots
  { pq with queue := fun i => if i < pq.count then sorted.getD i .null else pq.queue i }

/-- `pqueue_new`; `beyond` is the memory behind the array. -/
def pqueue_new (beyond : ℕ → TreeNode) : PriorityQueue where
  queue := fun i => if i < MAXSIZE then .null else beyond i
  count := 0

/-- `pqueue_enqueue` -/
def pqueue_enqueue (qsort : Qsort TreeNode) (pq : PriorityQueue) (n : TreeNode) : PriorityQueue :=
  if pq.count ≥ MAXSIZE then pq
  else sort qsort { queue := Function.update pq.queue pq.count n, count := pq.count + 1 }

/-- `for (i = 1; i <= count; i++) queue[i-1] = queue[i]` -/
def shiftSlots (count : ℕ) (queue : ℕ → TreeNode) : ℕ → TreeNode :=
  (List.range count).foldl (fun queue i => Function.update queue i (queue (i + 1))) queue

/-- `pqueue_dequeue` -/
def pqueue_dequeue (pq : PriorityQueue) : TreeNode × PriorityQueue :=
  if pq.count = 0 then (.null, pq)
  else (pq.queue 0,
    { queue := Function.update (shiftSlots pq.count pq.queue) (pq.count - 1) .null,
      count := pq.count - 1 })

/-- `pqueue_size` -/
def pqueue_size (pq : PriorityQueue) : ℕ := pq.count

/-! ## What the operations do to the slots -/

@[simp] theorem length_slots (pq : PriorityQueue) : pq.slots.length = pq.count := by
  simp [PriorityQueue.slots]

/-- A queue of two or more. -/
theorem slots_two {pq : PriorityQueue} (h : 1 < pq.count) : ∃ L R ts, pq.slots = L :: R :: ts := by
  rw [← length_slots] at h
  obtain ⟨L, rest, hslots⟩ := List.exists_cons_of_length_pos (Nat.lt_of_succ_lt h)
  rw [hslots, List.length_cons] at h
  obtain ⟨R, ts, hrest⟩ := List.exists_cons_of_length_pos (Nat.lt_of_succ_lt_succ h)
  exact ⟨L, R, ts, by rw [hslots, hrest]⟩

@[simp] theorem slots_new (beyond : ℕ → TreeNode) : (pqueue_new beyond).slots = [] := rfl

theorem slots_sort (qsort : Qsort TreeNode) (pq : PriorityQueue) :
    (sort qsort pq).slots = qsort.run comparator pq.slots := by
  have hlen : (qsort.run comparator pq.slots).length = pq.count := by
    rw [qsort.length_run, length_slots]
  refine List.ext_getElem (by rw [length_slots, hlen]; rfl) (fun i h₁ h₂ => ?_)
  have hi : i < pq.count := by rwa [hlen] at h₂
  simp only [PriorityQueue.slots, sort, List.getElem_map, List.getElem_range, if_pos hi]
  exact (List.getElem_eq_getD _).symm

/-- As long as there is room, an insertion sorts the new node in. -/
theorem slots_enqueue (qsort : Qsort TreeNode) {pq : PriorityQueue} (h : pq.count < MAXSIZE)
    (n : TreeNode) :
    (pqueue_enqueue qsort pq n).slots = qsort.run comparator (pq.slots ++ [n]) := by
  have hslots : (PriorityQueue.mk (Function.update pq.queue pq.count n) (pq.count + 1)).slots
      = pq.slots ++ [n] := by
    simp only [PriorityQueue.slots, List.range_succ, List.map_append, List.map_singleton,
      Function.update_self]
    congr 1
    refine List.map_congr_left (fun i hi => Function.update_of_ne ?_ ..)
    have := List.mem_range.mp hi
    omega
  rw [pqueue_enqueue, if_neg (not_le.mpr h), slots_sort, hslots]

theorem shiftSlots_succ (count : ℕ) (queue : ℕ → TreeNode) :
    shiftSlots (count + 1) queue
      = Function.update (shiftSlots count queue) count (shiftSlots count queue (count + 1)) := by
  simp only [shiftSlots, List.range_succ, List.foldl_append, List.foldl_cons, List.foldl_nil]

/-- The shift moves every used slot by one. -/
theorem shiftSlots_apply (count : ℕ) (queue : ℕ → TreeNode) (i : ℕ) :
    shiftSlots count queue i = if i < count then queue (i + 1) else queue i := by
  induction count generalizing i with
  | zero => rfl
  | succ count ih =>
      rw [shiftSlots_succ]
      by_cases h : i = count
      · rw [h, Function.update_self, ih, if_neg (by omega), if_pos (Nat.lt_succ_self count)]
      · rw [Function.update_of_ne h, ih]
        by_cases hlt : i < count
        · rw [if_pos hlt, if_pos (by omega)]
        · rw [if_neg hlt, if_neg (by omega)]

/-- A non-empty queue gives its first slot and keeps the others. -/
theorem dequeue_cons {pq : PriorityQueue} {t : TreeNode} {ts : List TreeNode}
    (h : pq.slots = t :: ts) :
    (pqueue_dequeue pq).1 = t ∧ (pqueue_dequeue pq).2.slots = ts := by
  have hcount : pq.count = ts.length + 1 := by rw [← length_slots, h, List.length_cons]
  have hget : ∀ i (hi : i < (t :: ts).length), (t :: ts)[i] = pq.queue i := by
    intro i hi
    have hsame : (t :: ts)[i]? = pq.slots[i]? := by rw [h]
    rw [List.getElem?_eq_getElem hi, PriorityQueue.slots, List.getElem?_map,
      List.getElem?_range (by rw [hcount]; simpa using hi)] at hsame
    exact Option.some.inj hsame
  rw [pqueue_dequeue, if_neg (by omega)]
  refine ⟨(hget 0 (by simp)).symm, ?_⟩
  refine List.ext_getElem (by simp [PriorityQueue.slots, hcount]) (fun i h₁ h₂ => ?_)
  have hi : i < pq.count - 1 := by omega
  have htail : ts[i] = pq.queue (i + 1) := hget (i + 1) (by simpa using h₂)
  simp only [PriorityQueue.slots, List.getElem_map, List.getElem_range, htail]
  rw [Function.update_of_ne (by omega), shiftSlots_apply, if_pos (by omega)]

theorem dequeue_nil {pq : PriorityQueue} (h : pq.slots = []) :
    (pqueue_dequeue pq).1 = .null ∧ (pqueue_dequeue pq).2 = pq := by
  have hcount : pq.count = 0 := by rw [← length_slots, h, List.length_nil]
  rw [pqueue_dequeue, if_pos hcount]
  exact ⟨rfl, rfl⟩

/-! ## The number of nodes and the slots behind them -/

section Unused

variable {pq : PriorityQueue} {i : ℕ}

theorem count_enqueue (qsort : Qsort TreeNode) (h : pq.count < MAXSIZE) (n : TreeNode) :
    (pqueue_enqueue qsort pq n).count = pq.count + 1 := by
  rw [pqueue_enqueue, if_neg (not_le.mpr h)]
  rfl

theorem enqueue_full (qsort : Qsort TreeNode) (h : MAXSIZE ≤ pq.count) (n : TreeNode) :
    pqueue_enqueue qsort pq n = pq := if_pos h

theorem count_dequeue (pq : PriorityQueue) : (pqueue_dequeue pq).2.count = pq.count - 1 := by
  rw [pqueue_dequeue]
  split_ifs with h
  · rw [h]
  · rfl

/-- Neither the store nor the sort gets past the slot of the new node. -/
theorem queue_enqueue (qsort : Qsort TreeNode) (n : TreeNode) (h : pq.count < MAXSIZE)
    (hi : pq.count < i) : (pqueue_enqueue qsort pq n).queue i = pq.queue i := by
  rw [pqueue_enqueue, if_neg (not_le.mpr h)]
  simp only [sort]
  rw [if_neg (by omega), Function.update_of_ne (by omega)]

/-- The shift moves what lies behind the used slots into the last of them, and the NULL covers it. -/
theorem queue_dequeue (h : pq.count ≠ 0) (hi : pq.count - 1 ≤ i) :
    (pqueue_dequeue pq).2.queue i = if i = pq.count - 1 then .null else pq.queue i := by
  rw [pqueue_dequeue, if_neg h]
  by_cases heq : i = pq.count - 1
  · rw [if_pos heq, heq]
    exact Function.update_self ..
  · rw [if_neg heq]
    simp only
    rw [Function.update_of_ne heq, shiftSlots_apply, if_neg (by omega)]

end Unused

/-! ## What lies behind the used slots -/

section Behind

variable {pq pq' : PriorityQueue}

/-- The operations see the used slots only. -/
theorem enqueue_congr (qsort : Qsort TreeNode) (h : pq.slots = pq'.slots) (n : TreeNode) :
    (pqueue_enqueue qsort pq n).slots = (pqueue_enqueue qsort pq' n).slots := by
  have hcount : pq.count = pq'.count := by rw [← length_slots, h, length_slots]
  by_cases hroom : pq.count < MAXSIZE
  · rw [slots_enqueue qsort hroom, slots_enqueue qsort (hcount ▸ hroom), h]
  · have hfull : MAXSIZE ≤ pq.count := Nat.le_of_not_lt hroom
    rw [enqueue_full qsort hfull, enqueue_full qsort (hcount ▸ hfull), h]

theorem dequeue_congr (h : pq.slots = pq'.slots) :
    (pqueue_dequeue pq).1 = (pqueue_dequeue pq').1 ∧
      (pqueue_dequeue pq).2.slots = (pqueue_dequeue pq').2.slots := by
  cases hslots : pq.slots with
  | nil =>
      obtain ⟨ht, hts⟩ := dequeue_nil hslots
      obtain ⟨ht', hts'⟩ := dequeue_nil (h.symm.trans hslots)
      exact ⟨ht.trans ht'.symm, by rw [hts, hts', h]⟩
  | cons t ts =>
      obtain ⟨ht, hts⟩ := dequeue_cons hslots
      obtain ⟨ht', hts'⟩ := dequeue_cons (h.symm.trans hslots)
      exact ⟨ht.trans ht'.symm, hts.trans hts'.symm⟩

end Behind

end ProjectsInC.Huffman
