/-
Which slots of the array the priority queue uses.

The two operations are written once more with every access to `queue[]` going
through a load or a store that records its index, and they compute what the
plain ones do ([`traced_enqueue_fst`], [`traced_dequeue_fst`]). On a queue that
is not empty `pqueue_dequeue` uses the slots 0 to `count`, one more than are
used, so a sequence of calls stays inside the array exactly if it never takes
from a full queue.
-/
import ProjectsInC.Huffman.QueueRuns

set_option autoImplicit false

namespace ProjectsInC.Huffman

open NodeType

/-! ## Recorded accesses -/

/-- The array of a queue and the indices into it that were used so far. -/
structure SlotTrace where
  queue : ℕ → TreeNode
  indices : List ℤ

/-- `queue[i]` -/
def SlotTrace.load (m : SlotTrace) (i : ℤ) : TreeNode × SlotTrace :=
  (m.queue i.toNat, { m with indices := m.indices ++ [i] })

/-- `queue[i] = n` -/
def SlotTrace.store (m : SlotTrace) (i : ℤ) (n : TreeNode) : SlotTrace where
  queue := Function.update m.queue i.toNat n
  indices := m.indices ++ [i]

/-- `queue[i-1] = queue[i]` -/
def SlotTrace.shift (m : SlotTrace) (i : ℤ) : SlotTrace :=
  let (n, m) := m.load i
  m.store (i - 1) n

/-- `pqueue_enqueue`; `qsort` may use every slot of the range it is called on. -/
def pqueue_enqueue_traced (qsort : Qsort TreeNode) (pq : PriorityQueue) (n : TreeNode) :
    PriorityQueue × List ℤ :=
  if pq.count ≥ MAXSIZE then (pq, [])
  else
    let m := SlotTrace.store { queue := pq.queue, indices := [] } pq.count n
    let pq : PriorityQueue := { queue := m.queue, count := pq.count + 1 }
    (sort qsort pq, m.indices ++ (List.range pq.count).map (fun i : ℕ => (i : ℤ)))

/-- `pqueue_dequeue` -/
def pqueue_dequeue_traced (pq : PriorityQueue) : (TreeNode × PriorityQueue) × List ℤ :=
  if pq.count = 0 then ((.null, pq), [])
  else
    let (T, m) := SlotTrace.load { queue := pq.queue, indices := [] } 0
    -- `for (i = 1; i <= count; i++)`
    let m := (List.range pq.count).foldl (fun m i => m.shift ((i : ℤ) + 1)) m
    let m := m.store ((pq.count : ℤ) - 1) .null
    ((T, { queue := m.queue, count := pq.count - 1 }), m.indices)

/-- One call: the queue after it and the indices it uses. -/
def QueueCall.traced (qsort : Qsort TreeNode) (pq : PriorityQueue) :
    QueueCall → PriorityQueue × List ℤ
  | .enqueue n => pqueue_enqueue_traced qsort pq n
  | .dequeue behind =>
      ((pqueue_dequeue_traced (pq.withBehind behind)).1.2,
        (pqueue_dequeue_traced (pq.withBehind behind)).2)

/-- The indices used by a sequence of calls. -/
def queueIndices (qsort : Qsort TreeNode) : PriorityQueue → List QueueCall → List ℤ
  | _, [] => []
  | pq, call :: calls =>
      (call.traced qsort pq).2 ++ queueIndices qsort (call.traced qsort pq).1 calls

/-! ## What one call uses -/

section Trace

variable {pq : PriorityQueue} {j : ℤ}

@[simp] theorem shift_queue (m : SlotTrace) (i : ℕ) :
    (m.shift ((i : ℤ) + 1)).queue = Function.update m.queue i (m.queue (i + 1)) := by
  have hread : ((i : ℤ) + 1).toNat = i + 1 := by omega
  have hwrite : ((i : ℤ) + 1 - 1).toNat = i := by omega
  simp only [SlotTrace.shift, SlotTrace.load, SlotTrace.store, hread, hwrite]

theorem mem_shift_indices (m : SlotTrace) (i : ℤ) :
    j ∈ (m.shift i).indices ↔ j ∈ m.indices ∨ j = i ∨ j = i - 1 := by
  simp only [SlotTrace.shift, SlotTrace.load, SlotTrace.store, List.mem_append,
    List.mem_singleton, or_assoc]

/-- The loop of `pqueue_dequeue` shifts the slots and uses those from 0 to `count`. -/
theorem foldl_shift (count : ℕ) (m : SlotTrace) :
    let m' := (List.range count).foldl (fun m i => m.shift ((i : ℤ) + 1)) m
    m'.queue = shiftSlots count m.queue ∧
      ∀ j, j ∈ m'.indices ↔ j ∈ m.indices ∨ (0 < count ∧ 0 ≤ j ∧ j ≤ count) := by
  induction count with
  | zero => exact ⟨rfl, fun j => by simp⟩
  | succ count ih =>
      obtain ⟨hqueue, hindices⟩ := ih
      simp only [List.range_succ, List.foldl_append, List.foldl_cons, List.foldl_nil]
      constructor
      · rw [shift_queue, shiftSlots_succ, hqueue]
      · intro j
        rw [mem_shift_indices, hindices j, or_assoc]
        apply or_congr_right
        omega

theorem traced_enqueue_fst (qsort : Qsort TreeNode) (pq : PriorityQueue) (n : TreeNode) :
    (pqueue_enqueue_traced qsort pq n).1 = pqueue_enqueue qsort pq n := by
  rw [pqueue_enqueue_traced, pqueue_enqueue]
  split_ifs with hfull
  · rfl
  · simp only [SlotTrace.store, Int.toNat_natCast]

theorem traced_dequeue_fst (pq : PriorityQueue) :
    (pqueue_dequeue_traced pq).1 = pqueue_dequeue pq := by
  rw [pqueue_dequeue_traced, pqueue_dequeue]
  split_ifs with hempty
  · rfl
  · have hlast : ((pq.count : ℤ) - 1).toNat = pq.count - 1 := by omega
    simp only [SlotTrace.load, SlotTrace.store, hlast, Int.toNat_zero,
      (foldl_shift pq.count _).1]

/-- A stored node and the sort use the slots up to the new node. -/
theorem mem_enqueue_indices (qsort : Qsort TreeNode) (n : TreeNode) :
    j ∈ (pqueue_enqueue_traced qsort pq n).2 ↔ pq.count < MAXSIZE ∧ 0 ≤ j ∧ j ≤ pq.count := by
  rw [pqueue_enqueue_traced]
  split_ifs with hfull
  · simp only [List.not_mem_nil, false_iff]
    omega
  · simp only [SlotTrace.store, List.nil_append, List.mem_append, List.mem_singleton,
      List.mem_map, List.mem_range]
    constructor
    · rintro (rfl | ⟨i, hi, rfl⟩) <;> omega
    · rintro ⟨-, hj, hle⟩
      exact .inr ⟨j.toNat, by omega, by omega⟩

/-- On a queue that is not empty `pqueue_dequeue` uses all slots from 0 to `count`. -/
theorem mem_dequeue_indices :
    j ∈ (pqueue_dequeue_traced pq).2 ↔ pq.count ≠ 0 ∧ 0 ≤ j ∧ j ≤ pq.count := by
  rw [pqueue_dequeue_traced]
  split_ifs with hempty
  · simp [hempty]
  · simp only [SlotTrace.load, SlotTrace.store, List.mem_append, List.mem_singleton,
      (foldl_shift pq.count _).2 j, List.nil_append]
    constructor
    · rintro ((rfl | hloop) | rfl) <;> omega
    · rintro ⟨-, hj, hle⟩
      exact .inl (.inr ⟨by omega, hj, hle⟩)

end Trace

/-- Recording the indices does not change the queue. -/
theorem traced_fst (qsort : Qsort TreeNode) (pq : PriorityQueue) (call : QueueCall) :
    (call.traced qsort pq).1 = call.run qsort pq := by
  cases call with
  | enqueue n => exact traced_enqueue_fst qsort pq n
  | dequeue behind => exact congrArg Prod.snd (traced_dequeue_fst _)

/-! ## Every sequence of calls -/

/-- How many nodes are queued after a call, if `n` were before it. -/
def QueueCall.queued (n : ℕ) : QueueCall → ℕ
  | .enqueue _ => min (n + 1) MAXSIZE
  | .dequeue _ => n - 1

/-- With `n` nodes queued at the start, `pqueue_dequeue` is never called on a full queue. -/
def NoFullDequeue : ℕ → List QueueCall → Prop
  | _, [] => True
  | n, call :: calls =>
      (∀ behind, call = .dequeue behind → n < MAXSIZE) ∧ NoFullDequeue (call.queued n) calls

section Bounds

variable {pq : PriorityQueue}

theorem count_traced (qsort : Qsort TreeNode) (h : pq.count ≤ MAXSIZE) (call : QueueCall) :
    (call.traced qsort pq).1.count = call.queued pq.count := by
  rw [traced_fst]
  cases call with
  | enqueue n =>
      rw [QueueCall.run, QueueCall.queued]
      by_cases hroom : pq.count < MAXSIZE
      · rw [count_enqueue qsort hroom, min_eq_left hroom]
      · rw [enqueue_full qsort (not_lt.mp hroom), min_eq_right (by omega)]
        omega
  | dequeue behind => exact count_dequeue (pq.withBehind behind)

theorem queued_le {n : ℕ} (h : n ≤ MAXSIZE) (call : QueueCall) : call.queued n ≤ MAXSIZE := by
  cases call with
  | enqueue _ => exact min_le_right ..
  | dequeue _ => exact (Nat.sub_le ..).trans h

/-- One call stays inside the array unless it is `pqueue_dequeue` on a full queue. -/
theorem traced_inside_iff (qsort : Qsort TreeNode) (h : pq.count ≤ MAXSIZE) (call : QueueCall) :
    (∀ i ∈ (call.traced qsort pq).2, 0 ≤ i ∧ i < MAXSIZE) ↔
      ∀ behind, call = .dequeue behind → pq.count < MAXSIZE := by
  cases call with
  | enqueue n =>
      constructor
      · rintro - behind heq
        cases heq
      · intro _ i hi
        obtain ⟨hroom, hpos, hle⟩ := (mem_enqueue_indices qsort n).mp hi
        exact ⟨hpos, by omega⟩
  | dequeue behind =>
      constructor
      · intro hall _ _
        by_contra hfull
        have hcount : (pq.withBehind behind).count = MAXSIZE := le_antisymm h (not_lt.mp hfull)
        -- the last index of the shift is `count`
        have hlast := hall MAXSIZE (mem_dequeue_indices.mpr ⟨?_, ?_, ?_⟩)
        · omega
        · rw [hcount]
          decide
        · exact Int.natCast_nonneg MAXSIZE
        · rw [hcount]
      · intro hroom i hi
        obtain ⟨-, hpos, hle⟩ := mem_dequeue_indices.mp hi
        have hlt : (pq.withBehind behind).count < MAXSIZE := hroom behind rfl
        exact ⟨hpos, by omega⟩

theorem queueIndices_inside_iff (qsort : Qsort TreeNode) (h : pq.count ≤ MAXSIZE)
    (calls : List QueueCall) :
    (∀ i ∈ queueIndices qsort pq calls, 0 ≤ i ∧ i < MAXSIZE) ↔ NoFullDequeue pq.count calls := by
  induction calls generalizing pq with
  | nil => simp [queueIndices, NoFullDequeue]
  | cons call calls ih =>
      have hcount := count_traced qsort h call
      have hrest := ih (hcount ▸ queued_le h call)
      rw [hcount] at hrest
      rw [queueIndices, NoFullDequeue, List.forall_mem_append, traced_inside_iff qsort h, hrest]

end Bounds

/-- **The accesses stay inside the array exactly while no node is taken from a full queue.** -/
theorem pqueue_in_bounds_iff (qsort : Qsort TreeNode) (beyond : ℕ → TreeNode)
    (calls : List QueueCall) :
    (∀ i ∈ queueIndices qsort (pqueue_new beyond) calls, 0 ≤ i ∧ i < MAXSIZE) ↔
      NoFullDequeue 0 calls :=
  queueIndices_inside_iff qsort (Nat.zero_le MAXSIZE) calls

/-- A queue is filled node by node. -/
theorem noFullDequeue_enqueues {n : ℕ} (hn : n ≤ MAXSIZE) (ts : List TreeNode)
    (calls : List QueueCall) :
    NoFullDequeue n (ts.map .enqueue ++ calls) ↔
      NoFullDequeue (min (n + ts.length) MAXSIZE) calls := by
  induction ts generalizing n with
  | nil => rw [List.map_nil, List.nil_append, List.length_nil, Nat.add_zero, min_eq_left hn]
  | cons t ts ih =>
      have hnext := ih (queued_le hn (.enqueue t))
      have hsum : min (QueueCall.queued n (.enqueue t) + ts.length) MAXSIZE
          = min (n + (ts.length + 1)) MAXSIZE := by
        simp only [QueueCall.queued]
        omega
      have hfits : ∀ behind, QueueCall.enqueue t = .dequeue behind → n < MAXSIZE := by
        rintro behind heq
        cases heq
      rw [List.map_cons, List.cons_append, NoFullDequeue, hnext, hsum, List.length_cons]
      exact and_iff_right hfits

/-- The leaves of the 256 characters, each with frequency 1. -/
def allLeaves : List TreeNode :=
  (List.range MAXSIZE).map (fun k =>
    .node (BitVec.ofNat 32 (k + 1)) LEAF ⟨1, BitVec.ofNat 8 k⟩ .null .null)

/-- With all of them queued, `pqueue_dequeue` reads `queue[256]`. -/
theorem full_dequeue_out_of_bounds :
    ¬ ∀ i ∈ queueIndices (insertionQsort TreeNode) (pqueue_new (fun _ => .null))
        (allLeaves.map .enqueue ++ [.dequeue (fun _ => .null)]), 0 ≤ i ∧ i < MAXSIZE := by
  have hcount : (pqueue_new (fun _ => .null)).count = 0 := rfl
  have hfull : min (0 + allLeaves.length) MAXSIZE = MAXSIZE := by
    rw [allLeaves, List.length_map, List.length_range, Nat.zero_add, min_self]
  rw [queueIndices_inside_iff _ (Nat.zero_le MAXSIZE), hcount,
    noFullDequeue_enqueues (Nat.zero_le MAXSIZE), hfull]
  exact fun h => Nat.lt_irrefl MAXSIZE (h.1 _ rfl)

end ProjectsInC.Huffman
