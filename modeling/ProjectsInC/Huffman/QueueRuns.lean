/-
The priority queue under any sequence of calls.

Between two calls the used slots are ascending in frequency and the others are
NULL ([`MinQueue`]); what the queue is for is the multiset of its nodes.
`pqueue_enqueue` adds a node to it as long as there is room, and `pqueue_dequeue`
takes a node of least frequency from it. The shift of `pqueue_dequeue` runs one
slot past the used part, in a full queue past the array, so the memory behind the
array is a parameter of each such call; the NULL is stored last and hides it.
-/
import Mathlib.Data.Multiset.AddSub
import ProjectsInC.Huffman.Construction

set_option autoImplicit false

namespace ProjectsInC.Huffman

open NodeType

/-! ## Calls -/

/-- A call on a priority queue. Behind the array lies `behind` when `pqueue_dequeue` is called. -/
inductive QueueCall
  | enqueue (n : TreeNode)
  | dequeue (behind : ℕ → TreeNode)

/-- The same queue with other memory behind its array. -/
def PriorityQueue.withBehind (pq : PriorityQueue) (behind : ℕ → TreeNode) : PriorityQueue :=
  { pq with queue := fun i => if i < MAXSIZE then pq.queue i else behind i }

/-- The queue after a call. -/
def QueueCall.run (qsort : Qsort TreeNode) (pq : PriorityQueue) : QueueCall → PriorityQueue
  | .enqueue n => pqueue_enqueue qsort pq n
  | .dequeue behind => (pqueue_dequeue (pq.withBehind behind)).2

/-- A queue, the nodes `pqueue_enqueue` has stored in it and those `pqueue_dequeue` has returned. -/
structure QueueHistory where
  pq : PriorityQueue
  enqueued : Multiset TreeNode
  dequeued : Multiset TreeNode

/-- One call. A node is stored while `count < MAXSIZE`, and returned if the queue is not empty. -/
def QueueHistory.call (qsort : Qsort TreeNode) (history : QueueHistory) (call : QueueCall) :
    QueueHistory where
  pq := call.run qsort history.pq
  enqueued :=
    match call with
    | .enqueue n =>
        if history.pq.count < MAXSIZE then n ::ₘ history.enqueued else history.enqueued
    | .dequeue _ => history.enqueued
  dequeued :=
    match call with
    | .enqueue _ => history.dequeued
    | .dequeue behind =>
        if history.pq.count = 0 then history.dequeued
        else (pqueue_dequeue (history.pq.withBehind behind)).1 ::ₘ history.dequeued

/-- A sequence of calls from `pqueue_new` on. -/
def queueHistory (qsort : Qsort TreeNode) (beyond : ℕ → TreeNode) (calls : List QueueCall) :
    QueueHistory :=
  calls.foldl (QueueHistory.call qsort) { pq := pqueue_new beyond, enqueued := 0, dequeued := 0 }

theorem queueHistory_concat (qsort : Qsort TreeNode) (beyond : ℕ → TreeNode)
    (calls : List QueueCall) (call : QueueCall) :
    queueHistory qsort beyond (calls ++ [call])
      = (queueHistory qsort beyond calls).call qsort call := by
  simp only [queueHistory, List.foldl_append, List.foldl_cons, List.foldl_nil]

/-! ## A bounded min-queue -/

/-- The used slots lie in the array. -/
theorem slots_withBehind {pq : PriorityQueue} (h : pq.count ≤ MAXSIZE) (behind : ℕ → TreeNode) :
    (pq.withBehind behind).slots = pq.slots := by
  refine List.map_congr_left (fun i hi => if_pos ?_)
  exact lt_of_lt_of_le (List.mem_range.mp hi) h

/-- The queue holds the nodes of `content`, in ascending order in its first slots; the rest of its
array is NULL. -/
structure MinQueue (pq : PriorityQueue) (content : Multiset TreeNode) : Prop where
  content_eq : (pq.slots : Multiset TreeNode) = content
  ascending : Ascending pq.slots
  nonneg : NonNeg pq.slots
  room : pq.count ≤ MAXSIZE
  unused : ∀ i, pq.count ≤ i → i < MAXSIZE → pq.queue i = .null

section MinQueue

variable {pq : PriorityQueue} {content : Multiset TreeNode}

theorem minQueue_new (beyond : ℕ → TreeNode) : MinQueue (pqueue_new beyond) 0 where
  content_eq := rfl
  ascending := List.Pairwise.nil
  nonneg := fun t ht => absurd ht (by simp)
  room := Nat.zero_le MAXSIZE
  unused := fun i _ hi => if_pos hi

/-- The memory behind the array does not matter. -/
theorem MinQueue.withBehind (h : MinQueue pq content) (behind : ℕ → TreeNode) :
    MinQueue (pq.withBehind behind) content := by
  have hslots := slots_withBehind h.room behind
  constructor
  · rw [hslots]
    exact h.content_eq
  · rw [hslots]
    exact h.ascending
  · rw [hslots]
    exact h.nonneg
  · exact h.room
  · intro i hcount hi
    exact (if_pos hi).trans (h.unused i hcount hi)

/-- While there is room `pqueue_enqueue` adds the node. -/
theorem MinQueue.enqueue (h : MinQueue pq content) (qsort : Qsort TreeNode) {n : TreeNode}
    (hn : 0 ≤ n.weight) (hroom : pq.count < MAXSIZE) :
    MinQueue (pqueue_enqueue qsort pq n) (n ::ₘ content) := by
  have hslots := slots_enqueue qsort hroom n
  have hperm := qsort.perm comparator (pq.slots ++ [n])
  have hcount := count_enqueue qsort hroom n
  have hnonneg : NonNeg (pq.slots ++ [n]) := by
    intro t ht
    rcases List.mem_append.mp ht with hold | hnew
    · exact h.nonneg t hold
    · rwa [List.mem_singleton.mp hnew]
  constructor
  · rw [hslots, Multiset.coe_eq_coe.mpr hperm, ← h.content_eq, Multiset.cons_coe]
    exact Multiset.coe_eq_coe.mpr (List.perm_append_singleton n pq.slots)
  · rw [hslots]
    exact ascending_run qsort hnonneg
  · rw [hslots]
    exact hnonneg.perm hperm
  · rw [hcount]
    exact hroom
  · intro i hi hlt
    rw [hcount] at hi
    rw [queue_enqueue qsort n hroom hi]
    exact h.unused i (Nat.le_of_succ_le hi) hlt

/-- `pqueue_dequeue` takes a node of least frequency. -/
theorem MinQueue.dequeue (h : MinQueue pq content) (hne : pq.count ≠ 0) :
    ∃ rest, content = (pqueue_dequeue pq).1 ::ₘ rest ∧
      (∀ t ∈ rest, (pqueue_dequeue pq).1.weight ≤ t.weight) ∧
      MinQueue (pqueue_dequeue pq).2 rest := by
  obtain ⟨T, ts, hslots⟩ : ∃ T ts, pq.slots = T :: ts := by
    apply List.exists_cons_of_length_pos
    rw [length_slots]
    exact Nat.pos_of_ne_zero hne
  obtain ⟨hT, hts⟩ := dequeue_cons hslots
  have hcount := count_dequeue pq
  have hleast := h.ascending
  have hnonneg := h.nonneg
  rw [hslots] at hleast hnonneg
  refine ⟨ts, ?_, ?_, ?_⟩
  · rw [← h.content_eq, hslots, hT]
    rfl
  · rw [hT]
    exact (List.pairwise_cons.mp hleast).1
  constructor
  · rw [hts]
  · rw [hts]
    exact (List.pairwise_cons.mp hleast).2
  · rw [hts]
    exact fun t ht => hnonneg t (List.mem_cons_of_mem T ht)
  · rw [hcount]
    exact (Nat.sub_le ..).trans h.room
  · intro i hi hlt
    rw [hcount] at hi
    rw [queue_dequeue hne hi]
    split_ifs with hlast
    · rfl
    · exact h.unused i (by omega) hlt

end MinQueue

/-! ## Every sequence of calls -/

/-- The queue of a history holds what was stored in it and not yet returned. -/
def QueueHistory.Sound (history : QueueHistory) : Prop :=
  ∃ content, MinQueue history.pq content ∧ content + history.dequeued = history.enqueued

theorem QueueHistory.Sound.call {history : QueueHistory} (h : history.Sound)
    (qsort : Qsort TreeNode) {call : QueueCall} (hn : ∀ n, call = .enqueue n → 0 ≤ n.weight) :
    (history.call qsort call).Sound := by
  obtain ⟨content, hqueue, hsum⟩ := h
  cases call with
  | enqueue n =>
      by_cases hroom : history.pq.count < MAXSIZE
      · refine ⟨n ::ₘ content, hqueue.enqueue qsort (hn n rfl) hroom, ?_⟩
        simp only [QueueHistory.call, if_pos hroom]
        rw [Multiset.cons_add, hsum]
      · have hsame := enqueue_full qsort (not_lt.mp hroom) n
        refine ⟨content, ?_, ?_⟩
        · simp only [QueueHistory.call, QueueCall.run, hsame]
          exact hqueue
        · simp only [QueueHistory.call, if_neg hroom]
          exact hsum
  | dequeue behind =>
      have hqueue' := hqueue.withBehind behind
      by_cases hempty : history.pq.count = 0
      · have hsame : (pqueue_dequeue (history.pq.withBehind behind)).2
            = history.pq.withBehind behind := by
          rw [pqueue_dequeue, if_pos (show (history.pq.withBehind behind).count = 0 from hempty)]
        refine ⟨content, ?_, ?_⟩
        · simp only [QueueHistory.call, QueueCall.run, hsame]
          exact hqueue'
        · simp only [QueueHistory.call, if_pos hempty]
          exact hsum
      · obtain ⟨rest, hcontent, -, hrest⟩ := hqueue'.dequeue hempty
        refine ⟨rest, hrest, ?_⟩
        simp only [QueueHistory.call, if_neg hempty]
        rw [Multiset.add_cons, ← Multiset.cons_add, ← hcontent, hsum]

theorem queueHistory_sound (qsort : Qsort TreeNode) (beyond : ℕ → TreeNode)
    {calls : List QueueCall} (hpos : ∀ n, .enqueue n ∈ calls → 0 ≤ n.weight) :
    (queueHistory qsort beyond calls).Sound := by
  induction calls using List.reverseRecOn with
  | nil => exact ⟨0, minQueue_new beyond, rfl⟩
  | append_singleton calls call ih =>
      rw [queueHistory_concat]
      apply (ih (fun n hn => hpos n (List.mem_append_left _ hn))).call qsort
      rintro n rfl
      exact hpos n (by simp)

/-- **The priority queue is a bounded min-queue.** After any calls on nodes without negative
frequencies the used slots are ascending and hold what was stored and not returned, the other slots
of the array are NULL, and the next `pqueue_dequeue` returns a node of least frequency. -/
theorem pqueue_bounded_min_queue (qsort : Qsort TreeNode) (beyond : ℕ → TreeNode)
    (calls : List QueueCall) (hpos : ∀ n, .enqueue n ∈ calls → 0 ≤ n.weight) :
    let history := queueHistory qsort beyond calls
    let pq := history.pq
    pq.count ≤ MAXSIZE ∧ Ascending pq.slots ∧
      (pq.slots : Multiset TreeNode) + history.dequeued = history.enqueued ∧
      (∀ i, pq.count ≤ i → i < MAXSIZE → pq.queue i = .null) ∧
      ∀ behind, pq.count ≠ 0 →
        let T := (pqueue_dequeue (pq.withBehind behind)).1
        T ∈ pq.slots ∧ ∀ t ∈ pq.slots, T.weight ≤ t.weight := by
  obtain ⟨content, hqueue, hsum⟩ := queueHistory_sound qsort beyond hpos
  refine ⟨hqueue.room, hqueue.ascending, ?_, hqueue.unused, ?_⟩
  · rw [hqueue.content_eq]
    exact hsum
  intro behind hne
  obtain ⟨rest, hcontent, hleast, -⟩ := (hqueue.withBehind behind).dequeue hne
  have hmem : ∀ t, t ∈ (queueHistory qsort beyond calls).pq.slots ↔
      t = (pqueue_dequeue ((queueHistory qsort beyond calls).pq.withBehind behind)).1 ∨
        t ∈ rest := by
    intro t
    rw [← Multiset.mem_coe, hqueue.content_eq, hcontent, Multiset.mem_cons]
  constructor
  · exact (hmem _).mpr (.inl rfl)
  · intro t ht
    rcases (hmem t).mp ht with rfl | hrest
    · exact le_refl _
    · exact hleast t hrest

/-- Three nodes are stored and one is returned; the memory behind the array is not NULL. -/
def threeNodes : List QueueCall :=
  [.enqueue (.node 1 LEAF ⟨5, 97⟩ .null .null), .enqueue (.node 2 LEAF ⟨3, 98⟩ .null .null),
    .dequeue (fun _ => .node 9 LEAF ⟨9, 99⟩ .null .null),
    .enqueue (.node 3 LEAF ⟨4, 100⟩ .null .null)]

theorem pqueue_bounded_min_queue_three :
    let history := queueHistory (insertionQsort TreeNode) (fun _ => .null) threeNodes
    Ascending history.pq.slots ∧
      (history.pq.slots : Multiset TreeNode) + history.dequeued = history.enqueued := by
  have hpos : ∀ n, .enqueue n ∈ threeNodes → 0 ≤ n.weight := by
    intro n hn
    simp only [threeNodes, List.mem_cons, List.not_mem_nil, QueueCall.enqueue.injEq,
      reduceCtorEq, or_false, false_or] at hn
    rcases hn with rfl | rfl | rfl <;> decide
  obtain ⟨-, hascending, hcontent, -⟩ :=
    pqueue_bounded_min_queue (insertionQsort TreeNode) (fun _ => .null) threeNodes hpos
  exact ⟨hascending, hcontent⟩

end ProjectsInC.Huffman
