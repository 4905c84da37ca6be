/-
What the cache simulator allocates, what its accesses touch, and how it frees it.

The blocks are named after what they hold. `make_cache` allocates them and
`delete_cache` frees them. In between every access follows the `next` pointers of a
queue and relinks its nodes, so that `lru_destroy` meets them in another order than
they were made in. That each of them is still met once is the invariant [`Owned`];
that an access stays inside the blocks follows from it. Nobody closes the file of the
trace.
-/
import ProjectsInC.Lib.Allocation
import ProjectsInC.CacheSim.Geometry

set_option autoImplicit false

namespace ProjectsInC.CacheSim

open Lib (MemEvent replay Allocates Releases Reads Chain Cell)
open Lib.MemEvent
open AccessResult

/-! ## Blocks -/

/-- What `malloc` and `fopen` are called for. -/
inductive Block
  | cpu
  | address_trace
  | cache
  | sets
  | lines (S : ℕ)
  | accessed (S i : ℕ)
  | node (S n : ℕ)
deriving DecidableEq, Repr

/-! ## `make_cache`, as far as blocks go -/

/-- One round of `make_lines`: `make_block`, then the fields of the line. -/
def makeLineEvents (S i : ℕ) : List (MemEvent Block) := [malloc (.accessed S i), access (.lines S)]

/-- `make_lines` -/
def make_lines_events (line_count S : ℕ) : List (MemEvent Block) :=
  malloc (.lines S) :: (List.range line_count).flatMap (makeLineEvents S)

/-- `make_sets` -/
def make_sets_events (set_count line_count : ℕ) : List (MemEvent Block) :=
  malloc .sets :: (List.range set_count).flatMap
    (fun S => make_lines_events line_count S ++ [access .sets])

/-- `(*pp) = node; pp = &((*pp)->next)`: `pp` is a local variable at first, and the `next`
of the node before in the other rounds. -/
def chainIn_events (S : ℕ) : ℕ → List (MemEvent Block)
  | 0 => []
  | i + 1 => [access (.node S i)]

/-- `lru_init_queue` -/
def lru_init_queue_events (line_count S : ℕ) : List (MemEvent Block) :=
  (List.range line_count).flatMap (fun i =>
    access .sets :: malloc (.node S i) :: access (.node S i) :: chainIn_events S i)
    ++ [access .sets]

/-- `lru_init` -/
def lru_init_events (set_count line_count : ℕ) : List (MemEvent Block) :=
  (List.range set_count).flatMap (lru_init_queue_events line_count)

/-- `make_cache` -/
def make_cache_events (set_count line_count : ℕ) : List (MemEvent Block) :=
  malloc .cache :: access .cache ::
    (make_sets_events set_count line_count ++ lru_init_events set_count line_count)

/-! ## `cache_access` -/

/-- The block a cell of the queue is in. -/
def cellBlock (S : ℕ) : Cell ℕ → Block
  | .head => .sets
  | .next n => .node S n

/-- `*prevp = current->next; current->next = set->lru_queue; set->lru_queue = current` -/
def requeue_events (S : ℕ) (prevp : Cell ℕ) (current : ℕ) : List (MemEvent Block) :=
  [access (.node S current), access (cellBlock S prevp), access .sets, access (.node S current),
    access .sets]

/-- The loop of `lru_fetch` from the place `prevp` on. -/
def lru_fetch_loop_events (S : ℕ) :
    ℕ → CacheSet → BitVec 32 → Cell ℕ → List (MemEvent Block)
  | 0, _, _, _ => []
  | fuel + 1, set, tag, prevp =>
      access (cellBlock S prevp) ::
        match set.lru_queue.get prevp with
        | none => []
        | some current =>
            let line := set.lines (set.line current)
            access (.node S current) :: access (.lines S) ::
              if line.valid = 1 ∧ line.tag = tag then requeue_events S prevp current
              else if line.valid = 0 then access (.lines S) :: requeue_events S prevp current
              else access (.node S current) ::
                if set.lru_queue.next current = none then
                  access (.lines S) :: requeue_events S prevp current
                else lru_fetch_loop_events S fuel set tag (.next current)

/-- The loop of `cache_access` over the accessed bits of line `i`. -/
def clearAccessed_events (S i block_size : ℕ) : List (MemEvent Block) :=
  (List.range block_size).flatMap
    (fun _ => [access .cache, access (.lines S), access (.accessed S i)]) ++ [access .cache]

/-- `cache_access`; `none` as there. -/
def cache_access_events (cache : Cache) (trace_line : TraceLine) :
    Option (List (MemEvent Block)) := do
  let s ← get_set cache trace_line.address
  let t ← get_line cache trace_line.address
  let (_, result) ← lru_fetch (cache.sets s.toNat) t
  let S := s.toNat
  some (access .cache :: access .sets ::
    (lru_fetch_loop_events S (cache.sets S).line_count (cache.sets S) t .head ++
      ((if result.access ≠ HIT then clearAccessed_events S result.line cache.block_size else []) ++
        [access (.lines S), access (.accessed S result.line)])))

/-! ## `delete_cache` -/

/-- The loop of `lru_destroy` on one queue; `none` if it is not through after
`fuel` rounds. -/
def destroyQueue (S : ℕ) (next : ℕ → Option ℕ) : ℕ → Option ℕ → Option (List (MemEvent Block))
  | _, none => some []
  | 0, some _ => none
  | fuel + 1, some n =>
      -- p = p->next; free(n); n = p
      (destroyQueue S next fuel (next n)).map (fun events =>
        access (.node S n) :: free (.node S n) :: events)

/-- `lru_destroy` -/
def lru_destroy (cache : Cache) : Option (List (MemEvent Block)) :=
  ((List.range cache.set_count).mapM (fun S =>
    (destroyQueue S (cache.sets S).lru_queue.next cache.line_count
      (cache.sets S).lru_queue.head).map
        (fun events => access .sets :: (events ++ [access .sets])))).map List.flatten

/-- `delete_lines` -/
def delete_lines (S line_count : ℕ) : List (MemEvent Block) :=
  (List.range line_count).flatMap (fun i => [access (.lines S), free (.accessed S i)])
    ++ [free (.lines S)]

/-- `delete_sets` -/
def delete_sets (cache : Cache) : List (MemEvent Block) :=
  (List.range cache.set_count).flatMap (fun S =>
    access .sets :: delete_lines S (cache.sets S).line_count) ++ [free .sets]

/-- `delete_cache` -/
def delete_cache (cache : Cache) : Option (List (MemEvent Block)) :=
  (lru_destroy cache).map (fun events =>
    access .cache :: (events ++ access .cache :: (delete_sets cache ++ [free .cache])))

/-! ## The nodes of the queues -/

/-- The queue of a set of `E` lines leads through the `E` nodes that were made for it. -/
def OwnNodes (E : ℕ) (set : CacheSet) : Prop :=
  ∃ live free, Queued E set live free ∧ (live ++ free).Perm (List.range E)

/-- The invariant of a cache: every set has its nodes. -/
structure Owned (E : ℕ) (cache : Cache) : Prop where
  line_count : cache.line_count = E
  sets : ∀ S < cache.set_count, OwnNodes E (cache.sets S)

theorem ownNodes_init (set : CacheSet) (hinvalid : ∀ i, (set.lines i).valid = 0) :
    OwnNodes set.line_count (lru_init_queue set) := by
  obtain ⟨hholds, hline, hlines, hcount⟩ := lru_init_queue_spec set
  have hmap : (List.range set.line_count).map (lru_init_queue set).line
      = List.range set.line_count := by
    rw [List.map_congr_left (g := id) (fun i hi => hline i (List.mem_range.mp hi)), List.map_id]
  refine ⟨[], List.range set.line_count, ⟨hcount, hholds, ?_, ?_, fun node _ => ?_⟩, .refl _⟩
  · rw [List.nil_append, hmap]
  · exact fun node h => absurd h List.not_mem_nil
  · rw [hlines]
    exact hinvalid _

theorem owned_make_cache (garbage : ℕ → ℕ → ℕ → Byte) (s E b : ℕ) :
    Owned E (make_cache garbage s E b) where
  line_count := rfl
  sets := fun S hS => by
    have hsets : (make_cache garbage s E b).sets S
        = lru_init_queue (make_sets garbage E (2 ^ b) S) := if_pos hS
    rw [hsets]
    exact ownNodes_init (make_sets garbage E (2 ^ b) S) (fun _ => rfl)

/-- A fetch only puts one node in front of the others. -/
theorem OwnNodes.fetch {E : ℕ} {set set' : CacheSet} {tag : CInt} {result : LRUResult}
    (h : OwnNodes E set) (hfetch : lru_fetch set tag = some (set', result)) : OwnNodes E set' := by
  obtain ⟨live, free, hq, hperm⟩ := h
  have hE : 0 < E := by
    rw [Nat.pos_iff_ne_zero, ← hq.line_count]
    intro hzero
    rw [lru_fetch, hzero] at hfetch
    exact absurd hfetch (by simp [lru_fetch_loop])
  obtain ⟨set'', n, live', free', hmoves⟩ := lru_fetch_moves tag hE hq
  obtain ⟨rfl, -⟩ := Prod.mk.inj (Option.some.inj (hmoves.fetch.symm.trans hfetch))
  refine ⟨n :: live', free', hmoves.queued, ?_⟩
  rw [List.cons_append, hmoves.others]
  exact (List.perm_cons_erase hmoves.mem).symm.trans hperm

/-- Nor do the accessed bits matter. -/
theorem OwnNodes.setAccessed {E : ℕ} {set : CacheSet} (h : OwnNodes E set) (i : ℕ)
    (accessed : ℕ → Byte) :
    OwnNodes E (set.setLine i { set.lines i with accessed := accessed }) := by
  obtain ⟨live, free, hq, hperm⟩ := h
  have hvalid : ∀ j, ((set.setLine i { set.lines i with accessed := accessed }).lines j).valid
      = (set.lines j).valid := by
    intro j
    by_cases hj : j = i
    · subst hj
      simp only [CacheSet.setLine, Function.update_self]
    · simp only [CacheSet.setLine, Function.update_of_ne hj]
  refine ⟨live, free,
    ⟨hq.line_count, hq.holds, hq.perm, fun node hnode => ?_, fun node hnode => ?_⟩, hperm⟩
  · exact (hvalid _).trans (hq.valid node hnode)
  · exact (hvalid _).trans (hq.invalid node hnode)

theorem Owned.cache_access {E : ℕ} {cache cache' : Cache} {line : TraceLine} {result : AccessResult}
    (h : Owned E cache) (hacc : cache_access cache line = some (cache', result)) :
    Owned E cache' := by
  unfold CacheSim.cache_access at hacc
  simp only [Option.bind_eq_bind, Option.bind_eq_some_iff] at hacc
  obtain ⟨i, -, t, -, k, -, ⟨set', fetched⟩, hfetch, hacc⟩ := hacc
  obtain ⟨rfl, -⟩ := Prod.mk.inj (Option.some.inj hacc)
  refine ⟨h.line_count, fun S hS => ?_⟩
  by_cases hset : S = i.toNat
  · simp only [hset, Function.update_self]
    exact ((h.sets i.toNat (hset ▸ hS)).fetch hfetch).setAccessed _ _
  · simp only [Function.update_of_ne hset]
    exact h.sets S hS

theorem Owned.cache_accesses {E : ℕ} {cache cache' : Cache} {trace : List TraceLine}
    (h : Owned E cache) (hrun : cache_accesses cache trace = some cache') : Owned E cache' := by
  induction trace generalizing cache with
  | nil => exact Option.some.inj hrun ▸ h
  | cons line trace ih =>
      unfold CacheSim.cache_accesses at hrun ih
      rw [List.foldlM_cons, Option.bind_eq_bind, Option.bind_eq_some_iff] at hrun
      obtain ⟨cache₁, hstep, hrest⟩ := hrun
      obtain ⟨⟨cache₂, result⟩, hacc, rfl⟩ := Option.map_eq_some_iff.mp hstep
      exact ih (h.cache_access hacc) hrest

/-! ## What `lru_destroy` does -/

/-- The loop meets the nodes of the queue in their order, and is through. -/
theorem destroyQueue_eq (S : ℕ) {next : ℕ → Option ℕ} {p : Option ℕ} {nodes : List ℕ} {fuel : ℕ}
    (h : Lib.Links next p nodes) (hfuel : nodes.length ≤ fuel) :
    destroyQueue S next fuel p
      = some (nodes.flatMap (fun n => [access (.node S n), free (.node S n)])) := by
  induction nodes generalizing p fuel with
  | nil =>
      obtain rfl : p = none := h
      cases fuel <;> rfl
  | cons n nodes ih =>
      obtain ⟨rfl, hrest⟩ := h
      obtain ⟨fuel, rfl⟩ := Nat.exists_eq_add_one_of_ne_zero
        (show fuel ≠ 0 by rw [List.length_cons] at hfuel; omega)
      rw [List.length_cons] at hfuel
      rw [destroyQueue, ih hrest (by omega)]
      rfl

/-- A loop none of whose rounds fails. -/
theorem mapM_eq_some {α β : Type} {f : α → Option β} {g : α → β} {l : List α}
    (h : ∀ a ∈ l, f a = some (g a)) : l.mapM f = some (l.map g) := by
  induction l with
  | nil => rfl
  | cons a l ih =>
      rw [List.mapM_cons, h a List.mem_cons_self, ih (fun b hb => h b (List.mem_cons_of_mem a hb))]
      rfl

/-! ## The blocks of a cache -/

/-- The nodes of set `S`. -/
def nodeBlocks (E S : ℕ) : Finset Block := (Finset.range E).image (Block.node S)

/-- The lines of set `S` and their accessed bits. -/
def lineBlocks (E S : ℕ) : Finset Block :=
  insert (.lines S) ((Finset.range E).image (Block.accessed S))

/-- The nodes of all sets. -/
def allNodes (n E : ℕ) : Finset Block := (Finset.range n).biUnion (nodeBlocks E)

/-- The lines of all sets. -/
def allLines (n E : ℕ) : Finset Block := (Finset.range n).biUnion (lineBlocks E)

/-- Everything that belongs to a cache of `n` sets of `E` lines. -/
def cacheBlocks (n E : ℕ) : Finset Block :=
  insert .cache (insert .sets (allLines n E) ∪ allNodes n E)

theorem nodeBlocks_disjoint (E : ℕ) {S T : ℕ} (h : S ≠ T) :
    Disjoint (nodeBlocks E S) (nodeBlocks E T) := by
  simp only [nodeBlocks, Finset.disjoint_left, Finset.mem_image]
  rintro _ ⟨m, -, rfl⟩ ⟨n, -, heq⟩
  exact h (Block.node.inj heq).1.symm

theorem lineBlocks_disjoint (E : ℕ) {S T : ℕ} (h : S ≠ T) :
    Disjoint (lineBlocks E S) (lineBlocks E T) := by
  simp only [lineBlocks, Finset.disjoint_left, Finset.mem_insert, Finset.mem_image]
  rintro _ (rfl | ⟨i, -, rfl⟩) (heq | ⟨j, -, heq⟩)
  · exact h (Block.lines.inj heq)
  · cases heq
  · cases heq
  · exact h (Block.accessed.inj heq).1.symm

/-- Lines are no nodes. -/
theorem lines_nodes_disjoint (n E : ℕ) :
    Disjoint (insert Block.sets (allLines n E)) (allNodes n E) := by
  simp only [Finset.disjoint_left, allLines, allNodes, lineBlocks, nodeBlocks, Finset.mem_insert,
    Finset.mem_biUnion, Finset.mem_image]
  rintro _ (rfl | ⟨S, -, rfl | ⟨i, -, rfl⟩⟩) ⟨T, -, m, -, heq⟩ <;> cases heq

theorem sets_notMem_lines (n E : ℕ) : Block.sets ∉ allLines n E := by
  simp [allLines, lineBlocks]

theorem cache_notMem (n E : ℕ) :
    Block.cache ∉ insert Block.sets (allLines n E) ∪ allNodes n E := by
  simp [allLines, allNodes, lineBlocks, nodeBlocks]

section

variable {n E : ℕ} {ctx : Finset Block}

/-! ## Making them -/

theorem allocates_lines (E S : ℕ) (ctx : Finset Block) :
    Allocates ctx (lineBlocks E S) (make_lines_events E S) := by
  have hloop : Allocates (insert (Block.lines S) ctx) ((Finset.range E).image (Block.accessed S))
      ((List.range E).flatMap (makeLineEvents S)) := by
    rw [← Finset.biUnion_singleton]
    apply Allocates.range
    · intro i _
      apply Allocates.mono _ Finset.subset_union_left
      have hone := (Allocates.nil (insert (Block.accessed S i) (insert (Block.lines S) ctx))).access
        (a := Block.lines S) (by simp)
      exact hone.malloc_cons (Finset.notMem_empty _)
    · intro i j hne
      simp [hne]
  exact hloop.malloc_cons (by simp)

theorem allocates_sets (n E : ℕ) (ctx : Finset Block) :
    Allocates ctx (insert .sets (allLines n E)) (make_sets_events n E) := by
  have hloop : Allocates (insert Block.sets ctx) (allLines n E)
      ((List.range n).flatMap (fun S => make_lines_events E S ++ [access .sets])) := by
    apply Allocates.range
    · intro S _
      apply Allocates.mono _ Finset.subset_union_left
      have hset := (allocates_lines E S (insert Block.sets ctx)).append
        ((Allocates.nil _).access (a := Block.sets) (by simp)) (Finset.disjoint_empty_right _)
      rwa [Finset.union_empty] at hset
    · exact fun S T hne => lineBlocks_disjoint E hne
  exact hloop.malloc_cons (sets_notMem_lines n E)

/-- One round of `lru_init_queue`: the node before, if there is one, is allocated. -/
theorem allocates_node (S i : ℕ) (hctx : Block.sets ∈ ctx) :
    Allocates (ctx ∪ (Finset.range i).biUnion (fun j => {Block.node S j})) {Block.node S i}
      (access .sets :: malloc (.node S i) :: access (.node S i) :: chainIn_events S i) := by
  have hchained : Allocates
      (insert (Block.node S i) (ctx ∪ (Finset.range i).biUnion (fun j => {Block.node S j}))) ∅
      (chainIn_events S i) := by
    cases i with
    | zero => exact Allocates.nil _
    | succ i => exact (Allocates.nil _).access (by simp)
  have hmade := (hchained.access (Finset.mem_insert_self _ _)).malloc_cons (Finset.notMem_empty _)
  exact hmade.access (Finset.mem_union_left _ hctx)

theorem allocates_queue (E S : ℕ) (hctx : Block.sets ∈ ctx) :
    Allocates ctx (nodeBlocks E S) (lru_init_queue_events E S) := by
  have hloop : Allocates ctx (nodeBlocks E S) ((List.range E).flatMap (fun i =>
      access .sets :: malloc (.node S i) :: access (.node S i) :: chainIn_events S i)) := by
    rw [nodeBlocks, ← Finset.biUnion_singleton]
    apply Allocates.range
    · exact fun i _ => allocates_node S i hctx
    · intro i j hne
      simp [hne]
  have hset := hloop.append ((Allocates.nil _).access (a := Block.sets) (by simp [hctx]))
    (Finset.disjoint_empty_right _)
  rwa [Finset.union_empty] at hset

theorem allocates_nodes (n E : ℕ) (hctx : Block.sets ∈ ctx) :
    Allocates ctx (allNodes n E) (lru_init_events n E) := by
  apply Allocates.range
  · exact fun S _ => allocates_queue E S (Finset.mem_union_left _ hctx)
  · exact fun S T hne => nodeBlocks_disjoint E hne

/-- `make_cache` allocates the blocks of its cache. -/
theorem allocates_cache (n E : ℕ) (ctx : Finset Block) :
    Allocates ctx (cacheBlocks n E) (make_cache_events n E) := by
  have hsets : Allocates (insert Block.cache ctx) (insert .sets (allLines n E))
      (make_sets_events n E) := allocates_sets n E _
  have hnodes : Allocates (insert Block.cache ctx ∪ insert Block.sets (allLines n E))
      (allNodes n E) (lru_init_events n E) := allocates_nodes n E (by simp)
  have hrest := hsets.append hnodes (lines_nodes_disjoint n E)
  exact (hrest.access (Finset.mem_insert_self _ _)).malloc_cons (cache_notMem n E)

/-! ## Using them -/

section Use

variable {n E S i : ℕ} {live : Finset Block}

theorem sets_mem (hlive : cacheBlocks n E ⊆ live) : Block.sets ∈ live :=
  hlive (by simp [cacheBlocks])

theorem lines_mem (hlive : cacheBlocks n E ⊆ live) (hS : S < n) : Block.lines S ∈ live :=
  hlive (by simp [cacheBlocks, allLines, lineBlocks, hS])

theorem accessed_mem (hlive : cacheBlocks n E ⊆ live) (hS : S < n) (hi : i < E) :
    Block.accessed S i ∈ live :=
  hlive (by simp [cacheBlocks, allLines, lineBlocks, hS, hi])

theorem node_mem (hlive : cacheBlocks n E ⊆ live) (hS : S < n) (hi : i < E) :
    Block.node S i ∈ live :=
  hlive (by simp [cacheBlocks, allNodes, nodeBlocks, hS, hi])

/-- The pass over the queue stays on the nodes of its set. -/
theorem reads_lru_fetch_loop (hlive : cacheBlocks n E ⊆ live) (hS : S < n) {set : CacheSet}
    {nodes : List ℕ} (hholds : set.lru_queue.Holds nodes) (hnodes : ∀ m ∈ nodes, m < E)
    (tag : BitVec 32) (fuel : ℕ) {prevp : Cell ℕ} (hp : ∀ m, prevp = .next m → m ∈ nodes) :
    Reads live (lru_fetch_loop_events S fuel set tag prevp) := by
  induction fuel generalizing prevp with
  | zero => exact Reads.nil live
  | succ fuel ih =>
      have hsets := sets_mem hlive
      have hlines := lines_mem hlive hS
      -- `prevp` points into the set at first and into a node of the queue afterwards
      have hcell : cellBlock S prevp ∈ live := by
        cases prevp with
        | head => exact hsets
        | next m => exact node_mem hlive hS (hnodes m (hp m rfl))
      rw [lru_fetch_loop_events]
      refine Reads.cons ?_ hcell
      cases hget : set.lru_queue.get prevp with
      | none => exact Reads.nil live
      | some current =>
          have hmem : current ∈ nodes := hholds.get_mem hp hget
          have hnode := node_mem hlive hS (hnodes current hmem)
          have hrequeue : Reads live (requeue_events S prevp current) :=
            (((((Reads.nil live).cons hsets).cons hnode).cons hsets).cons hcell).cons hnode
          refine Reads.cons (Reads.cons ?_ hlines) hnode
          split_ifs
          · exact hrequeue
          · exact hrequeue.cons hlines
          · exact (hrequeue.cons hlines).cons hnode
          · exact (ih (fun m hm => Cell.next.inj hm ▸ hmem)).cons hnode

theorem reads_clearAccessed (hcache : Block.cache ∈ live) (hlines : Block.lines S ∈ live)
    (hbits : Block.accessed S i ∈ live) (block_size : ℕ) :
    Reads live (clearAccessed_events S i block_size) := by
  have hround : Reads live [access .cache, access (.lines S), access (.accessed S i)] :=
    (((Reads.nil live).cons hbits).cons hlines).cons hcache
  refine Reads.append ?_ ((Reads.nil live).cons hcache)
  intro event hevent
  obtain ⟨_, -, hevent⟩ := List.mem_flatMap.mp hevent
  exact hround event hevent

/-- **An access** that is inside its arrays uses blocks of the cache only. -/
theorem Owned.reads_cache_access {cache : Cache} (h : Owned E cache)
    (hlive : cacheBlocks cache.set_count E ⊆ live) {line : TraceLine} (hin : InBounds cache line) :
    ∃ events, cache_access_events cache line = some events ∧ Reads live events := by
  obtain ⟨s, t, k, set', result, hs, ht, -, hfetch, hS, hline, -⟩ := hin
  rw [h.line_count] at hline
  have hcache : Block.cache ∈ live := hlive (Finset.mem_insert_self _ _)
  have hsets := sets_mem hlive
  have hlines := lines_mem hlive hS
  have hbits := accessed_mem hlive hS hline
  obtain ⟨used, free, hq, hperm⟩ := h.sets s.toNat hS
  have hpass : Reads live (lru_fetch_loop_events s.toNat (cache.sets s.toNat).line_count
      (cache.sets s.toNat) t .head) :=
    reads_lru_fetch_loop hlive hS hq.holds (fun m hm => List.mem_range.mp (hperm.mem_iff.mp hm)) t _
      (fun _ hm => by cases hm)
  simp only [cache_access_events, hs, ht, hfetch, Option.bind_eq_bind, Option.bind_some]
  refine ⟨_, rfl, Reads.cons (Reads.cons (hpass.append (Reads.append ?_ ?_)) hsets) hcache⟩
  · split_ifs
    · exact reads_clearAccessed hcache hlines hbits cache.block_size
    · exact Reads.nil live
  · exact ((Reads.nil live).cons hbits).cons hlines

end Use

/-! ## Freeing them -/

/-- The queue of a set, in whatever order it leads through the nodes. -/
theorem releases_queue {S : ℕ} {nodes : List ℕ} (hperm : nodes.Perm (List.range E)) :
    Releases {Block.cache, Block.sets} (nodeBlocks E S)
      (nodes.flatMap (fun n => [access (Block.node S n), free (.node S n)])) := by
  have hnodup : nodes.Nodup := hperm.nodup_iff.mpr List.nodup_range
  have hnodes : nodes.toFinset = Finset.range E := by
    ext m
    rw [List.mem_toFinset, hperm.mem_iff, List.mem_range, Finset.mem_range]
  rw [nodeBlocks, ← Finset.biUnion_singleton, ← hnodes]
  apply Releases.flatMap hnodup
  · intro n _
    exact (Releases.free _ _).access (by simp)
  · intro n _
    simp
  · intro m _ n _ hne
    simp [hne]

theorem Owned.releases_nodes {cache : Cache} (h : Owned E cache) :
    ∃ events, lru_destroy cache = some events ∧
      Releases {Block.cache, Block.sets} (allNodes cache.set_count E) events := by
  have hqueue : ∀ S, ∃ nodes : List ℕ, nodes.Perm (List.range E) ∧ (S < cache.set_count →
      destroyQueue S (cache.sets S).lru_queue.next cache.line_count (cache.sets S).lru_queue.head
        = some (nodes.flatMap (fun n => [access (Block.node S n), free (Block.node S n)]))) := by
    intro S
    by_cases hS : S < cache.set_count
    · obtain ⟨live, free, hq, hperm⟩ := h.sets S hS
      refine ⟨live ++ free, hperm, fun _ => destroyQueue_eq S hq.holds ?_⟩
      rw [h.line_count, hperm.length_eq, List.length_range]
    · exact ⟨List.range E, .refl _, fun hlt => absurd hlt hS⟩
  choose nodes hperm hdestroy using hqueue
  refine ⟨(List.range cache.set_count).flatMap (fun S => access Block.sets ::
    ((nodes S).flatMap (fun n => [access (Block.node S n), free (Block.node S n)])
      ++ [access Block.sets])), ?_, ?_⟩
  -- the order in which a queue leads through its nodes is not known, that they are all its nodes is
  · rw [lru_destroy, mapM_eq_some (g := fun S => access Block.sets ::
      ((nodes S).flatMap (fun n => [access (Block.node S n), free (Block.node S n)])
        ++ [access Block.sets]))]
    · rfl
    · intro S hS
      rw [hdestroy S (List.mem_range.mp hS)]
      rfl
  · apply Releases.range
    · intro S _
      apply Releases.access (by simp)
      have hset := (releases_queue (S := S) (hperm S)).append
        ((Releases.nil {Block.cache, Block.sets}).access (a := Block.sets) (by simp))
        (by simp [nodeBlocks]) (Finset.disjoint_empty_right _)
      rwa [Finset.union_empty] at hset
    · intro S
      simp [nodeBlocks]
    · exact fun S T hne => nodeBlocks_disjoint E hne

theorem releases_lines (E S : ℕ) :
    Releases {Block.cache, Block.sets} (lineBlocks E S) (delete_lines S E) := by
  apply Releases.last
  · rw [← Finset.biUnion_singleton]
    apply Releases.range
    · exact fun i _ => (Releases.free _ _).access (by simp)
    · intro i
      simp
    · intro i j hne
      simp [hne]
  · simp

theorem Owned.releases_sets {cache : Cache} (h : Owned E cache) :
    Releases {Block.cache} (insert .sets (allLines cache.set_count E)) (delete_sets cache) := by
  apply Releases.last _ (sets_notMem_lines _ E)
  rw [Finset.insert_eq, Finset.union_comm, ← Finset.insert_eq]
  apply Releases.range
  · intro S hS
    obtain ⟨live, free, hq, -⟩ := h.sets S hS
    rw [hq.line_count]
    exact (releases_lines E S).access (by simp)
  · intro S
    simp [lineBlocks]
  · exact fun S T hne => lineBlocks_disjoint E hne

/-- `delete_cache` frees the blocks of its cache. -/
theorem Owned.releases_cache {cache : Cache} (h : Owned E cache) :
    ∃ events, delete_cache cache = some events ∧
      Releases ∅ (cacheBlocks cache.set_count E) events := by
  obtain ⟨events, hdestroy, hnodes⟩ := h.releases_nodes
  have hlast := h.releases_sets.access (a := Block.cache) (by simp)
  have hfirst : Releases ({Block.cache} ∪ insert .sets (allLines cache.set_count E))
      (allNodes cache.set_count E) events := by
    apply hnodes.mono
    rw [Finset.insert_eq Block.cache]
    apply Finset.union_subset_union_right
    simp
  have hboth := hfirst.append hlast (by simp [allNodes, nodeBlocks])
    (lines_nodes_disjoint _ E).symm
  rw [Finset.union_comm] at hboth
  rw [← insert_empty_eq] at hboth
  have hall := (hboth.access (a := Block.cache) (by simp)).last (cache_notMem _ E)
  refine ⟨_, by rw [delete_cache, hdestroy]; rfl, ?_⟩
  rw [cacheBlocks]
  convert hall using 1
  simp

end

/-! ## The program -/

/-- `make_cpu` -/
def make_cpu_events : List (MemEvent Block) :=
  [malloc .cpu, access .cpu, malloc .address_trace, access .cpu]

/-- The loop of `run_cpu`: `read_address`, the access and a counter; at the end of the file the
counters are printed. -/
def run_cpu_events (cache : Cache) : List TraceLine → Option (List (MemEvent Block))
  | [] => some [access .cpu, access .address_trace, access .cpu]
  | line :: trace => do
      let events ← cache_access_events cache line
      let (cache, _) ← cache_access cache line
      let rest ← run_cpu_events cache trace
      some (access .cpu :: access .address_trace :: access .cpu :: (events ++ access .cpu :: rest))

/-- `delete_cpu`: there is no `fclose`. -/
def delete_cpu_events : List (MemEvent Block) := [free .cpu]

/-- What `main` does to blocks. -/
def main_events (garbage : ℕ → ℕ → ℕ → Byte) (s E b : ℕ) (trace : List TraceLine) :
    Option (List (MemEvent Block)) := do
  let cache := make_cache garbage s E b
  let run ← run_cpu_events cache trace
  let cache' ← cache_accesses cache trace
  let deleted ← delete_cache cache'
  some (make_cache_events cache.set_count cache.line_count ++
    (make_cpu_events ++ (run ++ (delete_cpu_events ++ deleted))))

section Run

variable {s E b : ℕ} {live : Finset Block}

/-- What holds of the cache between two accesses. -/
structure Running (s E b : ℕ) (cache : Cache) (past : List Address) : Prop where
  tracks : Tracks s E b cache past
  owned : Owned E cache
  set_count : cache.set_count = 2 ^ s
  block_size : cache.block_size = 2 ^ b

theorem running_fresh (garbage : ℕ → ℕ → ℕ → Byte) (s E b : ℕ) :
    Running s E b (make_cache garbage s E b) [] :=
  ⟨tracks_fresh garbage s E b, owned_make_cache garbage s E b, rfl, rfl⟩

/-- **One access** is inside the blocks of the cache, and they are what they were. -/
theorem Running.cache_access {cache : Cache} {past : List Address} (h : Running s E b cache past)
    (hs : 1 ≤ s) (hb : 1 ≤ b) (hsb : s + b ≤ 30) (hE : 1 ≤ E)
    (hlive : cacheBlocks (2 ^ s) E ⊆ live) (line : TraceLine) :
    ∃ events cache' result, cache_access_events cache line = some events ∧ Reads live events ∧
      CacheSim.cache_access cache line = some (cache', result) ∧
      Running s E b cache' (past ++ [line.address]) := by
  have hin := h.tracks.inBounds hs hb hsb hE h.set_count h.owned.line_count h.block_size line
  obtain ⟨events, hevents, hreads⟩ := h.owned.reads_cache_access (h.set_count ▸ hlive) hin
  obtain ⟨cache', hacc, htracks⟩ := h.tracks.cache_access hs hb hsb hE line
  obtain ⟨hsets, -, hblock⟩ := cache_access_sizes hacc
  exact ⟨events, cache', _, hevents, hreads, hacc, htracks, h.owned.cache_access hacc,
    hsets.trans h.set_count, hblock.trans h.block_size⟩

/-- So is a run. -/
theorem Running.run_cpu {cache : Cache} {past : List Address} (h : Running s E b cache past)
    (hs : 1 ≤ s) (hb : 1 ≤ b) (hsb : s + b ≤ 30) (hE : 1 ≤ E)
    (hlive : cacheBlocks (2 ^ s) E ⊆ live) (hcpu : Block.cpu ∈ live)
    (hfile : Block.address_trace ∈ live) (trace : List TraceLine) :
    ∃ events cache', run_cpu_events cache trace = some events ∧ Reads live events ∧
      cache_accesses cache trace = some cache' ∧
      Running s E b cache' (past ++ trace.map TraceLine.address) := by
  induction trace generalizing cache past with
  | nil =>
      refine ⟨_, cache, rfl, (((Reads.nil live).cons hcpu).cons hfile).cons hcpu, rfl, ?_⟩
      rwa [List.map_nil, List.append_nil]
  | cons line trace ih =>
      obtain ⟨events, cache₁, result, hevents, hreads, hacc, h₁⟩ :=
        h.cache_access hs hb hsb hE hlive line
      obtain ⟨rest, cache', hrun, hreads', haccs, h'⟩ := ih h₁
      simp only [run_cpu_events, hevents, hacc, hrun, Option.bind_eq_bind, Option.bind_some]
      refine ⟨_, cache', rfl, ?_, ?_, ?_⟩
      · exact (((hreads.append (hreads'.cons hcpu)).cons hcpu).cons hfile).cons hcpu
      · rw [cache_accesses, List.foldlM_cons, hacc]
        exact haccs
      · rwa [List.map_cons, List.append_cons]

end Run

/-- Whatever the trace, the program uses allocated blocks only and frees each of them
once, but it leaves the file of the trace open: after any accesses `lru_destroy` still
meets every node of every queue exactly once. -/
theorem main_leaves_file (garbage : ℕ → ℕ → ℕ → Byte) {s E b : ℕ} (hs : 1 ≤ s) (hb : 1 ≤ b)
    (hsb : s + b ≤ 30) (hE : 1 ≤ E) (trace : List TraceLine) :
    ∃ events, main_events garbage s E b trace = some events ∧
      replay ∅ events = some {.address_trace} := by
  have hcpu : Block.cpu ∉ cacheBlocks (2 ^ s) E := by
    simp [cacheBlocks, allLines, allNodes, lineBlocks, nodeBlocks]
  have hfile : Block.address_trace ∉ cacheBlocks (2 ^ s) E := by
    simp [cacheBlocks, allLines, allNodes, lineBlocks, nodeBlocks]
  have hsub : cacheBlocks (2 ^ s) E ⊆ insert .address_trace (insert .cpu (cacheBlocks (2 ^ s) E)) :=
    (Finset.subset_insert _ _).trans (Finset.subset_insert _ _)
  obtain ⟨run, cache, hrun, hreads, haccs, h⟩ := (running_fresh garbage s E b).run_cpu hs hb hsb hE
    hsub (by simp) (Finset.mem_insert_self _ _) trace
  obtain ⟨deleted, hdelete, hfree⟩ := h.owned.releases_cache
  rw [h.set_count] at hfree
  have hmain : main_events garbage s E b trace = some (make_cache_events (2 ^ s) E
      ++ (make_cpu_events ++ (run ++ (delete_cpu_events ++ deleted)))) := by
    simp only [main_events, hrun, haccs, hdelete, Option.bind_eq_bind, Option.bind_some]
    rfl
  refine ⟨_, hmain, ?_⟩
  -- the calls of `main`, one after the other
  have hmade : replay ∅ (make_cache_events (2 ^ s) E) = some (cacheBlocks (2 ^ s) E) := by
    rw [allocates_cache (2 ^ s) E ∅ ∅ (Finset.Subset.refl _) (Finset.disjoint_empty_right _),
      Finset.empty_union]
  have hopened : replay (cacheBlocks (2 ^ s) E) make_cpu_events
      = some (insert .address_trace (insert .cpu (cacheBlocks (2 ^ s) E))) := by
    rw [make_cpu_events, Lib.replay_malloc hcpu, Lib.replay_access (Finset.mem_insert_self _ _),
      Lib.replay_malloc (by simp [hfile]), Lib.replay_access (by simp), Lib.replay_nil]
  have hclosed : replay (insert .address_trace (insert .cpu (cacheBlocks (2 ^ s) E)))
      delete_cpu_events = some (insert .address_trace (cacheBlocks (2 ^ s) E)) := by
    rw [delete_cpu_events, Lib.replay_free (by simp), Finset.erase_insert_of_ne (by simp),
      Finset.erase_insert hcpu, Lib.replay_nil]
  rw [Lib.replay_append, hmade, Option.bind_some, Lib.replay_append, hopened, Option.bind_some,
    Lib.replay_append, hreads.replay, Option.bind_some, Lib.replay_append, hclosed,
    Option.bind_some, hfree _ (Finset.empty_subset _) (Finset.subset_insert _ _),
    Finset.insert_sdiff_cancel hfile]

/-- A trace that relinks the nodes of a queue. -/
theorem main_leaves_file_threeBlocks :
    ∃ events, main_events (fun _ _ _ => 0) 1 2 1 threeBlocks = some events ∧
      replay ∅ events = some {.address_trace} :=
  main_leaves_file (fun _ _ _ => 0) (by decide) (by decide) (by decide) (by decide) threeBlocks

end ProjectsInC.CacheSim
