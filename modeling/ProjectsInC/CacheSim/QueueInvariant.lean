/-
The LRU queue over any sequence of fetches.

The representation invariant of a set ([`QueueInvariant`]): the queue has one
node for each line, those of the valid lines first, and no two valid lines have
the same tag. `lru_init` establishes it, and each `lru_fetch` keeps it while it
moves the node of the returned line to the front.
-/
import ProjectsInC.CacheSim.Lru

set_option autoImplicit false

namespace ProjectsInC.CacheSim

open Lib (touch)

/-- The queue of the set leads through the nodes of `live`, those of the valid lines, and `free`,
one node for each line, and the valid lines have different tags. -/
structure QueueInvariant (set : CacheSet) (live free : List ℕ) : Prop where
  queued : Queued set.line_count set live free
  distinct : (live.map set.tagOf).Nodup

/-- Calls of `lru_fetch` on a set, one for each tag. -/
def lru_fetches (set : CacheSet) (tags : List CInt) : Option CacheSet :=
  tags.foldlM (fun set tag => (lru_fetch set tag).map Prod.fst) set

/-- From `set` with `nodes` in its queue to `set'` with `nodes'` by a fetch of `tag`: the line with
the tag is returned, its node is the first, and the others stay in their order. -/
structure Fetched (tag : CInt) (set : CacheSet) (nodes : List ℕ) (result : LRUResult)
    (set' : CacheSet) (nodes' : List ℕ) : Prop where
  fetch : lru_fetch set tag = some (set', result)
  line : set'.line = set.line
  valid : (set'.lines result.line).valid = 1
  tag : (set'.lines result.line).tag = tag
  moved : ∃ node ∈ nodes, set'.line node = result.line ∧ nodes' = node :: nodes.erase node

section Invariant

variable {set : CacheSet} {live free : List ℕ}

/-- `lru_init_queue` makes a queue of invalid lines. -/
theorem queueInvariant_init (set : CacheSet) (hinvalid : ∀ i, (set.lines i).valid = 0) :
    ∃ free, QueueInvariant (lru_init_queue set) [] free := by
  obtain ⟨live, free, hq, hnil⟩ := represents_fresh set hinvalid
  rw [List.map_eq_nil_iff.mp hnil] at hq
  have hcount : (lru_init_queue set).line_count = set.line_count := hq.line_count
  refine ⟨free, ?_, List.nodup_nil⟩
  rwa [hcount]

/-- `lru_fetch` finds a line, and the invariant holds of what it leaves. -/
theorem QueueInvariant.fetch (h : QueueInvariant set live free) (hpos : 0 < set.line_count)
    (tag : CInt) :
    ∃ result set' live' free', Fetched tag set (live ++ free) result set' (live' ++ free') ∧
      QueueInvariant set' live' free' ∧ set'.line_count = set.line_count := by
  obtain ⟨set', n, live', free', hmoves⟩ := lru_fetch_moves tag hpos h.queued
  have hcount : set'.line_count = set.line_count := hmoves.queued.line_count
  have htags := hmoves.tags
  have hfront : set'.tagOf n = tag := by
    obtain ⟨E, hE⟩ : ∃ E, set.line_count = E + 1 := Nat.exists_eq_add_one.mpr hpos
    rw [hE, touch, List.take_succ_cons, List.map_cons] at htags
    exact (List.cons.inj htags).1
  have hat : set'.line n = set.line n := by rw [hmoves.line]
  refine ⟨_, set', n :: live', free', ⟨hmoves.fetch, hmoves.line, ?_, ?_, n, hmoves.mem, hat, ?_⟩,
    ⟨?_, ?_⟩, hcount⟩
  · have hvalid := hmoves.queued.valid n List.mem_cons_self
    rwa [hat] at hvalid
  · rw [CacheSet.tagOf, hat] at hfront
    exact hfront
  · rw [List.cons_append, hmoves.others]
  · rw [hcount]
    exact hmoves.queued
  · rw [htags]
    exact (List.take_sublist ..).nodup (Lib.nodup_touch h.distinct)

/-- The calls of a sequence all find a line, and keep the invariant. -/
theorem QueueInvariant.fetches (h : QueueInvariant set live free) (hpos : 0 < set.line_count)
    (tags : List CInt) :
    ∃ set' live' free', lru_fetches set tags = some set' ∧ QueueInvariant set' live' free' ∧
      set'.line_count = set.line_count := by
  induction tags generalizing set live free with
  | nil => exact ⟨set, live, free, rfl, h, rfl⟩
  | cons tag tags ih =>
      obtain ⟨result, set', live', free', hstep, hinv, hcount⟩ := h.fetch hpos tag
      obtain ⟨set'', live'', free'', hrun, hinv', hcount'⟩ := ih hinv (hcount ▸ hpos)
      refine ⟨set'', live'', free'', ?_, hinv', hcount'.trans hcount⟩
      rw [lru_fetches, List.foldlM_cons, hstep.fetch]
      exact hrun

end Invariant

/-- **The queue of a set keeps its invariant.** After any sequence of fetches on a set of a new
cache the invariant holds, and the next fetch, of any tag, moves the node of the line it returns to
the front and keeps the invariant. -/
theorem lru_queue_invariant (cache : Cache) (garbage : ℕ → ℕ → ℕ → Byte) (block_size : ℕ)
    {line_count : ℕ} (hpos : 1 ≤ line_count) {i : ℕ} (hi : i < cache.set_count)
    (tags : List CInt) :
    ∃ set live free,
      lru_fetches ((lru_init { cache with
        sets := make_sets garbage line_count block_size }).sets i) tags = some set ∧
      set.line_count = line_count ∧ QueueInvariant set live free ∧
      ∀ tag, ∃ result set' live' free',
        Fetched tag set (live ++ free) result set' (live' ++ free') ∧
        QueueInvariant set' live' free' := by
  have hnew : (lru_init { cache with sets := make_sets garbage line_count block_size }).sets i
      = lru_init_queue (make_sets garbage line_count block_size i) := if_pos hi
  obtain ⟨free, hinit⟩ :=
    queueInvariant_init (make_sets garbage line_count block_size i) (fun _ => rfl)
  have hcount : (lru_init_queue (make_sets garbage line_count block_size i)).line_count
      = line_count := (lru_init_queue_spec _).2.2.2
  obtain ⟨set, live, free, hrun, hinv, hkept⟩ := hinit.fetches (hcount.symm ▸ hpos) tags
  have hset : set.line_count = line_count := hkept.trans hcount
  refine ⟨set, live, free, ?_, hset, hinv, fun tag => ?_⟩
  · rw [hnew]
    exact hrun
  · obtain ⟨result, set', live', free', hstep, hinv', -⟩ := hinv.fetch (hset.symm ▸ hpos) tag
    exact ⟨result, set', live', free', hstep, hinv'⟩

/-- A cache of one set before its lines are made. -/
def oneSet : Cache where
  sets := fun _ => ⟨fun _ => ⟨0, 0, fun _ => 0, 0⟩, 0, fun _ => 0, ⟨none, fun _ => none⟩⟩
  set_count := 1
  line_count := 2
  block_size := 1
  set_bits := 0
  block_bits := 0

theorem lru_queue_invariant_twoLines :
    ∃ set live free,
      lru_fetches ((lru_init { oneSet with sets := make_sets (fun _ _ _ => 255) 2 1 }).sets 0)
        [7, 8, 7, 9] = some set ∧ QueueInvariant set live free := by
  obtain ⟨set, live, free, hrun, -, hinv, -⟩ := @lru_queue_invariant oneSet (fun _ _ _ => 255) 1 2
    (by decide) 0 (by decide) [7, 8, 7, 9]
  exact ⟨set, live, free, hrun, hinv⟩

end ProjectsInC.CacheSim
