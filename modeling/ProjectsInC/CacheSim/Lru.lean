/-
`lru_fetch` as an operation on the list of tags.

The queue of a set leads first through the nodes of the valid lines and then
through those of the invalid ones ([`Queued`]). What the set holds is the list of
the tags along the valid part, and `lru_fetch` moves the requested tag to its
front, within `E` places ([`lru_fetch_refines`]). The pass over the queue stops at
one of three nodes, so there are three lemmas, each about the node it stops at
and the nodes it has walked over; what they have in common is that this node goes
to the front and its line takes the tag ([`Moves`]).
-/
import ProjectsInC.CacheSim.Cache
import ProjectsInC.Lib.Recency

set_option autoImplicit false

namespace ProjectsInC.CacheSim

open Lib (Chain Cell cellAfter touch)
open AccessResult

/-! ## The queue of a set -/

/-- The tag of the line of a node. -/
def CacheSet.tagOf (set : CacheSet) (node : ℕ) : CInt := (set.lines (set.line node)).tag

/-- The queue leads through `live`, the nodes of the valid lines, and then
`free`, those of the invalid ones, one node for each line. -/
structure Queued (E : ℕ) (set : CacheSet) (live free : List ℕ) : Prop where
  line_count : set.line_count = E
  holds : set.lru_queue.Holds (live ++ free)
  perm : ((live ++ free).map set.line).Perm (List.range E)
  valid : ∀ node ∈ live, (set.lines (set.line node)).valid = 1
  invalid : ∀ node ∈ free, (set.lines (set.line node)).valid = 0

/-- The tags a set of `E` lines holds, most recently used first. -/
def Represents (E : ℕ) (set : CacheSet) (tags : List CInt) : Prop :=
  ∃ live free, Queued E set live free ∧ live.map set.tagOf = tags

section

variable {E : ℕ} {set : CacheSet} {live free : List ℕ}

theorem Queued.nodup_lines (h : Queued E set live free) :
    ((live ++ free).map set.line).Nodup := h.perm.nodup_iff.mpr List.nodup_range

theorem Queued.nodup (h : Queued E set live free) : (live ++ free).Nodup :=
  h.nodup_lines.of_map _

theorem Queued.length (h : Queued E set live free) : live.length + free.length = E := by
  have hlen := h.perm.length_eq
  rwa [List.length_map, List.length_append, List.length_range] at hlen

/-- Two nodes of the queue are about different lines. -/
theorem Queued.line_injOn (h : Queued E set live free) {m n : ℕ} (hm : m ∈ live ++ free)
    (hn : n ∈ live ++ free) (heq : set.line m = set.line n) : m = n :=
  List.inj_on_of_nodup_map h.nodup_lines hm hn heq

end

/-! ## A fresh set -/

/-- The loop of `lru_init_queue` chains in one node for each line, in order. -/
theorem foldl_chainNode (set : CacheSet) (n : ℕ) :
    let st := (List.range n).foldl chainNode
      ({ set with lru_queue := set.lru_queue.set .head none }, .head)
    st.1.lru_queue.Holds (List.range n) ∧ st.2 = cellAfter (List.range n) ∧
      (∀ i < n, st.1.line i = i) ∧ st.1.lines = set.lines ∧ st.1.line_count = set.line_count := by
  induction n with
  | zero => exact ⟨rfl, rfl, fun i hi => absurd hi (Nat.not_lt_zero i), rfl, rfl⟩
  | succ n ih =>
      obtain ⟨hholds, hcell, hline, hlines, hcount⟩ := ih
      simp only [List.range_succ, List.foldl_append, List.foldl_cons, List.foldl_nil, chainNode]
      refine ⟨?_, (Lib.cellAfter_concat _ n).symm, fun i hi => ?_, hlines, hcount⟩
      · rw [hcell]
        exact hholds.append List.nodup_range (by simp)
      · by_cases h : i = n
        · rw [h, Function.update_self]
        · rw [Function.update_of_ne h]
          exact hline i (by omega)

/-- `lru_init_queue` leaves the lines alone and chains in node `i` for line `i`. -/
theorem lru_init_queue_spec (set : CacheSet) :
    (lru_init_queue set).lru_queue.Holds (List.range set.line_count) ∧
      (∀ i < set.line_count, (lru_init_queue set).line i = i) ∧
      (lru_init_queue set).lines = set.lines ∧
      (lru_init_queue set).line_count = set.line_count := by
  obtain ⟨hholds, -, hline, hlines, hcount⟩ := foldl_chainNode set set.line_count
  exact ⟨hholds, hline, hlines, hcount⟩

/-- Right after `lru_init_queue` every line is waiting and no tag is held. -/
theorem represents_fresh (set : CacheSet) (hinvalid : ∀ i, (set.lines i).valid = 0) :
    Represents set.line_count (lru_init_queue set) [] := by
  obtain ⟨hholds, hline, hlines, hcount⟩ := lru_init_queue_spec set
  have hmap : (List.range set.line_count).map (lru_init_queue set).line
      = List.range set.line_count := by
    rw [List.map_congr_left (g := id) (fun i hi => hline i (List.mem_range.mp hi)), List.map_id]
  refine ⟨[], List.range set.line_count, ⟨hcount, hholds, ?_, ?_, fun node _ => ?_⟩, rfl⟩
  · rw [List.nil_append, hmap]
  · exact fun node h => absurd h List.not_mem_nil
  · rw [hlines]
    exact hinvalid _

/-! ## The pass over the queue -/

section Walk

variable {E : ℕ} {set : CacheSet} {tag : CInt}

/-- The loop walks over valid lines with other tags that have a successor. -/
theorem lru_fetch_loop_walk {ys rest : List ℕ} {n : ℕ} (fuel : ℕ)
    (h : set.lru_queue.Holds (ys ++ n :: rest))
    (hvalid : ∀ m ∈ ys, (set.lines (set.line m)).valid = 1)
    (htag : ∀ m ∈ ys, set.tagOf m ≠ tag) :
    lru_fetch_loop (ys.length + fuel) set tag .head
      = lru_fetch_loop fuel set tag (cellAfter ys) := by
  refine h.walkFromHead (fun fuel => lru_fetch_loop fuel set tag) ?_ fuel
  intro fuel p m hm hget
  -- `n` is still to come, so this is not the last node
  have hnext : set.lru_queue.next m ≠ none :=
    @Chain.Holds.next_ne_none ℕ set.lru_queue [] ys (n :: rest) h (List.cons_ne_nil n rest) m hm
  have ht : (set.lines (set.line m)).tag ≠ tag := htag m hm
  rw [lru_fetch_loop]
  simp only [hget, hvalid m hm]
  rw [if_neg (fun hit => ht hit.2), if_neg (by decide), if_neg hnext]

/-- The node the pass stops at decides. -/
theorem lru_fetch_at {live rest : List ℕ} {n : ℕ} (hlen : live.length < set.line_count)
    (h : set.lru_queue.Holds (live ++ n :: rest))
    (hvalid : ∀ m ∈ live, (set.lines (set.line m)).valid = 1)
    (htag : ∀ m ∈ live, set.tagOf m ≠ tag) :
    ∃ fuel, lru_fetch set tag = lru_fetch_loop (fuel + 1) set tag (cellAfter live) ∧
      set.lru_queue.get (cellAfter live) = some n ∧ set.lru_queue.next n = rest.head? := by
  refine ⟨set.line_count - live.length - 1, ?_, h.get_cellAfter,
    (Lib.Links.next_of_append h).head⟩
  have hwalk := lru_fetch_loop_walk (set.line_count - live.length - 1 + 1) h hvalid htag
  rw [← hwalk, lru_fetch]
  congr 1
  omega

/-- A hit: the line is left as it is. -/
theorem lru_fetch_hit {xs ys free : List ℕ} {n : ℕ} (h : Queued E set (xs ++ n :: ys) free)
    (hn : set.tagOf n = tag) (hxs : ∀ m ∈ xs, set.tagOf m ≠ tag) :
    lru_fetch set tag = some (set.requeue (cellAfter xs) n, ⟨set.line n, HIT⟩) := by
  have hholds := h.holds
  rw [List.append_assoc] at hholds
  have hlen := h.length
  rw [List.length_append, List.length_cons] at hlen
  have hv := h.valid n (by simp)
  have ht : (set.lines (set.line n)).tag = tag := hn
  obtain ⟨fuel, hfetch, hget, -⟩ := lru_fetch_at (by have := h.line_count; omega) hholds
    (fun m hm => h.valid m (by simp [hm])) hxs
  rw [hfetch, lru_fetch_loop]
  simp only [hget, hv, ht, and_self, if_true]

/-- A cold miss: the first invalid line takes the tag. -/
theorem lru_fetch_cold {live free : List ℕ} {n : ℕ} (h : Queued E set live (n :: free))
    (htag : ∀ m ∈ live, set.tagOf m ≠ tag) :
    lru_fetch set tag = some ((set.setLine (set.line n)
      { set.lines (set.line n) with valid := 1, tag := tag }).requeue (cellAfter live) n,
      ⟨set.line n, COLD_MISS⟩) := by
  have hlen := h.length
  rw [List.length_cons] at hlen
  have hv := h.invalid n List.mem_cons_self
  obtain ⟨fuel, hfetch, hget, -⟩ := lru_fetch_at (by have := h.line_count; omega) h.holds
    h.valid htag
  rw [hfetch, lru_fetch_loop]
  simp only [hget, hv]
  rw [if_neg (fun hit => absurd hit.1 (by decide)), if_pos trivial]

/-- A conflict miss: the last line changes its tag. -/
theorem lru_fetch_conflict {xs : List ℕ} {n : ℕ} (h : Queued E set (xs ++ [n]) [])
    (htag : ∀ m ∈ xs ++ [n], set.tagOf m ≠ tag) :
    lru_fetch set tag = some ((set.setLine (set.line n)
      { set.lines (set.line n) with tag := tag }).requeue (cellAfter xs) n,
      ⟨set.line n, CONFLICT_MISS⟩) := by
  have hholds := h.holds
  rw [List.append_nil] at hholds
  have hlen := h.length
  rw [List.length_append, List.length_singleton] at hlen
  have hv := h.valid n (by simp)
  have ht : (set.lines (set.line n)).tag ≠ tag := htag n (by simp)
  obtain ⟨fuel, hfetch, hget, hnext⟩ := lru_fetch_at (by have := h.line_count; omega) hholds
    (fun m hm => h.valid m (by simp [hm])) (fun m hm => htag m (by simp [hm]))
  rw [List.head?_nil] at hnext
  rw [hfetch, lru_fetch_loop]
  simp only [hget, hv]
  rw [if_neg (fun hit => ht hit.2), if_neg (by decide), if_pos hnext]

end Walk

/-! ## What the pass leaves behind -/

/-- Requeueing moves one node to the front. -/
theorem requeue_holds {set : CacheSet} {xs ys : List ℕ} {n : ℕ}
    (h : set.lru_queue.Holds (xs ++ n :: ys)) (hnodup : (xs ++ n :: ys).Nodup) :
    (set.requeue (cellAfter xs) n).lru_queue.Holds (n :: (xs ++ ys)) := by
  apply (h.unlink hnodup).push
  have hmid : (n :: (xs ++ ys)).Nodup := List.perm_middle.nodup_iff.mp hnodup
  exact (List.nodup_cons.mp hmid).1

section Requeue

variable {E : ℕ} {set : CacheSet} {xs ys live free live' free' : List ℕ} {n : ℕ} {line : Line}

/-- Rewriting the line of `n` does not show in the other lines of the queue. -/
theorem Queued.setLine_other (h : Queued E set live free) (hsplit : live ++ free = xs ++ n :: ys)
    {m : ℕ} (hm : m ∈ xs ++ ys) :
    (set.setLine (set.line n) line).lines (set.line m) = set.lines (set.line m) := by
  refine Function.update_of_ne (fun heq => ?_) ..
  -- a node of the same line would be `n`, which is not among the others
  have hperm : (live ++ free).Perm (n :: (xs ++ ys)) := by
    rw [hsplit]
    exact List.perm_middle
  have hmn : m = n := h.line_injOn (hperm.mem_iff.mpr (List.mem_cons_of_mem n hm))
    (hperm.mem_iff.mpr List.mem_cons_self) heq
  exact (List.nodup_cons.mp (hperm.nodup_iff.mp h.nodup)).1 (hmn ▸ hm)

/-- One line is rewritten and its node goes to the front: the queue has the
shape it had, with that line valid. -/
theorem Queued.requeue (h : Queued E set live free) (hsplit : live ++ free = xs ++ n :: ys)
    (hvalid : line.valid = 1) (hrest : live' ++ free' = xs ++ ys)
    (hlive : ∀ m ∈ live', m ∈ live) (hfree : ∀ m ∈ free', m ∈ free) :
    Queued E ((set.setLine (set.line n) line).requeue (cellAfter xs) n) (n :: live') free' := by
  have hholds := h.holds
  have hnodup := h.nodup
  have hperm := h.perm
  rw [hsplit] at hholds hnodup hperm
  refine ⟨h.line_count, ?_, ?_, fun m hm => ?_, fun m hm => ?_⟩
  · rw [List.cons_append, hrest]
    exact requeue_holds hholds hnodup
  · rw [List.cons_append, hrest]
    exact (List.perm_middle.map _).symm.trans hperm
  · rcases List.mem_cons.mp hm with rfl | hm'
    · exact (congrArg Line.valid (Function.update_self ..)).trans hvalid
    · exact (congrArg Line.valid
        (h.setLine_other hsplit (hrest ▸ List.mem_append_left _ hm'))).trans
        (h.valid m (hlive m hm'))
  · exact (congrArg Line.valid
      (h.setLine_other hsplit (hrest ▸ List.mem_append_right _ hm))).trans
      (h.invalid m (hfree m hm))

/-- The tags then: the new one in front, the others as they were. -/
theorem Queued.requeue_tags (line : Line) (h : Queued E set live free)
    (hsplit : live ++ free = xs ++ n :: ys)
    (hlive : ∀ m ∈ live', m ∈ xs ++ ys) :
    (n :: live').map ((set.setLine (set.line n) line).requeue (cellAfter xs) n).tagOf
      = line.tag :: live'.map set.tagOf := by
  rw [List.map_cons]
  congr 1
  · exact congrArg Line.tag (Function.update_self ..)
  · exact List.map_congr_left (fun m hm => congrArg Line.tag (h.setLine_other hsplit (hlive m hm)))

end Requeue

/-! ## The refinement -/

/-- What an access to `tag` is, of a set that holds `tags` in `E` lines. -/
def verdict (E : ℕ) (tags : List CInt) (tag : CInt) : AccessResult :=
  if tag ∈ tags then HIT else if tags.length < E then COLD_MISS else CONFLICT_MISS

/-- Writing a line back does nothing. -/
theorem setLine_self (set : CacheSet) (i : ℕ) : set.setLine i (set.lines i) = set := by
  rw [CacheSet.setLine, Function.update_eq_self]

/-- A line that has been given the tag. -/
def Line.holding (line : Line) (tag : CInt) : Line := { line with valid := 1, tag := tag }

/-- Nothing changes in a valid line with the tag. -/
theorem Line.holding_self {line : Line} {tag : CInt} (hvalid : line.valid = 1)
    (htag : line.tag = tag) : line.holding tag = line := by
  rw [Line.holding, ← hvalid, ← htag]

/-- A fetch of `tag` moves node `n` to the front and returns its line, which now has the tag. The
other nodes keep their order, and the tags change as by an access. -/
structure Moves (E : ℕ) (set : CacheSet) (live free : List ℕ) (tag : CInt) (set' : CacheSet) (n : ℕ)
    (live' free' : List ℕ) : Prop where
  fetch : lru_fetch set tag = some (set', ⟨set.line n, verdict E (live.map set.tagOf) tag⟩)
  mem : n ∈ live ++ free
  hit : tag ∈ live.map set.tagOf → n ∈ live ∧ set.tagOf n = tag
  queued : Queued E set' (n :: live') free'
  others : live' ++ free' = (live ++ free).erase n
  line : set'.line = set.line
  lines : set'.lines
    = Function.update set.lines (set.line n) ((set.lines (set.line n)).holding tag)
  tags : (n :: live').map set'.tagOf = (touch tag (live.map set.tagOf)).take E

section Moves

variable {E : ℕ} {set : CacheSet} {live free xs ys live' free' : List ℕ} {n : ℕ} {tag : CInt}

/-- It is enough to know the node the pass stops at. -/
theorem Queued.moves (h : Queued E set live free) (hsplit : live ++ free = xs ++ n :: ys)
    (hrest : live' ++ free' = xs ++ ys) (hlive : ∀ m ∈ live', m ∈ live)
    (hfree : ∀ m ∈ free', m ∈ free)
    (hfetch : lru_fetch set tag = some ((set.setLine (set.line n)
      ((set.lines (set.line n)).holding tag)).requeue (cellAfter xs) n,
      ⟨set.line n, verdict E (live.map set.tagOf) tag⟩))
    (hhit : tag ∈ live.map set.tagOf → n ∈ live ∧ set.tagOf n = tag)
    (htags : tag :: live'.map set.tagOf = (touch tag (live.map set.tagOf)).take E) :
    ∃ set' n live' free', Moves E set live free tag set' n live' free' := by
  have hnotin : n ∉ xs := by
    have hnodup := h.nodup
    rw [hsplit] at hnodup
    have hmid : (n :: (xs ++ ys)).Nodup := List.perm_middle.nodup_iff.mp hnodup
    exact fun hmem => (List.nodup_cons.mp hmid).1 (List.mem_append_left ys hmem)
  refine ⟨_, n, live', free', hfetch, ?_, hhit, h.requeue hsplit rfl hrest hlive hfree, ?_, rfl,
    rfl, ?_⟩
  · rw [hsplit]
    exact List.mem_append_right xs List.mem_cons_self
  · rw [hsplit, List.erase_append_right _ hnotin, List.erase_cons_head, hrest]
  · rw [h.requeue_tags _ hsplit (fun m hm => hrest ▸ List.mem_append_left free' hm), ← htags]
    rfl

/-- There are no more tags than lines. -/
theorem Queued.take_tags (h : Queued E set live free) :
    (live.map set.tagOf).take E = live.map set.tagOf := by
  apply List.take_of_length_le
  have hlen := h.length
  rw [List.length_map]
  omega

/-- A hit moves the first node with the tag. -/
theorem Queued.moves_hit (h : Queued E set live free) (hmem : tag ∈ live.map set.tagOf) :
    ∃ set' n live' free', Moves E set live free tag set' n live' free' := by
  have htake := h.take_tags
  obtain ⟨pre, post, hsplit, hpre⟩ := List.eq_append_cons_of_mem hmem
  obtain ⟨xs, rest, rfl, rfl, hrest⟩ := List.map_eq_append_iff.mp hsplit
  obtain ⟨n, ys, rfl, hn, rfl⟩ := List.map_eq_cons_iff.mp hrest
  have hxs : ∀ m ∈ xs, set.tagOf m ≠ tag := fun m hm heq => hpre (heq ▸ List.mem_map_of_mem hm)
  have hlive : ∀ m ∈ xs ++ ys, m ∈ xs ++ n :: ys := by
    intro m hm
    rcases List.mem_append.mp hm with h | h <;> simp [h]
  have hwhole : xs ++ n :: ys ++ free = xs ++ n :: (ys ++ free) := by simp
  have hvalid := h.valid n (by simp)
  apply h.moves hwhole (List.append_assoc ..) hlive (fun m hm => hm)
  · rw [verdict, if_pos hmem, Line.holding_self hvalid hn, setLine_self, lru_fetch_hit h hn hxs]
  · exact fun _ => ⟨by simp, hn⟩
  · rw [Lib.take_touch_of_mem (by rwa [htake]), htake, hsplit, List.erase_append_right _ hpre,
      List.erase_cons_head, List.map_append]

/-- A cold miss moves the first node of an invalid line. -/
theorem Queued.moves_cold (h : Queued E set live (n :: free)) (hmem : tag ∉ live.map set.tagOf) :
    ∃ set' n' live' free', Moves E set live (n :: free) tag set' n' live' free' := by
  have htake := h.take_tags
  have hlen := h.length
  rw [List.length_cons] at hlen
  have hroom : (live.map set.tagOf).length < E := by
    rw [List.length_map]
    omega
  have htag : ∀ m ∈ live, set.tagOf m ≠ tag := fun m hm heq =>
    hmem (heq ▸ List.mem_map_of_mem hm)
  apply h.moves rfl rfl (fun m hm => hm) (fun m hm => List.mem_cons_of_mem n hm)
  · rw [lru_fetch_cold h htag, verdict, if_neg hmem, if_pos hroom, Line.holding]
  · exact fun hit => absurd hit hmem
  · rw [Lib.take_touch_of_room (by rwa [htake]) hroom, htake]

/-- A conflict miss moves the last node. -/
theorem Queued.moves_conflict (h : Queued E set live []) (hE : 0 < E)
    (hmem : tag ∉ live.map set.tagOf) :
    ∃ set' n live' free', Moves E set live [] tag set' n live' free' := by
  have htake := h.take_tags
  have hlen := h.length
  rw [List.length_nil, Nat.add_zero] at hlen
  obtain ⟨xs, n, rfl⟩ : ∃ xs n, live = xs ++ [n] := by
    rcases List.eq_nil_or_concat live with rfl | ⟨xs, n, rfl⟩
    · exact absurd hlen (by simp; omega)
    · exact ⟨xs, n, List.concat_eq_append⟩
  have hfull : ¬ ((xs ++ [n]).map set.tagOf).length < E := by
    rw [List.length_map]
    omega
  have htag : ∀ m ∈ xs ++ [n], set.tagOf m ≠ tag := fun m hm heq =>
    hmem (heq ▸ List.mem_map_of_mem hm)
  have hwhole : xs ++ [n] ++ [] = xs ++ n :: [] := List.append_nil _
  have hvalid := h.valid n (by simp)
  apply h.moves hwhole rfl (fun m hm => List.mem_append_left [n] hm) (fun m hm => hm)
  · rw [lru_fetch_conflict h htag, verdict, if_neg hmem, if_neg hfull, Line.holding, ← hvalid]
  · exact fun hit => absurd hit hmem
  · rw [Lib.take_touch_of_full (by rwa [htake]) hE (not_lt.mp hfull), htake, List.map_append,
      List.map_singleton, List.dropLast_concat]

/-- Every fetch moves a node. -/
theorem lru_fetch_moves (tag : CInt) (hE : 0 < E) (h : Queued E set live free) :
    ∃ set' n live' free', Moves E set live free tag set' n live' free' := by
  by_cases hmem : tag ∈ live.map set.tagOf
  · exact h.moves_hit hmem
  · cases free with
    | cons n free => exact h.moves_cold hmem
    | nil => exact h.moves_conflict hE hmem

end Moves

/-- **`lru_fetch` is an access to a recency list of `E` places.** -/
theorem lru_fetch_refines {E : ℕ} {set : CacheSet} {tags : List CInt} (tag : CInt) (hE : 0 < E)
    (h : Represents E set tags) :
    ∃ set' i, lru_fetch set tag = some (set', ⟨i, verdict E tags tag⟩) ∧
      Represents E set' ((touch tag tags).take E) := by
  obtain ⟨live, free, hq, rfl⟩ := h
  obtain ⟨set', n, live', free', hmoves⟩ := lru_fetch_moves tag hE hq
  exact ⟨set', set.line n, hmoves.fetch, n :: live', free', hmoves.queued, hmoves.tags⟩

/-! ## The valid lines -/

section Valid

variable {E : ℕ} {set : CacheSet} {live free : List ℕ} {tags : List CInt}

/-- A valid line has a node in the first part of the queue. -/
theorem Queued.node_of_valid (h : Queued E set live free) {i : ℕ} (hi : i < E)
    (hvalid : (set.lines i).valid = 1) : ∃ n ∈ live, set.line n = i := by
  obtain ⟨n, hn, rfl⟩ := List.mem_map.mp (h.perm.mem_iff.mpr (List.mem_range.mpr hi))
  rcases List.mem_append.mp hn with hn | hn
  · exact ⟨n, hn, rfl⟩
  · rw [h.invalid n hn] at hvalid
    exact absurd hvalid (by decide)

theorem Queued.line_lt (h : Queued E set live free) {n : ℕ} (hn : n ∈ live ++ free) :
    set.line n < E :=
  List.mem_range.mp (h.perm.mem_iff.mp (List.mem_map_of_mem hn))

/-- The tags a set holds are those of its valid lines. -/
theorem Represents.held_iff (h : Represents E set tags) {tag : CInt} :
    tag ∈ tags ↔ ∃ i < E, (set.lines i).valid = 1 ∧ (set.lines i).tag = tag := by
  obtain ⟨live, free, hq, rfl⟩ := h
  constructor
  · intro htag
    obtain ⟨n, hn, rfl⟩ := List.mem_map.mp htag
    exact ⟨set.line n, hq.line_lt (List.mem_append_left free hn), hq.valid n hn, rfl⟩
  · rintro ⟨i, hi, hvalid, rfl⟩
    obtain ⟨n, hn, rfl⟩ := hq.node_of_valid hi hvalid
    exact List.mem_map_of_mem hn

/-- Two valid lines have different tags. -/
theorem Represents.line_of_tag (h : Represents E set tags) (hnodup : tags.Nodup) {i j : ℕ}
    (hi : i < E) (hj : j < E) (hvalid : (set.lines i).valid = 1)
    (hvalid' : (set.lines j).valid = 1) (htag : (set.lines i).tag = (set.lines j).tag) : i = j := by
  obtain ⟨live, free, hq, rfl⟩ := h
  obtain ⟨m, hm, rfl⟩ := hq.node_of_valid hi hvalid
  obtain ⟨n, hn, rfl⟩ := hq.node_of_valid hj hvalid'
  rw [List.inj_on_of_nodup_map hnodup hm hn htag]

/-- There are as many valid lines as tags. -/
theorem Represents.countP_valid (h : Represents E set tags) :
    (List.range E).countP (fun i => (set.lines i).valid = 1) = tags.length := by
  obtain ⟨live, free, hq, rfl⟩ := h
  rw [← hq.perm.countP_eq, List.countP_map, List.countP_append, List.length_map]
  have hlive : live.countP ((fun i => decide ((set.lines i).valid = 1)) ∘ set.line) = live.length := by
    rw [List.countP_eq_length]
    intro n hn
    exact decide_eq_true (hq.valid n hn)
  have hfree : free.countP ((fun i => decide ((set.lines i).valid = 1)) ∘ set.line) = 0 := by
    rw [List.countP_eq_zero]
    intro n hn hvalid
    have hone : (set.lines (set.line n)).valid = 1 := of_decide_eq_true hvalid
    rw [hq.invalid n hn] at hone
    exact absurd hone (by decide)
  rw [hlive, hfree, Nat.add_zero]

end Valid

end ProjectsInC.CacheSim
