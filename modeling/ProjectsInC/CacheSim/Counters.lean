/-
The counters of a run and the lines of the cache.

A set fills up: an access adds a line to those it holds if and only if it is a COLD_MISS
([`filled_concat`]), and never takes one away. So the cold misses are as many as there are valid
lines at the end, and a set that is full, as one with a CONFLICT_MISS is, has no cold miss any
more.
-/
import Mathlib.Algebra.BigOperators.Group.Finset.Piecewise
import Mathlib.Algebra.Order.BigOperators.Group.Finset
import ProjectsInC.CacheSim.Cpu
import ProjectsInC.CacheSim.Geometry

set_option autoImplicit false

namespace ProjectsInC.CacheSim

open AccessResult
open Lib (touch recency)

/-- The valid lines of a set. -/
def CacheSet.validLines (set : CacheSet) (line_count : ℕ) : ℕ :=
  (List.range line_count).countP (fun i => (set.lines i).valid = 1)

/-- The valid lines of all sets. -/
def Cache.validLines (cache : Cache) : ℕ :=
  ∑ S ∈ Finset.range cache.set_count, (cache.sets S).validLines cache.line_count

theorem validLines_le (cache : Cache) : cache.validLines ≤ cache.set_count * cache.line_count := by
  have hset : ∀ S ∈ Finset.range cache.set_count,
      (cache.sets S).validLines cache.line_count ≤ cache.line_count := by
    intro S _
    have hlen := List.countP_le_length (p := fun i => ((cache.sets S).lines i).valid = 1)
      (l := List.range cache.line_count)
    rwa [List.length_range] at hlen
  have hsum := Finset.sum_le_card_nsmul _ _ _ hset
  rwa [Finset.card_range] at hsum

/-! ## Filling up -/

section Filling

variable {s E b : ℕ} {past : List Address}

/-- The lines of set `S` that are in use behind the accesses `past`. -/
def filled (s E b S : ℕ) (past : List Address) : ℕ := ((recency (tagsTo s b S past)).take E).length

/-- What an access is, behind the accesses `past`. -/
def verdictOf (s E b : ℕ) (past : List Address) (address : Address) : AccessResult :=
  verdict E ((recency (tagsTo s b (setOf s b address) past)).take E) (tagOf s b address)

/-- **One access** takes a line into use if it is a COLD_MISS. -/
theorem filled_concat (S : ℕ) (past : List Address) (address : Address) :
    filled s E b S (past ++ [address]) = filled s E b S past
      + if S = setOf s b address ∧ verdictOf s E b past address = COLD_MISS then 1 else 0 := by
  unfold filled verdictOf
  by_cases hS : S = setOf s b address
  · subst hS
    rw [tagsTo_concat_self, Lib.recency_concat]
    generalize recency (tagsTo s b (setOf s b address) past) = tags
    generalize tagOf s b address = tag
    have hcold : (setOf s b address = setOf s b address ∧ verdict E (tags.take E) tag = COLD_MISS) ↔
        tag ∉ tags.take E ∧ (tags.take E).length < E :=
      (and_iff_right rfl).trans verdict_cold_iff
    rw [if_congr hcold rfl rfl]
    by_cases hmem : tag ∈ tags.take E
    · -- the tag comes to the front
      have hpos := List.length_pos_of_mem hmem
      rw [Lib.take_touch_of_mem hmem, List.length_cons, List.length_erase_of_mem hmem,
        if_neg (fun h => h.1 hmem)]
      omega
    · by_cases hroom : (tags.take E).length < E
      · have hshort : tags.length < E := by
          rw [List.length_take] at hroom
          omega
        rw [Lib.take_touch_of_room hmem hshort, List.length_cons, if_pos ⟨hmem, hroom⟩]
      · -- as many as before
        have hlong : E ≤ tags.length := by
          rw [List.length_take] at hroom
          omega
        have htouch : E ≤ (touch tag tags).length := by
          have herase := List.length_erase_le (a := tag) (l := tags)
          have hle := List.le_length_erase (a := tag) (l := tags)
          rw [touch, List.length_cons]
          omega
        rw [if_neg (fun h => hroom h.2), List.length_take, List.length_take, min_eq_left hlong,
          min_eq_left htouch, Nat.add_zero]
  · rw [tagsTo_concat_other (Ne.symm hS), if_neg (fun h => hS h.1), Nat.add_zero]

/-- There are no more than the lines of the set. -/
theorem filled_le (s E b S : ℕ) (past : List Address) : filled s E b S past ≤ E :=
  List.length_take_le _ _

theorem cold_iff_lt {address : Address} (h : verdictOf s E b past address = COLD_MISS) :
    filled s E b (setOf s b address) past < E :=
  (verdict_cold_iff.mp h).2

/-- A CONFLICT_MISS finds the set full. -/
theorem full_of_conflict {address : Address} (h : verdictOf s E b past address = CONFLICT_MISS) :
    filled s E b (setOf s b address) past = E := by
  unfold verdictOf verdict at h
  split_ifs at h with hmem hroom
  exact le_antisymm (filled_le ..) (not_lt.mp hroom)

/-- A full set stays full. -/
theorem full_concat {S : ℕ} (h : filled s E b S past = E) (address : Address) :
    filled s E b S (past ++ [address]) = E := by
  have hconcat := filled_concat (s := s) (E := E) (b := b) S past address
  have hle := filled_le s E b S (past ++ [address])
  omega

/-- All lines in use. -/
def filledLines (s E b : ℕ) (past : List Address) : ℕ :=
  ∑ S ∈ Finset.range (2 ^ s), filled s E b S past

theorem filledLines_concat (past : List Address) (address : Address) :
    filledLines s E b (past ++ [address]) = filledLines s E b past
      + if verdictOf s E b past address = COLD_MISS then 1 else 0 := by
  have hS : setOf s b address ∈ Finset.range (2 ^ s) :=
    Finset.mem_range.mpr (Nat.mod_lt _ (Nat.two_pow_pos s))
  unfold filledLines
  rw [Finset.sum_congr rfl (fun S _ => filled_concat S past address), Finset.sum_add_distrib]
  congr 1
  by_cases hcold : verdictOf s E b past address = COLD_MISS
  · simp only [hcold, and_true, if_true]
    rw [Finset.sum_ite_eq', if_pos hS]
  · simp [hcold]

/-- **The cold misses** are the lines that were taken into use. -/
theorem count_cold_verdicts (past : List Address) (trace : List TraceLine) :
    filledLines s E b past + (verdicts s E b past trace).count COLD_MISS
      = filledLines s E b (past ++ trace.map TraceLine.address) := by
  induction trace generalizing past with
  | nil => rw [verdicts, List.count_nil, List.map_nil, List.append_nil, Nat.add_zero]
  | cons line trace ih =>
      have hverdict : verdicts s E b past (line :: trace)
          = verdictOf s E b past line.address :: verdicts s E b (past ++ [line.address]) trace := rfl
      rw [hverdict, List.count_cons, List.map_cons,
        List.append_cons past line.address (trace.map TraceLine.address), ← ih,
        filledLines_concat]
      simp only [beq_iff_eq]
      omega

/-- Behind a set that is full there is no cold miss of it. -/
theorem no_cold_of_full {S : ℕ} (h : filled s E b S past = E) (trace : List TraceLine) :
    ∀ y ∈ (trace.map TraceLine.address).zip (verdicts s E b past trace),
      setOf s b y.1 = S → y.2 ≠ COLD_MISS := by
  induction trace generalizing past with
  | nil => exact fun y hy => absurd hy List.not_mem_nil
  | cons line trace ih =>
      intro y hy hset
      rcases List.mem_cons.mp hy with rfl | hy
      · intro hcold
        have hlt := @cold_iff_lt s E b past line.address hcold
        rw [show setOf s b line.address = S from hset, h] at hlt
        exact Nat.lt_irrefl E hlt
      · exact ih (full_concat h line.address) y hy hset

/-- **After a CONFLICT_MISS** a set has no COLD_MISS. -/
theorem verdicts_pairwise (past : List Address) (trace : List TraceLine) :
    ((trace.map TraceLine.address).zip (verdicts s E b past trace)).Pairwise (fun x y =>
      setOf s b x.1 = setOf s b y.1 → x.2 = CONFLICT_MISS → y.2 ≠ COLD_MISS) := by
  induction trace generalizing past with
  | nil => exact List.Pairwise.nil
  | cons line trace ih =>
      refine List.Pairwise.cons ?_ (ih _)
      intro y hy hset hconflict
      have hfull := @full_of_conflict s E b past line.address hconflict
      exact no_cold_of_full (full_concat hfull line.address) trace y hy hset.symm

/-- The valid lines of a cache are those in use. -/
theorem Tracks.validLines {cache : Cache} (h : Tracks s E b cache past)
    (hsets : cache.set_count = 2 ^ s) (hlines : cache.line_count = E) :
    cache.validLines = filledLines s E b past := by
  unfold Cache.validLines filledLines
  rw [hsets, hlines]
  refine Finset.sum_congr rfl (fun S hS => ?_)
  exact (h.sets S (Finset.mem_range.mp hS)).countP_valid

end Filling

/-- **The counters add up.** For every cache with a set bit, a block bit and a line in each set, and
every sequence of accesses: with fewer than 2^31 of them the three counters have the sum
`address_count`, and `cold` is the number of valid lines, at most one for each line there is; and no
set has a COLD_MISS after a CONFLICT_MISS. -/
theorem counters_add_up (garbage : ℕ → ℕ → ℕ → Byte) {s E b : ℕ} (hs : 1 ≤ s) (hb : 1 ≤ b)
    (hsb : s + b ≤ 30) (hE : 1 ≤ E) (trace : List TraceLine) :
    ∃ results cpu, access_results (make_cache garbage s E b) trace = some results ∧
      run_cpu (make_cpu (make_cache garbage s E b)) trace = some cpu ∧
      (trace.length < 2 ^ 31 →
        cpu.address_count.toInt = trace.length ∧
        cpu.hits.toInt + cpu.cold.toInt + cpu.conflict.toInt = cpu.address_count.toInt ∧
        cpu.cold.toInt = cpu.cache.validLines ∧
        cpu.cold.toInt ≤ (cpu.cache.set_count * cpu.cache.line_count : ℕ)) ∧
      ((trace.map TraceLine.address).zip results).Pairwise (fun x y =>
        setOf s b x.1 = setOf s b y.1 → x.2 = CONFLICT_MISS → y.2 ≠ COLD_MISS) := by
  have hresults := (tracks_fresh garbage s E b).access_results hs hb hsb hE trace
  obtain ⟨cpu, hrun, hcache, haddresses, hhits, hcold, hconflict⟩ :=
    run_cpu_counts (make_cpu (make_cache garbage s E b)) hresults
  refine ⟨_, cpu, hresults, hrun, ?_, verdicts_pairwise [] trace⟩
  intro hshort
  have hlen : (verdicts s E b [] trace).length = trace.length := length_verdicts [] trace
  have hcounts := length_eq_counts (verdicts s E b [] trace)
  have hzero : ∀ n : ℕ, (0 : CInt) + BitVec.ofNat 32 n = BitVec.ofNat 32 n := fun n => zero_add _
  rw [show (make_cpu (make_cache garbage s E b)).address_count = 0 from rfl, hzero, hlen]
    at haddresses
  rw [show (make_cpu (make_cache garbage s E b)).hits = 0 from rfl, hzero] at hhits
  rw [show (make_cpu (make_cache garbage s E b)).cold = 0 from rfl, hzero] at hcold
  rw [show (make_cpu (make_cache garbage s E b)).conflict = 0 from rfl, hzero] at hconflict
  -- the valid lines at the end
  obtain ⟨cache', hrun', htracks⟩ := (tracks_fresh garbage s E b).cache_accesses hs hb hsb hE trace
  have hend : cache_accesses (make_cache garbage s E b) trace = some cpu.cache := hcache
  obtain rfl : cpu.cache = cache' := Option.some.inj (hend.symm.trans hrun')
  obtain ⟨hsets, hlines, -⟩ := cache_accesses_sizes hend
  have hfilled := count_cold_verdicts (s := s) (E := E) (b := b) [] trace
  rw [← htracks.validLines hsets hlines] at hfilled
  have hnone : filledLines s E b [] = 0 := by
    refine Finset.sum_eq_zero (fun S _ => ?_)
    unfold filled tagsTo
    rw [List.filter_nil, List.map_nil, Lib.recency_nil, List.take_nil, List.length_nil]
  rw [hnone, Nat.zero_add] at hfilled
  have hle := validLines_le cpu.cache
  rw [haddresses, hhits, hcold, hconflict, toInt_ofNat_of_lt (by omega),
    toInt_ofNat_of_lt (by omega), toInt_ofNat_of_lt (by omega), toInt_ofNat_of_lt (by omega)]
  refine ⟨rfl, by omega, by exact_mod_cast hfilled, by exact_mod_cast hfilled ▸ hle⟩

/-- The three blocks of one set, in a set of two lines, and the second of them again. -/
theorem counters_add_up_threeBlocks :
    ∃ cpu, run_cpu (make_cpu (make_cache (fun _ _ _ => 0) 1 2 1)) (threeBlocks ++ [⟨76, 5, 1⟩])
        = some cpu ∧
      cpu.hits.toInt + cpu.cold.toInt + cpu.conflict.toInt = cpu.address_count.toInt ∧
      cpu.cold.toInt = cpu.cache.validLines ∧
      cpu.hits = 1 ∧ cpu.cold = 2 ∧ cpu.conflict = 1 ∧ cpu.cache.validLines = 2 := by
  obtain ⟨results, cpu, -, hrun, hcounts, -⟩ :=
    counters_add_up (fun _ _ _ => 0) (s := 1) (E := 2) (b := 1) (by decide) (by decide) (by decide)
      (by decide) (threeBlocks ++ [⟨76, 5, 1⟩])
  obtain ⟨-, hsum, hcold, -⟩ := hcounts (by decide)
  have hnumbers : (run_cpu (make_cpu (make_cache (fun _ _ _ => 0) 1 2 1))
      (threeBlocks ++ [⟨76, 5, 1⟩])).map (fun cpu => (cpu.hits, cpu.cold, cpu.conflict))
      = some (1, 2, 1) := by
    decide
  rw [hrun, Option.map_some, Option.some.injEq, Prod.mk.injEq, Prod.mk.injEq] at hnumbers
  obtain ⟨hhits, htwo, hconflict⟩ := hnumbers
  refine ⟨cpu, hrun, hsum, hcold, hhits, htwo, hconflict, ?_⟩
  rw [htwo, show (2 : CInt).toInt = 2 from by decide] at hcold
  exact_mod_cast hcold.symm

end ProjectsInC.CacheSim
