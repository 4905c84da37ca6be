/-
`cpu.c`: the counters of a run, and runs with more lines in each set.

A set with `E` lines holds the first `E` tags of a list that does not depend on `E`
([`Tracks`]), so a tag held by the smaller cache is held by the larger one, and this goes
for every access of a run ([`verdicts_inclusion`]). The counters are `int`s: they are the
numbers of the results modulo 2^32.
-/
import Mathlib.Data.List.Forall2
import ProjectsInC.CacheSim.ReuseDistance

set_option autoImplicit false

namespace ProjectsInC.CacheSim

open AccessResult
open Lib (touch recency)

/-- `CPU`, without its trace file. -/
structure CPU where
  cache : Cache
  address_count : CInt
  hits : CInt
  cold : CInt
  conflict : CInt

/-- `make_cpu` -/
def make_cpu (cache : Cache) : CPU := ⟨cache, 0, 0, 0, 0⟩

/-- What `run_cpu` does with the result of an access. -/
def CPU.count (cpu : CPU) (cache : Cache) (result : AccessResult) : CPU :=
  let cpu := { cpu with cache := cache, address_count := cpu.address_count + 1 }
  if result = HIT then { cpu with hits := cpu.hits + 1 }
  else if result = COLD_MISS then { cpu with cold := cpu.cold + 1 }
  else { cpu with conflict := cpu.conflict + 1 }

/-- The loop of `run_cpu` over the lines `read_address` reads. -/
def run_cpu (cpu : CPU) (trace : List TraceLine) : Option CPU :=
  trace.foldlM (fun cpu line => (cache_access cpu.cache line).map (fun r => cpu.count r.1 r.2)) cpu

/-- `int miss = cpu->cold+cpu->conflict` -/
def CPU.miss (cpu : CPU) : CInt := cpu.cold + cpu.conflict

/-- The results of the accesses of a run, one after the other. -/
def access_results (cache : Cache) : List TraceLine → Option (List AccessResult)
  | [] => some []
  | line :: trace => do
      let (cache, result) ← cache_access cache line
      let results ← access_results cache trace
      some (result :: results)

/-- The misses among the results. -/
def misses (results : List AccessResult) : ℕ := results.countP (· ≠ HIT)

/-! ## The counters -/

section Count

variable (cpu : CPU) (cache : Cache) (result : AccessResult) (results : List AccessResult)

theorem count_cache : (cpu.count cache result).cache = cache := by
  cases result <;> rfl

theorem count_address_count :
    (cpu.count cache result).address_count + BitVec.ofNat 32 results.length
      = cpu.address_count + BitVec.ofNat 32 (result :: results).length := by
  rw [List.length_cons, ← add_ofNat_succ]
  cases result <;> rfl

theorem count_hits :
    (cpu.count cache result).hits + BitVec.ofNat 32 (results.count HIT)
      = cpu.hits + BitVec.ofNat 32 ((result :: results).count HIT) := by
  cases result with
  | HIT =>
      rw [List.count_cons_self, ← add_ofNat_succ]
      rfl
  | COLD_MISS => rfl
  | CONFLICT_MISS => rfl

theorem count_cold :
    (cpu.count cache result).cold + BitVec.ofNat 32 (results.count COLD_MISS)
      = cpu.cold + BitVec.ofNat 32 ((result :: results).count COLD_MISS) := by
  cases result with
  | HIT => rfl
  | COLD_MISS =>
      rw [List.count_cons_self, ← add_ofNat_succ]
      rfl
  | CONFLICT_MISS => rfl

theorem count_conflict :
    (cpu.count cache result).conflict + BitVec.ofNat 32 (results.count CONFLICT_MISS)
      = cpu.conflict + BitVec.ofNat 32 ((result :: results).count CONFLICT_MISS) := by
  cases result with
  | HIT => rfl
  | COLD_MISS => rfl
  | CONFLICT_MISS =>
      rw [List.count_cons_self, ← add_ofNat_succ]
      rfl

end Count

/-- `run_cpu` counts the results, as far as an `int` goes. -/
theorem run_cpu_counts (cpu : CPU) {trace : List TraceLine} {results : List AccessResult}
    (h : access_results cpu.cache trace = some results) :
    ∃ cpu', run_cpu cpu trace = some cpu' ∧ cache_accesses cpu.cache trace = some cpu'.cache ∧
      cpu'.address_count = cpu.address_count + BitVec.ofNat 32 results.length ∧
      cpu'.hits = cpu.hits + BitVec.ofNat 32 (results.count HIT) ∧
      cpu'.cold = cpu.cold + BitVec.ofNat 32 (results.count COLD_MISS) ∧
      cpu'.conflict = cpu.conflict + BitVec.ofNat 32 (results.count CONFLICT_MISS) := by
  induction trace generalizing cpu results with
  | nil =>
      obtain rfl := Option.some.inj h
      exact ⟨cpu, rfl, rfl, (BitVec.add_zero _).symm, (BitVec.add_zero _).symm,
        (BitVec.add_zero _).symm, (BitVec.add_zero _).symm⟩
  | cons line trace ih =>
      unfold access_results at h
      simp only [Option.bind_eq_bind, Option.bind_eq_some_iff] at h
      obtain ⟨⟨cache₁, result⟩, haccess, results', hrest, hresults⟩ := h
      obtain rfl := Option.some.inj hresults
      have hcache := count_cache cpu cache₁ result
      obtain ⟨cpu', hrun, hend, haddresses, hhits, hcold, hconflict⟩ :=
        ih (cpu.count cache₁ result) (hcache.symm ▸ hrest)
      rw [count_address_count] at haddresses
      rw [count_hits] at hhits
      rw [count_cold] at hcold
      rw [count_conflict] at hconflict
      refine ⟨cpu', ?_, ?_, haddresses, hhits, hcold, hconflict⟩
      · unfold run_cpu at hrun ⊢
        rw [List.foldlM_cons, haccess]
        exact hrun
      · rw [hcache] at hend
        unfold cache_accesses at hend ⊢
        rw [List.foldlM_cons, haccess]
        exact hend

/-- A result is a HIT or a miss of either kind. -/
theorem misses_eq (results : List AccessResult) :
    misses results = results.count COLD_MISS + results.count CONFLICT_MISS := by
  induction results with
  | nil => rfl
  | cons result results ih =>
      unfold misses at ih ⊢
      rw [List.countP_cons, List.count_cons, List.count_cons, ih]
      cases result with
      | HIT => rfl
      | COLD_MISS => exact Nat.add_right_comm ..
      | CONFLICT_MISS => exact Nat.add_assoc ..

theorem length_eq_counts (results : List AccessResult) :
    results.length
      = results.count HIT + results.count COLD_MISS + results.count CONFLICT_MISS := by
  have hsplit := List.length_eq_countP_add_countP (fun r => r == HIT) (l := results)
  have hmiss : results.countP (fun r => ¬ (r == HIT)) = misses results :=
    List.countP_congr (fun r _ => by simp)
  rw [hmiss, misses_eq] at hsplit
  rw [Nat.add_assoc]
  exact hsplit

/-- `run_cpu` counts the misses. -/
theorem run_cpu_miss (cpu : CPU) {trace : List TraceLine} {results : List AccessResult}
    (h : access_results cpu.cache trace = some results) :
    ∃ cpu', run_cpu cpu trace = some cpu' ∧
      cpu'.miss = cpu.miss + BitVec.ofNat 32 (misses results) := by
  obtain ⟨cpu', hrun, -, -, -, hcold, hconflict⟩ := run_cpu_counts cpu h
  refine ⟨cpu', hrun, ?_⟩
  unfold CPU.miss
  rw [hcold, hconflict, misses_eq, BitVec.ofNat_add]
  ac_rfl

/-! ## The results -/

/-- What the accesses are, of a cache whose sets have `E` lines and that has seen `past`. -/
def verdicts (s E b : ℕ) : List Address → List TraceLine → List AccessResult
  | _, [] => []
  | past, line :: trace =>
      verdict E ((recency (tagsTo s b (setOf s b line.address) past)).take E)
          (tagOf s b line.address) ::
        verdicts s E b (past ++ [line.address]) trace

section Results

variable {s E E' b : ℕ}

theorem Tracks.access_results (hs : 1 ≤ s) (hb : 1 ≤ b) (hsb : s + b ≤ 30) (hE : 1 ≤ E)
    {cache : Cache} {past : List Address} (h : Tracks s E b cache past) (trace : List TraceLine) :
    CacheSim.access_results cache trace = some (verdicts s E b past trace) := by
  induction trace generalizing cache past with
  | nil => rfl
  | cons line trace ih =>
      obtain ⟨cache₁, haccess, h₁⟩ := h.cache_access hs hb hsb hE line
      rw [CacheSim.access_results, haccess]
      simp only [Option.bind_eq_bind, Option.bind_some, ih h₁]
      rfl

/-- **Inclusion.** What is a HIT with `E` lines is one with more. -/
theorem verdicts_inclusion (hle : E ≤ E') (past : List Address) (trace : List TraceLine) :
    List.Forall₂ (fun result result' => result = HIT → result' = HIT)
      (verdicts s E b past trace) (verdicts s E' b past trace) := by
  induction trace generalizing past with
  | nil => exact List.Forall₂.nil
  | cons line trace ih =>
      refine List.Forall₂.cons ?_ (ih _)
      intro hhit
      rw [verdict_hit_iff] at hhit ⊢
      -- the first `E` places of the list are among the first `E'`
      exact (List.take_subset_take_left _ hle) hhit

theorem misses_le_of_inclusion {results results' : List AccessResult}
    (h : List.Forall₂ (fun result result' => result = HIT → result' = HIT) results results') :
    misses results' ≤ misses results := by
  induction h with
  | nil => exact le_rfl
  | @cons result result' results results' hhit _ ih =>
      unfold misses at ih ⊢
      rw [List.countP_cons, List.countP_cons]
      by_cases hresult : result = HIT
      · rw [hresult, hhit hresult]
        simpa using ih
      · rw [if_pos (decide_eq_true hresult)]
        split_ifs <;> omega

theorem length_verdicts (past : List Address) (trace : List TraceLine) :
    (verdicts s E b past trace).length = trace.length := by
  induction trace generalizing past with
  | nil => rfl
  | cons line trace ih => rw [verdicts, List.length_cons, List.length_cons, ih]

end Results

theorem misses_le_length (results : List AccessResult) : misses results ≤ results.length :=
  List.countP_le_length

/-- **More ways never hurt.** For every sequence of accesses, on two caches that differ in
the number of lines of a set only: each access that is a HIT with `E` lines is one with
`E'`, there are no more misses, `run_cpu` counts them modulo 2^32, and so its counts compare
alike as long as there are fewer than 2^31 accesses. -/
theorem more_ways (garbage : ℕ → ℕ → ℕ → Byte) {s E E' b : ℕ} (hs : 1 ≤ s) (hb : 1 ≤ b)
    (hsb : s + b ≤ 30) (hE : 1 ≤ E) (hle : E ≤ E') (trace : List TraceLine) :
    ∃ results results' cpu cpu',
      access_results (make_cache garbage s E b) trace = some results ∧
      access_results (make_cache garbage s E' b) trace = some results' ∧
      List.Forall₂ (fun result result' => result = HIT → result' = HIT) results results' ∧
      misses results' ≤ misses results ∧
      run_cpu (make_cpu (make_cache garbage s E b)) trace = some cpu ∧
      cpu.miss = BitVec.ofNat 32 (misses results) ∧
      run_cpu (make_cpu (make_cache garbage s E' b)) trace = some cpu' ∧
      cpu'.miss = BitVec.ofNat 32 (misses results') ∧
      (trace.length < 2 ^ 31 → cpu'.miss.toInt ≤ cpu.miss.toInt) := by
  have hresults := (tracks_fresh garbage s E b).access_results hs hb hsb hE trace
  have hresults' := (tracks_fresh garbage s E' b).access_results hs hb hsb (hE.trans hle) trace
  have hincl := verdicts_inclusion (s := s) (b := b) hle [] trace
  have hmisses := misses_le_of_inclusion hincl
  obtain ⟨cpu, hrun, hmiss⟩ := run_cpu_miss (make_cpu (make_cache garbage s E b)) hresults
  obtain ⟨cpu', hrun', hmiss'⟩ := run_cpu_miss (make_cpu (make_cache garbage s E' b)) hresults'
  have hzero : ∀ cache, (make_cpu cache).miss = 0 := fun cache => rfl
  rw [hzero, zero_add] at hmiss hmiss'
  refine ⟨_, _, cpu, cpu', hresults, hresults', hincl, hmisses, hrun, hmiss, hrun', hmiss', ?_⟩
  intro hshort
  have hlen := misses_le_length (verdicts s E b [] trace)
  rw [length_verdicts] at hlen
  rw [hmiss, hmiss', toInt_ofNat_of_lt (by omega), toInt_ofNat_of_lt (by omega)]
  exact_mod_cast hmisses

/-- Two blocks of one set and the first of them again: the last access is a HIT with two lines,
and with one line it is not. -/
theorem more_ways_again :
    ∃ results results' cpu cpu',
      access_results (make_cache (fun _ _ _ => 0) 1 1 1)
        [⟨76, 0, 1⟩, ⟨76, 4, 1⟩, ⟨76, 1, 1⟩] = some results ∧
      access_results (make_cache (fun _ _ _ => 0) 1 2 1)
        [⟨76, 0, 1⟩, ⟨76, 4, 1⟩, ⟨76, 1, 1⟩] = some results' ∧
      results = [COLD_MISS, CONFLICT_MISS, CONFLICT_MISS] ∧
      results' = [COLD_MISS, COLD_MISS, HIT] ∧
      List.Forall₂ (fun result result' => result = HIT → result' = HIT) results results' ∧
      run_cpu (make_cpu (make_cache (fun _ _ _ => 0) 1 1 1))
        [⟨76, 0, 1⟩, ⟨76, 4, 1⟩, ⟨76, 1, 1⟩] = some cpu ∧
      run_cpu (make_cpu (make_cache (fun _ _ _ => 0) 1 2 1))
        [⟨76, 0, 1⟩, ⟨76, 4, 1⟩, ⟨76, 1, 1⟩] = some cpu' ∧
      cpu'.miss.toInt ≤ cpu.miss.toInt ∧ cpu'.miss = 2 ∧ cpu.miss = 3 := by
  obtain ⟨results, results', cpu, cpu', hresults, hresults', hincl, -, hrun, hmiss, hrun', hmiss',
      hle⟩ :=
    more_ways (fun _ _ _ => 0) (s := 1) (E := 1) (b := 1) (by decide) (by decide) (by decide)
      (by decide) (show 1 ≤ 2 by decide) [⟨76, 0, 1⟩, ⟨76, 4, 1⟩, ⟨76, 1, 1⟩]
  have hone : results = [COLD_MISS, CONFLICT_MISS, CONFLICT_MISS] :=
    Option.some.inj (hresults.symm.trans (by decide))
  have htwo : results' = [COLD_MISS, COLD_MISS, HIT] :=
    Option.some.inj (hresults'.symm.trans (by decide))
  refine ⟨results, results', cpu, cpu', hresults, hresults', hone, htwo, hincl, hrun, hrun',
    hle (by decide), ?_, ?_⟩
  · rw [hmiss', htwo]
    decide
  · rw [hmiss, hone]
    decide

/-! ## Too many misses for an `int` -/

/-- Accesses to two addresses in turn. -/
def alternate : ℕ → TraceLine → TraceLine → List TraceLine
  | 0, _, _ => []
  | n + 1, x, y => x :: alternate n y x

theorem length_alternate (n : ℕ) (x y : TraceLine) : (alternate n x y).length = n := by
  induction n generalizing x y with
  | zero => rfl
  | succ n ih => rw [alternate, List.length_cons, ih]

/-- In a set of one line each of two blocks drives out the other. -/
theorem misses_alternate {s b : ℕ} (n : ℕ) {x y : TraceLine} {past : List Address}
    (hset : setOf s b x.address = setOf s b y.address)
    (htag : tagOf s b x.address ≠ tagOf s b y.address)
    (hpast : past = [] ∨ ∃ before, past = before ++ [y.address]) :
    misses (verdicts s 1 b past (alternate n x y)) = n := by
  induction n generalizing x y past with
  | zero => rfl
  | succ n ih =>
      have hmiss : verdict 1 ((recency (tagsTo s b (setOf s b x.address) past)).take 1)
          (tagOf s b x.address) ≠ HIT := by
        rw [ne_eq, verdict_hit_iff]
        rcases hpast with rfl | ⟨before, rfl⟩
        · exact List.not_mem_nil
        · rw [hset, tagsTo_concat_self, Lib.recency_concat, touch, List.take_succ_cons,
            List.take_zero, List.mem_singleton]
          exact htag
      have hrest := ih hset.symm htag.symm (.inr ⟨past, rfl⟩)
      rw [alternate, verdicts]
      unfold misses at hrest ⊢
      rw [List.countP_cons, hrest, if_pos (decide_eq_true hmiss)]

/-- In a set of two lines the third access is a HIT. -/
theorem misses_alternate_two (n : ℕ) :
    misses (verdicts 1 2 1 [] (alternate (n + 3) ⟨76, 0, 1⟩ ⟨76, 4, 1⟩)) < n + 3 := by
  have hhit : verdict 2 ((recency (tagsTo 1 1 (setOf 1 1 0) [0, 4])).take 2) (tagOf 1 1 0) = HIT := by
    decide
  have hrest := misses_le_length (verdicts 1 2 1 [0, 4, 0] (alternate n ⟨76, 4, 1⟩ ⟨76, 0, 1⟩))
  rw [length_verdicts, length_alternate] at hrest
  unfold misses at hrest ⊢
  simp only [alternate, verdicts, List.nil_append, List.cons_append]
  rw [List.countP_cons, List.countP_cons, List.countP_cons, hhit,
    if_neg (show ¬ decide (HIT ≠ HIT) = true by decide)]
  split_ifs <;> omega

/-- **The counter overflows.** 2^31 accesses to the addresses 0 and 4 in turn, in a set of one
line and in a set of two: with one line all of them are misses and the count is negative,
so that with two lines it is greater. -/
theorem miss_count_overflow :
    ∃ cpu cpu',
      run_cpu (make_cpu (make_cache (fun _ _ _ => 0) 1 1 1))
        (alternate (2 ^ 31) ⟨76, 0, 1⟩ ⟨76, 4, 1⟩) = some cpu ∧
      run_cpu (make_cpu (make_cache (fun _ _ _ => 0) 1 2 1))
        (alternate (2 ^ 31) ⟨76, 0, 1⟩ ⟨76, 4, 1⟩) = some cpu' ∧
      ¬ cpu'.miss.toInt ≤ cpu.miss.toInt := by
  have hresults := (tracks_fresh (fun _ _ _ => 0) 1 1 1).access_results le_rfl le_rfl
    (by decide) le_rfl (alternate (2 ^ 31) ⟨76, 0, 1⟩ ⟨76, 4, 1⟩)
  have hresults' := (tracks_fresh (fun _ _ _ => 0) 1 2 1).access_results le_rfl le_rfl
    (by decide) one_le_two (alternate (2 ^ 31) ⟨76, 0, 1⟩ ⟨76, 4, 1⟩)
  obtain ⟨cpu, hrun, hmiss⟩ := run_cpu_miss (make_cpu (make_cache (fun _ _ _ => 0) 1 1 1)) hresults
  obtain ⟨cpu', hrun', hmiss'⟩ :=
    run_cpu_miss (make_cpu (make_cache (fun _ _ _ => 0) 1 2 1)) hresults'
  refine ⟨cpu, cpu', hrun, hrun', ?_⟩
  have hzero : ∀ cache, (make_cpu cache).miss = 0 := fun cache => rfl
  rw [hzero, zero_add] at hmiss hmiss'
  rw [misses_alternate _ (by decide) (by decide) (.inl rfl)] at hmiss
  have hfew : misses (verdicts 1 2 1 [] (alternate (2 ^ 31) ⟨76, 0, 1⟩ ⟨76, 4, 1⟩)) < 2 ^ 31 := by
    rw [show 2 ^ 31 = 2 ^ 31 - 3 + 3 from by norm_num]
    exact misses_alternate_two _
  rw [hmiss, hmiss', toInt_ofNat_of_lt hfew, show (BitVec.ofNat 32 (2 ^ 31)).toInt = -2 ^ 31 from by
    decide]
  omega

end ProjectsInC.CacheSim
