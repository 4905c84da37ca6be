/-
The misses of the simulator against those of any other cache.

A cache of the same geometry with `h` lines in each set may hold what it likes and know the whole
trace; it is a cache in parts ([`Lib.PartsFit`]), one part for each set. The simulator's misses are
the loads of LRU in each set ([`misses_verdicts`]), so the general bound holds set by set, and the
`int` in which `run_cpu` counts them obeys it as long as there are fewer than 2^31 accesses.
-/
import Mathlib.Algebra.BigOperators.Ring.Finset
import ProjectsInC.CacheSim.Cpu
import ProjectsInC.Lib.Paging

set_option autoImplicit false

namespace ProjectsInC.CacheSim

open AccessResult
open Lib (recency lruFaults Serves PartsFit)

/-- The blocks that fall into set `S`. -/
def blocksTo (s S : ℕ) (blocks : List ℕ) : List ℕ := blocks.filter (fun B => B % 2 ^ s = S)

theorem blocksTo_cons (s S B : ℕ) (blocks : List ℕ) :
    blocksTo s S (B :: blocks)
      = if B % 2 ^ s = S then B :: blocksTo s S blocks else blocksTo s S blocks := by
  simp only [blocksTo, List.filter_cons, decide_eq_true_eq]

theorem blocksTo_concat (s S B : ℕ) (blocks : List ℕ) :
    blocksTo s S (blocks ++ [B]) = blocksTo s S blocks ++ if B % 2 ^ s = S then [B] else [] := by
  rw [blocksTo, List.filter_append]
  congr 1
  exact blocksTo_cons s S B []

/-- The blocks of a trace. -/
def traceBlocks (b : ℕ) (trace : List TraceLine) : List ℕ :=
  trace.map (fun line => blockOf b line.address)

section Misses

variable {s E b : ℕ}

/-- A tag is held exactly if its block is among the first `E` of its set. -/
theorem held_iff_block (past : List Address) (address : Address) :
    tagOf s b address ∈ (recency (tagsTo s b (setOf s b address) past)).take E ↔
      blockOf b address
        ∈ (recency (blocksTo s (setOf s b address) (past.map (blockOf b)))).take E := by
  rw [held_iff_reused, reused_iff, Lib.mem_take_recency_iff]
  rfl

/-- One access adds to the loads of its own set. -/
theorem lruFaults_cons (S : ℕ) (past : List Address) (address : Address) (rest : List ℕ) :
    lruFaults E (blocksTo s S (past.map (blockOf b))) (blocksTo s S (blockOf b address :: rest))
      = lruFaults E (blocksTo s S ((past ++ [address]).map (blockOf b))) (blocksTo s S rest)
        + if S = setOf s b address then
            if tagOf s b address ∈ (recency (tagsTo s b (setOf s b address) past)).take E
            then 0 else 1
          else 0 := by
  have hset : setOf s b address = blockOf b address % 2 ^ s := rfl
  rw [List.map_append, List.map_singleton, blocksTo_concat, blocksTo_cons, ← hset]
  by_cases hS : S = setOf s b address
  · subst hS
    rw [if_pos rfl, if_pos rfl, if_pos rfl, lruFaults, Nat.add_comm]
    congr 1
    exact if_congr (held_iff_block past address).symm rfl rfl
  · rw [if_neg (Ne.symm hS), if_neg (Ne.symm hS), if_neg hS, List.append_nil, Nat.add_zero]

/-- **The misses** are the loads of LRU, set by set. -/
theorem misses_verdicts (past : List Address) (trace : List TraceLine) :
    misses (verdicts s E b past trace) = ∑ S ∈ Finset.range (2 ^ s),
      lruFaults E (blocksTo s S (past.map (blockOf b))) (blocksTo s S (traceBlocks b trace)) := by
  induction trace generalizing past with
  | nil => exact (Finset.sum_eq_zero (fun S _ => rfl)).symm
  | cons line trace ih =>
      have hS : setOf s b line.address ∈ Finset.range (2 ^ s) :=
        Finset.mem_range.mpr (Nat.mod_lt _ (Nat.two_pow_pos s))
      have hrest := ih (past ++ [line.address])
      rw [traceBlocks, List.map_cons, ← traceBlocks,
        Finset.sum_congr rfl (fun S _ => lruFaults_cons S past line.address _),
        Finset.sum_add_distrib, ← hrest, Finset.sum_ite_eq', if_pos hS, verdicts]
      unfold misses
      rw [List.countP_cons]
      congr 1
      by_cases hmem : tagOf s b line.address
          ∈ (recency (tagsTo s b (setOf s b line.address) past)).take E
      · rw [verdict_hit_iff.mpr hmem, if_pos hmem]
        rfl
      · have hmiss : verdict E ((recency (tagsTo s b (setOf s b line.address) past)).take E)
            (tagOf s b line.address) ≠ HIT := mt verdict_hit_iff.mp hmem
        rw [if_neg hmem, if_pos (decide_eq_true hmiss)]

end Misses

end ProjectsInC.CacheSim
