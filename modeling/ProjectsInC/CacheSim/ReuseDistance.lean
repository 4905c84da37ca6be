/-
The cache simulator is exactly LRU.

The reference is stated on the sequence of blocks alone: an access is a hit if
its block was accessed before and fewer than `E` distinct other blocks of its set
since ([`Reused`]), and otherwise a cold miss if the set has not yet seen `E`
blocks ([`Roomy`]). Each set of the simulator holds the first `E` tags of the
recency list of its own accesses ([`Tracks`]), and position in that list is reuse
distance.
-/
import ProjectsInC.CacheSim.Lru

set_option autoImplicit false

namespace ProjectsInC.CacheSim

open Lib (touch recency ReusedWithin)
open AccessResult

/-! ## The reference -/

/-- The block of an address. -/
def blockOf (b : ℕ) (address : Address) : ℕ := address.toNat / 2 ^ b

/-- The blocks of the list that fall into the same set as `B`. -/
def peers (s B : ℕ) (blocks : List ℕ) : List ℕ :=
  blocks.filter (fun B' => B' % 2 ^ s = B % 2 ^ s)

/-- `B` was accessed before, and fewer than `E` distinct other blocks of its set
since its last access. -/
def Reused (s E B : ℕ) (past : List ℕ) : Prop :=
  ∃ before after, past = before ++ B :: after ∧ B ∉ after ∧ (peers s B after).toFinset.card < E

/-- Fewer than `E` distinct blocks of the set of `B` were accessed. -/
def Roomy (s E B : ℕ) (past : List ℕ) : Prop := (peers s B past).toFinset.card < E

/-- Blocks of other sets do not count: reuse in the whole sequence is reuse in the
sequence of the set. -/
theorem reused_iff {s E B : ℕ} {past : List ℕ} :
    Reused s E B past ↔ ReusedWithin E B (peers s B past) := by
  have hself : decide (B % 2 ^ s = B % 2 ^ s) = true := by simp
  constructor
  · rintro ⟨before, after, rfl, hB, hcard⟩
    refine ⟨peers s B before, peers s B after, ?_, fun h => hB (List.mem_of_mem_filter h), hcard⟩
    rw [peers, List.filter_append, List.filter_cons_of_pos (by simp)]
    rfl
  · rintro ⟨before', after', hsplit, hB, hcard⟩
    -- the occurrence in the filtered list is one in the whole list
    obtain ⟨before, rest, hpast, -, hrest⟩ := List.filter_eq_append_iff.mp hsplit
    obtain ⟨skipped, after, hrest', hskip, -, hafter⟩ := List.filter_eq_cons_iff.mp hrest
    refine ⟨before ++ skipped, after, by rw [hpast, hrest']; simp, fun h => hB ?_, ?_⟩
    · rw [← hafter]
      exact List.mem_filter.mpr ⟨h, hself⟩
    · rw [peers, hafter]
      exact hcard

/-! ## Addresses -/

/-- The set of an address, as a number. -/
def setOf (s b : ℕ) (address : Address) : ℕ := blockOf b address % 2 ^ s

/-- The tag of an address. -/
def tagOf (s b : ℕ) (address : Address) : CInt := address >>> (s + b)

section Bits

variable {cache : Cache} {s b : ℕ}

/-- The two shifts of `get_set` and `get_byte` cut out a field of bits: `m` bits
go at the top and `n` of the rest at the bottom. -/
theorem toNat_shl_shr (x : BitVec 32) {m n w : ℕ} (h : n + w + m = 32) :
    ((x <<< m) >>> (n + m)).toNat = x.toNat / 2 ^ n % 2 ^ w := by
  have hpow : (2 : ℕ) ^ 32 = 2 ^ (n + w) * 2 ^ m := by rw [← Nat.pow_add, h]
  rw [BitVec.toNat_ushiftRight, BitVec.toNat_shiftLeft, Nat.shiftLeft_eq,
    Nat.shiftRight_eq_div_pow, hpow, Nat.mul_mod_mul_right, Nat.pow_add 2 n m,
    Nat.mul_div_mul_right _ _ (Nat.two_pow_pos m), Nat.pow_add 2 n w, Nat.mod_mul_right_div_self]

theorem get_set_eq (hs : cache.set_bits = s) (hb : cache.block_bits = b) (hs1 : 1 ≤ s)
    (hsb : s + b ≤ 30) (address : Address) :
    ∃ i, get_set cache address = some i ∧ i.toNat = setOf s b address := by
  have htag : ((32 : ℤ) - (s + b)).toNat = 32 - (s + b) := by omega
  have htag' : ((b : ℤ) + (32 - (s + b))).toNat = b + (32 - (s + b)) := by omega
  refine ⟨_, ?_, toNat_shl_shr address (m := 32 - (s + b)) (n := b) (w := s) (by omega)⟩
  simp only [get_set, hs, hb, shl, shr, htag, htag']
  rw [if_pos (by omega), Option.bind_some, if_pos (by omega)]

theorem get_line_eq (hs : cache.set_bits = s) (hb : cache.block_bits = b)
    (hsb : s + b ≤ 30) (address : Address) : get_line cache address = some (tagOf s b address) := by
  have htag : ((s : ℤ) + b).toNat = s + b := by omega
  simp only [get_line, hs, hb, shr, htag]
  rw [if_pos (by omega)]
  rfl

theorem get_byte_eq (hs : cache.set_bits = s) (hb : cache.block_bits = b) (hb1 : 1 ≤ b)
    (hsb : s + b ≤ 30) (address : Address) :
    ∃ i, get_byte cache address = some i ∧ i.toNat = address.toNat % 2 ^ b := by
  have htag : ((32 : ℤ) - (s + b) + s).toNat = 32 - b := by omega
  refine ⟨(address <<< (32 - b)) >>> (32 - b), ?_, ?_⟩
  · simp only [get_byte, hs, hb, shl, shr, htag]
    rw [if_pos (by omega), Option.bind_some, if_pos (by omega)]
  · have h := toNat_shl_shr address (m := 32 - b) (n := 0) (w := b) (by omega)
    rwa [Nat.zero_add, pow_zero, Nat.div_one] at h

/-- Set and tag together are the block. -/
theorem tag_set_eq_block (s b : ℕ) (address : Address) :
    (tagOf s b address).toNat * 2 ^ s + setOf s b address = blockOf b address := by
  have hdiv : (tagOf s b address).toNat = blockOf b address / 2 ^ s := by
    rw [tagOf, BitVec.toNat_ushiftRight, Nat.shiftRight_eq_div_pow, blockOf, Nat.div_div_eq_div_mul,
      ← Nat.pow_add, Nat.add_comm]
  rw [hdiv, setOf, Nat.mul_comm]
  exact Nat.div_add_mod _ _

/-- Within one set, a tag stands for one block. -/
theorem block_of_tag_injective (s S : ℕ) :
    Function.Injective (fun tag : CInt => tag.toNat * 2 ^ s + S) := by
  intro t t' h
  have hmul : t.toNat * 2 ^ s = t'.toNat * 2 ^ s := Nat.add_right_cancel h
  exact BitVec.eq_of_toNat_eq (Nat.eq_of_mul_eq_mul_right (Nat.two_pow_pos s) hmul)

end Bits

/-! ## What a set has seen -/

/-- The tags of the accesses that went to set `S`, in order. -/
def tagsTo (s b S : ℕ) (past : List Address) : List CInt :=
  (past.filter (fun address => setOf s b address = S)).map (tagOf s b)

theorem tagsTo_concat_self (s b : ℕ) (past : List Address) (address : Address) :
    tagsTo s b (setOf s b address) (past ++ [address])
      = tagsTo s b (setOf s b address) past ++ [tagOf s b address] := by
  simp [tagsTo]

theorem tagsTo_concat_other {s b S : ℕ} {address : Address} (h : setOf s b address ≠ S)
    (past : List Address) : tagsTo s b S (past ++ [address]) = tagsTo s b S past := by
  simp [tagsTo, h]

/-- As blocks, these are the peers of any block of the set. -/
theorem map_block_tagsTo (s b : ℕ) (past : List Address) (address : Address) :
    (tagsTo s b (setOf s b address) past).map
        (fun tag => tag.toNat * 2 ^ s + setOf s b address)
      = peers s (blockOf b address) (past.map (blockOf b)) := by
  rw [tagsTo, peers, List.filter_map, List.map_map]
  apply List.map_congr_left
  intro a ha
  have hset : setOf s b a = setOf s b address := by simpa using (List.mem_filter.mp ha).2
  rw [Function.comp_apply, ← hset, tag_set_eq_block]

/-! ## The invariant of a cache -/

/-- After the accesses `past`, every set holds the first `E` tags of its recency
list. -/
structure Tracks (s E b : ℕ) (cache : Cache) (past : List Address) : Prop where
  set_bits : cache.set_bits = s
  block_bits : cache.block_bits = b
  sets : ∀ S < 2 ^ s, Represents E (cache.sets S) ((recency (tagsTo s b S past)).take E)

theorem tracks_fresh (garbage : ℕ → ℕ → ℕ → Byte) (s E b : ℕ) :
    Tracks s E b (make_cache garbage s E b) [] where
  set_bits := rfl
  block_bits := rfl
  sets := fun S hS => by
    have hsets : (make_cache garbage s E b).sets S
        = lru_init_queue (make_sets garbage E (2 ^ b) S) := if_pos hS
    have hnone : (recency (tagsTo s b S [])).take E = [] := by simp [tagsTo]
    rw [hsets, hnone]
    exact represents_fresh (make_sets garbage E (2 ^ b) S) (fun _ => rfl)

/-- The accessed bits play no part in what a set holds. -/
theorem Represents.setAccessed {E : ℕ} {set : CacheSet} {tags : List CInt}
    (h : Represents E set tags) (i : ℕ) (accessed : ℕ → Byte) :
    Represents E (set.setLine i { set.lines i with accessed := accessed }) tags := by
  obtain ⟨live, free, hq, htags⟩ := h
  have hsame : ∀ j, ((set.setLine i { set.lines i with accessed := accessed }).lines j).valid
      = (set.lines j).valid ∧
      ((set.setLine i { set.lines i with accessed := accessed }).lines j).tag
      = (set.lines j).tag := by
    intro j
    by_cases h : j = i
    · subst h
      simp only [CacheSet.setLine, Function.update_self, and_self]
    · simp only [CacheSet.setLine, Function.update_of_ne h, and_self]
  refine ⟨live, free, ⟨hq.line_count, hq.holds, hq.perm, fun node hnode => ?_, fun node hnode => ?_⟩,
    ?_⟩
  · exact (hsame _).1.trans (hq.valid node hnode)
  · exact (hsame _).1.trans (hq.invalid node hnode)
  · rw [← htags]
    exact List.map_congr_left (fun node _ => (hsame _).2)

/-- An access replaces one set, by what `lru_fetch` made of it with the accessed
bits of one line rewritten. -/
theorem cache_access_eq {cache : Cache} {line : TraceLine} {i t k : CInt} {set' : CacheSet}
    {result : LRUResult} (hi : get_set cache line.address = some i)
    (ht : get_line cache line.address = some t) (hk : get_byte cache line.address = some k)
    (hfetch : lru_fetch (cache.sets i.toNat) t = some (set', result)) :
    cache_access cache line = some ({ cache with
      sets := Function.update cache.sets i.toNat (set'.setLine result.line
        { set'.lines result.line with
          accessed := recordByte cache.block_size result.access k
            (set'.lines result.line).accessed }) }, result.access) := by
  simp only [cache_access, hi, ht, hk, hfetch, Option.bind_eq_bind, Option.bind_some]

/-- The shifts of an access are defined, and its set is one that tracks its past. -/
theorem Tracks.fetch {s E b : ℕ} {cache : Cache} {past : List Address} (hs : 1 ≤ s)
    (hb : 1 ≤ b) (hsb : s + b ≤ 30) (hE : 1 ≤ E) (h : Tracks s E b cache past) (address : Address) :
    ∃ i k set' j, get_set cache address = some i ∧ i.toNat = setOf s b address ∧
      get_line cache address = some (CacheSim.tagOf s b address) ∧ get_byte cache address = some k ∧
      k.toNat = address.toNat % 2 ^ b ∧ setOf s b address < 2 ^ s ∧
      lru_fetch (cache.sets i.toNat) (CacheSim.tagOf s b address) = some (set', ⟨j, verdict E
        ((recency (tagsTo s b (setOf s b address) past)).take E) (CacheSim.tagOf s b address)⟩) ∧
      Represents E set' ((recency (tagsTo s b (setOf s b address) (past ++ [address]))).take E) := by
  obtain ⟨i, hi, hset⟩ := get_set_eq h.set_bits h.block_bits hs hsb address
  obtain ⟨k, hk, hbyte⟩ := get_byte_eq h.set_bits h.block_bits hb hsb address
  have hS : setOf s b address < 2 ^ s := Nat.mod_lt _ (Nat.two_pow_pos s)
  obtain ⟨set', j, hfetch, hrep⟩ :=
    lru_fetch_refines (CacheSim.tagOf s b address) hE (h.sets _ hS)
  -- touching the first `E` tags of the list is the same as touching the whole of it
  rw [← Lib.take_touch, ← Lib.recency_concat, ← tagsTo_concat_self] at hrep
  rw [← hset] at hfetch
  refine ⟨i, k, set', j, hi, hset, get_line_eq h.set_bits h.block_bits hsb _, hk, hbyte, hS, ?_, hrep⟩
  rw [hfetch, hset]

/-- One access, from any cache that tracks its past. -/
theorem Tracks.cache_access {s E b : ℕ} {cache : Cache} {past : List Address} (hs : 1 ≤ s)
    (hb : 1 ≤ b) (hsb : s + b ≤ 30) (hE : 1 ≤ E) (h : Tracks s E b cache past) (line : TraceLine) :
    ∃ cache', CacheSim.cache_access cache line = some (cache', verdict E
        ((recency (tagsTo s b (setOf s b line.address) past)).take E) (tagOf s b line.address)) ∧
      Tracks s E b cache' (past ++ [line.address]) := by
  obtain ⟨i, k, set', j, hi, hset, hline, hk, -, -, hfetch, hrep⟩ :=
    h.fetch hs hb hsb hE line.address
  have haccess := cache_access_eq hi hline hk hfetch
  rw [hset] at haccess
  refine ⟨_, haccess, h.set_bits, h.block_bits, fun S hlt => ?_⟩
  by_cases hcase : S = setOf s b line.address
  · subst hcase
    simp only [Function.update_self]
    exact hrep.setAccessed _ _
  · -- another set is not touched, and the access is none of its own
    simp only [Function.update_of_ne hcase]
    rw [tagsTo_concat_other (Ne.symm hcase)]
    exact h.sets S hlt

/-- A whole sequence of accesses. -/
theorem Tracks.cache_accesses {s E b : ℕ} {cache : Cache} {past : List Address} (hs : 1 ≤ s)
    (hb : 1 ≤ b) (hsb : s + b ≤ 30) (hE : 1 ≤ E) (h : Tracks s E b cache past)
    (trace : List TraceLine) :
    ∃ cache', CacheSim.cache_accesses cache trace = some cache' ∧
      Tracks s E b cache' (past ++ trace.map TraceLine.address) := by
  induction trace generalizing cache past with
  | nil => exact ⟨cache, rfl, by simpa using h⟩
  | cons line trace ih =>
      obtain ⟨cache₁, hstep, h₁⟩ := h.cache_access hs hb hsb hE line
      obtain ⟨cache', hrest, h'⟩ := ih h₁
      refine ⟨cache', ?_, by simpa using h'⟩
      rw [CacheSim.cache_accesses, List.foldlM_cons, hstep]
      exact hrest

/-! ## Position is reuse distance -/

theorem verdict_hit_iff {E : ℕ} {tags : List CInt} {tag : CInt} :
    verdict E tags tag = HIT ↔ tag ∈ tags := by
  unfold verdict
  split_ifs <;> simp_all

theorem verdict_cold_iff {E : ℕ} {tags : List CInt} {tag : CInt} :
    verdict E tags tag = COLD_MISS ↔ tag ∉ tags ∧ tags.length < E := by
  unfold verdict
  split_ifs <;> simp_all

/-- The tag is held exactly if the block is reused. -/
theorem held_iff_reused {s E b : ℕ} (past : List Address) (address : Address) :
    tagOf s b address ∈ (recency (tagsTo s b (setOf s b address) past)).take E
      ↔ Reused s E (blockOf b address) (past.map (blockOf b)) := by
  rw [Lib.mem_take_recency_iff, reused_iff, ← map_block_tagsTo,
    ← Lib.reusedWithin_map_iff (block_of_tag_injective s (setOf s b address)), tag_set_eq_block]

/-- The set has a free line exactly if it has seen fewer than `E` blocks. -/
theorem free_iff_roomy {s E b : ℕ} (past : List Address) (address : Address) :
    ((recency (tagsTo s b (setOf s b address) past)).take E).length < E
      ↔ Roomy s E (blockOf b address) (past.map (blockOf b)) := by
  rw [Roomy, ← map_block_tagsTo,
    Lib.card_toFinset_map (block_of_tag_injective s (setOf s b address)), ← Lib.length_recency,
    List.length_take]
  omega

/-- **The simulator is exactly LRU.** After any sequence of accesses to a fresh
cache, the next access is a HIT if and only if its block is reused within `E`
distinct blocks of its set, a COLD_MISS if and only if it is no hit and its set
has seen fewer than `E` blocks, and a CONFLICT_MISS otherwise. -/
theorem cache_access_lru (garbage : ℕ → ℕ → ℕ → Byte) {s E b : ℕ} (hs : 1 ≤ s) (hb : 1 ≤ b)
    (hsb : s + b ≤ 30) (hE : 1 ≤ E) (past : List TraceLine) (line : TraceLine) :
    ∃ cache cache' result, cache_accesses (make_cache garbage s E b) past = some cache ∧
      cache_access cache line = some (cache', result) ∧
      let blocks := past.map (fun line => blockOf b line.address)
      let B := blockOf b line.address
      (result = HIT ↔ Reused s E B blocks) ∧
      (result = COLD_MISS ↔ ¬ Reused s E B blocks ∧ Roomy s E B blocks) ∧
      (result = CONFLICT_MISS ↔ ¬ Reused s E B blocks ∧ ¬ Roomy s E B blocks) := by
  obtain ⟨cache, hrun, htracks⟩ :=
    (tracks_fresh garbage s E b).cache_accesses hs hb hsb hE past
  obtain ⟨cache', haccess, -⟩ := htracks.cache_access hs hb hsb hE line
  rw [List.nil_append] at haccess
  have hblocks : (past.map TraceLine.address).map (blockOf b)
      = past.map (fun line => blockOf b line.address) := by rw [List.map_map]; rfl
  have hhit := held_iff_reused (s := s) (E := E) (b := b) (past.map TraceLine.address) line.address
  have hroom := free_iff_roomy (s := s) (E := E) (b := b) (past.map TraceLine.address) line.address
  rw [hblocks] at hhit hroom
  refine ⟨cache, cache', _, hrun, haccess, verdict_hit_iff.trans hhit,
    verdict_cold_iff.trans (and_congr (not_congr hhit) hroom), ?_⟩
  rw [← hhit, ← hroom]
  unfold verdict
  split_ifs <;> simp_all

/-- Reads of three blocks of one set. -/
def threeBlocks : List TraceLine := [⟨76, 0, 1⟩, ⟨76, 4, 1⟩, ⟨76, 8, 1⟩]

/-- In a set of two lines, the second of them is still there. -/
theorem cache_access_lru_threeBlocks :
    ∃ cache cache', cache_accesses (make_cache (fun _ _ _ => 0) 1 2 1) threeBlocks = some cache ∧
      cache_access cache ⟨76, 5, 1⟩ = some (cache', HIT) := by
  obtain ⟨cache, cache', result, hrun, haccess, hhit, -⟩ :=
    cache_access_lru (fun _ _ _ => 0) (s := 1) (E := 2) (b := 1) (by decide) (by decide) (by decide)
      (by decide) threeBlocks ⟨76, 5, 1⟩
  have hreused : Reused 1 2 2 [0, 2, 4] := ⟨[0], [4], rfl, by decide, by decide⟩
  exact ⟨cache, cache', hrun, hhit.mpr hreused ▸ haccess⟩

end ProjectsInC.CacheSim
