/-
Which geometries the simulator can be run with.

The fields of an address are cut out with a shift to the left and a shift to the right,
and their amounts go up to 32 when there are no set bits or no block bits: a shift of a
32-bit value by 32 is undefined. All other geometries are simulated within the bounds of
the arrays ([`geometry_iff`]).
-/
import ProjectsInC.CacheSim.ReuseDistance

set_option autoImplicit false

namespace ProjectsInC.CacheSim

open AccessResult

/-- `cache_access` finds its set, its line and its byte, each inside its array. -/
def InBounds (cache : Cache) (line : TraceLine) : Prop :=
  ∃ i t k set' result, get_set cache line.address = some i ∧
    get_line cache line.address = some t ∧ get_byte cache line.address = some k ∧
    lru_fetch (cache.sets i.toNat) t = some (set', result) ∧
    i.toNat < cache.set_count ∧ result.line < cache.line_count ∧ k.toNat < cache.block_size

/-! ## Sizes -/

/-- The sizes are fixed when the cache is made. -/
def SameSizes (cache cache' : Cache) : Prop :=
  cache'.set_count = cache.set_count ∧ cache'.line_count = cache.line_count ∧
    cache'.block_size = cache.block_size

theorem cache_access_sizes {cache cache' : Cache} {line : TraceLine} {result : AccessResult}
    (h : cache_access cache line = some (cache', result)) : SameSizes cache cache' := by
  unfold cache_access at h
  simp only [Option.bind_eq_bind, Option.bind_eq_some_iff] at h
  obtain ⟨i, -, t, -, k, -, fetched, -, h⟩ := h
  obtain ⟨rfl, -⟩ := Prod.mk.inj (Option.some.inj h)
  exact ⟨rfl, rfl, rfl⟩

theorem cache_accesses_sizes {cache cache' : Cache} {trace : List TraceLine}
    (h : cache_accesses cache trace = some cache') : SameSizes cache cache' := by
  induction trace generalizing cache with
  | nil =>
      obtain rfl := Option.some.inj h
      exact ⟨rfl, rfl, rfl⟩
  | cons line trace ih =>
      unfold cache_accesses at h ih
      rw [List.foldlM_cons, Option.bind_eq_bind, Option.bind_eq_some_iff] at h
      obtain ⟨cache₁, hstep, hrest⟩ := h
      obtain ⟨⟨cache₂, result⟩, haccess, rfl⟩ := Option.map_eq_some_iff.mp hstep
      obtain ⟨hset, hline, hblock⟩ := cache_access_sizes haccess
      obtain ⟨hset', hline', hblock'⟩ := ih hrest
      exact ⟨hset'.trans hset, hline'.trans hline, hblock'.trans hblock⟩

/-! ## The line -/

/-- The returned line is one of the set, and the only one written: it is given the tag. If the
access is a HIT it had it before. -/
theorem Represents.fetch_line {E : ℕ} {set set' : CacheSet} {tags : List CInt} {tag : CInt}
    {result : LRUResult} (h : Represents E set tags) (hE : 0 < E)
    (hfetch : lru_fetch set tag = some (set', result)) :
    result.line < E ∧
      set'.lines = Function.update set.lines result.line
        ((set.lines result.line).holding tag) ∧
      (result.access = HIT →
        (set.lines result.line).valid = 1 ∧ (set.lines result.line).tag = tag) := by
  obtain ⟨live, free, hq, -⟩ := h
  obtain ⟨_, n, _, _, hmoves⟩ := lru_fetch_moves tag hE hq
  obtain ⟨rfl, rfl⟩ := Prod.mk.inj (Option.some.inj (hfetch.symm.trans hmoves.fetch))
  refine ⟨hq.line_lt hmoves.mem, hmoves.lines, fun hhit => ?_⟩
  obtain ⟨hlive, htag⟩ := hmoves.hit (verdict_hit_iff.mp hhit)
  exact ⟨hq.valid n hlive, htag⟩

/-! ## Geometries -/

section Geometry

variable {cache : Cache} {s E b : ℕ}

/-- With a set bit and a block bit every access is inside. -/
theorem Tracks.inBounds (hs : 1 ≤ s) (hb : 1 ≤ b) (hsb : s + b ≤ 30) (hE : 1 ≤ E)
    {past : List Address} (h : Tracks s E b cache past) (hsets : cache.set_count = 2 ^ s)
    (hlines : cache.line_count = E) (hblock : cache.block_size = 2 ^ b) (line : TraceLine) :
    InBounds cache line := by
  obtain ⟨i, k, set', j, hi, hset, hline, hk, hbyte, hS, hfetch, -⟩ :=
    h.fetch hs hb hsb hE line.address
  refine ⟨i, _, k, set', _, hi, hline, hk, hfetch, ?_, ?_, ?_⟩
  · rwa [hsets, hset]
  · rw [hlines]
    exact ((h.sets i.toNat (hset ▸ hS)).fetch_line hE hfetch).1
  · rw [hblock, hbyte]
    exact Nat.mod_lt _ (Nat.two_pow_pos b)

theorem shr_32 (x : BitVec 32) : shr x 32 = none := if_neg (by decide)

/-- Without a set bit `get_set` shifts by 32 to the right. -/
theorem get_set_undefined (h : cache.set_bits = 0) (address : Address) :
    get_set cache address = none := by
  have hamount : (cache.block_bits : ℤ) + (32 - (cache.set_bits + cache.block_bits)) = 32 := by
    rw [h]
    push_cast
    ring
  unfold get_set
  simp only [hamount, shr_32]
  exact Option.bind_fun_none _

/-- Without a block bit `get_byte` shifts by 32 to the left. -/
theorem get_byte_undefined (h : cache.block_bits = 0) (address : Address) :
    get_byte cache address = none := by
  have hamount : (32 : ℤ) - (cache.set_bits + cache.block_bits) + cache.set_bits = 32 := by
    rw [h]
    push_cast
    ring
  unfold get_byte
  simp only [hamount, shr_32]
  exact Option.bind_fun_none _

theorem not_inBounds (h : cache.set_bits = 0 ∨ cache.block_bits = 0) (line : TraceLine) :
    ¬ InBounds cache line := by
  rintro ⟨i, t, k, set', result, hset, -, hbyte, -⟩
  rcases h with h | h
  · rw [get_set_undefined h] at hset
    cases hset
  · rw [get_byte_undefined h] at hbyte
    cases hbyte

end Geometry

/-- **Which geometries are simulated without undefined indexing.** For every number of set
bits and block bits with a sum of at most 30, and every associativity: all accesses, behind
any others, have defined shifts and stay in the arrays of sets, lines and bytes just when
there is at least one bit of either kind. -/
theorem geometry_iff (garbage : ℕ → ℕ → ℕ → Byte) {s E b : ℕ} (hsb : s + b ≤ 30) (hE : 1 ≤ E) :
    (∀ (past : List TraceLine) (line : TraceLine),
      ∃ cache, cache_accesses (make_cache garbage s E b) past = some cache ∧ InBounds cache line) ↔
      1 ≤ s ∧ 1 ≤ b := by
  constructor
  · intro h
    obtain ⟨cache, hrun, hin⟩ := h [] ⟨76, 0, 1⟩
    obtain rfl := Option.some.inj hrun
    by_contra hneg
    have hzero : s = 0 ∨ b = 0 := by omega
    exact not_inBounds hzero _ hin
  · rintro ⟨hs, hb⟩ past line
    obtain ⟨cache, hrun, htracks⟩ :=
      (tracks_fresh garbage s E b).cache_accesses hs hb hsb hE past
    obtain ⟨hsets, hlines, hblock⟩ := cache_accesses_sizes hrun
    exact ⟨cache, hrun, htracks.inBounds hs hb hsb hE hsets hlines hblock line⟩

/-- Four sets of two lines of two bytes; the cache of a single set does not get so far. -/
theorem geometry_iff_fourSets :
    ∃ cache, cache_accesses (make_cache (fun _ _ _ => 0) 2 2 1) [⟨76, 3, 1⟩] = some cache ∧
      InBounds cache ⟨76, 4, 1⟩ :=
  (geometry_iff (fun _ _ _ => 0) (s := 2) (E := 2) (b := 1) (by decide) (by decide)).mpr
    ⟨by decide, by decide⟩ [⟨76, 3, 1⟩] ⟨76, 4, 1⟩

/-- A fully associative cache of one line of four bytes, and one of two sets with blocks
of one byte: the first access to address 0 has an undefined shift. -/
theorem shift_by_32 :
    get_set (make_cache (fun _ _ _ => 0) 0 1 2) 0 = none ∧
      get_byte (make_cache (fun _ _ _ => 0) 1 1 0) 0 = none ∧
      ¬ ∀ (past : List TraceLine) (line : TraceLine), ∃ cache,
        cache_accesses (make_cache (fun _ _ _ => 0) 0 1 2) past = some cache ∧
          InBounds cache line := by
  refine ⟨rfl, rfl, ?_⟩
  intro h
  obtain ⟨cache, hrun, hin⟩ := h [] ⟨76, 0, 1⟩
  obtain rfl := Option.some.inj hrun
  exact not_inBounds (.inl rfl) _ hin

/-! ## The fields of an address -/

section Fields

variable {s b : ℕ}

/-- A word below 2^31 is no negative `int`. -/
theorem toInt_of_toNat {x : CInt} {n : ℕ} (h : x.toNat = n) (hn : n < 2 ^ 31) : x.toInt = n := by
  rw [BitVec.toInt_eq_toNat_of_lt (by rw [h]; omega), h]

/-- An address is put together again from its fields. -/
theorem fields_eq (a s b : ℕ) :
    a / 2 ^ (s + b) * 2 ^ (s + b) + a / 2 ^ b % 2 ^ s * 2 ^ b + a % 2 ^ b = a := by
  have hblock : a / 2 ^ (s + b) * 2 ^ s + a / 2 ^ b % 2 ^ s = a / 2 ^ b := by
    rw [Nat.add_comm s b, Nat.pow_add, ← Nat.div_div_eq_div_mul]
    exact Nat.div_add_mod' _ _
  calc a / 2 ^ (s + b) * 2 ^ (s + b) + a / 2 ^ b % 2 ^ s * 2 ^ b + a % 2 ^ b
      = (a / 2 ^ (s + b) * 2 ^ s + a / 2 ^ b % 2 ^ s) * 2 ^ b + a % 2 ^ b := by ring
    _ = a / 2 ^ b * 2 ^ b + a % 2 ^ b := by rw [hblock]
    _ = a := Nat.div_add_mod' _ _

/-- Set and tag are those of the block. -/
theorem blockOf_eq_iff (a a' : Address) : blockOf b a = blockOf b a' ↔
    setOf s b a = setOf s b a' ∧ tagOf s b a = tagOf s b a' := by
  constructor
  · intro h
    have hset : setOf s b a = setOf s b a' := congrArg (· % 2 ^ s) h
    refine ⟨hset, block_of_tag_injective s (setOf s b a) ?_⟩
    change (tagOf s b a).toNat * 2 ^ s + setOf s b a = (tagOf s b a').toNat * 2 ^ s + setOf s b a
    rw [tag_set_eq_block, hset, tag_set_eq_block, h]
  · rintro ⟨hset, htag⟩
    rw [← tag_set_eq_block s b a, ← tag_set_eq_block s b a', hset, htag]

end Fields

/-- **The fields of an address.** For every cache with a set bit and a block bit, and every
address: the three functions return remainder and quotients of the address, as `int`s that are
not negative and inside the arrays, so that the address is the sum of its fields; and two
addresses lie in one block just when sets and tags are the same. -/
theorem address_fields (garbage : ℕ → ℕ → ℕ → Byte) {s b : ℕ} (E : ℕ) (hs : 1 ≤ s) (hb : 1 ≤ b)
    (hsb : s + b ≤ 30) (a : Address) :
    ∃ set line byte, get_set (make_cache garbage s E b) a = some set ∧
      get_line (make_cache garbage s E b) a = some line ∧
      get_byte (make_cache garbage s E b) a = some byte ∧
      byte.toInt = a.toNat % 2 ^ b ∧ set.toInt = a.toNat / 2 ^ b % 2 ^ s ∧
      line.toInt = a.toNat / 2 ^ (s + b) ∧
      0 ≤ byte.toInt ∧ byte.toInt < (make_cache garbage s E b).block_size ∧
      0 ≤ set.toInt ∧ set.toInt < (make_cache garbage s E b).set_count ∧ 0 ≤ line.toInt ∧
      a.toNat = line.toInt * 2 ^ (s + b) + set.toInt * 2 ^ b + byte.toInt ∧
      ∀ a' : Address, a.toNat / 2 ^ b = a'.toNat / 2 ^ b ↔
        get_set (make_cache garbage s E b) a' = some set ∧
          get_line (make_cache garbage s E b) a' = some line := by
  have hpow : ∀ n ≤ 30, 2 ^ n ≤ 2 ^ 30 := fun n hn => Nat.pow_le_pow_right (by decide) hn
  obtain ⟨set, hset, hsetNat⟩ := @get_set_eq (make_cache garbage s E b) s b rfl rfl hs hsb a
  obtain ⟨byte, hbyte, hbyteNat⟩ := @get_byte_eq (make_cache garbage s E b) s b rfl rfl hb hsb a
  have hline : ∀ a', get_line (make_cache garbage s E b) a' = some (tagOf s b a') :=
    get_line_eq rfl rfl hsb
  have hlineNat : (tagOf s b a).toNat = a.toNat / 2 ^ (s + b) := by
    rw [tagOf, BitVec.toNat_ushiftRight, Nat.shiftRight_eq_div_pow]
  have hsetLt : a.toNat / 2 ^ b % 2 ^ s < 2 ^ s := Nat.mod_lt _ (Nat.two_pow_pos s)
  have hbyteLt : a.toNat % 2 ^ b < 2 ^ b := Nat.mod_lt _ (Nat.two_pow_pos b)
  have hlineLt : a.toNat / 2 ^ (s + b) < 2 ^ 31 := by
    have hfour : 2 ^ 2 ≤ 2 ^ (s + b) := Nat.pow_le_pow_right (by decide) (by omega)
    have hle : a.toNat / 2 ^ (s + b) ≤ a.toNat / 2 ^ 2 := Nat.div_le_div_left hfour (by decide)
    have hlt := a.isLt
    omega
  have hsetInt := toInt_of_toNat hsetNat (hsetLt.trans_le ((hpow s (by omega)).trans (by decide)))
  have hbyteInt := toInt_of_toNat hbyteNat (hbyteLt.trans_le ((hpow b (by omega)).trans (by decide)))
  have hlineInt := toInt_of_toNat hlineNat hlineLt
  refine ⟨set, tagOf s b a, byte, hset, hline a, hbyte, by exact_mod_cast hbyteInt,
    by exact_mod_cast hsetInt, by exact_mod_cast hlineInt, ?_, ?_, ?_, ?_, ?_, ?_, ?_⟩
  · rw [hbyteInt]
    exact Int.natCast_nonneg _
  · rw [hbyteInt]
    exact Int.ofNat_lt.mpr hbyteLt
  · rw [hsetInt]
    exact Int.natCast_nonneg _
  · rw [hsetInt]
    exact Int.ofNat_lt.mpr hsetLt
  · rw [hlineInt]
    exact Int.natCast_nonneg _
  · rw [hlineInt, hsetInt, hbyteInt]
    exact_mod_cast (fields_eq a.toNat s b).symm
  · intro a'
    obtain ⟨set', hset', hsetNat'⟩ := @get_set_eq (make_cache garbage s E b) s b rfl rfl hs hsb a'
    have hsame : set' = set ↔ setOf s b a = setOf s b a' := by
      rw [← BitVec.toNat_inj, hsetNat, hsetNat', eq_comm]
    rw [hset', hline a', Option.some_inj, Option.some_inj, hsame, eq_comm (a := tagOf s b a')]
    exact blockOf_eq_iff a a'

/-- The address 27 in four sets with blocks of two bytes: the tag 3, the set 1 and the byte 1. -/
theorem address_fields_27 :
    ∃ set line byte, get_set (make_cache (fun _ _ _ => 0) 2 1 1) 27 = some set ∧
      get_line (make_cache (fun _ _ _ => 0) 2 1 1) 27 = some line ∧
      get_byte (make_cache (fun _ _ _ => 0) 2 1 1) 27 = some byte ∧
      byte.toInt = 1 ∧ set.toInt = 1 ∧ line.toInt = 3 := by
  obtain ⟨set, line, byte, hset, hline, hbyte, hbyteInt, hsetInt, hlineInt, -⟩ :=
    address_fields (fun _ _ _ => 0) (s := 2) (b := 1) 1 (by decide) (by decide) (by decide) 27
  exact ⟨set, line, byte, hset, hline, hbyte, hbyteInt, hsetInt, hlineInt⟩

end ProjectsInC.CacheSim
