/-
What the accessed bits of a line say.

The array of a line is never initialised; it is cleared when the line takes another block. So it
says which bytes of the block have been accessed since then, and this "since then" is a part of the
history of all accesses ([`LastLoad`]): it goes from the last miss of the block to the end. An
access to another block leaves the array right, a HIT adds its byte to it, and a miss begins it
anew ([`Remembers`]); that the access is to another block is clear for all lines but the one it
goes to, because the valid lines of a set have different tags.
-/
import ProjectsInC.CacheSim.Cpu
import ProjectsInC.CacheSim.Geometry

set_option autoImplicit false

namespace ProjectsInC.CacheSim

open AccessResult
open Lib (recency)

/-! ## Histories -/

/-- The addresses accessed and the results, oldest first. -/
abbrev History := List (Address × AccessResult)

/-- The end of a history from the last load of block `B` on. -/
def LastLoad (b B : ℕ) (history window : History) : Prop :=
  ∃ before load after, history = before ++ window ∧ window = load :: after ∧
    blockOf b load.1 = B ∧ load.2 ≠ HIT ∧ ∀ x ∈ after, blockOf b x.1 = B → x.2 = HIT

/-- Byte `k` of block `B` is accessed. -/
def Touched (b B k : ℕ) (window : History) : Prop :=
  ∃ x ∈ window, blockOf b x.1 = B ∧ x.1.toNat % 2 ^ b = k

instance (b B k : ℕ) (window : History) : Decidable (Touched b B k window) :=
  inferInstanceAs (Decidable (∃ x ∈ window, blockOf b x.1 = B ∧ x.1.toNat % 2 ^ b = k))

/-- The bits are those of the bytes of block `B` accessed since its last load. -/
def Remembers (b B : ℕ) (history : History) (accessed : ℕ → Byte) : Prop :=
  ∃ window, LastLoad b B history window ∧
    ∀ k < 2 ^ b, accessed k = if Touched b B k window then 1 else 0

section History

variable {b B k : ℕ} {history window : History} {x : Address × AccessResult} {accessed : ℕ → Byte}

/-- The history goes on without another load of the block. -/
theorem LastLoad.concat (h : LastLoad b B history window) (hx : blockOf b x.1 = B → x.2 = HIT) :
    LastLoad b B (history ++ [x]) (window ++ [x]) := by
  obtain ⟨before, load, after, rfl, rfl, hblock, hmiss, hafter⟩ := h
  refine ⟨before, load, after ++ [x], List.append_assoc .., rfl, hblock, hmiss, ?_⟩
  intro y hy
  rcases List.mem_append.mp hy with hy | hy
  · exact hafter y hy
  · rw [List.mem_singleton.mp hy]
    exact hx

theorem LastLoad.load (history : History) (hblock : blockOf b x.1 = B) (hmiss : x.2 ≠ HIT) :
    LastLoad b B (history ++ [x]) [x] :=
  ⟨history, x, [], rfl, rfl, hblock, hmiss, fun _ hy => absurd hy List.not_mem_nil⟩

theorem touched_concat :
    Touched b B k (window ++ [x]) ↔
      Touched b B k window ∨ (blockOf b x.1 = B ∧ x.1.toNat % 2 ^ b = k) := by
  unfold Touched
  constructor
  · rintro ⟨y, hy, htouch⟩
    rcases List.mem_append.mp hy with hy | hy
    · exact .inl ⟨y, hy, htouch⟩
    · rw [List.mem_singleton.mp hy] at htouch
      exact .inr htouch
  · rintro (⟨y, hy, htouch⟩ | htouch)
    · exact ⟨y, List.mem_append_left _ hy, htouch⟩
    · exact ⟨x, List.mem_append_right _ (List.mem_singleton_self x), htouch⟩

/-- An access to another block. -/
theorem Remembers.other (h : Remembers b B history accessed) (hx : blockOf b x.1 ≠ B) :
    Remembers b B (history ++ [x]) accessed := by
  obtain ⟨window, hload, hbits⟩ := h
  refine ⟨window ++ [x], hload.concat (fun hblock => absurd hblock hx), ?_⟩
  intro k hk
  have hsame : Touched b B k (window ++ [x]) ↔ Touched b B k window := by
    rw [touched_concat]
    exact or_iff_left (fun hblock => hx hblock.1)
  rw [hbits k hk]
  exact if_congr hsame.symm rfl rfl

/-- A HIT. -/
theorem Remembers.hit (h : Remembers b B history accessed) (hx : blockOf b x.1 = B)
    (hhit : x.2 = HIT) :
    Remembers b B (history ++ [x]) (Function.update accessed (x.1.toNat % 2 ^ b) 1) := by
  obtain ⟨window, hload, hbits⟩ := h
  refine ⟨window ++ [x], hload.concat (fun _ => hhit), ?_⟩
  intro k hk
  by_cases hbyte : x.1.toNat % 2 ^ b = k
  · rw [if_pos (touched_concat.mpr (.inr ⟨hx, hbyte⟩)), hbyte]
    exact Function.update_self ..
  · have hsame : Touched b B k (window ++ [x]) ↔ Touched b B k window := by
      rw [touched_concat]
      exact or_iff_left (fun htouch => hbyte htouch.2)
    rw [Function.update_of_ne (Ne.symm hbyte), hbits k hk]
    exact if_congr hsame.symm rfl rfl

/-- A miss: the bits are cleared first. -/
theorem remembers_load (history : History) (accessed : ℕ → Byte) (hx : blockOf b x.1 = B)
    (hmiss : x.2 ≠ HIT) :
    Remembers b B (history ++ [x])
      (Function.update (clearAccessed (2 ^ b) accessed) (x.1.toNat % 2 ^ b) 1) := by
  refine ⟨[x], LastLoad.load history hx hmiss, ?_⟩
  intro k hk
  by_cases hbyte : x.1.toNat % 2 ^ b = k
  · rw [if_pos ⟨x, List.mem_singleton_self x, hx, hbyte⟩, hbyte]
    exact Function.update_self ..
  · have hnot : ¬ Touched b B k [x] := by
      rintro ⟨y, hy, -, hbyte'⟩
      rw [List.mem_singleton.mp hy] at hbyte'
      exact hbyte hbyte'
    rw [Function.update_of_ne (Ne.symm hbyte), if_neg hnot]
    exact if_pos hk

/-- **An access to the block** of the bits. -/
theorem Remembers.record {byte : CInt}
    (h : x.2 = HIT → Remembers b B history accessed) (hx : blockOf b x.1 = B)
    (hbyte : byte.toNat = x.1.toNat % 2 ^ b) :
    Remembers b B (history ++ [x]) (recordByte (2 ^ b) x.2 byte accessed) := by
  unfold recordByte
  rw [hbyte]
  by_cases hhit : x.2 = HIT
  · rw [if_neg (fun hmiss => hmiss hhit)]
    exact (h hhit).hit hx hhit
  · rw [if_pos hhit]
    exact remembers_load history accessed hx hhit

end History

/-! ## What an access writes -/

/-- What an access does to the lines of its set: line `j` becomes the line of the tag, with the
accessed bits written. A HIT found it so, and with a miss no line was. -/
structure Accessed (E : ℕ) (lines lines' : ℕ → Line) (t : CInt) (j : ℕ) (result : AccessResult)
    (write : (ℕ → Byte) → ℕ → Byte) : Prop where
  lt : j < E
  other : ∀ i ≠ j, lines' i = lines i
  tag : (lines' j).tag = t
  accessed : (lines' j).accessed = write (lines j).accessed
  hit : result = HIT → (lines j).valid = 1 ∧ (lines j).tag = t
  miss : result ≠ HIT → ∀ i < E, (lines i).valid = 1 → (lines i).tag ≠ t

section Access

variable {s E b : ℕ} {cache cache' : Cache} {past : List Address} {line : TraceLine}
  {result : AccessResult}

/-- **An access**, to a cache that tracks its past, writes to one line of one set. -/
theorem Tracks.accessed (hs : 1 ≤ s) (hb : 1 ≤ b) (hsb : s + b ≤ 30) (hE : 1 ≤ E)
    (h : Tracks s E b cache past)
    (haccess : CacheSim.cache_access cache line = some (cache', result)) :
    ∃ j byte, byte.toNat = line.address.toNat % 2 ^ b ∧
      Accessed E (cache.sets (setOf s b line.address)).lines
        (cache'.sets (setOf s b line.address)).lines (CacheSim.tagOf s b line.address) j result
        (recordByte cache.block_size result byte) ∧
      ∀ S ≠ setOf s b line.address, cache'.sets S = cache.sets S := by
  obtain ⟨i, byte, set', j, hi, hset, hline, hk, hbyte, hS, hfetch, -⟩ :=
    h.fetch hs hb hsb hE line.address
  have hparts := cache_access_eq hi hline hk hfetch
  rw [haccess] at hparts
  obtain ⟨rfl, rfl⟩ := Prod.mk.inj (Option.some.inj hparts)
  rw [hset] at hfetch ⊢
  have hrep := h.sets _ hS
  obtain ⟨hj, hlines, hhit⟩ := hrep.fetch_line hE hfetch
  refine ⟨j, byte, hbyte, ⟨hj, ?_, ?_, ?_, hhit, ?_⟩, ?_⟩
  · intro i hij
    simp only [Function.update_self, CacheSet.setLine, Function.update_of_ne hij, hlines]
  · simp only [Function.update_self, CacheSet.setLine, hlines, Line.holding]
  · simp only [Function.update_self, CacheSet.setLine, hlines, Line.holding]
  · intro hmiss i hi hvalid htag
    rw [ne_eq, verdict_hit_iff] at hmiss
    exact hmiss (hrep.held_iff.mpr ⟨i, hi, hvalid, htag⟩)
  · intro S hne
    exact Function.update_of_ne hne ..

end Access

/-! ## The invariant of a cache -/

/-- The block in a line of set `S`. -/
def blockIn (s S : ℕ) (line : Line) : ℕ := line.tag.toNat * 2 ^ s + S

/-- After the history, the accessed bits of every valid line are those of its block. -/
structure Bits (s E b : ℕ) (cache : Cache) (history : History) : Prop where
  tracks : Tracks s E b cache (history.map Prod.fst)
  block_size : cache.block_size = 2 ^ b
  accessed : ∀ S < 2 ^ s, ∀ i < E, ((cache.sets S).lines i).valid = 1 →
    Remembers b (blockIn s S ((cache.sets S).lines i)) history ((cache.sets S).lines i).accessed

section Bits

variable {s E b : ℕ}

theorem bits_fresh (garbage : ℕ → ℕ → ℕ → Byte) : Bits s E b (make_cache garbage s E b) [] where
  tracks := tracks_fresh garbage s E b
  block_size := rfl
  accessed := by
    intro S hS i hi hvalid
    have hsets : (make_cache garbage s E b).sets S
        = lru_init_queue (make_sets garbage E (2 ^ b) S) := if_pos hS
    obtain ⟨-, -, hlines, -⟩ := lru_init_queue_spec (make_sets garbage E (2 ^ b) S)
    have hzero : ((make_sets garbage E (2 ^ b) S).lines i).valid = 0 := rfl
    rw [hsets, hlines, hzero] at hvalid
    exact absurd hvalid (by decide)

/-- The blocks of an address and of a line are the same if sets and tags are. -/
theorem blockOf_eq_blockIn_iff {S : ℕ} (hS : S < 2 ^ s) (address : Address) (line : Line) :
    blockOf b address = blockIn s S line ↔ setOf s b address = S ∧ tagOf s b address = line.tag := by
  unfold blockIn
  rw [← tag_set_eq_block s b address]
  constructor
  · intro h
    have hset : setOf s b address = S := by
      have hlt : setOf s b address < 2 ^ s := Nat.mod_lt _ (Nat.two_pow_pos s)
      have hmod := congrArg (· % 2 ^ s) h
      simp only [Nat.mul_add_mod_self_right] at hmod
      rwa [Nat.mod_eq_of_lt hS, Nat.mod_eq_of_lt hlt] at hmod
    subst hset
    exact ⟨rfl, block_of_tag_injective s _ h⟩
  · rintro ⟨rfl, htag⟩
    rw [htag]

/-- **One access** keeps the bits. -/
theorem Bits.cache_access (hs : 1 ≤ s) (hb : 1 ≤ b) (hsb : s + b ≤ 30) (hE : 1 ≤ E)
    {cache : Cache} {history : History} (h : Bits s E b cache history) (line : TraceLine) :
    ∃ cache' result, CacheSim.cache_access cache line = some (cache', result) ∧
      Bits s E b cache' (history ++ [(line.address, result)]) := by
  obtain ⟨cache', haccess, htracks⟩ := h.tracks.cache_access hs hb hsb hE line
  refine ⟨cache', _, haccess, ?_⟩
  generalize verdict E _ _ = result at haccess ⊢
  obtain ⟨j, byte, hbyte, hwrite, hsets⟩ := h.tracks.accessed hs hb hsb hE haccess
  refine ⟨by simpa using htracks, (cache_access_sizes haccess).2.2.trans h.block_size, ?_⟩
  intro S hS i hi hvalid
  by_cases hSa : S = setOf s b line.address
  · subst hSa
    by_cases hij : i = j
    · -- the line of the access
      subst hij
      rw [hwrite.accessed, h.block_size]
      have hblock : blockOf b line.address = blockIn s (setOf s b line.address)
          ((cache'.sets (setOf s b line.address)).lines i) :=
        (blockOf_eq_blockIn_iff hS _ _).mpr ⟨rfl, hwrite.tag.symm⟩
      refine Remembers.record (x := (line.address, result)) ?_ hblock hbyte
      intro hhit
      obtain ⟨hvalid', htag⟩ := hwrite.hit hhit
      have hold := h.accessed _ hS i hi hvalid'
      unfold blockIn at hold ⊢
      rwa [hwrite.tag, ← htag]
    · -- another line of the set has another tag
      rw [hwrite.other i hij] at hvalid ⊢
      apply (h.accessed _ hS i hi hvalid).other
      rw [ne_eq, blockOf_eq_blockIn_iff hS]
      rintro ⟨-, htag⟩
      by_cases hhit : result = HIT
      · obtain ⟨hvalid', htag'⟩ := hwrite.hit hhit
        have hnodup := (List.take_sublist E _).nodup
          (Lib.nodup_recency (tagsTo s b (setOf s b line.address) (history.map Prod.fst)))
        exact hij ((h.tracks.sets _ hS).line_of_tag hnodup hi hwrite.lt hvalid hvalid'
          (htag.symm.trans htag'.symm))
      · exact hwrite.miss hhit i hi hvalid htag.symm
  · -- another set
    rw [hsets S hSa] at hvalid ⊢
    apply (h.accessed S hS i hi hvalid).other
    rw [ne_eq, blockOf_eq_blockIn_iff hS]
    rintro ⟨hset, -⟩
    exact hSa hset.symm

/-- A whole sequence of accesses. -/
theorem Bits.cache_accesses (hs : 1 ≤ s) (hb : 1 ≤ b) (hsb : s + b ≤ 30) (hE : 1 ≤ E)
    {cache : Cache} {history : History} (h : Bits s E b cache history) (trace : List TraceLine) :
    ∃ cache' results, CacheSim.cache_accesses cache trace = some cache' ∧
      access_results cache trace = some results ∧
      Bits s E b cache' (history ++ (trace.map TraceLine.address).zip results) := by
  induction trace generalizing cache history with
  | nil => exact ⟨cache, [], rfl, rfl, by simpa using h⟩
  | cons line trace ih =>
      obtain ⟨cache₁, result, haccess, h₁⟩ := h.cache_access hs hb hsb hE line
      obtain ⟨cache', results, hrun, hresults, h'⟩ := ih h₁
      refine ⟨cache', result :: results, ?_, ?_, by simpa using h'⟩
      · rw [CacheSim.cache_accesses, List.foldlM_cons, haccess]
        exact hrun
      · rw [access_results, haccess]
        simp only [Option.bind_eq_bind, Option.bind_some, hresults]

end Bits

/-- **The accessed bits are the touched bytes.** For every cache with a set bit, a block bit and a
line in each set, whatever is in its arrays when it is made, and every sequence of accesses: behind
it, the bits of each valid line are 1 for the bytes of its block that have been accessed since the
block was last loaded, and 0 for all others. -/
theorem accessed_bits (garbage : ℕ → ℕ → ℕ → Byte) {s E b : ℕ} (hs : 1 ≤ s) (hb : 1 ≤ b)
    (hsb : s + b ≤ 30) (hE : 1 ≤ E) (trace : List TraceLine) :
    ∃ cache results, cache_accesses (make_cache garbage s E b) trace = some cache ∧
      access_results (make_cache garbage s E b) trace = some results ∧
      ∀ S < cache.set_count, ∀ i < cache.line_count, ((cache.sets S).lines i).valid = 1 →
        ∃ window, LastLoad b (blockIn s S ((cache.sets S).lines i))
            ((trace.map TraceLine.address).zip results) window ∧
          ∀ k < cache.block_size, ((cache.sets S).lines i).accessed k
            = if Touched b (blockIn s S ((cache.sets S).lines i)) k window then 1 else 0 := by
  obtain ⟨cache, results, hrun, hresults, h⟩ :=
    (@bits_fresh s E b garbage).cache_accesses hs hb hsb hE trace
  obtain ⟨hsets, hlines, hblock⟩ := cache_accesses_sizes hrun
  refine ⟨cache, results, hrun, hresults, ?_⟩
  intro S hS i hi hvalid
  rw [hsets] at hS
  rw [hlines] at hi
  rw [hblock]
  exact h.accessed S hS i hi hvalid

/-- In a cache of two sets with one line of two bytes: the byte 1 of block 0, block 2, and the byte 0
of block 0 again. The bit of the byte 1 has gone with the first load. -/
theorem accessed_bits_evicted :
    ∃ cache results window, cache_accesses (make_cache (fun _ _ _ => 7) 1 1 1)
        [⟨76, 1, 1⟩, ⟨76, 4, 1⟩, ⟨76, 0, 1⟩] = some cache ∧
      access_results (make_cache (fun _ _ _ => 7) 1 1 1)
        [⟨76, 1, 1⟩, ⟨76, 4, 1⟩, ⟨76, 0, 1⟩] = some results ∧
      ((cache.sets 0).lines 0).valid = 1 ∧
      LastLoad 1 (blockIn 1 0 ((cache.sets 0).lines 0)) ([1, 4, 0].zip results) window ∧
      ((cache.sets 0).lines 0).accessed 0 = 1 ∧ ((cache.sets 0).lines 0).accessed 1 = 0 ∧
      Touched 1 (blockIn 1 0 ((cache.sets 0).lines 0)) 0 window ∧
      ¬ Touched 1 (blockIn 1 0 ((cache.sets 0).lines 0)) 1 window := by
  obtain ⟨cache, results, hrun, hresults, hbits⟩ :=
    accessed_bits (fun _ _ _ => 7) (s := 1) (E := 1) (b := 1) (by decide) (by decide) (by decide)
      (by decide) [⟨76, 1, 1⟩, ⟨76, 4, 1⟩, ⟨76, 0, 1⟩]
  obtain ⟨hsets, hlines, hblock⟩ := cache_accesses_sizes hrun
  have hline : (cache_accesses (make_cache (fun _ _ _ => 7) 1 1 1)
      [⟨76, 1, 1⟩, ⟨76, 4, 1⟩, ⟨76, 0, 1⟩]).map (fun cache => (((cache.sets 0).lines 0).valid,
        ((cache.sets 0).lines 0).accessed 0, ((cache.sets 0).lines 0).accessed 1))
      = some (1, 1, 0) := by
    decide
  rw [hrun, Option.map_some, Option.some.injEq, Prod.mk.injEq, Prod.mk.injEq] at hline
  obtain ⟨hvalid, hset, hclear⟩ := hline
  obtain ⟨window, hload, hwindow⟩ :=
    hbits 0 (by rw [hsets]; decide) 0 (by rw [hlines]; decide) hvalid
  have hfirst := hwindow 0 (by rw [hblock]; decide)
  have hsecond := hwindow 1 (by rw [hblock]; decide)
  rw [hset] at hfirst
  rw [hclear] at hsecond
  refine ⟨cache, results, window, hrun, hresults, hvalid, hload, hset, hclear, ?_, ?_⟩
  · by_contra hnot
    rw [if_neg hnot] at hfirst
    exact absurd hfirst (by decide)
  · intro htouched
    rw [if_pos htouched] at hsecond
    exact absurd hsecond (by decide)

end ProjectsInC.CacheSim
