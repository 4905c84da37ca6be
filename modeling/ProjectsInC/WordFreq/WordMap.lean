/-
The set of words as a finite map from words to counts.

Every function of `wset.c` is one operation of such a map, and what it returns is what the
map returns, as far as an `int` goes ([`wset_calls`]). Only `wset_remove` looks at the size, which
is an `int` too: a number of words that is a multiple of 2^32 reads as 0.
-/
import Mathlib.Data.Finsupp.Multiset
import ProjectsInC.WordFreq.WordSet

set_option autoImplicit false

namespace ProjectsInC.WordFreq

open Lib (arrive touch)

/-! ## The map -/

/-- A call of a function of `wset.c`. -/
inductive Call
  | add (word : List Byte)
  | fast_add (word : List Byte)
  | remove (word : List Byte)
  | exists_ (word : List Byte)
  | freq (word : List Byte)
  | size

/-- Words with positive counts. -/
abbrev WordMap := List Byte →₀ ℕ

/-- What a call returns and makes of a map. -/
noncomputable def WordMap.call (m : WordMap) : Call → ℤ × WordMap
  | .add w | .fast_add w => (m w + 1, m + Finsupp.single w 1)
  | .remove w => (if w ∈ m.support then m w else -1, m.erase w)
  | .exists_ w => (if w ∈ m.support then 1 else 0, m)
  | .freq w => (m w, m)
  | .size => (m.support.card, m)

/-- One call after the other. -/
noncomputable def WordMap.run : WordMap → List Call → List ℤ × WordMap
  | m, [] => ([], m)
  | m, call :: calls =>
      let (result, m) := m.call call
      let (results, m) := WordMap.run m calls
      (result :: results, m)

/-- A call on a set. -/
def WordSet.call (wset : WordSet) : Call → Except Stop (CInt × WordSet)
  | .add w => wset_add wset w
  | .fast_add w => wset_fast_add wset w
  | .remove w => wset_remove wset w
  | .exists_ w => (wset_exists wset w).map (fun result => (result, wset))
  | .freq w => (wset_freq wset w).map (fun result => (result, wset))
  | .size => .ok (wset_size wset, wset)

/-- One call after the other. -/
def WordSet.run : WordSet → List Call → Except Stop (List CInt × WordSet)
  | wset, [] => .ok ([], wset)
  | wset, call :: calls => do
      let (result, wset) ← wset.call call
      let (results, wset) ← WordSet.run wset calls
      .ok (result :: results, wset)

/-! ## What a set stands for -/

/-- The list has a node for each word of the map, each with another word, and its count; the
size is their number. -/
def Stands (wset : WordSet) (m : WordMap) : Prop :=
  ∃ chain, wset.list.Holds chain ∧ (chain.map (fun n => (wset.node n).word)).Nodup ∧
    (∀ w, w ∈ chain.map (fun n => (wset.node n).word) ↔ w ∈ m.support) ∧
    (∀ n ∈ chain, (wset.node n).freq = BitVec.ofNat 32 (m (wset.node n).word)) ∧
    wset.size = BitVec.ofNat 32 chain.length

/-- The counts of a list of words. -/
noncomputable def counts (words : List (List Byte)) : WordMap := Multiset.toFinsupp (words : Multiset _)

theorem counts_apply (words : List (List Byte)) (w : List Byte) : counts words w = words.count w := by
  rw [counts, Multiset.toFinsupp_apply, Multiset.coe_count]
  -- there is one lawful comparison of words only
  congr 1
  exact lawful_beq_subsingleton _ _

theorem mem_support_counts {words : List (List Byte)} {w : List Byte} :
    w ∈ (counts words).support ↔ w ∈ words := by
  rw [counts, Multiset.toFinsupp_support, Multiset.mem_toFinset, Multiset.mem_coe]

theorem counts_concat (words : List (List Byte)) (w : List Byte) :
    counts (words ++ [w]) = counts words + Finsupp.single w 1 := by
  rw [counts, ← Multiset.coe_add, map_add, Multiset.coe_singleton, Multiset.toFinsupp_singleton]
  rfl

theorem counts_filter (words : List (List Byte)) (w : List Byte) :
    counts (words.filter (· ≠ w)) = (counts words).erase w := by
  ext v
  rw [counts_apply]
  by_cases hv : v = w
  · subst hv
    rw [Finsupp.erase_same, List.count_eq_zero]
    simp
  · rw [Finsupp.erase_ne hv, counts_apply, List.count_filter (by simpa using hv)]

section Run

variable {wset : WordSet} {chain : List ℕ} {seen keys : List (List Byte)}

/-- The keys are the words of the map. -/
theorem Listed.mem_support (h : Listed wset chain seen keys) {w : List Byte} :
    w ∈ (counts seen).support ↔ w ∈ keys := by
  rw [mem_support_counts, h.mem]

theorem Listed.card_support (h : Listed wset chain seen keys) :
    (counts seen).support.card = keys.length := by
  rw [← List.toFinset_card_of_nodup h.distinct]
  congr 1
  ext w
  rw [h.mem_support, List.mem_toFinset]

theorem Listed.stands (h : Listed wset chain seen keys) : Stands wset (counts seen) := by
  have hlen : chain.length = keys.length := by rw [← h.words, List.length_map]
  refine ⟨chain, h.holds, ?_, ?_, ?_, ?_⟩
  · rw [h.words]
    exact h.distinct
  · intro w
    rw [h.words, h.mem_support]
  · intro n hn
    rw [counts_apply]
    exact h.freq n hn
  · rw [hlen]
    exact h.size

/-! ## One call, and a run of calls -/

/-- What a call on a map with the counts of `seen` returns is at most one more than there are. -/
def Small (seen : List (List Byte)) (result : ℤ) : Prop := -1 ≤ result ∧ result ≤ seen.length + 1

theorem small_nat {n : ℕ} (hn : n ≤ seen.length + 1) : Small seen n := by
  unfold Small
  omega

/-- A call has done its work: it has returned what the map returns and the set stands for what
the map has become. -/
def Answered (seen : List (List Byte)) (call : Call) (outcome : Except Stop (CInt × WordSet)) :
    Prop :=
  ∃ wset' chain' seen' keys',
    outcome = .ok (BitVec.ofInt 32 ((counts seen).call call).1, wset') ∧
      Listed wset' chain' seen' keys' ∧ counts seen' = ((counts seen).call call).2 ∧
      seen'.length ≤ seen.length + 1 ∧ Small seen ((counts seen).call call).1

/-- The result of adding a word, at either end. -/
theorem answered_add {w : List Byte} {call : Call}
    (hcall : (counts seen).call call = ((counts seen w + 1 : ℤ), counts seen + Finsupp.single w 1))
    {outcome : Except Stop (CInt × WordSet)} {wset' : WordSet} {chain' : List ℕ}
    {keys' : List (List Byte)}
    (houtcome : outcome = .ok (BitVec.ofNat 32 ((seen ++ [w]).count w), wset'))
    (hlisted : Listed wset' chain' (seen ++ [w]) keys') : Answered seen call outcome := by
  have hcount : (seen ++ [w]).count w = seen.count w + 1 := by
    rw [List.count_append, List.count_singleton_self]
  refine ⟨wset', chain', _, keys', ?_, hlisted, ?_, ?_, ?_⟩
  · rw [houtcome, hcall, hcount, counts_apply, ← Nat.cast_succ, BitVec.ofInt_natCast]
  · rw [hcall, counts_concat]
  · rw [List.length_append, List.length_singleton]
  · rw [hcall, counts_apply]
    exact_mod_cast small_nat (Nat.succ_le_succ List.count_le_length)

/-- A call that only looks. -/
theorem answered_look (h : Listed wset chain seen keys) {call : Call} {n : ℕ}
    (hcall : (counts seen).call call = ((n : ℤ), counts seen)) (hn : n ≤ seen.length + 1)
    {outcome : Except Stop (CInt × WordSet)} (houtcome : outcome = .ok (BitVec.ofNat 32 n, wset)) :
    Answered seen call outcome := by
  refine ⟨wset, chain, seen, keys, ?_, h, ?_, Nat.le_succ _, ?_⟩
  · rw [houtcome, hcall, BitVec.ofInt_natCast]
  · rw [hcall]
  · rw [hcall]
    exact small_nat hn

/-- `wset_remove`, where the size is not mistaken for 0. -/
theorem answered_remove (h : Listed wset chain seen keys) (w : List Byte)
    (hsize : 2 ^ 32 ∣ (counts seen).support.card → counts seen = 0) :
    Answered seen (.remove w) (wset_remove wset w) := by
  by_cases hw : w ∈ keys
  · have hmem : w ∈ (counts seen).support := h.mem_support.mpr hw
    have hcall : (counts seen).call (.remove w) = ((seen.count w : ℤ), (counts seen).erase w) := by
      rw [WordMap.call, if_pos hmem, counts_apply]
    have hshown : wset.size ≠ 0 := by
      intro hzero
      have hmod := congrArg BitVec.toNat hzero
      rw [h.size, BitVec.toNat_ofNat] at hmod
      have hnone := hsize (h.card_support ▸ Nat.dvd_of_mod_eq_zero hmod)
      rw [hnone] at hmem
      exact absurd hmem (Finset.notMem_empty w)
    obtain ⟨wset', chain', hremove, hlisted⟩ := wset_remove_present h hw hshown
    refine ⟨wset', chain', _, _, ?_, hlisted, ?_, ?_, ?_⟩
    · rw [hremove, hcall, BitVec.ofInt_natCast]
    · rw [hcall, counts_filter]
    · exact (List.length_filter_le _ _).trans (Nat.le_succ _)
    · rw [hcall]
      exact small_nat (List.count_le_length.trans (Nat.le_succ _))
  · have hnot : w ∉ (counts seen).support := fun hmem => hw (h.mem_support.mp hmem)
    have hcall : (counts seen).call (.remove w) = (-1, counts seen) := by
      rw [WordMap.call, if_neg hnot, Finsupp.erase_of_notMem_support hnot]
    refine ⟨wset, chain, seen, keys, ?_, h, ?_, Nat.le_succ _, ?_⟩
    · rw [wset_remove_absent h hw, hcall]
      rfl
    · rw [hcall]
    · rw [hcall]
      unfold Small
      omega

/-- **Every call** is that of the map. -/
theorem Listed.call (h : Listed wset chain seen keys) (call : Call)
    (hsize : ∀ w, call = .remove w → 2 ^ 32 ∣ (counts seen).support.card → counts seen = 0) :
    Answered seen call (wset.call call) := by
  cases call with
  | add w =>
      obtain ⟨wset', chain', hadd, hlisted⟩ := wset_add_spec h w
      exact answered_add rfl hadd hlisted
  | fast_add w =>
      obtain ⟨wset', chain', hadd, hlisted⟩ := wset_fast_add_spec h w
      exact answered_add rfl hadd hlisted
  | remove w => exact answered_remove h w (hsize w rfl)
  | exists_ w =>
      have hcall : (counts seen).call (.exists_ w)
          = (((if w ∈ keys then 1 else 0 : ℕ) : ℤ), counts seen) := by
        simp only [WordMap.call, h.mem_support]
        split_ifs <;> rfl
      refine answered_look h hcall ?_ ?_
      · split_ifs <;> omega
      · rw [WordSet.call, wset_exists_spec h]
        split_ifs <;> rfl
  | freq w =>
      have hcall : (counts seen).call (.freq w) = ((seen.count w : ℤ), counts seen) := by
        rw [WordMap.call, counts_apply]
      apply answered_look h hcall (List.count_le_length.trans (Nat.le_succ _))
      rw [WordSet.call, wset_freq_spec h]
      rfl
  | size =>
      have hcall : (counts seen).call .size = ((keys.length : ℤ), counts seen) := by
        rw [WordMap.call, h.card_support]
      refine answered_look h hcall ?_ ?_
      · have hsub : keys ⊆ seen := fun w hw => (h.mem w).mp hw
        exact (List.subperm_of_subset h.distinct hsub).length_le.trans (Nat.le_succ _)
      · rw [WordSet.call, wset_size, h.size]

end Run

/-- `wset_remove` is called only where the size shows whether there are words: their number is
not a positive multiple of 2^32. -/
def SizeShown : WordMap → List Call → Prop
  | _, [] => True
  | m, call :: calls =>
      (∀ w, call = .remove w → 2 ^ 32 ∣ m.support.card → m = 0) ∧ SizeShown (m.call call).2 calls

/-- A call adds at most one word. -/
theorem card_support_call (m : WordMap) (call : Call) :
    (m.call call).2.support.card ≤ m.support.card + 1 := by
  have hadd : ∀ w, (m + Finsupp.single w 1).support.card ≤ m.support.card + 1 := by
    intro w
    have hsub : (m + Finsupp.single w 1).support ⊆ insert w m.support := by
      apply Finsupp.support_add.trans
      rw [Finset.insert_eq, Finset.union_comm]
      exact Finset.union_subset_union_left Finsupp.support_single_subset
    exact (Finset.card_le_card hsub).trans (Finset.card_insert_le w _)
  cases call with
  | add w => exact hadd w
  | fast_add w => exact hadd w
  | remove w =>
      rw [WordMap.call, Finsupp.support_erase]
      exact (Finset.card_erase_le).trans (Nat.le_succ _)
  | exists_ w => exact Nat.le_succ _
  | freq w => exact Nat.le_succ _
  | size => exact Nat.le_succ _

/-- That takes 2^32 calls at least. -/
theorem sizeShown_of_short {m : WordMap} {calls : List Call}
    (h : m.support.card + calls.length ≤ 2 ^ 32) : SizeShown m calls := by
  induction calls generalizing m with
  | nil => trivial
  | cons call calls ih =>
      rw [List.length_cons] at h
      have hcard := card_support_call m call
      refine ⟨?_, ih (by omega)⟩
      intro w _ hdvd
      have hnone : m.support.card = 0 := Nat.eq_zero_of_dvd_of_lt hdvd (by omega)
      rwa [Finset.card_eq_zero, Finsupp.support_eq_empty] at hnone

/-- From a set that stands for a map on. -/
theorem Listed.run {wset : WordSet} {chain : List ℕ} {seen keys : List (List Byte)}
    (h : Listed wset chain seen keys) {calls : List Call} (hsize : SizeShown (counts seen) calls) :
    ∃ results wset', wset.run calls = .ok (results, wset') ∧
      results = ((counts seen).run calls).1.map (BitVec.ofInt 32) ∧
      Stands wset' ((counts seen).run calls).2 ∧
      ∀ result ∈ ((counts seen).run calls).1, -1 ≤ result ∧ result ≤ seen.length + calls.length := by
  induction calls generalizing wset chain seen keys with
  | nil => exact ⟨[], wset, rfl, rfl, h.stands, fun _ hmem => absurd hmem List.not_mem_nil⟩
  | cons call calls ih =>
      obtain ⟨hnow, hlater⟩ := hsize
      obtain ⟨wset₁, chain₁, seen₁, keys₁, hcall, h₁, hcounts, hlen, hsmall⟩ := h.call call hnow
      rw [← hcounts] at hlater
      obtain ⟨results, wset', hrun, hresults, hstands, hbounds⟩ := ih h₁ hlater
      rw [hcounts] at hresults hstands hbounds
      refine ⟨BitVec.ofInt 32 ((counts seen).call call).1 :: results, wset', ?_, ?_, hstands, ?_⟩
      · simp only [WordSet.run, hcall, bind, Except.bind, hrun]
      · rw [WordMap.run, List.map_cons, hresults]
      · intro result hmem
        have hcases : result = ((counts seen).call call).1 ∨
            result ∈ (((counts seen).call call).2.run calls).1 := List.mem_cons.mp hmem
        rw [List.length_cons]
        rcases hcases with rfl | hmem
        · unfold Small at hsmall
          push_cast
          omega
        · have hbound := hbounds result hmem
          push_cast
          omega

/-- The last of some additions of one word returns how many there were. -/
theorem mem_run_replicate (w : List Byte) (m : WordMap) (n : ℕ) :
    ((m w + (n + 1) : ℕ) : ℤ) ∈ (m.run (List.replicate (n + 1) (.add w))).1 := by
  induction n generalizing m with
  | zero => exact List.mem_cons_self
  | succ n ih =>
      have hrest := ih (m + Finsupp.single w 1)
      rw [Finsupp.add_apply, Finsupp.single_eq_same, Nat.add_assoc, Nat.add_comm 1] at hrest
      rw [List.replicate_succ]
      exact List.mem_cons_of_mem _ hrest

end ProjectsInC.WordFreq
