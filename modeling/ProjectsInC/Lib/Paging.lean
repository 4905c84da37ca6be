/-
How far LRU is from the best.

A cache answers requests and loads an element only when it is asked for it
([`Serves`]). What it evicts is left open, so that it may know all requests. Against
any such cache with room for `h` elements, LRU with room for `k ≥ h` pays `k` for
every `k + 1 - h` loads of the other: cut the requests into phases in which LRU
loads `k` times. In each phase `k` elements are asked for that are not the one asked
for last before it ([`min_lruFaults_le`]), and the other holds at most `h - 1` of
these when the phase begins.
-/
import Mathlib.Algebra.BigOperators.Group.Finset.Piecewise
import Mathlib.Algebra.Order.BigOperators.Group.Finset
import Mathlib.Data.Finset.Option
import ProjectsInC.Lib.Recency

set_option autoImplicit false

namespace ProjectsInC.Lib

section Paging

variable {α ι : Type*} [DecidableEq α]

/-! ## Any cache -/

/-- Some cache holds the first set, answers the requests with so many loads, and
holds the second set then. It may evict at any time. -/
inductive Serves (fits : Finset α → Prop) : Finset α → List α → ℕ → Finset α → Prop
  | nil (C : Finset α) : Serves fits C [] 0 C
  | evict {C C₁ C' : Finset α} {xs : List α} {loads : ℕ} (hsub : C₁ ⊆ C)
      (hrest : Serves fits C₁ xs loads C') : Serves fits C xs loads C'
  | hit {C C' : Finset α} {x : α} {xs : List α} {loads : ℕ} (hx : x ∈ C)
      (hrest : Serves fits C xs loads C') : Serves fits C (x :: xs) loads C'
  | load {C C' : Finset α} {x : α} {xs : List α} {loads : ℕ} (hx : x ∉ C)
      (hfits : fits (insert x C)) (hrest : Serves fits (insert x C) xs loads C') :
      Serves fits C (x :: xs) (loads + 1) C'

section Runs

variable {fits : Finset α → Prop} {C C' : Finset α} {xs ys : List α} {loads h : ℕ}

/-- A run on two lists of requests is two runs. -/
theorem Serves.split (hserves : Serves fits C (xs ++ ys) loads C') :
    ∃ C₁ loads₁ loads₂, Serves fits C xs loads₁ C₁ ∧ Serves fits C₁ ys loads₂ C' ∧
      loads = loads₁ + loads₂ := by
  generalize hall : xs ++ ys = all at hserves
  induction hserves generalizing xs with
  | nil C =>
      obtain ⟨rfl, rfl⟩ := List.append_eq_nil_iff.mp hall
      exact ⟨C, 0, 0, .nil C, .nil C, rfl⟩
  | evict hsub _ ih =>
      obtain ⟨C₁, loads₁, loads₂, hfirst, hsecond, hsum⟩ := ih hall
      exact ⟨C₁, loads₁, loads₂, hfirst.evict hsub, hsecond, hsum⟩
  | @hit C C' x rest loads hx hrest ih =>
      cases xs with
      | nil =>
          obtain rfl : ys = x :: rest := hall
          exact ⟨C, 0, loads, .nil C, hrest.hit hx, (Nat.zero_add _).symm⟩
      | cons y xs =>
          obtain ⟨rfl, htail⟩ := List.cons.inj hall
          obtain ⟨C₁, loads₁, loads₂, hfirst, hsecond, hsum⟩ := ih htail
          exact ⟨C₁, loads₁, loads₂, hfirst.hit hx, hsecond, hsum⟩
  | @load C C' x rest loads hx hfits hrest ih =>
      cases xs with
      | nil =>
          obtain rfl : ys = x :: rest := hall
          exact ⟨C, 0, loads + 1, .nil C, hrest.load hx hfits, (Nat.zero_add _).symm⟩
      | cons y xs =>
          obtain ⟨rfl, htail⟩ := List.cons.inj hall
          obtain ⟨C₁, loads₁, loads₂, hfirst, hsecond, hsum⟩ := ih htail
          refine ⟨C₁, loads₁ + 1, loads₂, hfirst.load hx hfits, hsecond, ?_⟩
          rw [hsum, Nat.add_right_comm]

/-- Each element that is not held when the run begins has to be loaded. -/
theorem Serves.card_sdiff_le (hserves : Serves fits C xs loads C') :
    (xs.toFinset \ C).card ≤ loads := by
  induction hserves with
  | nil C => simp
  | @evict C C₁ C' xs loads hsub _ ih =>
      exact (Finset.card_le_card (Finset.sdiff_subset_sdiff Finset.Subset.rfl hsub)).trans ih
  | hit hx _ ih => rwa [List.toFinset_cons, Finset.insert_sdiff_of_mem _ hx]
  | @load C C' x xs loads hx _ _ ih =>
      have hsub : (x :: xs).toFinset \ C ⊆ insert x (xs.toFinset \ insert x C) := by
        intro y hy
        by_cases hyx : y = x
        · exact Finset.mem_insert.mpr (.inl hyx)
        · simp only [Finset.mem_sdiff, List.mem_toFinset, List.mem_cons, Finset.mem_insert] at hy ⊢
          exact .inr ⟨hy.1.resolve_left hyx, not_or.mpr ⟨hyx, hy.2⟩⟩
      exact (Finset.card_le_card hsub).trans ((Finset.card_insert_le _ _).trans
        (Nat.succ_le_succ ih))

/-- There is room, and what is held besides the last element asked for is one less. -/
structure Roomed (h : ℕ) (past : List α) (C : Finset α) : Prop where
  card : C.card ≤ h
  besides : (C \ past.getLast?.toFinset).card < h

theorem roomed_empty (hpos : 0 < h) : Roomed h ([] : List α) ∅ :=
  ⟨h.zero_le, hpos⟩

theorem roomed_of_mem {x : α} (hx : x ∈ C) (hcard : C.card ≤ h) (past : List α) :
    Roomed h (past ++ [x]) C := by
  refine ⟨hcard, ?_⟩
  rw [List.getLast?_concat, Option.toFinset_some, Finset.sdiff_singleton_eq_erase]
  exact (Finset.card_erase_lt_of_mem hx).trans_le hcard

theorem Roomed.run {past : List α} (hroom : Roomed h past C)
    (hserves : Serves (fun C => C.card ≤ h) C xs loads C') : Roomed h (past ++ xs) C' := by
  induction hserves generalizing past with
  | nil C => rwa [List.append_nil]
  | evict hsub _ ih =>
      exact ih ⟨(Finset.card_le_card hsub).trans hroom.card,
        (Finset.card_le_card (Finset.sdiff_subset_sdiff hsub Finset.Subset.rfl)).trans_lt
          hroom.besides⟩
  | hit hx _ ih =>
      rw [List.append_cons]
      exact ih (roomed_of_mem hx hroom.card past)
  | load _ hfits _ ih =>
      rw [List.append_cons]
      exact ih (roomed_of_mem (Finset.mem_insert_self _ _) hfits past)

end Runs

/-! ## LRU -/

/-- The loads of LRU with room for `k`, behind the requests `past`. -/
def lruFaults (k : ℕ) : List α → List α → ℕ
  | _, [] => 0
  | past, x :: xs => (if x ∈ (recency past).take k then 0 else 1) + lruFaults k (past ++ [x]) xs

section Lru

variable {k : ℕ} {past xs : List α}

theorem lruFaults_append (k : ℕ) (past xs ys : List α) :
    lruFaults k past (xs ++ ys) = lruFaults k past xs + lruFaults k (past ++ xs) ys := by
  induction xs generalizing past with
  | nil => rw [List.nil_append, lruFaults, List.append_nil, Nat.zero_add]
  | cons x xs ih =>
      rw [List.cons_append, lruFaults, lruFaults, ih, Nat.add_assoc, ← List.append_cons]

theorem lruFaults_concat (k : ℕ) (past xs : List α) (x : α) :
    lruFaults k past (xs ++ [x])
      = lruFaults k past xs + if x ∈ (recency (past ++ xs)).take k then 0 else 1 := by
  rw [lruFaults_append, lruFaults, lruFaults, Nat.add_zero]

/-- The loads go up one by one, so they can be cut where there are `n` of them. -/
theorem exists_lruFaults_eq {n : ℕ} (h : n ≤ lruFaults k past xs) :
    ∃ ys zs, xs = ys ++ zs ∧ lruFaults k past ys = n := by
  induction xs using List.reverseRecOn with
  | nil => exact ⟨[], [], rfl, (Nat.le_zero.mp h).symm⟩
  | append_singleton xs x ih =>
      by_cases hshort : n ≤ lruFaults k past xs
      · obtain ⟨ys, zs, rfl, hys⟩ := ih hshort
        exact ⟨ys, zs ++ [x], List.append_assoc _ _ _, hys⟩
      · refine ⟨xs ++ [x], [], (List.append_nil _).symm, ?_⟩
        have hone : (if x ∈ (recency (past ++ xs)).take k then 0 else 1) ≤ 1 := by
          split_ifs <;> omega
        rw [lruFaults_concat] at h ⊢
        omega

/-- An element LRU has to load again has been away for `k` others. -/
theorem le_card_of_fault {x : α} {before after : List α} (hx : x ∉ after)
    (hfault : x ∉ (recency (before ++ x :: after)).take k) : k ≤ after.toFinset.card := by
  by_contra hlt
  exact hfault (mem_take_recency_iff.mpr ⟨before, after, rfl, hx, not_le.mp hlt⟩)

/-- One asked for in this phase already, with the `k` others one more than `k`. -/
theorem le_card_of_fault_again {x : α} (hxs : x ∈ xs)
    (hfault : x ∉ (recency (past ++ xs)).take k) {last : Finset α} (hlast : last.card ≤ 1) :
    k ≤ ((xs ++ [x]).toFinset \ last).card := by
  obtain ⟨before, after, rfl, hafter⟩ := exists_last_occurrence hxs
  rw [← List.append_assoc] at hfault
  have hk := le_card_of_fault hafter hfault
  have hsub : insert x after.toFinset ⊆ ((before ++ x :: after) ++ [x]).toFinset := by
    intro y hy
    simp only [Finset.mem_insert, List.mem_toFinset] at hy
    simp only [List.mem_toFinset, List.mem_append, List.mem_cons]
    tauto
  have hdiff := Finset.le_card_sdiff last (insert x after.toFinset)
  rw [Finset.card_insert_of_notMem (fun h => hafter (List.mem_toFinset.mp h))] at hdiff
  have hle := Finset.card_le_card (Finset.sdiff_subset_sdiff hsub (Finset.Subset.refl last))
  omega

/-- The one asked for last before this phase. -/
theorem le_card_of_fault_last {x : α} (hxs : x ∉ xs)
    (hfault : x ∉ (recency (past ++ [x] ++ xs)).take k) :
    k ≤ ((xs ++ [x]).toFinset \ {x}).card := by
  rw [List.append_assoc, List.singleton_append] at hfault
  have hsub : xs.toFinset ⊆ (xs ++ [x]).toFinset \ {x} := by
    intro y hy
    rw [Finset.mem_sdiff, Finset.mem_singleton]
    rw [List.mem_toFinset] at hy
    exact ⟨by simp [hy], fun h => hxs (h ▸ hy)⟩
  exact (le_card_of_fault hxs hfault).trans (Finset.card_le_card hsub)

/-- **One phase.** For up to `k` loads LRU has been asked for as many elements, not
counting the one asked for last before. -/
theorem min_lruFaults_le (k : ℕ) (past xs : List α) :
    min k (lruFaults k past xs) ≤ (xs.toFinset \ past.getLast?.toFinset).card := by
  induction xs using List.reverseRecOn with
  | nil => simp [lruFaults]
  | append_singleton xs x ih =>
      have hmono : xs.toFinset \ past.getLast?.toFinset
          ⊆ (xs ++ [x]).toFinset \ past.getLast?.toFinset := by
        rw [List.toFinset_append]
        exact Finset.sdiff_subset_sdiff Finset.subset_union_left Finset.Subset.rfl
      rw [lruFaults_concat]
      split_ifs with hhit
      · exact ih.trans (Finset.card_le_card hmono)
      · by_cases hxs : x ∈ xs
        · have hone : past.getLast?.toFinset.card ≤ 1 := by
            cases past.getLast? <;> simp
          exact (Nat.min_le_left _ _).trans (le_card_of_fault_again hxs hhit hone)
        · by_cases hlast : x ∈ past.getLast?.toFinset
          · obtain ⟨before, rfl⟩ : ∃ before, past = before ++ [x] := by
              rw [Option.mem_toFinset, Option.mem_def] at hlast
              exact List.getLast?_eq_some_iff.mp hlast
            rw [List.getLast?_concat, Option.toFinset_some]
            exact (Nat.min_le_left _ _).trans (le_card_of_fault_last hxs hhit)
          · -- a new one
            have hnew : x ∉ xs.toFinset \ past.getLast?.toFinset := fun h =>
              hxs (List.mem_toFinset.mp (Finset.mem_sdiff.mp h).1)
            have hsub : insert x (xs.toFinset \ past.getLast?.toFinset)
                ⊆ (xs ++ [x]).toFinset \ past.getLast?.toFinset :=
              Finset.insert_subset (Finset.mem_sdiff.mpr ⟨by simp, hlast⟩) hmono
            have hle := Finset.card_le_card hsub
            rw [Finset.card_insert_of_notMem hnew] at hle
            omega

end Lru

/-! ## LRU against any cache -/

section Competition

variable {h k loads : ℕ} {past xs : List α} {C C' : Finset α}

/-- In a phase the other cache has what it holds besides the last element asked for,
and loads the rest. -/
theorem Roomed.min_lruFaults_lt (hroom : Roomed h past C) {fits : Finset α → Prop}
    (hserves : Serves fits C xs loads C') (k : ℕ) : min k (lruFaults k past xs) < loads + h := by
  have hsub : xs.toFinset \ past.getLast?.toFinset
      ⊆ (xs.toFinset \ C) ∪ (C \ past.getLast?.toFinset) := by
    intro y hy
    simp only [Finset.mem_sdiff, Finset.mem_union] at hy ⊢
    tauto
  have hphase := min_lruFaults_le k past xs
  have hcard := (Finset.card_le_card hsub).trans (Finset.card_union_le _ _)
  have hloads := hserves.card_sdiff_le
  have hbesides := hroom.besides
  omega

/-- **LRU is competitive**: with room for `k` it loads at most `k / (k + 1 - h)` times
as often as any cache with room for `h`, and `h - 1` times more. -/
theorem lruFaults_competitive (hle : h ≤ k) (hroom : Roomed h past C)
    (hserves : Serves (fun C => C.card ≤ h) C xs loads C') :
    (k + 1 - h) * lruFaults k past xs ≤ k * loads + (k + 1 - h) * (h - 1) := by
  have hpos : 0 < h := Nat.zero_lt_of_lt hroom.besides
  induction hn : xs.length using Nat.strong_induction_on generalizing past xs C loads with
  | _ n ih =>
      by_cases hshort : lruFaults k past xs < k
      · -- the last phase
        have hphase := hroom.min_lruFaults_lt hserves k
        rw [min_eq_right hshort.le] at hphase
        calc (k + 1 - h) * lruFaults k past xs
            ≤ (k + 1 - h) * (loads + (h - 1)) := Nat.mul_le_mul_left _ (by omega)
          _ = (k + 1 - h) * loads + (k + 1 - h) * (h - 1) := Nat.mul_add _ _ _
          _ ≤ k * loads + (k + 1 - h) * (h - 1) :=
              Nat.add_le_add_right (Nat.mul_le_mul_right _ (by omega)) _
      · obtain ⟨ys, zs, rfl, hys⟩ := exists_lruFaults_eq (not_lt.mp hshort)
        obtain ⟨C₁, loads₁, loads₂, hfirst, hsecond, rfl⟩ := hserves.split
        have hphase := hroom.min_lruFaults_lt hfirst k
        rw [hys, min_self] at hphase
        have hnonempty : 0 < ys.length := by
          rw [List.length_pos_iff]
          rintro rfl
          rw [lruFaults] at hys
          omega
        have hrest := ih zs.length (by rw [← hn, List.length_append]; omega)
          (hroom.run hfirst) hsecond rfl
        calc (k + 1 - h) * lruFaults k past (ys ++ zs)
            = (k + 1 - h) * k + (k + 1 - h) * lruFaults k (past ++ ys) zs := by
              rw [lruFaults_append, hys, Nat.mul_add]
          _ ≤ loads₁ * k + (k * loads₂ + (k + 1 - h) * (h - 1)) :=
              Nat.add_le_add (Nat.mul_le_mul_right _ (by omega)) hrest
          _ = k * (loads₁ + loads₂) + (k + 1 - h) * (h - 1) := by
              rw [Nat.mul_add, Nat.mul_comm loads₁ k, Nat.add_assoc]

end Competition

/-! ## Caches in parts -/

section Parts

variable {cls : α → ι} [DecidableEq ι] {h loads : ℕ} {C C' : Finset α} {xs : List α}

/-- Each part has room for `h`. -/
def PartsFit (cls : α → ι) (h : ℕ) (C : Finset α) : Prop :=
  ∀ c, (C.filter (fun x => cls x = c)).card ≤ h

/-- The parts of a cache are caches of their own, and the loads are divided among them. -/
theorem Serves.parts (hserves : Serves (PartsFit cls h) C xs loads C') :
    ∃ part : ι → ℕ,
      (∀ c, Serves (fun C => C.card ≤ h) (C.filter (fun x => cls x = c))
        (xs.filter (fun x => cls x = c)) (part c) (C'.filter (fun x => cls x = c))) ∧
      ∀ classes : Finset ι, (∀ x ∈ xs, cls x ∈ classes) → loads = ∑ c ∈ classes, part c := by
  induction hserves with
  | nil C => exact ⟨fun _ => 0, fun c => .nil _, fun classes _ => Finset.sum_const_zero.symm⟩
  | evict hsub _ ih =>
      obtain ⟨part, hparts, hsum⟩ := ih
      exact ⟨part, fun c => (hparts c).evict (Finset.filter_subset_filter _ hsub), hsum⟩
  | @hit C C' x xs loads hx _ ih =>
      obtain ⟨part, hparts, hsum⟩ := ih
      refine ⟨part, fun c => ?_,
        fun classes hin => hsum classes (fun y hy => hin y (List.mem_cons_of_mem x hy))⟩
      by_cases hc : cls x = c
      · rw [List.filter_cons_of_pos (by simpa using hc)]
        exact (hparts c).hit (Finset.mem_filter.mpr ⟨hx, hc⟩)
      · rw [List.filter_cons_of_neg (by simpa using hc)]
        exact hparts c
  | @load C C' x xs loads hx hfits _ ih =>
      obtain ⟨part, hparts, hsum⟩ := ih
      refine ⟨fun c => part c + if c = cls x then 1 else 0, fun c => ?_, fun classes hin => ?_⟩
      · have hpart := hparts c
        by_cases hc : cls x = c
        · have hroom := hfits c
          rw [Finset.filter_insert, if_pos hc] at hpart hroom
          rw [List.filter_cons_of_pos (by simpa using hc)]
          simp only [if_pos hc.symm]
          exact hpart.load (fun h => hx (Finset.mem_filter.mp h).1) hroom
        · rw [Finset.filter_insert, if_neg hc] at hpart
          rw [List.filter_cons_of_neg (by simpa using hc)]
          simp only [if_neg (Ne.symm hc), Nat.add_zero]
          exact hpart
      · rw [Finset.sum_add_distrib,
          ← hsum classes (fun y hy => hin y (List.mem_cons_of_mem x hy)), Finset.sum_ite_eq',
          if_pos (hin x List.mem_cons_self)]

end Parts

end Paging

end ProjectsInC.Lib
