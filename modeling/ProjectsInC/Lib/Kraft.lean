/-
Weighted depths and the greedy step of Huffman's algorithm.

The leaves of a binary tree and the words of a prefix code are lists of weights
with depths, and what makes a list of depths possible is Kraft's inequality
([`Fits`]). Optimality can be argued on these alone: two elements of greatest
depth can be found without raising the cost ([`exists_deepest_pair`]), the two
smallest weights can be moved there ([`exchange`]), and the two can be merged
into one element a level higher ([`greedy_merge`]). Weights are elements of any
ordered cancellative monoid.
-/
import Mathlib.Algebra.Order.BigOperators.Group.Multiset
import Mathlib.InformationTheory.Coding.KraftMcMillan

set_option autoImplicit false

namespace ProjectsInC.Lib

/-! ## Kraft's inequality -/

section Depths

/-- The number of leaves at depth `D` that leaves at the given depths use up. -/
def kraftSum (D : ℕ) (ds : Multiset ℕ) : ℕ := (ds.map (fun d => 2 ^ (D - d))).sum

/-- The depths fit into a binary tree. -/
def Fits (ds : Multiset ℕ) : Prop := ∀ D, (∀ d ∈ ds, d ≤ D) → kraftSum D ds ≤ 2 ^ D

@[simp] theorem kraftSum_zero (D : ℕ) : kraftSum D 0 = 0 := rfl

@[simp] theorem kraftSum_cons (D d : ℕ) (ds : Multiset ℕ) :
    kraftSum D (d ::ₘ ds) = 2 ^ (D - d) + kraftSum D ds := by
  simp [kraftSum]

theorem kraftSum_append (D : ℕ) (ds es : Multiset ℕ) :
    kraftSum D (ds + es) = kraftSum D ds + kraftSum D es := by
  simp [kraftSum]

/-- Seen from one level higher, every depth is one more. -/
theorem kraftSum_map_succ (D : ℕ) (ds : Multiset ℕ) :
    kraftSum (D + 1) (ds.map (· + 1)) = kraftSum D ds := by
  simp [kraftSum, Multiset.map_map]

/-- A level further down everything counts double. -/
theorem kraftSum_add {D : ℕ} (k : ℕ) {ds : Multiset ℕ} (h : ∀ d ∈ ds, d ≤ D) :
    kraftSum (D + k) ds = 2 ^ k * kraftSum D ds := by
  induction ds using Multiset.induction_on with
  | empty => simp
  | cons d ds ih =>
      have hd := h d (Multiset.mem_cons_self d ds)
      rw [kraftSum_cons, kraftSum_cons, ih (fun e he => h e (Multiset.mem_cons_of_mem he)),
        Nat.mul_add, ← Nat.pow_add]
      congr 2
      omega

/-- One bound on the depths is enough to check the inequality at. -/
theorem fits_iff {D : ℕ} {ds : Multiset ℕ} (h : ∀ d ∈ ds, d ≤ D) :
    Fits ds ↔ kraftSum D ds ≤ 2 ^ D := by
  refine ⟨fun hfits => hfits D h, fun hle D' h' => ?_⟩
  have hsame : 2 ^ D * kraftSum D' ds = 2 ^ D' * kraftSum D ds := by
    rw [← kraftSum_add D h', ← kraftSum_add D' h, Nat.add_comm]
  have hmul : 2 ^ D * kraftSum D' ds ≤ 2 ^ D * 2 ^ D' := by
    rw [hsame, Nat.mul_comm (2 ^ D)]
    exact Nat.mul_le_mul_left _ hle
  exact Nat.le_of_mul_le_mul_left hmul (Nat.two_pow_pos D)

/-- Two trees fit under one root. -/
theorem Fits.join {ds es : Multiset ℕ} (h : Fits ds) (h' : Fits es) :
    Fits (ds.map (· + 1) + es.map (· + 1)) := by
  intro D hD
  have hdown : ∀ d ∈ ds + es, d + 1 ≤ D := fun d hd => hD (d + 1) (by
    rw [← Multiset.map_add]
    exact Multiset.mem_map_of_mem (· + 1) hd)
  cases D with
  | zero =>
      -- nothing is below a root, so both are empty
      have hnone : ds + es = 0 := Multiset.eq_zero_of_forall_notMem
        (fun d hd => absurd (hdown d hd) (by omega))
      rw [← Multiset.map_add, hnone]
      exact Nat.zero_le _
  | succ D =>
      have hds := h D (fun d hd =>
        Nat.le_of_succ_le_succ (hdown d (Multiset.mem_add.mpr (.inl hd))))
      have hes := h' D (fun d hd =>
        Nat.le_of_succ_le_succ (hdown d (Multiset.mem_add.mpr (.inr hd))))
      rw [kraftSum_append, kraftSum_map_succ, kraftSum_map_succ, pow_succ]
      omega

/-- Two leaves of one depth can be replaced by one a level higher. -/
theorem Fits.merge {D : ℕ} {ds : Multiset ℕ} (h : Fits ((D + 1) ::ₘ (D + 1) ::ₘ ds))
    (hds : ∀ d ∈ ds, d ≤ D + 1) : Fits (D ::ₘ ds) := by
  have hbound : ∀ d ∈ (D + 1) ::ₘ (D + 1) ::ₘ ds, d ≤ D + 1 := by
    simpa using hds
  have hbound' : ∀ d ∈ D ::ₘ ds, d ≤ D + 1 := by
    simpa using hds
  have hle := (fits_iff hbound).mp h
  apply (fits_iff hbound').mpr
  rw [kraftSum_cons, kraftSum_cons, Nat.sub_self, pow_zero] at hle
  rw [kraftSum_cons, Nat.add_sub_cancel_left, pow_one]
  omega

/-- A leaf that is alone at the greatest depth can move up: below it one place
is free, since everything else uses an even number of them. -/
theorem Fits.raise {D : ℕ} {ds : Multiset ℕ} (h : Fits ((D + 1) ::ₘ ds))
    (hds : ∀ d ∈ ds, d ≤ D) : Fits (D ::ₘ ds) := by
  have hbound : ∀ d ∈ (D + 1) ::ₘ ds, d ≤ D + 1 := by
    intro d hd
    rcases Multiset.mem_cons.mp hd with rfl | hd
    · exact le_rfl
    · exact (hds d hd).trans (Nat.le_succ D)
  have hbound' : ∀ d ∈ D ::ₘ ds, d ≤ D := by
    simpa using hds
  have hle := (fits_iff hbound).mp h
  apply (fits_iff hbound').mpr
  rw [kraftSum_cons, Nat.sub_self, pow_zero, kraftSum_add 1 hds, pow_one, pow_succ] at hle
  rw [kraftSum_cons, Nat.sub_self, pow_zero]
  omega

/-- Two leaves do not both fit at depth zero. -/
theorem Fits.pos_of_two {ds : Multiset ℕ} (h : Fits (0 ::ₘ 0 ::ₘ ds)) (hds : ∀ d ∈ ds, d ≤ 0) :
    False := by
  have hbound : ∀ d ∈ 0 ::ₘ 0 ::ₘ ds, d ≤ 0 := by
    simpa using hds
  have hle := (fits_iff hbound).mp h
  rw [kraftSum_cons, kraftSum_cons, Nat.sub_self, pow_zero] at hle
  omega

end Depths

/-! ## Weighted depths -/

section Weighted

variable {W : Type*} [AddCommMonoid W]

/-- The weighted sum of the depths. -/
def cost (P : Multiset (W × ℕ)) : W := (P.map (fun p => p.2 • p.1)).sum

@[simp] theorem cost_cons (p : W × ℕ) (P : Multiset (W × ℕ)) :
    cost (p ::ₘ P) = p.2 • p.1 + cost P := by
  simp [cost]

variable [LinearOrder W] [IsOrderedCancelAddMonoid W]

theorem cost_nonneg {P : Multiset (W × ℕ)} (h : ∀ p ∈ P, 0 ≤ p.1) : 0 ≤ cost P := by
  apply Multiset.sum_nonneg
  intro x hx
  obtain ⟨p, hp, rfl⟩ := Multiset.mem_map.mp hx
  exact nsmul_nonneg (h p hp) p.2

/-- Without raising the cost or touching the weights, two elements can be had at
the greatest depth: an element that is alone there moves up until it is not. -/
theorem exists_deepest_pair (P : Multiset (W × ℕ)) (hcard : 2 ≤ P.card)
    (hfits : Fits (P.map Prod.snd)) (hpos : ∀ p ∈ P, 0 ≤ p.1) :
    ∃ (D : ℕ) (x y : W) (R : Multiset (W × ℕ)),
      (x ::ₘ y ::ₘ R.map Prod.fst = P.map Prod.fst) ∧ (∀ p ∈ R, p.2 ≤ D + 1) ∧
      Fits ((D + 1) ::ₘ (D + 1) ::ₘ R.map Prod.snd) ∧
      cost ((x, D + 1) ::ₘ (y, D + 1) ::ₘ R) ≤ cost P := by
  induction hn : (P.map Prod.snd).sum using Nat.strong_induction_on generalizing P with
  | _ n ih =>
      obtain ⟨p₀, hp₀⟩ := Multiset.card_pos_iff_exists_mem.mp (by omega : 0 < P.card)
      obtain ⟨⟨x, E⟩, hx, hmax⟩ := P.toFinset.exists_max_image Prod.snd
        ⟨p₀, Multiset.mem_toFinset.mpr hp₀⟩
      obtain ⟨R, rfl⟩ := Multiset.exists_cons_of_mem (Multiset.mem_toFinset.mp hx)
      have hR : ∀ p ∈ R, p.2 ≤ E := fun p hp =>
        hmax p (Multiset.mem_toFinset.mpr (Multiset.mem_cons_of_mem hp))
      rw [Multiset.map_cons] at hfits
      by_cases hpair : ∃ p ∈ R, p.2 = E
      · -- there are two already; a tree with both at its root does not exist
        obtain ⟨⟨y, E'⟩, hy, rfl⟩ := hpair
        obtain ⟨R', rfl⟩ := Multiset.exists_cons_of_mem hy
        have hR' : ∀ p ∈ R', p.2 ≤ E' := fun p hp => hR p (Multiset.mem_cons_of_mem hp)
        rw [Multiset.map_cons] at hfits
        cases E' with
        | zero => exact (hfits.pos_of_two (Multiset.forall_mem_map_iff.mpr hR')).elim
        | succ D => exact ⟨D, x, y, R', by simp, hR', hfits, le_rfl⟩
      · -- alone: moved up by one, it is a smaller case
        have hlt : ∀ p ∈ R, p.2 < E := fun p hp =>
          lt_of_le_of_ne (hR p hp) (fun heq => hpair ⟨p, hp, heq⟩)
        rw [Multiset.card_cons] at hcard
        obtain ⟨q, hq⟩ := Multiset.card_pos_iff_exists_mem.mp (by omega : 0 < R.card)
        obtain ⟨D, rfl⟩ : ∃ D, E = D + 1 := ⟨E - 1, by have := hlt q hq; omega⟩
        have hdepths : ∀ d ∈ R.map Prod.snd, d ≤ D :=
          Multiset.forall_mem_map_iff.mpr (fun p hp => Nat.le_of_lt_succ (hlt p hp))
        have hxpos : 0 ≤ x := hpos (x, D + 1) (Multiset.mem_cons_self _ _)
        obtain ⟨D', x', y', R', hw, hR', hfits', hcost⟩ :=
          ih (((x, D) ::ₘ R).map Prod.snd).sum (by rw [← hn]; simp) ((x, D) ::ₘ R)
            (by simpa using hcard) (by rw [Multiset.map_cons]; exact hfits.raise hdepths)
            (Multiset.forall_mem_cons.mpr
              ⟨hxpos, fun p hp => hpos p (Multiset.mem_cons_of_mem hp)⟩) rfl
        refine ⟨D', x', y', R', by rw [hw]; simp, hR', hfits', hcost.trans ?_⟩
        rw [cost_cons, cost_cons]
        exact add_le_add (nsmul_le_nsmul_left hxpos (Nat.le_succ D)) le_rfl

/-- **The exchange.** A smallest weight `a` can take the place of an element of
greatest depth. -/
theorem exchange {a x : W} {D : ℕ} {S : Multiset (W × ℕ)} (hdeep : ∀ p ∈ S, p.2 ≤ D)
    (ha : a ∈ x ::ₘ S.map Prod.fst) (hmin : ∀ w ∈ x ::ₘ S.map Prod.fst, a ≤ w) :
    ∃ S' : Multiset (W × ℕ), a ::ₘ S'.map Prod.fst = x ::ₘ S.map Prod.fst ∧
      S'.map Prod.snd = S.map Prod.snd ∧ cost ((a, D) ::ₘ S') ≤ cost ((x, D) ::ₘ S) := by
  rcases Multiset.mem_cons.mp ha with rfl | hmem
  · exact ⟨S, rfl, rfl, le_rfl⟩
  · obtain ⟨⟨a', d⟩, hp, rfl⟩ := Multiset.mem_map.mp hmem
    obtain ⟨T, rfl⟩ := Multiset.exists_cons_of_mem hp
    refine ⟨(x, d) ::ₘ T, by simp [Multiset.cons_swap], by simp, ?_⟩
    have hax : a' ≤ x := hmin x (Multiset.mem_cons_self _ _)
    obtain ⟨e, rfl⟩ := Nat.exists_eq_add_of_le (hdeep _ hp)
    have hmove : (d + e) • a' + d • x ≤ (d + e) • x + d • a' := by
      rw [add_nsmul, add_nsmul, add_right_comm, add_right_comm (d • x), add_comm (d • a' )]
      exact add_le_add le_rfl (nsmul_le_nsmul_right hax e)
    simp only [cost_cons]
    rw [← add_assoc, ← add_assoc]
    exact add_le_add hmove le_rfl

/-- **The greedy step.** Merging the two smallest weights `a` and `b` costs at
most what it saves, whatever the depths were. -/
theorem greedy_merge {a b : W} (rest : Multiset W) {P : Multiset (W × ℕ)}
    (hP : P.map Prod.fst = a ::ₘ b ::ₘ rest) (hab : a ≤ b) (hrest : ∀ w ∈ rest, b ≤ w)
    (ha : 0 ≤ a) (hfits : Fits (P.map Prod.snd)) :
    ∃ P' : Multiset (W × ℕ), P'.map Prod.fst = (a + b) ::ₘ rest ∧ Fits (P'.map Prod.snd) ∧
      cost P' + (a + b) ≤ cost P := by
  have hminb : ∀ w ∈ b ::ₘ rest, b ≤ w := Multiset.forall_mem_cons.mpr ⟨le_rfl, hrest⟩
  have hmin : ∀ w ∈ a ::ₘ b ::ₘ rest, a ≤ w :=
    Multiset.forall_mem_cons.mpr ⟨le_rfl, fun w hw => hab.trans (hminb w hw)⟩
  have hpos : ∀ p ∈ P, 0 ≤ p.1 := fun p hp =>
    ha.trans (hmin p.1 (hP ▸ Multiset.mem_map_of_mem Prod.fst hp))
  have hcard : 2 ≤ P.card := by
    rw [← Multiset.card_map Prod.fst, hP, Multiset.card_cons, Multiset.card_cons]
    omega
  obtain ⟨D, x, y, R, hw, hR, hfitsQ, hcostQ⟩ := exists_deepest_pair P hcard hfits hpos
  rw [hP] at hw
  -- first `a`, then `b`, goes to the greatest depth
  obtain ⟨S, hS, hSd, hScost⟩ := exchange (a := a) (x := x) (D := D + 1)
    (S := (y, D + 1) ::ₘ R) (Multiset.forall_mem_cons.mpr ⟨le_rfl, hR⟩)
    (by rw [Multiset.map_cons, hw]; exact Multiset.mem_cons_self _ _)
    (by rw [Multiset.map_cons, hw]; exact hmin)
  rw [Multiset.map_cons, hw, Multiset.cons_inj_right] at hS
  -- the exchange may have moved the other deep element, but one is still there
  have hdeep : D + 1 ∈ S.map Prod.snd := by rw [hSd]; simp
  obtain ⟨⟨y', D'⟩, hy', rfl⟩ := Multiset.mem_map.mp hdeep
  obtain ⟨T, rfl⟩ := Multiset.exists_cons_of_mem hy'
  rw [Multiset.map_cons, Multiset.map_cons, Multiset.cons_inj_right] at hSd
  have hRd : ∀ d ∈ R.map Prod.snd, d ≤ D + 1 := Multiset.forall_mem_map_iff.mpr hR
  have hT : ∀ p ∈ T, p.2 ≤ D + 1 := fun p hp =>
    hRd p.2 (hSd ▸ Multiset.mem_map_of_mem Prod.snd hp)
  rw [Multiset.map_cons] at hS
  obtain ⟨T', hT', hTd, hTcost⟩ := exchange (a := b) (x := y') (D := D + 1) (S := T) hT
    (by rw [hS]; exact Multiset.mem_cons_self _ _)
    (by rw [hS]; exact hminb)
  rw [hS, Multiset.cons_inj_right] at hT'
  refine ⟨(a + b, D) ::ₘ T', by rw [Multiset.map_cons, hT'], ?_, ?_⟩
  · rw [Multiset.map_cons, hTd, hSd]
    exact hfitsQ.merge hRd
  · -- the merged element stands one level higher, which saves `a + b`
    have hchain : cost ((a, D + 1) ::ₘ (b, D + 1) ::ₘ T') ≤ cost P := by
      refine le_trans ?_ (hScost.trans hcostQ)
      rw [cost_cons, cost_cons (a, D + 1)]
      exact add_le_add le_rfl hTcost
    refine le_trans (le_of_eq ?_) hchain
    simp only [cost_cons, succ_nsmul, nsmul_add]
    abel

end Weighted

/-! ## Prefix codes -/

section PrefixCodes

variable {ι : Type*}

/-- No word of the code is a prefix of another. -/
def PrefixFree (s : Finset ι) (code : ι → List Bool) : Prop :=
  ∀ i ∈ s, ∀ j ∈ s, code i <+: code j → i = j

/-- A prefix code without the empty word can be read from left to right in one
way only. -/
theorem PrefixFree.uniquelyDecodable {s : Finset ι} {code : ι → List Bool}
    (h : PrefixFree s code) (hne : ∀ i ∈ s, code i ≠ []) :
    InformationTheory.UniquelyDecodable {w | ∃ i ∈ s, code i = w} := by
  intro L₁
  induction L₁ with
  | nil =>
      intro L₂ _ h₂ heq
      cases L₂ with
      | nil => rfl
      | cons w L₂ =>
          obtain ⟨i, hi, rfl⟩ := h₂ w List.mem_cons_self
          exact absurd (List.append_eq_nil_iff.mp heq.symm).1 (hne i hi)
  | cons w L₁ ih =>
      intro L₂ h₁ h₂ heq
      obtain ⟨i, hi, rfl⟩ := h₁ w List.mem_cons_self
      cases L₂ with
      | nil => exact absurd (List.append_eq_nil_iff.mp heq).1 (hne i hi)
      | cons w' L₂ =>
          obtain ⟨j, hj, rfl⟩ := h₂ w' List.mem_cons_self
          rw [List.flatten_cons, List.flatten_cons] at heq
          -- both first words are prefixes of the same text
          have hij : i = j := by
            rcases List.prefix_or_prefix_of_prefix (List.prefix_append (code i) L₁.flatten)
              (heq ▸ List.prefix_append (code j) L₂.flatten) with hp | hp
            · exact h i hi j hj hp
            · exact (h j hj i hi hp).symm
          subst hij
          rw [ih L₂ (fun w hw => h₁ w (List.mem_cons_of_mem _ hw))
            (fun w hw => h₂ w (List.mem_cons_of_mem _ hw)) (List.append_cancel_left heq)]

/-- The word lengths of a prefix code fit into a binary tree. -/
theorem PrefixFree.fits {s : Finset ι} {code : ι → List Bool} (h : PrefixFree s code) :
    Fits (s.val.map (fun i => (code i).length)) := by
  classical
  by_cases hempty : ∃ i ∈ s, code i = []
  · -- the empty word is a prefix of every word, so there is no other
    obtain ⟨i, hi, hnil⟩ := hempty
    have hs : s = {i} := Finset.eq_singleton_iff_unique_mem.mpr
      ⟨hi, fun j hj => (h i hi j hj (hnil ▸ List.nil_prefix)).symm⟩
    intro D _
    simp [hs, hnil, kraftSum]
  · have hne : ∀ i ∈ s, code i ≠ [] := fun i hi hnil => hempty ⟨i, hi, hnil⟩
    have hinj : Set.InjOn code s := fun i hi j hj heq => h i hi j hj (heq ▸ List.prefix_rfl)
    have hset : {w | ∃ i ∈ s, code i = w} = ((s.image code : Finset (List Bool)) : Set (List Bool)) := by
      ext w
      simp
    -- the inequality is about reals between 0 and 1; times `2 ^ D` both sides are numbers
    have hkraft := InformationTheory.kraft_mcmillan_inequality
      (S := s.image code) (hset ▸ h.uniquelyDecodable hne)
    rw [Finset.sum_image hinj, Fintype.card_bool] at hkraft
    intro D hD
    have hlen : ∀ i ∈ s, (code i).length ≤ D := fun i hi =>
      hD _ (Multiset.mem_map_of_mem (fun i => (code i).length) hi)
    have hscale : ((kraftSum D (s.val.map (fun i => (code i).length)) : ℕ) : ℝ)
        = 2 ^ D * ∑ i ∈ s, (1 / ((2 : ℕ) : ℝ)) ^ (code i).length := by
      rw [kraftSum, Multiset.map_map, Finset.mul_sum]
      change ((∑ i ∈ s, 2 ^ (D - (code i).length) : ℕ) : ℝ) = _
      rw [Nat.cast_sum]
      apply Finset.sum_congr rfl
      intro i hi
      rw [Nat.cast_pow, Nat.cast_ofNat, one_div, inv_pow, pow_sub₀ _ two_ne_zero (hlen i hi)]
    have hle : ((kraftSum D (s.val.map (fun i => (code i).length)) : ℕ) : ℝ) ≤ 2 ^ D := by
      rw [hscale]
      exact mul_le_of_le_one_right (by positivity) hkraft
    exact_mod_cast hle

end PrefixCodes

end ProjectsInC.Lib
