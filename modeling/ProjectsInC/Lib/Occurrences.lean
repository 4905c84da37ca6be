/-
The occurrences of a pattern in a text.

An occurrence is the offset of a tail of the text that begins with the pattern, so that occurrences
may overlap. They can be counted from both ends: the first one in front of all that begin behind it
([`occurrences_of_first`]), or the one that ends with the last element ([`occurrences_concat`]).
-/
import Mathlib.Data.List.Infix
import Mathlib.Tactic.Ring

set_option autoImplicit false

namespace ProjectsInC.Lib

section Occurrences

variable {α : Type*} [DecidableEq α] {pat text : List α}

/-- The offsets at which the pattern occurs, in ascending order. -/
def offsets (pat text : List α) : List ℕ :=
  (List.range (text.length + 1)).filter (fun p => pat <+: text.drop p)

/-- The number of occurrences. -/
def occurrences (pat text : List α) : ℕ := (offsets pat text).length

theorem offsets_nil (hpat : pat ≠ []) : offsets pat ([] : List α) = [] := by
  apply List.filter_eq_nil_iff.mpr
  intro p _
  rw [List.drop_nil, decide_eq_true_iff, List.prefix_nil]
  exact hpat

theorem offsets_cons (pat : List α) (a : α) (text : List α) :
    offsets pat (a :: text)
      = (if pat <+: a :: text then [0] else []) ++ (offsets pat text).map (· + 1) := by
  have htail : ((List.range (text.length + 1)).map Nat.succ).filter
      (fun p => pat <+: (a :: text).drop p) = (offsets pat text).map (· + 1) := by
    rw [offsets, List.filter_map]
    rfl
  rw [offsets, List.length_cons, List.range_succ_eq_map, List.filter_cons, htail, List.drop_zero]
  by_cases h : pat <+: a :: text
  · rw [if_pos (decide_eq_true h), if_pos h]
    rfl
  · rw [if_neg (by rwa [decide_eq_true_iff]), if_neg h]
    rfl

theorem occurrences_nil (hpat : pat ≠ []) : occurrences pat ([] : List α) = 0 := by
  rw [occurrences, offsets_nil hpat, List.length_nil]

theorem occurrences_cons (pat : List α) (a : α) (text : List α) :
    occurrences pat (a :: text)
      = (if pat <+: a :: text then 1 else 0) + occurrences pat text := by
  rw [occurrences, offsets_cons, List.length_append, List.length_map, occurrences]
  split_ifs <;> rfl

/-- Without a first occurrence there is none. -/
theorem occurrences_of_none (h : (offsets pat text).head? = none) : occurrences pat text = 0 := by
  rw [occurrences, List.head?_eq_none_iff.mp h, List.length_nil]

/-- **The first occurrence**, and behind the place where it begins all the others. -/
theorem occurrences_of_first {k : ℕ} (hpat : pat ≠ []) (h : (offsets pat text).head? = some k) :
    k < text.length ∧ occurrences pat text = occurrences pat (text.drop (k + 1)) + 1 := by
  induction text generalizing k with
  | nil =>
      rw [offsets_nil hpat] at h
      cases h
  | cons a text ih =>
      rw [offsets_cons] at h
      rw [occurrences_cons]
      by_cases hhere : pat <+: a :: text
      · -- it begins here
        rw [if_pos hhere, List.singleton_append, List.head?_cons] at h
        obtain rfl := Option.some.inj h
        refine ⟨Nat.zero_lt_succ _, ?_⟩
        rw [if_pos hhere, List.drop_succ_cons, List.drop_zero, Nat.add_comm]
      · rw [if_neg hhere, List.nil_append, List.head?_map, Option.map_eq_some_iff] at h
        obtain ⟨j, hj, rfl⟩ := h
        obtain ⟨hlt, hcount⟩ := ih hj
        refine ⟨Nat.succ_lt_succ hlt, ?_⟩
        rw [if_neg hhere, Nat.zero_add, List.drop_succ_cons, hcount]

/-- **The last element** ends one more occurrence, or none. -/
theorem occurrences_concat (hpat : pat ≠ []) (text : List α) (x : α) :
    occurrences pat (text ++ [x])
      = occurrences pat text + if pat <:+ text ++ [x] then 1 else 0 := by
  induction text with
  | nil =>
      have hone : pat <+: [x] ↔ pat <:+ [x] := by
        rw [List.prefix_cons_iff, List.suffix_cons_iff, List.suffix_nil]
        constructor
        · rintro (hnil | ⟨t, rfl, ht⟩)
          · exact absurd hnil hpat
          · rw [List.prefix_nil.mp ht]
            exact .inl rfl
        · rintro (rfl | hnil)
          · exact .inr ⟨[], rfl, List.nil_prefix⟩
          · exact absurd hnil hpat
      rw [List.nil_append, occurrences_cons, occurrences_nil hpat, Nat.add_comm]
      simp only [hone]
  | cons a text ih =>
      rw [List.cons_append, occurrences_cons, occurrences_cons, ih]
      have hfront : pat <+: a :: text ++ [x] ↔ pat = a :: text ++ [x] ∨ pat <+: a :: text :=
        List.prefix_concat_iff
      rw [List.cons_append] at hfront
      have hback : pat <:+ a :: (text ++ [x]) ↔ pat = a :: (text ++ [x]) ∨ pat <:+ text ++ [x] :=
        List.suffix_cons_iff
      by_cases hall : pat = a :: (text ++ [x])
      · -- the pattern is the whole text: it is an occurrence, and neither in front nor behind
        have hlen : pat.length = text.length + 2 := by
          rw [hall, List.length_cons, List.length_append, List.length_singleton]
        have hnotfront : ¬ pat <+: a :: text := by
          intro h
          have hle := h.length_le
          rw [hlen, List.length_cons] at hle
          omega
        have hnotback : ¬ pat <:+ text ++ [x] := by
          intro h
          have hle := h.length_le
          rw [hlen, List.length_append, List.length_singleton] at hle
          omega
        rw [if_pos (hfront.mpr (.inl hall)), if_neg hnotfront, if_neg hnotback,
          if_pos (hback.mpr (.inl hall))]
        ring
      · have hfront' : pat <+: a :: (text ++ [x]) ↔ pat <+: a :: text := by
          rw [hfront, or_iff_right hall]
        have hback' : pat <:+ a :: (text ++ [x]) ↔ pat <:+ text ++ [x] := by
          rw [hback, or_iff_right hall]
        simp only [hfront', hback', Nat.add_assoc]

/-- A text cut in front of its last element: what is lost is an occurrence across the cut. -/
theorem occurrences_cut (hpat : pat ≠ []) (text : List α) (x : α) :
    occurrences pat (text ++ [x]) = occurrences pat text + occurrences pat [x]
      + if 2 ≤ pat.length ∧ pat <:+ text ++ [x] then 1 else 0 := by
  have hlast := occurrences_concat hpat [] x
  rw [List.nil_append, occurrences_nil hpat, Nat.zero_add] at hlast
  rw [occurrences_concat hpat, hlast, Nat.add_assoc]
  congr 1
  rcases Nat.lt_or_ge pat.length 2 with hone | hmore
  · -- one element: it is on this side of the cut
    have hlen := List.length_pos_iff.mpr hpat
    obtain ⟨y, rfl⟩ := List.length_eq_one_iff.mp (show pat.length = 1 by omega)
    have hsuffix : ∀ front : List α, [y] <:+ front ++ [x] ↔ y = x := by
      intro front
      rw [List.suffix_concat_iff]
      constructor
      · rintro (hnil | ⟨t, ht, -⟩)
        · exact absurd hnil (List.cons_ne_nil _ _)
        · rw [← List.nil_append [y]] at ht
          exact (List.cons.inj (List.append_inj_right' ht rfl)).1
      · rintro rfl
        exact .inr ⟨[], rfl, List.nil_suffix⟩
    have hself : [y] <:+ [x] ↔ y = x := hsuffix []
    rw [if_neg (show ¬ (2 ≤ [y].length ∧ [y] <:+ text ++ [x]) from fun h => absurd h.1 (by simp)),
      Nat.add_zero]
    simp only [hsuffix, hself]
  · have hshort : ¬ pat <:+ [x] := by
      intro h
      have hle := h.length_le
      rw [List.length_singleton] at hle
      omega
    simp only [if_neg hshort, hmore, true_and, Nat.zero_add]

/-- One element occurs as often as it is counted. -/
theorem occurrences_singleton (a : α) (text : List α) :
    occurrences [a] text = text.count a := by
  induction text with
  | nil => exact occurrences_nil (List.cons_ne_nil a [])
  | cons b text ih =>
      have hhere : [a] <+: b :: text ↔ b = a := by
        rw [List.cons_prefix_cons, and_iff_left List.nil_prefix]
        exact eq_comm
      rw [occurrences_cons, ih, List.count_cons, Nat.add_comm]
      simp only [hhere, beq_iff_eq]

/-- An element that is not in the pattern ends none. -/
theorem occurrences_concat_of_not_mem (hpat : pat ≠ []) (text : List α) {x : α} (hx : x ∉ pat) :
    occurrences pat (text ++ [x]) = occurrences pat text := by
  have hnone : ¬ pat <:+ text ++ [x] := by
    rw [List.suffix_concat_iff]
    rintro (hnil | ⟨front, rfl, -⟩)
    · exact hpat hnil
    · exact hx (List.mem_append_right front List.mem_cons_self)
  rw [occurrences_concat hpat, if_neg hnone, Nat.add_zero]

end Occurrences

end ProjectsInC.Lib
