/-
A text in pieces of limited length.

A piece ends at the first stop, where it is full, or where the text ends ([`Piece`]), and every
text falls into such pieces ([`exists_pieces`]). [`takePiece`] takes one off the front.
-/
import Mathlib.Data.List.Basic

set_option autoImplicit false

namespace ProjectsInC.Lib

section Pieces

variable {α : Type*}

/-- A maximal piece of at most `n` elements in front of `rest`. -/
structure Piece (n : ℕ) (stop : α) (piece rest : List α) : Prop where
  ne_nil : piece ≠ []
  length_le : piece.length ≤ n
  inner : stop ∉ piece.dropLast
  maximal : piece.length = n ∨ piece.getLast? = some stop ∨ rest = []

section Rules

variable {n : ℕ} {stop : α} {part : List α}

/-- A full piece that has no stop in it. -/
theorem Piece.full (hn : n ≠ 0) (hstop : stop ∉ part) (hlen : part.length = n) (rest : List α) :
    Piece n stop part rest := by
  refine ⟨?_, Nat.le_of_eq hlen, fun h => hstop (List.dropLast_subset part h), .inl hlen⟩
  rintro rfl
  exact hn hlen.symm

/-- A piece up to the first stop. -/
theorem Piece.stopped (hstop : stop ∉ part) (hlen : part.length < n) (rest : List α) :
    Piece n stop (part ++ [stop]) rest := by
  refine ⟨List.append_ne_nil_of_right_ne_nil _ (List.cons_ne_nil _ _), ?_, ?_, .inr (.inl ?_)⟩
  · rw [List.length_append, List.length_singleton]
    exact hlen
  · rwa [List.dropLast_concat]
  · rw [List.getLast?_concat]

/-- The last piece of a text that ends without a stop. -/
theorem Piece.last (hstop : stop ∉ part) (hne : part ≠ []) (hlen : part.length ≤ n) :
    Piece n stop part [] :=
  ⟨hne, hlen, fun h => hstop (List.dropLast_subset part h), .inr (.inr rfl)⟩

end Rules

/-- The maximal pieces of a text. -/
inductive Pieces (n : ℕ) (stop : α) : List α → List (List α) → Prop
  | nil : Pieces n stop [] []
  | cons {piece rest : List α} {pieces : List (List α)} (hpiece : Piece n stop piece rest)
      (hrest : Pieces n stop rest pieces) : Pieces n stop (piece ++ rest) (piece :: pieces)

/-- Every text begins with a piece. -/
theorem exists_piece (stop : α) {n : ℕ} (hn : n ≠ 0) {text : List α} (htext : text ≠ []) :
    ∃ piece rest, text = piece ++ rest ∧ Piece n stop piece rest := by
  induction n generalizing text with
  | zero => exact absurd rfl hn
  | succ n ih =>
      obtain ⟨a, text, rfl⟩ := List.exists_cons_of_ne_nil htext
      have hone : a = stop ∨ n = 0 ∨ text = [] → Piece (n + 1) stop [a] text := by
        intro h
        refine ⟨List.cons_ne_nil _ _, Nat.succ_le_succ (Nat.zero_le n), List.not_mem_nil, ?_⟩
        rcases h with rfl | rfl | rfl
        · exact .inr (.inl rfl)
        · exact .inl rfl
        · exact .inr (.inr rfl)
      by_cases hend : a = stop ∨ n = 0 ∨ text = []
      · exact ⟨[a], text, rfl, hone hend⟩
      · rw [not_or, not_or] at hend
        obtain ⟨ha, hn', hmore⟩ := hend
        obtain ⟨piece, rest, rfl, hpiece⟩ := ih hn' hmore
        refine ⟨a :: piece, rest, rfl, List.cons_ne_nil _ _, Nat.succ_le_succ hpiece.length_le, ?_, ?_⟩
        · rw [List.dropLast_cons_of_ne_nil hpiece.ne_nil, List.mem_cons, not_or]
          exact ⟨fun h => ha h.symm, hpiece.inner⟩
        · rw [List.getLast?_cons_of_ne_nil hpiece.ne_nil, List.length_cons, Nat.succ_inj]
          exact hpiece.maximal

/-- Every text falls into pieces. -/
theorem exists_pieces (stop : α) {n : ℕ} (hn : n ≠ 0) (text : List α) :
    ∃ pieces, Pieces n stop text pieces := by
  induction hlen : text.length using Nat.strongRecOn generalizing text with
  | ind len ih =>
      by_cases htext : text = []
      · rw [htext]
        exact ⟨[], .nil⟩
      · obtain ⟨piece, rest, rfl, hpiece⟩ := exists_piece stop hn htext
        have hpos := List.length_pos_iff.mpr hpiece.ne_nil
        rw [List.length_append] at hlen
        obtain ⟨pieces, hpieces⟩ := ih rest.length (by omega) rest rfl
        exact ⟨piece :: pieces, .cons hpiece hpieces⟩

/-- The pieces together are the text. -/
theorem Pieces.flatten {n : ℕ} {stop : α} {text : List α} {pieces : List (List α)}
    (h : Pieces n stop text pieces) : pieces.flatten = text := by
  induction h with
  | nil => rfl
  | cons hpiece hrest ih => rw [List.flatten_cons, ih]

variable [DecidableEq α] {stop : α}

/-- Take a piece off the text. -/
def takePiece (stop : α) : ℕ → List α → List α × List α
  | 0, rest => ([], rest)
  | _ + 1, [] => ([], [])
  | n + 1, a :: rest =>
      if a = stop then ([a], rest)
      else (a :: (takePiece stop n rest).1, (takePiece stop n rest).2)

theorem takePiece_nil (stop : α) (n : ℕ) : takePiece stop n [] = ([], []) := by
  cases n <;> rfl

/-- What is taken off and what is left are the text. -/
theorem takePiece_append (stop : α) (n : ℕ) (text : List α) :
    (takePiece stop n text).1 ++ (takePiece stop n text).2 = text := by
  induction n generalizing text with
  | zero => rfl
  | succ n ih =>
      cases text with
      | nil => rfl
      | cons a text =>
          rw [takePiece]
          split_ifs
          · rfl
          · rw [List.cons_append, ih]

/-- A maximal piece is what is taken off. -/
theorem Piece.take {n : ℕ} {piece rest : List α} (h : Piece n stop piece rest) :
    takePiece stop n (piece ++ rest) = (piece, rest) := by
  induction n generalizing piece with
  | zero => exact absurd (List.length_eq_zero_iff.mp (Nat.le_zero.mp h.length_le)) h.ne_nil
  | succ n ih =>
      obtain ⟨a, piece, rfl⟩ := List.exists_cons_of_ne_nil h.ne_nil
      rw [List.cons_append, takePiece]
      by_cases hlast : piece = []
      · -- the only element
        subst hlast
        rw [List.nil_append]
        by_cases ha : a = stop
        · rw [if_pos ha]
        · rw [if_neg ha]
          rcases h.maximal with hfull | hstop | rfl
          · obtain rfl : n = 0 := (Nat.succ.inj hfull).symm
            rfl
          · exact absurd (Option.some.inj hstop) ha
          · rw [takePiece_nil]
      · have hinner := h.inner
        rw [List.dropLast_cons_of_ne_nil hlast, List.mem_cons, not_or] at hinner
        have hpiece : Piece n stop piece rest := by
          refine ⟨hlast, Nat.le_of_succ_le_succ h.length_le, hinner.2, ?_⟩
          rcases h.maximal with hfull | hstop | hrest
          · exact .inl (Nat.succ.inj hfull)
          · rw [List.getLast?_cons_of_ne_nil hlast] at hstop
            exact .inr (.inl hstop)
          · exact .inr (.inr hrest)
        rw [if_neg (fun ha => hinner.1 ha.symm), ih hpiece]

end Pieces

end ProjectsInC.Lib
