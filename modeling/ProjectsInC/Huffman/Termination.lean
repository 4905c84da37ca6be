/-
When the decoder comes to an end.

Every byte holds bits but two. At 255 the reader returns EOF, whether the file ends there
or not. At 254 it makes a buffer that looks empty and hands out its first bit all the same,
and from then on the buffer is 0 and neither empty nor EOF, so that 0s are returned without
end ([`Feeds`]). A root that is a LEAF needs no bit, and its character is printed for ever.
In all other cases each character takes a bit, and there are only so many
([`decoder_decode_ends_iff`]).
-/
import ProjectsInC.Huffman.BitStream
import ProjectsInC.Huffman.RoundTrip

set_option autoImplicit false

namespace ProjectsInC.Huffman

open NodeType

variable {wide : ℤ → CInt}

/-! ## The bits of any file -/

/-- Between here and the bytes `tail` are these bits. -/
def Between (bfile : BitsIOFile) (bits : List Bool) (tail : List Byte) : Prop :=
  ∃ fetched bytes, bits = fetched ++ bytes.flatMap byteBits ∧ bfile.byte = unread fetched ∧
    fetched.length ≤ 6 ∧ bfile.fp.rest = bytes ++ tail ∧
    ∀ c ∈ bytes, c ≠ NO_BITS_WRITTEN ∧ c ≠ EOF_VALUE

/-- What the reader will return: these bits, and then EOF or 0s without end. -/
inductive Feeds : BitsIOFile → List Bool → Bool → Prop
  | eof {bfile : BitsIOFile} {bits : List Bool} {tail : List Byte} (h : Between bfile bits tail)
      (htail : ∀ c ∈ tail.head?, c = EOF_VALUE) : Feeds bfile bits false
  | stuck {bfile : BitsIOFile} {bits before : List Bool} {tail : List Byte}
      (h : Between bfile before (NO_BITS_WRITTEN :: tail)) (hbits : bits = before ++ [true]) :
      Feeds bfile bits true
  | zeros {bfile : BitsIOFile} (h : bfile.byte = 0) : Feeds bfile [] true

section Reader

variable {bfile : BitsIOFile} {bit : Bool} {bits : List Bool} {tail : List Byte}

theorem loadByte_byteBits {c : Byte} (hfe : c ≠ NO_BITS_WRITTEN) (hff : c ≠ EOF_VALUE) :
    loadByte c = unread (byteBits c) := by
  have h := loadByte_packed (length_byteBits c) (byteBits_ne_nil c hfe hff)
  rwa [packed_byteBits c hff] at h

/-- The next bit, from the buffer or from the next byte. -/
theorem Between.read (h : Between bfile (bit :: bits) tail) :
    ∃ bfile', bits_io_read_bit bfile = ((bitValue bit).setWidth 32, bfile') ∧
      Between bfile' bits tail := by
  obtain ⟨fetched, bytes, hbits, hbyte, hlen, hrest, hplain⟩ := h
  rw [bits_io_read_bit, if_neg (hbyte ▸ unread_ne_eof hlen)]
  cases fetched with
  | cons b fetched =>
      obtain ⟨rfl, rfl⟩ := List.cons.inj hbits
      rw [List.length_cons] at hlen
      have hne : ¬ bfile.byte = ALL_BITS_READ := by
        intro hempty
        rw [hbyte] at hempty
        exact List.cons_ne_nil _ _ ((unread_eq_empty_iff (by rw [List.length_cons]; omega)).mp hempty)
      rw [if_neg hne, takeBit_unread hbyte (by omega)]
      exact ⟨_, rfl, fetched, bytes, rfl, rfl, by omega, hrest, hplain⟩
  | nil =>
      cases bytes with
      | nil => exact absurd hbits (List.cons_ne_nil _ _)
      | cons c bytes =>
          obtain ⟨hfe, hff⟩ := hplain c List.mem_cons_self
          obtain ⟨b, fetched, hc⟩ := List.exists_cons_of_ne_nil (byteBits_ne_nil c hfe hff)
          have hseven := length_byteBits c
          rw [hc, List.length_cons] at hseven
          rw [List.nil_append, List.flatMap_cons, hc, List.cons_append] at hbits
          obtain ⟨rfl, rfl⟩ := List.cons.inj hbits
          rw [if_pos (show bfile.byte = ALL_BITS_READ from hbyte), fgetc_cons hrest]
          simp only [setWidth_byte]
          rw [if_neg hff, loadByte_byteBits hfe hff, hc, takeBit_unread rfl (by omega)]
          refine ⟨_, rfl, fetched, bytes, rfl, rfl, by omega, rfl, ?_⟩
          intro c' hc'
          exact hplain c' (List.mem_cons_of_mem c hc')

/-- All bits are read, so the next byte is looked at. -/
theorem Between.at_tail (h : Between bfile [] tail) :
    bfile.byte = ALL_BITS_READ ∧ bfile.fp.rest = tail := by
  obtain ⟨fetched, bytes, hbits, hbyte, hlen, hrest, hplain⟩ := h
  obtain ⟨rfl, hbytes⟩ := List.append_eq_nil_iff.mp hbits.symm
  cases bytes with
  | nil => exact ⟨hbyte, hrest⟩
  | cons c bytes =>
      obtain ⟨hfe, hff⟩ := hplain c List.mem_cons_self
      rw [List.flatMap_cons] at hbytes
      exact absurd (List.append_eq_nil_iff.mp hbytes).1 (byteBits_ne_nil c hfe hff)

/-- The bits are returned one by one, in either case. -/
theorem Feeds.read {endless : Bool} (h : Feeds bfile (bit :: bits) endless) :
    ∃ bfile', bits_io_read_bit bfile = ((bitValue bit).setWidth 32, bfile') ∧
      Feeds bfile' bits endless := by
  cases h with
  | eof h htail =>
      obtain ⟨bfile', hread, h'⟩ := h.read
      exact ⟨bfile', hread, Feeds.eof h' htail⟩
  | @stuck _ before _ h hbits =>
      cases before with
      | cons b before =>
          obtain ⟨rfl, rfl⟩ := List.cons.inj hbits
          obtain ⟨bfile', hread, h'⟩ := h.read
          exact ⟨bfile', hread, Feeds.stuck h' rfl⟩
      | nil =>
          -- the byte 254 gives a buffer that looks empty but is not looked at
          obtain ⟨rfl, rfl⟩ := List.cons.inj hbits
          obtain ⟨hbyte, hrest⟩ := h.at_tail
          rw [bits_io_read_bit, hbyte, if_neg (by decide), if_pos rfl, fgetc_cons hrest]
          have hload : loadByte NO_BITS_WRITTEN = ALL_BITS_READ := by decide
          have htop : (ALL_BITS_READ &&& 0x80) >>> 7 = bitValue true := by decide
          simp only [setWidth_byte]
          rw [if_neg (by decide), hload, takeBit, htop]
          refine ⟨_, rfl, Feeds.zeros ?_⟩
          show ALL_BITS_READ <<< 1 = 0
          decide

theorem Feeds.eof_read (h : Feeds bfile [] false) : (bits_io_read_bit bfile).1 = EOF := by
  cases h with
  | @eof _ tail h htail =>
      obtain ⟨hbyte, hrest⟩ := h.at_tail
      rw [bits_io_read_bit, hbyte, if_neg (by decide), if_pos rfl]
      cases tail with
      | nil =>
          rw [fgetc_reading_nil _ hrest]
          rfl
      | cons c tail =>
          rw [fgetc_cons hrest, htail c rfl]
          rfl

theorem Feeds.zero_read (h : Feeds bfile [] true) :
    ∃ bfile', bits_io_read_bit bfile = (0, bfile') ∧ Feeds bfile' [] true := by
  cases h with
  | stuck h hbits => simp at hbits
  | zeros h =>
      rw [bits_io_read_bit, h, if_neg (by decide), if_neg (by decide), takeBit, h]
      exact ⟨_, rfl, Feeds.zeros rfl⟩

end Reader

/-! ## The walk down the tree -/

/-- The character `decode_one` finds in such bits, and the bits behind it; `none` for EOF. -/
def character (endless : Bool) : TreeNode → List Bool → Option (Byte × List Bool)
  | .null, _ => none
  | .node _ LEAF freq _ _, bits => if freq.c = 255 then none else some (freq.c, bits)
  | .node _ INTERNAL _ left right, bit :: bits =>
      if bit then character endless left bits else character endless right bits
  | .node _ INTERNAL _ _ right, [] => if endless then character endless right [] else none

/-- With nothing but 0s the walk comes to a NULL pointer or to the character that is EOF. -/
def StopsOnZeros : TreeNode → Prop
  | .null => True
  | .node _ LEAF freq _ _ => freq.c = 255
  | .node _ INTERNAL _ _ right => StopsOnZeros right

instance decidableStopsOnZeros : DecidablePred StopsOnZeros
  | .null => isTrue trivial
  | .node _ LEAF freq _ _ => inferInstanceAs (Decidable (freq.c = 255))
  | .node _ INTERNAL _ _ right => decidableStopsOnZeros right

/-- The node the bits lead to from `p`; behind a character the walk begins again. -/
def walk (root : TreeNode) : TreeNode → List Bool → TreeNode
  | p, [] => p
  | .null, _ :: _ => .null
  | .node id LEAF freq left right, bit :: bits =>
      if freq.c = 255 then .node id LEAF freq left right
      else match root with
        | .node _ INTERNAL _ left right => walk root (if bit then left else right) bits
        | _ => root
  | .node _ INTERNAL _ left right, bit :: bits => walk root (if bit then left else right) bits

/-- `decode_one` finds that character. -/
theorem decodeFrom_feeds {endless : Bool} (tree : TreeNode) {bfile : BitsIOFile} {bits : List Bool}
    (h : Feeds bfile bits endless) :
    match character endless tree bits with
    | none => (decodeFrom tree bfile).1 = EOF
    | some (c, rest) => c ≠ 255 ∧ ∃ bfile', decodeFrom tree bfile = (c.signExtend 32, bfile') ∧
        Feeds bfile' rest endless := by
  induction tree generalizing bits bfile with
  | null => rfl
  | node id type freq left right ihl ihr =>
      cases type with
      | LEAF =>
          unfold character
          by_cases heof : freq.c = 255
          · rw [if_pos heof]
            exact (signExtend_eq_eof_iff freq.c).mpr heof
          · rw [if_neg heof]
            exact ⟨heof, bfile, rfl, h⟩
      | INTERNAL =>
          cases bits with
          | cons bit bits =>
              obtain ⟨bfile₁, hread, h₁⟩ := h.read
              rw [decodeFrom, hread]
              cases bit
              · exact ihr h₁
              · exact ihl h₁
          | nil =>
              cases endless with
              | false =>
                  have heof := h.eof_read
                  show (decodeFrom _ bfile).1 = EOF
                  rw [decodeFrom]
                  simp only [heof, if_true]
              | true =>
                  obtain ⟨bfile₁, hread, h₁⟩ := h.zero_read
                  rw [decodeFrom, hread]
                  exact ihr h₁

/-! ## The loop -/

/-- There are finitely many characters in such bits. -/
inductive Ends (endless : Bool) (root : TreeNode) : List Bool → Prop
  | stop {bits : List Bool} (h : character endless root bits = none) : Ends endless root bits
  | next {bits rest : List Bool} {c : Byte} (h : character endless root bits = some (c, rest))
      (hrest : Ends endless root rest) : Ends endless root bits

section Loop

variable {endless : Bool} {root : TreeNode} {bits rest : List Bool} {c : Byte}

theorem ends_iff_of_some (h : character endless root bits = some (c, rest)) :
    Ends endless root bits ↔ Ends endless root rest := by
  constructor
  · intro hends
    cases hends with
    | stop hnone =>
        rw [h] at hnone
        cases hnone
    | next hsome hrest =>
        rw [h] at hsome
        obtain ⟨-, rfl⟩ := Prod.mk.inj (Option.some.inj hsome)
        exact hrest
  · intro hrest
    exact Ends.next h hrest

/-- Where the next character leaves everything as it was, there is no end. -/
theorem not_ends_of_loop (h : character endless root bits = some (c, bits)) :
    ¬ Ends endless root bits := by
  intro hends
  induction hends with
  | stop hnone =>
      rw [h] at hnone
      cases hnone
  | next hsome _ ih =>
      rw [h] at hsome
      obtain ⟨-, rfl⟩ := Prod.mk.inj (Option.some.inj hsome)
      exact ih h

/-- **`decoder_decode`** comes to an end if there are finitely many characters. -/
theorem decoder_decode_ends {decoder : Decoder} (h : Feeds decoder.bfile bits endless) :
    (∃ fuel decoder', decoder_decode fuel decoder = .ok decoder') ↔
      Ends endless decoder.tree bits := by
  constructor
  · rintro ⟨fuel, decoder', hrun⟩
    induction fuel generalizing decoder bits with
    | zero => cases hrun
    | succ fuel ih =>
        have hone := decodeFrom_feeds decoder.tree h
        cases hchar : character endless decoder.tree bits with
        | none => exact Ends.stop hchar
        | some p =>
            obtain ⟨c, rest⟩ := p
            rw [hchar] at hone
            obtain ⟨h255, bfile', hdecode, h'⟩ := hone
            have hne : c.signExtend 32 ≠ EOF := by
              intro heof
              exact h255 ((signExtend_eq_eof_iff c).mp heof)
            rw [decoder_decode, decode_one, hdecode] at hrun
            simp only [if_neg hne] at hrun
            have hrest := ih h' hrun
            exact Ends.next hchar hrest
  · intro hends
    generalize hroot : decoder.tree = root at hends
    induction hends generalizing decoder with
    | @stop bits hnone =>
        have hone := decodeFrom_feeds decoder.tree h
        rw [hroot, hnone] at hone
        refine ⟨1, (decode_one decoder).2, ?_⟩
        rw [decoder_decode, decode_one, hroot]
        simp only [hone, if_true]
    | @next bits rest c hsome _ ih =>
        have hone := decodeFrom_feeds decoder.tree h
        rw [hroot, hsome] at hone
        obtain ⟨h255, bfile', hdecode, h'⟩ := hone
        have hne : c.signExtend 32 ≠ EOF := by
          intro heof
          exact h255 ((signExtend_eq_eof_iff c).mp heof)
        obtain ⟨fuel, decoder', hrun⟩ := @ih ⟨(fprintf [(c.signExtend 32).setWidth 8] decoder.outfp).2,
          bfile', decoder.tree⟩ h' hroot
        refine ⟨fuel + 1, decoder', ?_⟩
        rw [decoder_decode, decode_one, hroot, hdecode]
        simp only [if_neg hne]
        rw [hroot] at hrun
        exact hrun

end Loop

/-! ## Which files have an end -/

section Progress

variable {endless : Bool} {tree root : TreeNode} {bits rest : List Bool} {c : Byte}

/-- No bit is put back. -/
theorem character_length_le (h : character endless tree bits = some (c, rest)) :
    rest.length ≤ bits.length := by
  induction tree generalizing bits with
  | null => cases h
  | node id type freq left right ihl ihr =>
      cases type with
      | LEAF =>
          unfold character at h
          by_cases heof : freq.c = 255
          · rw [if_pos heof] at h
            cases h
          · rw [if_neg heof] at h
            cases h
            exact le_rfl
      | INTERNAL =>
          cases bits with
          | nil =>
              cases endless with
              | false => cases h
              | true => exact ihr h
          | cons bit bits =>
              apply Nat.le_succ_of_le
              cases bit
              · exact ihr h
              · exact ihl h

/-- The root is not a LEAF whose character is printed. -/
def NeedsBit (root : TreeNode) : Prop :=
  ∀ id freq left right, root = .node id LEAF freq left right → freq.c = 255

/-- Then a character takes a bit, as long as there is one. -/
theorem character_length_lt (hroot : NeedsBit root) (hbits : endless = false ∨ bits ≠ [])
    (h : character endless root bits = some (c, rest)) : rest.length < bits.length := by
  cases root with
  | null => cases h
  | node id type freq left right =>
      cases type with
      | LEAF =>
          unfold character at h
          rw [if_pos (hroot id freq left right rfl)] at h
          cases h
      | INTERNAL =>
          cases bits with
          | nil =>
              rcases hbits with rfl | hne
              · cases h
              · exact absurd rfl hne
          | cons bit bits =>
              apply Nat.lt_succ_of_le
              cases bit
              · have hright : character endless right bits = some (c, rest) := h
                exact character_length_le hright
              · have hleft : character endless left bits = some (c, rest) := h
                exact character_length_le hleft

/-- In front of EOF there are finitely many characters. -/
theorem ends_of_needsBit (hroot : NeedsBit root) (bits : List Bool) : Ends false root bits := by
  induction hlen : bits.length using Nat.strong_induction_on generalizing bits with
  | _ n ih =>
      cases hchar : character false root bits with
      | none => exact Ends.stop hchar
      | some p =>
          obtain ⟨c, rest⟩ := p
          have hless := character_length_lt hroot (.inl rfl) hchar
          exact Ends.next hchar (ih rest.length (hlen ▸ hless) rest rfl)

theorem needsBit_of_ends (h : Ends endless root bits) : NeedsBit root := by
  intro id freq left right hroot
  by_contra heof
  have hloop : character endless root bits = some (freq.c, bits) := by
    rw [hroot, character, if_neg heof]
  exact not_ends_of_loop hloop h

end Progress

/-! In front of 0s without end the walk may stop while there are other bits, and it may stop
on the 0s, below the node reached or below the root. -/

section Zeros

variable {id : CInt} {freq : Frequency} {left right p : TreeNode} {bits rest : List Bool}
  {b : Bool} {c : Byte}

theorem stopsOnZeros_walk_of_none (root : TreeNode) (h : character true p bits = none) :
    StopsOnZeros (walk root p bits) := by
  induction p generalizing bits with
  | null => cases bits <;> exact trivial
  | node id type freq left right ihl ihr =>
      cases type with
      | LEAF =>
          have heof : freq.c = 255 := by
            by_contra hne
            unfold character at h
            rw [if_neg hne] at h
            cases h
          cases bits with
          | nil => exact heof
          | cons bit bits =>
              unfold walk
              rw [if_pos heof]
              exact heof
      | INTERNAL =>
          cases bits with
          | nil =>
              have hright : character true right [] = none := h
              exact ihr hright
          | cons bit bits =>
              cases bit
              · exact ihr h
              · exact ihl h

/-- Behind a character the walk begins again at the root. -/
theorem walk_of_some (h : character true p bits = some (c, b :: rest)) :
    walk (.node id INTERNAL freq left right) p bits
      = walk (.node id INTERNAL freq left right) (.node id INTERNAL freq left right) (b :: rest) := by
  induction p generalizing bits with
  | null => cases h
  | node _ type freq' left' right' ihl ihr =>
      cases type with
      | LEAF =>
          unfold character at h
          by_cases heof : freq'.c = 255
          · rw [if_pos heof] at h
            cases h
          · rw [if_neg heof] at h
            cases h
            rw [walk, if_neg heof, walk]
      | INTERNAL =>
          cases bits with
          | nil =>
              have hlen := character_length_le h
              exact absurd hlen (by simp)
          | cons bit bits =>
              cases bit
              · exact ihr h
              · exact ihl h

theorem not_stopsOnZeros_walk (root : TreeNode) (h : character true p bits = some (c, [])) :
    ¬ StopsOnZeros (walk root p bits) := by
  induction p generalizing bits with
  | null => cases h
  | node id type freq left right ihl ihr =>
      cases type with
      | LEAF =>
          unfold character at h
          by_cases heof : freq.c = 255
          · rw [if_pos heof] at h
            cases h
          · rw [if_neg heof] at h
            cases h
            exact heof
      | INTERNAL =>
          cases bits with
          | nil =>
              have hright : character true right [] = some (c, []) := h
              exact ihr hright
          | cons bit bits =>
              cases bit
              · exact ihr h
              · exact ihl h

/-- On 0s alone. -/
theorem ends_nil_iff (root : TreeNode) : Ends true root [] ↔ StopsOnZeros root := by
  cases hchar : character true root [] with
  | none => exact iff_of_true (Ends.stop hchar) (stopsOnZeros_walk_of_none root hchar)
  | some q =>
      obtain ⟨c, rest⟩ := q
      have hlen := character_length_le hchar
      obtain rfl : rest = [] := List.eq_nil_of_length_eq_zero (Nat.le_zero.mp hlen)
      exact iff_of_false (not_ends_of_loop hchar) (not_stopsOnZeros_walk root hchar)

/-- Behind other bits. -/
theorem ends_zeros_iff (bits : List Bool) :
    Ends true (.node id INTERNAL freq left right) bits ↔
      StopsOnZeros (walk (.node id INTERNAL freq left right) (.node id INTERNAL freq left right) bits)
        ∨ StopsOnZeros (.node id INTERNAL freq left right) := by
  generalize hroot : TreeNode.node id INTERNAL freq left right = root
  have hneeds : NeedsBit root := by
    intro id' freq' left' right' hleaf
    rw [← hroot] at hleaf
    cases hleaf
  induction hlen : bits.length using Nat.strong_induction_on generalizing bits with
  | _ n ih =>
      cases hchar : character true root bits with
      | none => exact iff_of_true (Ends.stop hchar) (.inl (stopsOnZeros_walk_of_none root hchar))
      | some q =>
          obtain ⟨c, rest⟩ := q
          rw [ends_iff_of_some hchar]
          cases rest with
          | nil =>
              -- the last bits were part of this character
              rw [ends_nil_iff, or_iff_right (not_stopsOnZeros_walk root hchar)]
          | cons b rest =>
              have hle := character_length_le hchar
              have hne : bits ≠ [] := by
                rintro rfl
                exact absurd hle (by simp)
              have hless := character_length_lt hneeds (.inr hne) hchar
              have hwalk : walk root root bits = walk root root (b :: rest) := by
                subst hroot
                exact walk_of_some hchar
              rw [hwalk]
              exact ih (b :: rest).length (hlen ▸ hless) (b :: rest) rfl

/-- Of any tree. -/
theorem ends_true_iff (root : TreeNode) (bits : List Bool) :
    Ends true root bits ↔
      NeedsBit root ∧ (StopsOnZeros (walk root root bits) ∨ StopsOnZeros root) := by
  constructor
  · intro hends
    refine ⟨needsBit_of_ends hends, ?_⟩
    cases root with
    | null => exact .inr trivial
    | node id type freq left right =>
        cases type with
        | LEAF => exact .inr (needsBit_of_ends hends id freq left right rfl)
        | INTERNAL => exact (ends_zeros_iff bits).mp hends
  · rintro ⟨hneeds, hstops⟩
    cases root with
    | null => exact Ends.stop rfl
    | node id type freq left right =>
        cases type with
        | LEAF =>
            apply Ends.stop
            rw [character, if_pos (hneeds id freq left right rfl)]
        | INTERNAL => exact (ends_zeros_iff bits).mpr hstops

end Zeros

/-! ## The file -/

/-- In front of the first 254 there is no 255. -/
theorem split_at_stuck {l : List Byte} (h : 254 ∈ l.takeWhile (· ≠ 255)) :
    ∃ tail, l = l.takeWhile (· ≠ 254) ++ 254 :: tail ∧
      ∀ c ∈ l.takeWhile (· ≠ 254), c ≠ NO_BITS_WRITTEN ∧ c ≠ EOF_VALUE := by
  induction l with
  | nil => exact absurd h List.not_mem_nil
  | cons a l ih =>
      by_cases hfe : a = 254
      · refine ⟨l, ?_, ?_⟩
        · rw [List.takeWhile_cons_of_neg (by simp [hfe]), hfe, List.nil_append]
        · intro c hc
          rw [List.takeWhile_cons_of_neg (by simp [hfe])] at hc
          exact absurd hc List.not_mem_nil
      · by_cases hff : a = 255
        · rw [List.takeWhile_cons_of_neg (by simp [hff])] at h
          exact absurd h List.not_mem_nil
        · have hfirst : (a :: l).takeWhile (· ≠ 255) = a :: l.takeWhile (· ≠ 255) :=
            List.takeWhile_cons_of_pos (decide_eq_true hff)
          have hsecond : (a :: l).takeWhile (· ≠ 254) = a :: l.takeWhile (· ≠ 254) :=
            List.takeWhile_cons_of_pos (decide_eq_true hfe)
          rw [hfirst, List.mem_cons] at h
          obtain ⟨tail, hl, hplain⟩ := ih (h.resolve_left (Ne.symm hfe))
          rw [hsecond]
          refine ⟨tail, ?_, ?_⟩
          · rw [List.cons_append, ← hl]
          · intro c hc
            rcases List.mem_cons.mp hc with rfl | hc
            · exact ⟨hfe, hff⟩
            · exact hplain c hc

section Open

variable {bfile : BitsIOFile}

theorem between_open (hopen : bfile.byte = ALL_BITS_READ) {bytes tail : List Byte}
    (hrest : bfile.fp.rest = bytes ++ tail)
    (hplain : ∀ c ∈ bytes, c ≠ NO_BITS_WRITTEN ∧ c ≠ EOF_VALUE) :
    Between bfile (bytes.flatMap byteBits) tail :=
  ⟨[], bytes, rfl, hopen, Nat.zero_le 6, hrest, hplain⟩

/-- A file without 254 in front of its first 255 feeds its bits and then EOF. -/
theorem feeds_eof (hopen : bfile.byte = ALL_BITS_READ)
    (h : 254 ∉ bfile.fp.rest.takeWhile (· ≠ 255)) :
    Feeds bfile ((bfile.fp.rest.takeWhile (· ≠ 255)).flatMap byteBits) false := by
  refine Feeds.eof (between_open hopen List.takeWhile_append_dropWhile.symm ?_) ?_
  · intro c hc
    refine ⟨?_, ?_⟩
    · rintro rfl
      exact h hc
    · have hne := List.mem_takeWhile_imp hc
      exact of_decide_eq_true hne
  · intro c hc
    have hstop := List.head?_dropWhile_not (fun c : Byte => decide (c ≠ 255)) bfile.fp.rest
    rw [Option.mem_def.mp hc] at hstop
    exact not_not.mp (of_decide_eq_false hstop)

/-- The first 254 feeds a 1 and then 0s. -/
theorem feeds_zeros (hopen : bfile.byte = ALL_BITS_READ)
    (h : 254 ∈ bfile.fp.rest.takeWhile (· ≠ 255)) :
    Feeds bfile ((bfile.fp.rest.takeWhile (· ≠ 254)).flatMap byteBits ++ [true]) true := by
  obtain ⟨tail, hrest, hplain⟩ := split_at_stuck h
  exact Feeds.stuck (between_open hopen hrest hplain) rfl

end Open

/-- EOF comes behind the bits. -/
theorem Feeds.bit_read_eof {bfile : BitsIOFile} {bits : List Bool} (h : Feeds bfile bits false) :
    bit_read bfile bits.length = EOF := by
  induction bits generalizing bfile with
  | nil => exact h.eof_read
  | cons bit bits ih =>
      obtain ⟨bfile', hread, h'⟩ := h.read
      rw [List.length_cons, bit_read_succ, hread]
      exact ih h'

/-- EOF does not come at all. -/
theorem Feeds.bit_read_ne_eof {bfile : BitsIOFile} {bits : List Bool} (h : Feeds bfile bits true)
    (n : ℕ) : bit_read bfile n ≠ EOF := by
  induction n generalizing bfile bits with
  | zero =>
      unfold bit_read read_bits
      rw [Function.iterate_zero_apply]
      cases bits with
      | cons bit bits =>
          obtain ⟨bfile', hread, -⟩ := h.read
          rw [hread]
          exact byte_ne_eof _
      | nil =>
          obtain ⟨bfile', hread, -⟩ := h.zero_read
          rw [hread]
          exact byte_ne_eof 0
  | succ n ih =>
      rw [bit_read_succ]
      cases bits with
      | cons bit bits =>
          obtain ⟨bfile', hread, h'⟩ := h.read
          rw [hread]
          exact ih h'
      | nil =>
          obtain ⟨bfile', hread, h'⟩ := h.zero_read
          rw [hread]
          exact ih h'

/-- The decoder has not fetched a byte of the payload. -/
theorem decoder_new_byte {infile outfile : FILE} {decoder : Decoder}
    (h : decoder_new wide infile outfile = .ok (some decoder)) :
    decoder.bfile.byte = ALL_BITS_READ := by
  have hmode : ¬ (bits_io_open infile 114).mode ≠ 114 := not_not.mpr rfl
  rw [decoder_new, bits_io_read_tree, if_neg hmode] at h
  cases hparse : tree_deserialize wide (bits_io_open infile 114).fp with
  | error e =>
      rw [hparse] at h
      cases h
  | ok result =>
      rw [hparse] at h
      cases result with
      | none => cases h
      | some result =>
          simp only [bind, Except.bind, Except.ok.injEq, Option.some.injEq] at h
          rw [← h]
          rfl

/-- **When `decoder_decode` ends.** For every file of which a decoder is made: the reader
comes to EOF just when no 254 stands in front of the first 255, and the loop over the
characters comes to an end just when the root is not a LEAF with a character that can be
printed and, if the reader does not come to EOF, its bits lead to NULL or to the character
255 all the same. -/
theorem decoder_decode_ends_iff (wide : ℤ → CInt) {infile outfile : FILE} {decoder : Decoder}
    (h : decoder_new wide infile outfile = .ok (some decoder)) :
    ((∃ n, bit_read decoder.bfile n = EOF) ↔ 254 ∉ decoder.bfile.fp.rest.takeWhile (· ≠ 255)) ∧
    ((∃ fuel decoder', decoder_decode fuel decoder = .ok decoder') ↔
      NeedsBit decoder.tree ∧
        (254 ∉ decoder.bfile.fp.rest.takeWhile (· ≠ 255) ∨
          StopsOnZeros (walk decoder.tree decoder.tree
            ((decoder.bfile.fp.rest.takeWhile (· ≠ 254)).flatMap byteBits ++ [true])) ∨
          StopsOnZeros decoder.tree)) := by
  have hopen := decoder_new_byte h
  by_cases hstuck : 254 ∈ decoder.bfile.fp.rest.takeWhile (· ≠ 255)
  · have hfeeds := feeds_zeros hopen hstuck
    rw [decoder_decode_ends hfeeds, ends_true_iff, or_iff_right (not_not.mpr hstuck)]
    refine ⟨iff_of_false ?_ (not_not.mpr hstuck), Iff.rfl⟩
    rintro ⟨n, heof⟩
    exact hfeeds.bit_read_ne_eof n heof
  · have hfeeds := feeds_eof hopen hstuck
    rw [decoder_decode_ends hfeeds]
    refine ⟨iff_of_true ⟨_, hfeeds.bit_read_eof⟩ hstuck, ?_, ?_⟩
    · intro hends
      exact ⟨needsBit_of_ends hends, .inl hstuck⟩
    · rintro ⟨hroot, -⟩
      exact ends_of_needsBit hroot _

/-- The archive of "ab" with another payload. -/
theorem decoder_decode_ends_iff_ab :
    ∃ decoder, decoder_new saturate
        (FILE.reading [35, 49, 32, 49, 32, 49, 32, 57, 55, 32, 48, 32, 48, 44,
        49, 32, 50, 32, 49, 32, 57, 56, 32, 48, 32, 48, 44,
        48, 32, 51, 32, 50, 32, 48, 32, 49, 32, 50, 44, 35, 0x7F, 0xFF, 0xFE]) FILE.reliable
          = .ok (some decoder) ∧
      (∃ n, bit_read decoder.bfile n = EOF) ∧
      ∃ fuel decoder', decoder_decode fuel decoder = .ok decoder' := by
  have hnew := decoder_new_archive saturate (.node 3 INTERNAL ⟨2, 0⟩
    (.node 1 LEAF ⟨1, 97⟩ .null .null) (.node 2 LEAF ⟨1, 98⟩ .null .null)) [0x7F, 0xFF, 0xFE] rfl
    (Full.internal 3 ⟨2, 0⟩ (Full.leaf 1 ⟨1, 97⟩) (Full.leaf 2 ⟨1, 98⟩)) (by decide) (by decide)
    (by decide) FILE.reliable
  have hends := decoder_decode_ends_iff saturate hnew
  refine ⟨_, hnew, hends.1.mpr (by decide), hends.2.mpr ⟨?_, .inl (by decide)⟩⟩
  intro id freq left right hleaf
  cases hleaf

/-- **No end.** The same archive and the payload 254: the reader returns 1, and then 0 for
ever, so that a 'b' is printed again and again. -/
theorem decoder_decode_endless :
    ∃ decoder, decoder_new saturate
        (FILE.reading [35, 49, 32, 49, 32, 49, 32, 57, 55, 32, 48, 32, 48, 44,
        49, 32, 50, 32, 49, 32, 57, 56, 32, 48, 32, 48, 44,
        48, 32, 51, 32, 50, 32, 48, 32, 49, 32, 50, 44, 35, 0xFE]) FILE.reliable
          = .ok (some decoder) ∧
      (∀ n, bit_read decoder.bfile n ≠ EOF) ∧
      ∀ fuel decoder', decoder_decode fuel decoder ≠ .ok decoder' := by
  have hnew := decoder_new_archive saturate (.node 3 INTERNAL ⟨2, 0⟩
    (.node 1 LEAF ⟨1, 97⟩ .null .null) (.node 2 LEAF ⟨1, 98⟩ .null .null)) [0xFE] rfl
    (Full.internal 3 ⟨2, 0⟩ (Full.leaf 1 ⟨1, 97⟩) (Full.leaf 2 ⟨1, 98⟩)) (by decide) (by decide)
    (by decide) FILE.reliable
  have hfeeds := feeds_zeros (decoder_new_byte hnew) (by decide)
  refine ⟨_, hnew, hfeeds.bit_read_ne_eof, ?_⟩
  intro fuel decoder' hrun
  have hends := (ends_zeros_iff _).mp ((decoder_decode_ends hfeeds).mp ⟨fuel, decoder', hrun⟩)
  -- neither below the root nor below the 'a' is there an end
  revert hends
  decide

end ProjectsInC.Huffman
