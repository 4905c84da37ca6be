/-
What `huffd` writes, whatever the archive.

The archive need not be one that `huffc` has written. Where `huffd` ends, the characters it has
written are those of leaves of the tree, and a bit of the payload at least was taken for each
of them, so there are no more than seven to a byte ([`Spelled.length_le`]). Without a byte 254
the bits are the paths of the characters one behind the other and a rest that begins with no
further one, and there is only one way to read them like that ([`parsed_iff`]).
-/
import ProjectsInC.Huffman.Sharing
import ProjectsInC.Huffman.Termination

set_option autoImplicit false

namespace ProjectsInC.Huffman

open NodeType

variable {wide : ℤ → CInt}

/-! ## The characters in the bits -/

/-- The characters that are found in such bits one after the other. -/
inductive Spelled (endless : Bool) (root : TreeNode) : List Bool → List Byte → Prop
  | stop {bits : List Bool} (h : character endless root bits = none) : Spelled endless root bits []
  | next {bits rest : List Bool} {c : Byte} {out : List Byte}
      (h : character endless root bits = some (c, rest)) (hrest : Spelled endless root rest out) :
      Spelled endless root bits (c :: out)

/-- The bits are the paths of these characters one behind the other, and a rest that begins with no
path of a further one; 255 is none. -/
def Parsed (root : TreeNode) (bits : List Bool) (out : List Byte) : Prop :=
  ∃ (paths : List (Byte × List Bool)) (tail : List Bool),
    (∀ p ∈ paths, p ∈ root.codes ∧ p.1 ≠ 255) ∧ paths.map Prod.fst = out ∧
    bits = paths.flatMap Prod.snd ++ tail ∧
    ∀ c path, (c, path) ∈ root.codes → path <+: tail → c = 255

section Characters

variable {endless : Bool} {tree root : TreeNode} {bits rest : List Bool} {c : Byte}
  {out : List Byte}

/-- A character is that of a leaf, and not the one that is EOF. -/
theorem mem_chars_of_character (h : character endless tree bits = some (c, rest)) :
    c ∈ tree.chars ∧ c ≠ 255 := by
  induction tree generalizing bits with
  | null => cases h
  | node id type freq left right ihl ihr =>
      cases type with
      | LEAF =>
          unfold character at h
          split_ifs at h with heof
          obtain ⟨rfl, -⟩ := Prod.mk.inj (Option.some.inj h)
          exact ⟨List.mem_cons_self, heof⟩
      | INTERNAL =>
          rw [chars_internal, List.mem_append]
          cases bits with
          | nil =>
              cases endless with
              | false => cases h
              | true =>
                  obtain ⟨hmem, hne⟩ := ihr h
                  exact ⟨.inr hmem, hne⟩
          | cons bit bits =>
              cases bit
              · obtain ⟨hmem, hne⟩ := ihr h
                exact ⟨.inr hmem, hne⟩
              · obtain ⟨hmem, hne⟩ := ihl h
                exact ⟨.inl hmem, hne⟩

/-- In front of EOF the bits of a character are its path. -/
theorem path_of_character (h : character false tree bits = some (c, rest)) :
    ∃ path, (c, path) ∈ tree.codes ∧ bits = path ++ rest := by
  induction tree generalizing bits with
  | null => cases h
  | node id type freq left right ihl ihr =>
      cases type with
      | LEAF =>
          unfold character at h
          split_ifs at h with heof
          obtain ⟨rfl, rfl⟩ := Prod.mk.inj (Option.some.inj h)
          exact ⟨[], List.mem_cons_self, rfl⟩
      | INTERNAL =>
          cases bits with
          | nil => cases h
          | cons bit bits =>
              cases bit
              · obtain ⟨path, hmem, rfl⟩ := ihr h
                exact ⟨false :: path, mem_codes_internal.mpr (.inr ⟨path, rfl, hmem⟩), rfl⟩
              · obtain ⟨path, hmem, rfl⟩ := ihl h
                exact ⟨true :: path, mem_codes_internal.mpr (.inl ⟨path, rfl, hmem⟩), rfl⟩

/-- A path is walked to its end. -/
theorem character_of_path {path : List Bool} (hpath : (c, path) ∈ tree.codes) (hne : c ≠ 255) :
    character endless tree (path ++ rest) = some (c, rest) := by
  induction hpath using codes_induct with
  | leaf id v left right => exact if_neg hne
  | left id freq left right path hpath ih => exact ih
  | right id freq left right path hpath ih => exact ih

/-- Finitely many. -/
theorem Spelled.ends (h : Spelled endless root bits out) : Ends endless root bits := by
  induction h with
  | stop h => exact Ends.stop h
  | next h _ ih => exact Ends.next h ih

theorem Spelled.mem_chars (h : Spelled endless root bits out) :
    ∀ c ∈ out, c ∈ root.chars ∧ c ≠ 255 := by
  induction h with
  | stop h => exact fun c hc => absurd hc List.not_mem_nil
  | next h _ ih => exact List.forall_mem_cons.mpr ⟨mem_chars_of_character h, ih⟩

/-- **One bit at least** for each character. -/
theorem Spelled.length_le (h : Spelled endless root bits out) : out.length ≤ bits.length := by
  induction h with
  | stop h => exact Nat.zero_le _
  | @next bits rest c out h hrest ih =>
      have hends := Ends.next h hrest.ends
      have hle := character_length_le h
      have hne : bits ≠ [] := by
        rintro rfl
        -- on 0s alone there would be no end
        obtain rfl : rest = [] := List.eq_nil_of_length_eq_zero (Nat.le_zero.mp hle)
        exact not_ends_of_loop h hends
      have hless := character_length_lt (needsBit_of_ends hends) (.inr hne) h
      exact ih.trans_lt hless

theorem Spelled.unique {out' : List Byte} (h : Spelled endless root bits out)
    (h' : Spelled endless root bits out') : out = out' := by
  induction h generalizing out' with
  | stop hnone =>
      cases h' with
      | stop _ => rfl
      | next hsome _ =>
          rw [hnone] at hsome
          cases hsome
  | next hsome _ ih =>
      cases h' with
      | stop hnone =>
          rw [hsome] at hnone
          cases hnone
      | next hsome' hrest' =>
          rw [hsome] at hsome'
          obtain ⟨rfl, rfl⟩ := Prod.mk.inj (Option.some.inj hsome')
          rw [ih hrest']

theorem Spelled.parsed (h : Spelled false root bits out) : Parsed root bits out := by
  induction h with
  | @stop bits h =>
      refine ⟨[], bits, fun p hp => absurd hp List.not_mem_nil, rfl, rfl, ?_⟩
      rintro c path hpath ⟨rest, rfl⟩
      by_contra hne
      rw [character_of_path hpath hne] at h
      cases h
  | @next bits rest c out h _ ih =>
      obtain ⟨path, hpath, rfl⟩ := path_of_character h
      obtain ⟨paths, tail, hpaths, rfl, rfl, htail⟩ := ih
      have hchar := (mem_chars_of_character h).2
      refine ⟨(c, path) :: paths, tail, List.forall_mem_cons.mpr ⟨⟨hpath, hchar⟩, hpaths⟩, rfl, ?_,
        htail⟩
      rw [List.flatMap_cons, List.append_assoc]

theorem Parsed.spelled (h : Parsed root bits out) : Spelled false root bits out := by
  obtain ⟨paths, tail, hpaths, rfl, rfl, htail⟩ := h
  induction paths with
  | nil =>
      apply Spelled.stop
      cases hchar : character false root tail with
      | none => exact hchar
      | some p =>
          obtain ⟨c, rest⟩ := p
          obtain ⟨path, hpath, heq⟩ := path_of_character hchar
          exact absurd (htail c path hpath ⟨rest, heq.symm⟩) (mem_chars_of_character hchar).2
  | cons p paths ih =>
      obtain ⟨⟨hpath, hne⟩, hrest⟩ := List.forall_mem_cons.mp hpaths
      rw [List.flatMap_cons, List.append_assoc]
      exact Spelled.next (character_of_path hpath hne) (ih hrest)

/-- **In front of EOF** there is one way to read the bits. -/
theorem parsed_iff (h : Spelled false root bits out) (cs : List Byte) :
    Parsed root bits cs ↔ cs = out := by
  constructor
  · exact fun hcs => hcs.spelled.unique h
  · rintro rfl
    exact h.parsed

end Characters

/-! ## What is written -/

/-- **`decoder_decode`** writes these characters. -/
theorem decoder_decode_spelled {endless : Bool} {bits : List Bool} {decoder decoder' : Decoder}
    {fuel : ℕ} (h : Feeds decoder.bfile bits endless) (hok : ∀ n, decoder.outfp.fails n = false)
    (hrun : decoder_decode fuel decoder = .ok decoder') :
    ∃ out, decoder'.outfp.written = decoder.outfp.written ++ out ∧
      Spelled endless decoder.tree bits out := by
  induction fuel generalizing decoder bits with
  | zero => cases hrun
  | succ fuel ih =>
      have hone := decodeFrom_feeds decoder.tree h
      rw [decoder_decode, decode_one] at hrun
      cases hchar : character endless decoder.tree bits with
      | none =>
          rw [hchar] at hone
          have heof : (decodeFrom decoder.tree decoder.bfile).1 = EOF := hone
          simp only [heof, if_true] at hrun
          obtain rfl := Except.ok.inj hrun
          exact ⟨[], (List.append_nil _).symm, Spelled.stop hchar⟩
      | some p =>
          obtain ⟨c, rest⟩ := p
          rw [hchar] at hone
          obtain ⟨h255, bfile', hdecode, h'⟩ := hone
          have hne : c.signExtend 32 ≠ EOF := by
            intro heof
            exact h255 ((signExtend_eq_eof_iff c).mp heof)
          rw [hdecode] at hrun
          simp only [if_neg hne, setWidth_char, fprintf_ok (hok _)] at hrun
          obtain ⟨out, hwritten, hspelled⟩ := @ih rest
            ⟨{ decoder.outfp with
                written := decoder.outfp.written ++ [c], calls := decoder.outfp.calls + 1 },
              bfile', decoder.tree⟩ h' hok hrun
          refine ⟨c :: out, ?_, Spelled.next hchar hspelled⟩
          rw [hwritten, List.append_assoc]
          rfl

/-- A record takes a byte at least, and the parser puts none back that it has not taken. -/
theorem deserializeLoop_shorter {fuel : ℕ} {heap heap' : Heap} {fp fp' : FILE}
    (h : deserializeLoop wide fuel heap fp = .ok (some (heap', fp'))) :
    fp'.rest.length < fp.rest.length := by
  induction fuel generalizing heap fp with
  | zero => cases h
  | succ fuel ih =>
      unfold deserializeLoop at h
      cases hscan : scanRecord wide fp with
      | none =>
          rw [hscan] at h
          cases h
      | some scanned =>
          obtain ⟨r, fp₁⟩ := scanned
          have hshort := scanRecord_shorter hscan
          have hget := length_fgetc_le fp₁
          have hpeek := length_ungetc_fgetc fp₁
          rw [hscan] at h
          simp only [bind, Except.bind] at h
          cases hadd : addRecord heap r with
          | error e =>
              rw [hadd] at h
              cases h
          | ok heap₁ =>
              rw [hadd] at h
              simp only at h
              split_ifs at h
              · obtain ⟨-, rfl⟩ := Prod.mk.inj (Option.some.inj (Except.ok.inj h))
                omega
              · have hrest := ih h
                omega

/-- What comes behind the main loop takes nothing from the file. -/
theorem finish_file {heap₁ heap : Heap} {fp₁ fp : FILE} {root : ℕ}
    (h : finish (some (heap₁, fp₁)) = .ok (some (heap, root, fp))) : fp = fp₁ := by
  obtain ⟨-, -, hhead⟩ := finish_some h
  unfold finish at h
  simp only [hhead, bind, Except.bind] at h
  cases hclear : clearNext heap₁.size heap₁.list none (heap₁.list.next root) with
  | error e =>
      rw [hclear] at h
      cases h
  | ok list =>
      rw [hclear] at h
      cases h
      rfl

theorem tree_deserialize_shorter {fp fp' : FILE} {heap : Heap} {root : ℕ}
    (h : tree_deserialize wide fp = .ok (some (heap, root, fp'))) :
    fp'.rest.length < fp.rest.length := by
  obtain ⟨rest, heap₁, fp₁, hrest, hloop, hfinish⟩ := tree_deserialize_some h
  rw [finish_file hfinish, hrest]
  exact (deserializeLoop_shorter hloop).trans (Nat.lt_succ_self _)

/-- What is behind the tree is shorter than the archive. -/
theorem decoder_new_shorter {infile outfile : FILE} {decoder : Decoder}
    (h : decoder_new wide infile outfile = .ok (some decoder)) :
    decoder.outfp = outfile ∧ decoder.bfile.fp.rest.length < infile.rest.length := by
  rw [decoder_new_eq] at h
  cases hparse : tree_deserialize wide infile with
  | error e =>
      rw [hparse] at h
      cases h
  | ok result =>
      rw [hparse] at h
      cases result with
      | none => cases h
      | some result =>
          obtain ⟨heap, root, fp⟩ := result
          cases h
          exact ⟨rfl, tree_deserialize_shorter hparse⟩

theorem length_bits_le (bytes : List Byte) :
    (bytes.flatMap byteBits).length ≤ 7 * bytes.length := by
  induction bytes with
  | nil => exact Nat.zero_le _
  | cons c bytes ih =>
      have hseven := length_byteBits c
      rw [List.flatMap_cons, List.length_append, List.length_cons]
      omega

/-- The bits the reader will return, but for 0s without end: no more than seven to a byte. -/
theorem exists_feeds {bfile : BitsIOFile} (hopen : bfile.byte = ALL_BITS_READ) :
    ∃ bits endless, Feeds bfile bits endless ∧ bits.length ≤ 7 * bfile.fp.rest.length ∧
      (254 ∉ bfile.fp.rest.takeWhile (· ≠ 255) → endless = false ∧
        bits = (bfile.fp.rest.takeWhile (· ≠ 255)).flatMap byteBits) := by
  by_cases hstuck : 254 ∈ bfile.fp.rest.takeWhile (· ≠ 255)
  · refine ⟨_, true, feeds_zeros hopen hstuck, ?_, fun h => absurd hstuck h⟩
    -- the byte 254 itself is one more and has one bit
    obtain ⟨tail, hrest, -⟩ := split_at_stuck hstuck
    have hlen := congrArg List.length hrest
    have hbits := length_bits_le (bfile.fp.rest.takeWhile (· ≠ 254))
    rw [List.length_append, List.length_cons] at hlen
    rw [List.length_append, List.length_singleton]
    omega
  · refine ⟨_, false, feeds_eof hopen hstuck, ?_, fun _ => ⟨rfl, rfl⟩⟩
    have hbits := length_bits_le (bfile.fp.rest.takeWhile (· ≠ 255))
    have hpart := (@List.takeWhile_prefix _ bfile.fp.rest (· ≠ 255)).length_le
    omega

/-- **What `huffd` writes**, whatever the archive. Where it ends with a decoder, the characters
written are those of leaves of the tree and not 255, at most seven for each byte behind the tree.
If no byte 254 is there in front of the first 255, they are the only ones whose paths are the bits
of the payload, but for a rest that begins with no further path. -/
theorem huffd_any (wide : ℤ → CInt) {fuel : ℕ} {archive out : List Byte}
    (h : huffd wide fuel (FILE.reading archive) FILE.reliable = .ok (some out)) :
    ∃ decoder, decoder_new wide (FILE.reading archive) FILE.reliable = .ok (some decoder) ∧
      decoder.bfile.fp.rest.length < archive.length ∧
      (∀ c ∈ out, c ∈ decoder.tree.chars ∧ c ≠ 255) ∧
      out.length ≤ 7 * decoder.bfile.fp.rest.length ∧
      (254 ∉ decoder.bfile.fp.rest.takeWhile (· ≠ 255) → ∀ cs, Parsed decoder.tree
        ((decoder.bfile.fp.rest.takeWhile (· ≠ 255)).flatMap byteBits) cs ↔ cs = out) := by
  unfold huffd at h
  cases hnew : decoder_new wide (FILE.reading archive) FILE.reliable with
  | error e =>
      rw [hnew] at h
      cases h
  | ok result =>
      rw [hnew] at h
      cases result with
      | none => cases h
      | some decoder =>
          simp only [bind, Except.bind] at h
          cases hrun : decoder_decode fuel decoder with
          | error e =>
              rw [hrun] at h
              cases h
          | ok decoder' =>
              rw [hrun] at h
              obtain rfl := Option.some.inj (Except.ok.inj h)
              obtain ⟨hout, hshort⟩ := decoder_new_shorter hnew
              obtain ⟨bits, endless, hfeeds, hbits, hplain⟩ := exists_feeds (decoder_new_byte hnew)
              obtain ⟨out, hwritten, hspelled⟩ :=
                decoder_decode_spelled hfeeds (fun n => by rw [hout]; rfl) hrun
              have hnil : decoder.outfp.written = [] := by rw [hout]; rfl
              rw [hnil, List.nil_append] at hwritten
              rw [hwritten]
              refine ⟨decoder, rfl, hshort, hspelled.mem_chars, hspelled.length_le.trans hbits, ?_⟩
              intro hfree
              obtain ⟨rfl, rfl⟩ := hplain hfree
              exact parsed_iff hspelled

/-- The archive of "ab" with the payload F5, FF and FE. -/
def abaArchive : List Byte :=
  [35, 49, 32, 49, 32, 49, 32, 57, 55, 32, 48, 32, 48, 44,
    49, 32, 50, 32, 49, 32, 57, 56, 32, 48, 32, 48, 44,
    48, 32, 51, 32, 50, 32, 48, 32, 49, 32, 50, 44, 35, 0xF5, 0xFF, 0xFE]

/-- It has the bits 101, and they are read in one way. -/
theorem huffd_any_aba :
    ∃ decoder, decoder_new saturate (FILE.reading abaArchive) FILE.reliable = .ok (some decoder) ∧
      decoder.bfile.fp.rest = [0xF5, 0xFF, 0xFE] ∧
      ∀ cs, Parsed decoder.tree [true, false, true] cs ↔ cs = [97, 98, 97] := by
  obtain ⟨decoder, hnew, -, -, -, hparsed⟩ :=
    @huffd_any saturate 4 abaArchive [97, 98, 97] rfl
  have hrest : decoder.bfile.fp.rest = [0xF5, 0xFF, 0xFE] := by
    have hread : (decoder_new saturate (FILE.reading abaArchive) FILE.reliable).map
        (Option.map (fun decoder => decoder.bfile.fp.rest)) = .ok (some [0xF5, 0xFF, 0xFE]) := rfl
    rw [hnew] at hread
    exact Option.some.inj (Except.ok.inj hread)
  have hbits : (([0xF5, 0xFF, 0xFE] : List Byte).takeWhile (· ≠ 255)).flatMap byteBits
      = [true, false, true] := by
    decide
  rw [hrest, hbits] at hparsed
  exact ⟨decoder, hnew, hrest, hparsed (by decide)⟩

end ProjectsInC.Huffman
