/-
The whole of a bit file: a list of bits is written and read back, and a list of bytes
is read and written back.

The writer cuts its bits into chunks of seven, and there is only one way of doing so
([`Sevens.unique`]). Every byte but 255 is such a chunk behind its delimiter
([`packed_byteBits`]), and the chunks of a file without a short byte in the middle are the
ones the writer makes of its bits.
-/
import ProjectsInC.Huffman.BitsIo

set_option autoImplicit false

namespace ProjectsInC.Huffman

/-- `bits_io_write_bit` on one bit after the other. -/
def write_bits (bfile : BitsIOFile) (bits : List Bool) : Option BitsIOFile :=
  bits.foldlM (fun bfile bit => (bits_io_write_bit bfile ((bitValue bit).setWidth 32)).map Prod.snd)
    bfile

/-- The state behind `i` calls of `bits_io_read_bit`. -/
def read_bits (bfile : BitsIOFile) (i : ℕ) : BitsIOFile :=
  (fun bfile => (bits_io_read_bit bfile).2)^[i] bfile

/-- What call number `i` of `bits_io_read_bit` returns. -/
def bit_read (bfile : BitsIOFile) (i : ℕ) : CInt := (bits_io_read_bit (read_bits bfile i)).1

/-- The bits in a byte: what stands behind its first 0. -/
def byteBits (c : Byte) : List Bool :=
  (((List.range 8).map c.getMsbD).dropWhile id).tail

/-! ## Bits and then bytes -/

section Bits

variable {bfile : BitsIOFile} {front : List Byte} {bits : List Bool}

theorem bit_read_succ (bfile : BitsIOFile) (i : ℕ) :
    bit_read bfile (i + 1) = bit_read (bits_io_read_bit bfile).2 i := by
  unfold bit_read read_bits
  rw [Function.iterate_succ_apply]

theorem write_bits_spec (h : Written bfile front bits) (more : List Bool) :
    ∃ bfile', write_bits bfile more = some bfile' ∧ Written bfile' front (bits ++ more) := by
  induction more generalizing bfile bits with
  | nil => exact ⟨bfile, rfl, by rwa [List.append_nil]⟩
  | cons bit more ih =>
      obtain ⟨bfile₁, hbit, h₁⟩ := bits_io_write_bit_spec h bit
      obtain ⟨bfile', hmore, h'⟩ := ih h₁
      refine ⟨bfile', ?_, by rwa [List.append_assoc] at h'⟩
      unfold write_bits at hmore ⊢
      rw [List.foldlM_cons, hbit]
      exact hmore

/-- The calls return the bits that are still to be read, and then EOF. -/
theorem bit_read_spec (h : Unread bfile bits) (i : ℕ) :
    bit_read bfile i
      = match bits[i]? with
        | some bit => (bitValue bit).setWidth 32
        | none => EOF := by
  induction i generalizing bfile bits with
  | zero =>
      unfold bit_read read_bits
      rw [Function.iterate_zero_apply]
      cases bits with
      | nil => rw [bits_io_read_bit_nil h]; rfl
      | cons bit bits =>
          obtain ⟨bfile₁, hread, -⟩ := bits_io_read_bit_cons h
          rw [hread]
          rfl
  | succ i ih =>
      rw [bit_read_succ]
      cases bits with
      | nil =>
          -- nothing has changed
          rw [bits_io_read_bit_nil h]
          exact ih h
      | cons bit bits =>
          obtain ⟨bfile₁, hread, h₁⟩ := bits_io_read_bit_cons h
          rw [hread]
          exact ih h₁

/-- So many chunks, the last one perhaps not full. -/
theorem Sevens.length_eq {chunks : List (List Bool)} (h : Sevens chunks) :
    chunks.length = (chunks.flatten.length + 6) / 7 := by
  induction h with
  | nil => rfl
  | last chunk hne hlen =>
      have hpos := List.length_pos_of_ne_nil hne
      rw [List.flatten_singleton, List.length_singleton]
      omega
  | cons chunk chunks hlen _ ih =>
      rw [List.flatten_cons, List.length_append, List.length_cons, hlen, ih]
      omega

theorem Sevens.eq_nil {chunks : List (List Bool)} (h : Sevens chunks)
    (hnil : chunks.flatten = []) : chunks = [] := by
  have hlen := h.length_eq
  rw [hnil] at hlen
  exact List.eq_nil_of_length_eq_zero hlen

/-- The first chunk is the first seven bits. -/
theorem Sevens.head_tail {chunk : List Bool} {chunks : List (List Bool)}
    (h : Sevens (chunk :: chunks)) :
    chunk = (chunk :: chunks).flatten.take 7 ∧ chunks.flatten = (chunk :: chunks).flatten.drop 7 ∧
      Sevens chunks := by
  rw [List.flatten_cons]
  cases h with
  | last _ _ hlen =>
      rw [List.flatten_nil, List.append_nil, List.take_of_length_le hlen, List.drop_of_length_le hlen]
      exact ⟨rfl, rfl, Sevens.nil⟩
  | cons _ _ hlen h =>
      rw [← hlen, List.take_left, List.drop_left]
      exact ⟨rfl, rfl, h⟩

/-- There is one way of cutting bits into sevens. -/
theorem Sevens.unique {chunks chunks' : List (List Bool)} (h : Sevens chunks) (h' : Sevens chunks')
    (hbits : chunks.flatten = chunks'.flatten) : chunks = chunks' := by
  induction chunks generalizing chunks' with
  | nil => exact (h'.eq_nil hbits.symm).symm
  | cons chunk chunks ih =>
      cases chunks' with
      | nil => exact h.eq_nil hbits
      | cons chunk' chunks' =>
          obtain ⟨hhead, htail, h₁⟩ := h.head_tail
          obtain ⟨hhead', htail', h₁'⟩ := h'.head_tail
          rw [hhead, hhead', hbits]
          rw [hbits] at htail
          rw [ih h₁ h₁' (htail.trans htail'.symm)]

end Bits

/-! ## Bytes and then bits -/

theorem packed_byteBits : ∀ c : Byte, c ≠ EOF_VALUE → packed (byteBits c) = c := by
  decide +kernel

theorem length_byteBits : ∀ c : Byte, (byteBits c).length ≤ 7 := by
  decide +kernel

/-- Of the bytes with a delimiter only `NO_BITS_WRITTEN` is without bits. -/
theorem byteBits_ne_nil : ∀ c : Byte, c ≠ NO_BITS_WRITTEN → c ≠ EOF_VALUE → byteBits c ≠ [] := by
  decide +kernel

theorem length_byteBits_full : ∀ c : Byte, c < 0x80 → (byteBits c).length = 7 := by
  decide +kernel

theorem map_packed_byteBits {bytes : List Byte} (h : ∀ c ∈ bytes, c ≠ EOF_VALUE) :
    (bytes.map byteBits).map packed = bytes := by
  rw [List.map_map]
  calc bytes.map (packed ∘ byteBits) = bytes.map id :=
        List.map_congr_left (fun c hc => packed_byteBits c (h c hc))
    _ = bytes := List.map_id bytes

/-- Bytes as the writer leaves them: only the last one may be short. -/
theorem sevens_byteBits {bytes : List Byte} (hinit : ∀ c ∈ bytes.dropLast, c < 0x80)
    (hlast : ∀ c ∈ bytes.getLast?, c ≠ 0xFE ∧ c ≠ 0xFF) : Sevens (bytes.map byteBits) := by
  induction bytes with
  | nil => exact Sevens.nil
  | cons c bytes ih =>
      cases bytes with
      | nil =>
          obtain ⟨hfe, hff⟩ := hlast c rfl
          exact Sevens.last _ (byteBits_ne_nil c hfe hff) (length_byteBits c)
      | cons c' bytes =>
          rw [List.map_cons]
          apply Sevens.cons
          · exact length_byteBits_full c (hinit c List.mem_cons_self)
          · apply ih
            · intro b hb
              exact hinit b (List.mem_cons_of_mem _ hb)
            · intro b hb
              exact hlast b (by rwa [List.getLast?_cons_cons])

/-! ## There and back -/

/-- What is written reads back. -/
theorem write_then_read {fp : FILE} (hok : ∀ n, fp.fails n = false) (bits : List Bool) :
    ∃ bfile fp' payload, write_bits (bits_io_open fp 119) bits = some bfile ∧
      bits_io_close bfile = (0, fp') ∧ fp'.written = fp.written ++ payload ∧
      payload.length = (bits.length + 6) / 7 ∧
      ∀ infile : FILE, infile.rest = payload → ∀ i,
        bit_read (bits_io_open infile 114) i
          = match bits[i]? with
            | some bit => (bitValue bit).setWidth 32
            | none => EOF := by
  obtain ⟨bfile, hwrite, h⟩ := write_bits_spec (written_open hok) bits
  rw [List.nil_append] at h
  obtain ⟨fp', chunks, hclose, hwritten, hbits, hsevens⟩ := bits_io_close_sevens h
  refine ⟨bfile, fp', chunks.map packed, hwrite, hclose, hwritten, ?_, ?_⟩
  · rw [List.length_map, hsevens.length_eq, ← hbits]
  · intro infile hrest i
    apply bit_read_spec
    apply unread_open
    exact ⟨chunks, hrest, hbits, hsevens.chunk⟩

/-- What is read writes back. -/
theorem read_then_write {bytes : List Byte} (hinit : ∀ c ∈ bytes.dropLast, c < 0x80)
    (hlast : ∀ c ∈ bytes.getLast?, c ≠ 0xFE ∧ c ≠ 0xFF) {infile fp : FILE}
    (hrest : infile.rest = bytes) (hok : ∀ n, fp.fails n = false) :
    ∃ bits : List Bool,
      (∀ i, bit_read (bits_io_open infile 114) i
        = match bits[i]? with
          | some bit => (bitValue bit).setWidth 32
          | none => EOF) ∧
      ∃ bfile fp', write_bits (bits_io_open fp 119) bits = some bfile ∧
        bits_io_close bfile = (0, fp') ∧ fp'.written = fp.written ++ bytes := by
  have hsevens := sevens_byteBits hinit hlast
  have hpacked : (bytes.map byteBits).map packed = bytes := by
    apply map_packed_byteBits
    intro c hc heof
    -- 255 would be a chunk without bits
    apply (hsevens.chunk (byteBits c) (List.mem_map_of_mem hc)).1
    rw [heof]
    decide
  refine ⟨(bytes.map byteBits).flatten, ?_, ?_⟩
  · intro i
    apply bit_read_spec
    apply unread_open
    exact ⟨bytes.map byteBits, hrest.trans hpacked.symm, rfl, hsevens.chunk⟩
  · obtain ⟨bfile, hwrite, h⟩ := write_bits_spec (written_open hok) (bytes.map byteBits).flatten
    obtain ⟨fp', chunks, hclose, hwritten, hbits, hchunks⟩ := bits_io_close_sevens h
    -- the writer cuts the bits where the file had them
    have hsame : chunks = bytes.map byteBits := hchunks.unique hsevens hbits.symm
    refine ⟨bfile, fp', hwrite, hclose, ?_⟩
    rw [hwritten, hsame, hpacked]

/-- **Packing and unpacking are inverse.** Any bits, written and flushed, are so many
bytes, and these bytes give the bits and then nothing but EOF; and bytes of which only
the last may be short are what the writer makes of the bits read from them. -/
theorem bits_io_inverse :
    (∀ (fp : FILE) (bits : List Bool), (∀ n, fp.fails n = false) →
      ∃ bfile fp' payload, write_bits (bits_io_open fp 119) bits = some bfile ∧
        bits_io_close bfile = (0, fp') ∧ fp'.written = fp.written ++ payload ∧
        payload.length = (bits.length + 6) / 7 ∧
        ∀ infile : FILE, infile.rest = payload → ∀ i,
          bit_read (bits_io_open infile 114) i
            = match bits[i]? with
              | some bit => (bitValue bit).setWidth 32
              | none => EOF) ∧
    ∀ (infile fp : FILE) (bytes : List Byte), (∀ c ∈ bytes.dropLast, c < 0x80) →
      (∀ c ∈ bytes.getLast?, c ≠ 0xFE ∧ c ≠ 0xFF) → infile.rest = bytes →
      (∀ n, fp.fails n = false) →
      ∃ bits : List Bool,
        (∀ i, bit_read (bits_io_open infile 114) i
          = match bits[i]? with
            | some bit => (bitValue bit).setWidth 32
            | none => EOF) ∧
        ∃ bfile fp', write_bits (bits_io_open fp 119) bits = some bfile ∧
          bits_io_close bfile = (0, fp') ∧ fp'.written = fp.written ++ bytes := by
  constructor
  · intro fp bits hok
    exact write_then_read hok bits
  · intro infile fp bytes hinit hlast hrest hok
    exact read_then_write hinit hlast hrest hok

/-- Seven 1s and two 0s; and the two bytes this makes. -/
theorem bits_io_inverse_nine :
    (∃ bfile fp' payload, write_bits (bits_io_open FILE.reliable 119)
        [true, true, true, true, true, true, true, false, false] = some bfile ∧
      bits_io_close bfile = (0, fp') ∧ fp'.written = payload ∧ payload.length = 2) ∧
    ∃ bits : List Bool,
      bit_read (bits_io_open (FILE.reading [0x7F, 0xF8]) 114) bits.length = EOF ∧
      ∃ bfile fp', write_bits (bits_io_open FILE.reliable 119) bits = some bfile ∧
        bits_io_close bfile = (0, fp') ∧ fp'.written = [0x7F, 0xF8] := by
  constructor
  · obtain ⟨bfile, fp', payload, hwrite, hclose, hwritten, hlen, -⟩ := bits_io_inverse.1
      FILE.reliable [true, true, true, true, true, true, true, false, false] (fun _ => rfl)
    exact ⟨bfile, fp', payload, hwrite, hclose, hwritten, hlen⟩
  · obtain ⟨bits, hread, bfile, fp', hwrite, hclose, hwritten⟩ := bits_io_inverse.2
      (FILE.reading [0x7F, 0xF8]) FILE.reliable [0x7F, 0xF8] (by decide) (by decide) rfl
      (fun _ => rfl)
    refine ⟨bits, ?_, bfile, fp', hwrite, hclose, hwritten⟩
    rw [hread, List.getElem?_eq_none le_rfl]

end ProjectsInC.Huffman
