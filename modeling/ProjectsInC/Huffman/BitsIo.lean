/-
`bits-io.c`: single bits in a file of bytes.

A byte of the payload holds up to seven bits behind a delimiter 0, which stands
behind as many 1s as there are bits missing ([`packed`]). The reader turns such a
byte round: the bits come first, then a delimiter 1 and 0s ([`unread`]). So the
writer's buffer stands for the bits not yet in the file and the reader's for the
bits it has fetched but not handed out, and the functions are correct in these
terms ([`bits_io_write_bit_spec`], [`bits_io_read_bit_cons`]).
-/
import ProjectsInC.Stdio

set_option autoImplicit false

namespace ProjectsInC.Huffman

/-- `BitsIOFile`; the mode is the character 'w' or 'r'. -/
structure BitsIOFile where
  fp : FILE
  count : CInt
  mode : Byte
  byte : Byte

/-- `NO_BITS_WRITTEN` -/
def NO_BITS_WRITTEN : Byte := 0xFE

/-- `ALL_BITS_READ` -/
def ALL_BITS_READ : Byte := 0x80

/-- `EOF_VALUE` -/
def EOF_VALUE : Byte := EOF.setWidth 8

/-- `bits_io_open`, on the file `fopen` returned. -/
def bits_io_open (fp : FILE) (mode : Byte) : BitsIOFile :=
  ⟨fp, 0, mode, if mode = 119 then NO_BITS_WRITTEN else ALL_BITS_READ⟩

/-- `bits_io_num_bytes` -/
def bits_io_num_bytes (bfile : BitsIOFile) : CInt := bfile.count

/-- `bits_io_close`: its result and what became of the file. -/
def bits_io_close (bfile : BitsIOFile) : CInt × FILE :=
  if bfile.mode = 119 ∧ bfile.byte ≠ NO_BITS_WRITTEN then
    let (result, fp) := fputc (bfile.byte.setWidth 32) bfile.fp
    if result.setWidth 8 = EOF_VALUE then (EOF, fp) else (0, fp)
  else (0, bfile.fp)

/-- `bits_io_write_bit`; `none` if its assertion on the bit fails. -/
def bits_io_write_bit (bfile : BitsIOFile) (bit : CInt) : Option (CInt × BitsIOFile) :=
  -- assert((bit & 1) == bit)
  if bit &&& 1 = bit then
    let byte := (bfile.byte <<< 1) ||| bit.setWidth 8
    -- the delimiter 0 has reached the first place
    if byte >>> 7 = 0 then
      let (result, fp) := fputc (byte.setWidth 32) bfile.fp
      let byte := result.setWidth 8
      if byte = EOF_VALUE then
        some (EOF, { bfile with fp := fp, count := bfile.count + 1, byte := byte })
      else some (bit, { bfile with fp := fp, count := bfile.count + 1, byte := NO_BITS_WRITTEN })
    else some (bit, { bfile with byte := byte })
  else none

/-- The loop `while((c & mask) != 0)`, for so many rounds. -/
def alignByte : ℕ → Byte → Byte → Byte
  | 0, c, _ => c
  | rounds + 1, c, shift =>
      if c &&& 0x80 ≠ 0 then alignByte rounds ((c <<< 1) + shift) 0 else c

/-- The buffer made of the byte `c` from the file. -/
def loadByte (c : Byte) : Byte :=
  if c &&& 0x80 = 0 then (c <<< 1) + 1 else alignByte 8 c 1 <<< 1

/-- The first bit of the buffer is handed out. -/
def takeBit (bfile : BitsIOFile) : CInt × BitsIOFile :=
  (((bfile.byte &&& 0x80) >>> 7).setWidth 32, { bfile with byte := bfile.byte <<< 1 })

/-- `bits_io_read_bit` -/
def bits_io_read_bit (bfile : BitsIOFile) : CInt × BitsIOFile :=
  if bfile.byte = EOF_VALUE then (EOF, bfile)
  else if bfile.byte = ALL_BITS_READ then
    let (c, fp) := fgetc bfile.fp
    if c.setWidth 8 = EOF_VALUE then (EOF, { bfile with fp := fp })
    else takeBit { bfile with fp := fp, count := bfile.count + 1, byte := loadByte (c.setWidth 8) }
  else takeBit bfile

/-- Eight rounds are enough for every byte the loop is entered with. -/
theorem alignByte_ends : ∀ c : Byte, c ≠ EOF_VALUE → alignByte 8 c 1 &&& 0x80 = 0 := by
  decide +kernel

/-! ## Bits in a byte -/

/-- A bit as a number. -/
def bitValue (bit : Bool) : Byte := if bit then 1 else 0

/-- The writer's buffer with these bits in it. -/
def packed (bits : List Bool) : Byte :=
  bits.foldl (fun byte bit => (byte <<< 1) ||| bitValue bit) NO_BITS_WRITTEN

/-- The reader's buffer with these bits in it. -/
def unread (bits : List Bool) : Byte :=
  bits.foldr (fun bit byte => (byte >>> 1) ||| (bitValue bit <<< 7)) ALL_BITS_READ

/-- All lists of `n` bits. -/
def bitLists : ℕ → List (List Bool)
  | 0 => [[]]
  | n + 1 => (bitLists n).flatMap (fun l => [true :: l, false :: l])

theorem mem_bitLists (bits : List Bool) : bits ∈ bitLists bits.length := by
  induction bits with
  | nil => exact List.mem_singleton_self _
  | cons bit bits ih =>
      refine List.mem_flatMap.mpr ⟨bits, ih, ?_⟩
      cases bit
      · exact List.mem_cons_of_mem _ (List.mem_singleton_self _)
      · exact List.mem_cons_self

/-- What holds of the lists of zero to seven bits one by one. -/
theorem of_bitLists {P : List Bool → Prop} (h : ∀ n ≤ 7, ∀ bits ∈ bitLists n, P bits)
    {bits : List Bool} (hlen : bits.length ≤ 7) : P bits :=
  h bits.length hlen bits (mem_bitLists bits)

theorem packed_full_iff {bits : List Bool} (hlen : bits.length ≤ 7) :
    packed bits >>> 7 = 0 ↔ bits.length = 7 :=
  of_bitLists (P := fun bits => packed bits >>> 7 = 0 ↔ bits.length = 7) (by decide +kernel) hlen

theorem packed_ne_eof {bits : List Bool} (hlen : bits.length ≤ 7) : packed bits ≠ EOF_VALUE :=
  of_bitLists (P := fun bits => packed bits ≠ EOF_VALUE) (by decide +kernel) hlen

theorem packed_eq_empty_iff {bits : List Bool} (hlen : bits.length ≤ 7) :
    packed bits = NO_BITS_WRITTEN ↔ bits = [] :=
  of_bitLists (P := fun bits => packed bits = NO_BITS_WRITTEN ↔ bits = []) (by decide +kernel) hlen

/-- The byte is turned round, unless there is nothing in it. -/
theorem loadByte_packed {bits : List Bool} (hlen : bits.length ≤ 7) (hne : bits ≠ []) :
    loadByte (packed bits) = unread bits :=
  of_bitLists (P := fun bits => bits ≠ [] → loadByte (packed bits) = unread bits)
    (by decide +kernel) hlen hne

theorem unread_eq_empty_iff {bits : List Bool} (hlen : bits.length ≤ 7) :
    unread bits = ALL_BITS_READ ↔ bits = [] :=
  of_bitLists (P := fun bits => unread bits = ALL_BITS_READ ↔ bits = []) (by decide +kernel) hlen

/-- Seven 1s look like EOF in the reader's buffer; six bits do not. -/
theorem unread_ne_eof {bits : List Bool} (hlen : bits.length ≤ 6) : unread bits ≠ EOF_VALUE :=
  of_bitLists (P := fun bits => bits.length ≤ 6 → unread bits ≠ EOF_VALUE)
    (by decide +kernel) (by omega) hlen

theorem packed_concat (bits : List Bool) (bit : Bool) :
    packed (bits ++ [bit]) = (packed bits <<< 1) ||| bitValue bit := by
  rw [packed, List.foldl_append]
  rfl

theorem unread_top {bit : Bool} {bits : List Bool} (hlen : bits.length ≤ 6) :
    (unread (bit :: bits) &&& 0x80) >>> 7 = bitValue bit :=
  of_bitLists (P := fun bits => ∀ bit, (unread (bit :: bits) &&& 0x80) >>> 7 = bitValue bit)
    (by decide +kernel) (by omega) bit

theorem unread_shift {bit : Bool} {bits : List Bool} (hlen : bits.length ≤ 6) :
    unread (bit :: bits) <<< 1 = unread bits :=
  of_bitLists (P := fun bits => bits.length ≤ 6 → ∀ bit, unread (bit :: bits) <<< 1 = unread bits)
    (by decide +kernel) (by omega) hlen bit

/-! ## Bits in a file -/

/-- The bytes hold the bits, one to seven in each. -/
def Payload (bytes : List Byte) (bits : List Bool) : Prop :=
  ∃ chunks : List (List Bool), bytes = chunks.map packed ∧ bits = chunks.flatten ∧
    ∀ chunk ∈ chunks, chunk ≠ [] ∧ chunk.length ≤ 7

/-- Behind the bytes `front` the bits have been written: full bytes in the file and
up to six bits in the buffer. -/
structure Written (bfile : BitsIOFile) (front : List Byte) (bits : List Bool) : Prop where
  mode : bfile.mode = 119
  reliable : ∀ n, bfile.fp.fails n = false
  bytes : ∃ (full : List (List Bool)) (pending : List Bool),
    bfile.fp.written = front ++ full.map packed ∧
    bfile.byte = packed pending ∧ bits = full.flatten ++ pending ∧
    (∀ chunk ∈ full, chunk.length = 7) ∧ pending.length ≤ 6

/-- The bits are still to be read: up to six from the buffer, then the file. -/
def Unread (bfile : BitsIOFile) (bits : List Bool) : Prop :=
  ∃ fetched later, bits = fetched ++ later ∧ bfile.byte = unread fetched ∧ fetched.length ≤ 6 ∧
    Payload bfile.fp.rest later

theorem written_open {fp : FILE} (h : ∀ n, fp.fails n = false) :
    Written (bits_io_open fp 119) fp.written [] where
  mode := rfl
  reliable := h
  bytes := ⟨[], [], (List.append_nil _).symm, rfl, rfl, fun _ h => absurd h List.not_mem_nil,
    Nat.zero_le 6⟩

section WriteBit

variable {bfile : BitsIOFile} {pending : List Bool}

/-- A bit goes into the buffer, and with the seventh the buffer goes into the file. -/
theorem bits_io_write_bit_packed (hbyte : bfile.byte = packed pending) (hlen : pending.length ≤ 6)
    (bit : Bool) :
    bits_io_write_bit bfile ((bitValue bit).setWidth 32) = some (
      if pending.length < 6 then
        ((bitValue bit).setWidth 32, { bfile with byte := packed (pending ++ [bit]) })
      else if bfile.fp.fails bfile.fp.calls then
        (EOF, { bfile with
          fp := { bfile.fp with calls := bfile.fp.calls + 1 }
          count := bfile.count + 1
          byte := EOF_VALUE })
      else
        ((bitValue bit).setWidth 32, { bfile with
          fp := { bfile.fp with
            written := bfile.fp.written ++ [packed (pending ++ [bit])]
            calls := bfile.fp.calls + 1 }
          count := bfile.count + 1
          byte := NO_BITS_WRITTEN })) := by
  have hassert : ((bitValue bit).setWidth 32 : CInt) &&& 1 = (bitValue bit).setWidth 32 := by
    cases bit <;> decide
  have hlen' : (pending ++ [bit]).length = pending.length + 1 := by
    rw [List.length_append, List.length_singleton]
  have hnew : bfile.byte <<< 1 ||| ((bitValue bit).setWidth 32 : CInt).setWidth 8
      = packed (pending ++ [bit]) := by
    rw [hbyte, setWidth_byte, packed_concat]
  have hle : (pending ++ [bit]).length ≤ 7 := by omega
  rw [bits_io_write_bit, if_pos hassert]
  simp only [hnew, packed_full_iff hle]
  by_cases hroom : pending.length < 6
  · rw [if_neg (by omega), if_pos hroom]
  · -- the delimiter has come to the front: the byte is full
    rw [if_pos (by omega), if_neg hroom]
    by_cases hfail : bfile.fp.fails bfile.fp.calls = true
    · rw [fputc_fails hfail, if_pos hfail]
      exact if_pos rfl
    · rw [fputc_ok (Bool.eq_false_iff.mpr hfail), if_neg hfail]
      simp only [setWidth_byte]
      rw [if_neg (packed_ne_eof hle)]

/-- **`bits_io_write_bit`** on a file that takes all bytes. -/
theorem bits_io_write_bit_spec {front : List Byte} {bits : List Bool}
    (h : Written bfile front bits) (bit : Bool) :
    ∃ bfile', bits_io_write_bit bfile ((bitValue bit).setWidth 32)
        = some ((bitValue bit).setWidth 32, bfile') ∧ Written bfile' front (bits ++ [bit]) := by
  obtain ⟨full, pending, hwritten, hbyte, hbits, hfull, hpending⟩ := h.bytes
  rw [bits_io_write_bit_packed hbyte hpending bit]
  by_cases hroom : pending.length < 6
  · rw [if_pos hroom]
    refine ⟨_, rfl, h.mode, h.reliable, full, pending ++ [bit], hwritten, rfl, ?_, hfull, ?_⟩
    · rw [hbits, List.append_assoc]
    · rw [List.length_append, List.length_singleton]
      exact hroom
  · have hseven : (pending ++ [bit]).length = 7 := by
      rw [List.length_append, List.length_singleton]
      omega
    have hok : ¬ bfile.fp.fails bfile.fp.calls = true := by
      rw [h.reliable]
      exact Bool.false_ne_true
    rw [if_neg hroom, if_neg hok]
    refine ⟨_, rfl, h.mode, h.reliable, full ++ [pending ++ [bit]], [], ?_, rfl, ?_, ?_, by simp⟩
    · rw [hwritten, List.append_assoc, List.map_append, List.map_singleton]
    · rw [hbits, List.flatten_concat, List.append_nil, List.append_assoc]
    · intro chunk hchunk
      rcases List.mem_append.mp hchunk with hchunk | hchunk
      · exact hfull chunk hchunk
      · rw [List.mem_singleton.mp hchunk, hseven]

end WriteBit

/-- The chunks the writer makes of its bits: seven in each, and what is left over. -/
inductive Sevens : List (List Bool) → Prop
  | nil : Sevens []
  | last (chunk : List Bool) : chunk ≠ [] → chunk.length ≤ 7 → Sevens [chunk]
  | cons (chunk : List Bool) (chunks : List (List Bool)) :
      chunk.length = 7 → Sevens chunks → Sevens (chunk :: chunks)

theorem Sevens.chunk {chunks : List (List Bool)} (h : Sevens chunks) :
    ∀ chunk ∈ chunks, chunk ≠ [] ∧ chunk.length ≤ 7 := by
  induction h with
  | nil =>
      intro chunk hmem
      exact absurd hmem List.not_mem_nil
  | last chunk hne hlen =>
      intro chunk' hmem
      rw [List.mem_singleton.mp hmem]
      exact ⟨hne, hlen⟩
  | cons chunk chunks hlen _ ih =>
      intro chunk' hmem
      rcases List.mem_cons.mp hmem with rfl | hmem
      · exact ⟨List.ne_nil_of_length_pos (by omega), hlen.le⟩
      · exact ih chunk' hmem

/-- Full chunks stand in front of others. -/
theorem Sevens.append {full chunks : List (List Bool)} (hfull : ∀ chunk ∈ full, chunk.length = 7)
    (h : Sevens chunks) : Sevens (full ++ chunks) := by
  induction full with
  | nil => exact h
  | cons chunk full ih =>
      apply Sevens.cons
      · exact hfull chunk List.mem_cons_self
      · exact ih (fun chunk' hmem => hfull chunk' (List.mem_cons_of_mem _ hmem))

/-- **`bits_io_close`** writes the bits of the buffer, so that the file has got all bits in
chunks of seven. -/
theorem bits_io_close_sevens {bfile : BitsIOFile} {front : List Byte} {bits : List Bool}
    (h : Written bfile front bits) :
    ∃ fp chunks, bits_io_close bfile = (0, fp) ∧ fp.written = front ++ chunks.map packed ∧
      bits = chunks.flatten ∧ Sevens chunks := by
  obtain ⟨full, pending, hwritten, hbyte, hbits, hfull, hpending⟩ := h.bytes
  have hlast : (packed pending ≠ NO_BITS_WRITTEN) ↔ pending ≠ [] :=
    not_congr (packed_eq_empty_iff (by omega))
  rw [bits_io_close, hbyte]
  simp only [h.mode, hlast, true_and]
  by_cases hnil : pending = []
  · rw [if_neg (not_not.mpr hnil)]
    refine ⟨_, full, rfl, hwritten, ?_, ?_⟩
    · rw [hbits, hnil, List.append_nil]
    · have hsevens := Sevens.append hfull Sevens.nil
      rwa [List.append_nil] at hsevens
  · -- the last byte is not full
    rw [if_pos hnil, fputc_ok (h.reliable _)]
    simp only [setWidth_byte]
    rw [if_neg (packed_ne_eof (by omega))]
    refine ⟨_, full ++ [pending], rfl, ?_, ?_, ?_⟩
    · rw [hwritten, List.append_assoc, List.map_append, List.map_singleton]
    · rw [hbits, List.flatten_concat]
    · apply Sevens.append hfull
      apply Sevens.last
      · exact hnil
      · omega

theorem unread_open {fp : FILE} {bits : List Bool} (h : Payload fp.rest bits) :
    Unread (bits_io_open fp 114) bits :=
  ⟨[], bits, rfl, rfl, Nat.zero_le 6, h⟩

/-- A bit leaves the buffer. -/
theorem takeBit_unread {bfile : BitsIOFile} {bit : Bool} {fetched : List Bool}
    (hbyte : bfile.byte = unread (bit :: fetched)) (hlen : fetched.length ≤ 6) :
    takeBit bfile = ((bitValue bit).setWidth 32, { bfile with byte := unread fetched }) := by
  rw [takeBit, hbyte, unread_top hlen, unread_shift hlen]

theorem takeBit_spec {bfile : BitsIOFile} {bit : Bool} {fetched later : List Bool}
    (hbyte : bfile.byte = unread (bit :: fetched)) (hlen : fetched.length ≤ 6)
    (hlater : Payload bfile.fp.rest later) :
    ∃ bfile', takeBit bfile = ((bitValue bit).setWidth 32, bfile') ∧
      Unread bfile' (fetched ++ later) :=
  ⟨_, takeBit_unread hbyte hlen, fetched, later, rfl, rfl, hlen, hlater⟩

/-- **`bits_io_read_bit`** returns the next bit. -/
theorem bits_io_read_bit_cons {bfile : BitsIOFile} {bit : Bool} {bits : List Bool}
    (h : Unread bfile (bit :: bits)) :
    ∃ bfile', bits_io_read_bit bfile = ((bitValue bit).setWidth 32, bfile') ∧
      Unread bfile' bits := by
  obtain ⟨fetched, later, hbits, hbyte, hlen, chunks, hrest, hlater, hchunks⟩ := h
  rw [bits_io_read_bit, if_neg (hbyte ▸ unread_ne_eof hlen)]
  cases fetched with
  | cons b fetched =>
      -- a bit is left in the buffer
      obtain ⟨rfl, rfl⟩ := List.cons.inj hbits
      rw [List.length_cons] at hlen
      rw [hbyte, if_neg (fun h => List.cons_ne_nil _ _ ((unread_eq_empty_iff (by simp; omega)).mp h))]
      exact takeBit_spec hbyte (by omega) ⟨chunks, hrest, hlater, hchunks⟩
  | nil =>
      -- the buffer is empty, so the next byte of the file is fetched
      cases chunks with
      | nil => simp [hlater] at hbits
      | cons chunk chunks =>
          obtain ⟨hne, hchunk⟩ := hchunks chunk List.mem_cons_self
          obtain ⟨b, fetched, rfl⟩ := List.exists_cons_of_ne_nil hne
          rw [List.length_cons] at hchunk
          rw [hlater, List.nil_append, List.flatten_cons, List.cons_append] at hbits
          obtain ⟨rfl, rfl⟩ := List.cons.inj hbits
          rw [if_pos (show bfile.byte = ALL_BITS_READ from hbyte), fgetc_cons hrest]
          simp only [setWidth_byte]
          rw [if_neg (packed_ne_eof (by simp; omega)), loadByte_packed (by simp; omega) hne]
          exact takeBit_spec rfl (by omega)
            ⟨chunks, rfl, rfl, fun chunk hmem => hchunks chunk (List.mem_cons_of_mem _ hmem)⟩

/-- **`bits_io_read_bit`** returns EOF when all bits are read. -/
theorem bits_io_read_bit_nil {bfile : BitsIOFile} (h : Unread bfile []) :
    bits_io_read_bit bfile = (EOF, bfile) := by
  obtain ⟨fetched, later, hbits, hbyte, -, chunks, hrest, hlater, hchunks⟩ := h
  obtain ⟨rfl, rfl⟩ := List.append_eq_nil_iff.mp hbits.symm
  -- no byte of a payload is without bits
  have hnil : chunks = [] := by
    cases chunks with
    | nil => rfl
    | cons chunk chunks =>
        rw [List.flatten_cons] at hlater
        exact absurd (List.append_eq_nil_iff.mp hlater.symm).1
          (hchunks chunk List.mem_cons_self).1
  rw [hnil] at hrest
  have hempty : bfile.byte = ALL_BITS_READ := hbyte
  rw [bits_io_read_bit, if_neg (hempty ▸ (by decide)), if_pos hempty, fgetc_reading_nil _ hrest]
  exact if_pos rfl

end ProjectsInC.Huffman
