/-
`encoder.c` and `huffc.c`: a file is compressed.

The archive is the text of the tree and behind it the payload, which is the paths of
the bytes one after the other ([`encoder_encode_spec`]). The input file is the list
of the bytes `fgetc` returns before EOF.
-/
import ProjectsInC.Huffman.BitsIo
import ProjectsInC.Huffman.Serialize
import ProjectsInC.Huffman.Table
import ProjectsInC.Huffman.Huffman

set_option autoImplicit false

namespace ProjectsInC.Huffman

/-- `bits_io_write_tree`; what `tree_serialize` returns is not looked at. -/
def bits_io_write_tree (bfile : BitsIOFile) (tree : TreeNode) : CInt × BitsIOFile :=
  if bfile.mode ≠ 119 then (-1, bfile)
  else (BitVec.ofNat 32 (tree_size tree), { bfile with fp := (tree_serialize tree bfile.fp).2 })

/-- `Encoder` -/
structure Encoder where
  infile : List Byte
  tree : TreeNode
  etab : EncodeTable
  bfile : BitsIOFile

/-- `encoder_new`; `none` if it returns NULL. Both files can be opened. -/
def encoder_new (qsort : Qsort TreeNode) (beyond : ℕ → TreeNode) (infile : List Byte)
    (outfile : FILE) : Option Encoder := do
  let (tree, _) ← huffman_build_tree qsort beyond infile
  let etab ← table_build tree
  some ⟨infile, tree, etab, bits_io_open outfile 119⟩

/-- `encoder_free`: its result and the output file. -/
def encoder_free (encoder : Encoder) : CInt × FILE := bits_io_close encoder.bfile

/-- The loop over the encoding `estr` of a byte; `false` if a bit could not be written. -/
def writeEncoding (bfile : BitsIOFile) : List Byte → Option (Bool × BitsIOFile)
  | [] => some (true, bfile)
  | c :: estr => do
      let (result, bfile) ← bits_io_write_bit bfile (c.signExtend 32 - 48)
      if result = EOF then some (false, bfile) else writeEncoding bfile estr

/-- The loop over the bytes of the input file; `none` if a byte has no encoding, since
`table_bit_encode` then dereferences NULL, and if an assertion fails. -/
def encodeLoop (etab : EncodeTable) (count : CInt) (bfile : BitsIOFile) :
    List Byte → Option (CInt × BitsIOFile)
  | [] => some (count, bfile)
  | ch :: infile => do
      let estr ← table_bit_encode etab ch
      let (written, bfile) ← writeEncoding bfile estr
      if written then encodeLoop etab (count + 1) bfile infile else some (-1, bfile)

/-- `encoder_encode` -/
def encoder_encode (encoder : Encoder) : Option (CInt × Encoder) :=
  let (r, bfile) := bits_io_write_tree encoder.bfile encoder.tree
  if r = EOF then some (-1, { encoder with bfile := bfile })
  else (encodeLoop encoder.etab 0 bfile encoder.infile).map
    (fun st => (st.1, { encoder with infile := [], bfile := st.2 }))

/-- `huffc`: what `encoder_encode` returns and the bytes that end up in the output
file; `none` if there is no encoder or the program stops on the way. -/
def huffc (qsort : Qsort TreeNode) (beyond : ℕ → TreeNode) (infile : List Byte)
    (outfile : FILE) : Option (CInt × List Byte) := do
  let encoder ← encoder_new qsort beyond infile outfile
  let (result, encoder) ← encoder_encode encoder
  -- after an error the buffer is not flushed
  if result = -1 then some (result, encoder.bfile.fp.written)
  else some (result, (encoder_free encoder).2.written)

/-! ## The bits that are written -/

section Encoder

variable {bfile : BitsIOFile} {front : List Byte} {bits : List Bool}

/-- `c - '0'` -/
theorem char_bit (bit : Bool) : ((if bit then 49 else 48 : Byte).signExtend 32 - 48 : CInt)
    = (bitValue bit).setWidth 32 := by
  cases bit <;> decide

/-- The path of a byte is written. -/
theorem writeEncoding_spec (h : Written bfile front bits) (path : List Bool) :
    ∃ bfile', writeEncoding bfile (bitText path) = some (true, bfile') ∧
      Written bfile' front (bits ++ path) := by
  induction path generalizing bfile bits with
  | nil => exact ⟨bfile, rfl, by rwa [List.append_nil]⟩
  | cons bit path ih =>
      obtain ⟨bfile₁, hbit, h₁⟩ := bits_io_write_bit_spec h bit
      obtain ⟨bfile', hpath, h'⟩ := ih h₁
      -- a bit that was written is returned, and it is not EOF
      have hok : ((bitValue bit).setWidth 32 : CInt) ≠ EOF := byte_ne_eof _
      refine ⟨bfile', ?_, by rwa [List.append_assoc] at h'⟩
      rw [bitText, List.map_cons, writeEncoding, char_bit, hbit]
      simp only [Option.bind_eq_bind, Option.bind_some, if_neg hok]
      exact hpath

/-- The paths of all bytes are written, and the bytes counted. -/
theorem encodeLoop_spec {etab : EncodeTable} {code : Byte → List Bool} {infile : List Byte}
    (hcode : ∀ c ∈ infile, table_bit_encode etab c = some (bitText (code c)))
    (h : Written bfile front bits) (count : CInt) :
    ∃ bfile', encodeLoop etab count bfile infile
        = some (count + BitVec.ofNat 32 infile.length, bfile') ∧
      Written bfile' front (bits ++ infile.flatMap code) := by
  induction infile generalizing bfile bits count with
  | nil => exact ⟨bfile, by simp [encodeLoop], by rwa [List.flatMap_nil, List.append_nil]⟩
  | cons c infile ih =>
      obtain ⟨bfile₁, hwrite, h₁⟩ := writeEncoding_spec h (code c)
      obtain ⟨bfile', hloop, h'⟩ :=
        ih (fun c' hc' => hcode c' (List.mem_cons_of_mem c hc')) h₁ (count + 1)
      refine ⟨bfile', ?_, ?_⟩
      · rw [encodeLoop, hcode c List.mem_cons_self, List.length_cons, ← add_ofNat_succ]
        simp only [Option.bind_eq_bind, Option.bind_some, hwrite, if_true, hloop]
      · rwa [List.flatMap_cons, ← List.append_assoc]

/-- The text of the tree is written in front of the payload. -/
theorem bits_io_write_tree_spec (h : Written bfile front []) (hopen : bfile.fp.written = front)
    {tree : TreeNode} (hsize : tree_size tree < 2 ^ 31) :
    ∃ bfile', bits_io_write_tree bfile tree = (BitVec.ofNat 32 (tree_size tree), bfile') ∧
      BitVec.ofNat 32 (tree_size tree) ≠ EOF ∧
      Written bfile' (front ++ 35 :: (recordsText (recordsOf tree) ++ [35])) [] := by
  obtain ⟨result, fp, hser, -, htook⟩ := tree_serialize_spec tree h.reliable
  obtain ⟨full, pending, -, hbyte, hbits, -, -⟩ := h.bytes
  obtain ⟨-, rfl⟩ := List.append_eq_nil_iff.mp hbits.symm
  -- the size is compared with EOF as if it could be an error
  have hne : BitVec.ofNat 32 (tree_size tree) ≠ EOF := ofNat_ne_eof hsize
  refine ⟨{ bfile with fp := fp }, ?_, hne, h.mode, htook.reliable h.reliable, [], [], ?_, hbyte,
    rfl, fun _ hmem => absurd hmem List.not_mem_nil, Nat.zero_le 6⟩
  · rw [bits_io_write_tree, if_neg (not_not.mpr h.mode), hser]
  · rw [htook.written, hopen]
    exact (List.append_nil _).symm

/-- **`encoder_encode`** on a file that takes everything: the tree and then the paths of
all bytes. -/
theorem encoder_encode_spec (encoder : Encoder) {code : Byte → List Bool}
    (h : Written encoder.bfile [] []) (hopen : encoder.bfile.fp.written = [])
    (hsize : tree_size encoder.tree < 2 ^ 31)
    (hcode : ∀ c ∈ encoder.infile, table_bit_encode encoder.etab c = some (bitText (code c))) :
    ∃ encoder', encoder_encode encoder
        = some (BitVec.ofNat 32 encoder.infile.length, encoder') ∧
      Written encoder'.bfile (35 :: (recordsText (recordsOf encoder.tree) ++ [35]))
        (encoder.infile.flatMap code) := by
  obtain ⟨bfile₁, htree, hne, h₁⟩ := bits_io_write_tree_spec h hopen hsize
  obtain ⟨bfile', hloop, h'⟩ := encodeLoop_spec hcode h₁ 0
  refine ⟨{ encoder with infile := [], bfile := bfile' }, ?_, h'⟩
  rw [encoder_encode, htree]
  simp only [if_neg hne, hloop, Option.map_some, zero_add]

end Encoder

end ProjectsInC.Huffman
