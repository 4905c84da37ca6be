/-
`decoder.c` and `huffd.c`: an archive is expanded.

`decode_one` walks down the tree with the bits of the payload. In front of the path
of a leaf it takes these bits and no more ([`decode_one_path`]), so behind each
character it finds the path of the next.
-/
import ProjectsInC.Huffman.BitsIo
import ProjectsInC.Huffman.Deserialize

set_option autoImplicit false

namespace ProjectsInC.Huffman

open NodeType

variable {wide : ℤ → CInt}

/-- `bits_io_read_tree`: the tree below the pointer it returns; `none` for NULL. -/
def bits_io_read_tree (wide : ℤ → CInt) (bfile : BitsIOFile) :
    Except Fault (Option (TreeNode × BitsIOFile)) :=
  if bfile.mode ≠ 114 then .ok none
  else do
    match ← tree_deserialize wide bfile.fp with
    | none => .ok none
    | some (heap, root, fp) =>
        .ok (some (treeAt heap.node heap.size (some root), { bfile with fp := fp }))

/-- `Decoder` -/
structure Decoder where
  outfp : FILE
  bfile : BitsIOFile
  tree : TreeNode

/-- `decoder_new`; `none` if it returns NULL. Both files can be opened. -/
def decoder_new (wide : ℤ → CInt) (infile outfile : FILE) : Except Fault (Option Decoder) := do
  match ← bits_io_read_tree wide (bits_io_open infile 114) with
  | none => .ok none
  | some (tree, bfile) => .ok (some ⟨outfile, bfile, tree⟩)

/-- The walk of `decode_one` from the node `p` on. -/
def decodeFrom : TreeNode → BitsIOFile → CInt × BitsIOFile
  | .null, bfile => (EOF, bfile)
  | .node _ LEAF freq _ _, bfile => (freq.c.signExtend 32, bfile)
  | .node _ INTERNAL _ left right, bfile =>
      let (bit, bfile) := bits_io_read_bit bfile
      if bit = EOF then (EOF, bfile)
      else if bit = 1 then decodeFrom left bfile
      else decodeFrom right bfile

/-- `decode_one` -/
def decode_one (decoder : Decoder) : CInt × Decoder :=
  let (ch, bfile) := decodeFrom decoder.tree decoder.bfile
  (ch, { decoder with bfile := bfile })

/-- `decoder_decode`, for so many rounds; "%c" prints an `unsigned char`. -/
def decoder_decode : ℕ → Decoder → Except Fault Decoder
  | 0, _ => .error .outOfFuel
  | fuel + 1, decoder =>
      let (ch, decoder) := decode_one decoder
      if ch = EOF then .ok decoder
      else decoder_decode fuel
        { decoder with outfp := (fprintf [ch.setWidth 8] decoder.outfp).2 }

/-- `huffd`: the bytes of the output file; `none` if there is no decoder. -/
def huffd (wide : ℤ → CInt) (fuel : ℕ) (infile outfile : FILE) :
    Except Fault (Option (List Byte)) := do
  match ← decoder_new wide infile outfile with
  | none => .ok none
  | some decoder => do
      let decoder ← decoder_decode fuel decoder
      .ok (some decoder.outfp.written)

/-- `decoder_new` is the parser of trees. -/
theorem decoder_new_eq (infile outfile : FILE) :
    decoder_new wide infile outfile
      = (tree_deserialize wide infile).map (Option.map fun (heap, root, fp) =>
      ⟨outfile, bits_io_open fp 114, treeAt heap.node heap.size (some root)⟩) := by
  have hmode : ¬ (bits_io_open infile 114).mode ≠ 114 := not_not.mpr rfl
  have hfp : (bits_io_open infile 114).fp = infile := rfl
  rw [decoder_new, bits_io_read_tree, if_neg hmode, hfp]
  rcases tree_deserialize wide infile with e | _ | ⟨heap, root, fp⟩ <;> rfl

/-! ## The bits that are read -/

/-- **A path is decoded** to the character of its leaf, and the bits behind it are left. -/
theorem decodeFrom_path {tree : TreeNode} {c : Byte} {path : List Bool}
    (hpath : (c, path) ∈ tree.codes) {bfile : BitsIOFile} {rest : List Bool}
    (h : Unread bfile (path ++ rest)) :
    ∃ bfile', decodeFrom tree bfile = (c.signExtend 32, bfile') ∧ Unread bfile' rest := by
  induction hpath using codes_induct generalizing bfile with
  | leaf id v left right => exact ⟨bfile, rfl, h⟩
  | left id freq left right path hpath ih =>
      obtain ⟨bfile₁, hread, h₁⟩ := bits_io_read_bit_cons h
      rw [decodeFrom, hread]
      exact ih h₁
  | right id freq left right path hpath ih =>
      obtain ⟨bfile₁, hread, h₁⟩ := bits_io_read_bit_cons h
      rw [decodeFrom, hread]
      exact ih h₁

/-- Behind part of a path there is EOF, and no character. -/
theorem decodeFrom_part {tree : TreeNode} {c : Byte} {path bits : List Bool}
    (hpath : (c, path) ∈ tree.codes) (hbits : bits <+: path) (hne : bits ≠ path)
    {bfile : BitsIOFile} (h : Unread bfile bits) : (decodeFrom tree bfile).1 = EOF := by
  induction hpath using codes_induct generalizing bits bfile with
  | leaf id v left right => exact absurd (List.prefix_nil.mp hbits) hne
  | left id freq left right path hpath ih
  | right id freq left right path hpath ih =>
      cases bits with
      | nil =>
          rw [decodeFrom, bits_io_read_bit_nil h]
          rfl
      | cons bit bits =>
          obtain ⟨bfile₁, hread, h₁⟩ := bits_io_read_bit_cons h
          obtain ⟨rfl, hpart⟩ := List.cons_prefix_cons.mp hbits
          rw [ne_eq, List.cons.injEq, not_and] at hne
          rw [decodeFrom, hread]
          exact ih hpart (hne rfl) h₁

/-- At the end of the payload the walk stops at the root. -/
theorem decodeFrom_end {id : CInt} {freq : Frequency} {left right : TreeNode} {bfile : BitsIOFile}
    (h : Unread bfile []) : (decodeFrom (.node id INTERNAL freq left right) bfile).1 = EOF := by
  rw [decodeFrom, bits_io_read_bit_nil h]
  rfl

/-- The walk finds no character in these bits. -/
def NoCharacter (tree : TreeNode) (bits : List Bool) : Prop :=
  ∀ bfile, Unread bfile bits → (decodeFrom tree bfile).1 = EOF

/-- **`decoder_decode`** prints the bytes whose paths are in the payload, until there is no
further character. -/
theorem decoder_decode_spec (decoder : Decoder) {code : Byte → List Bool} {bytes : List Byte}
    {tail : List Bool} (htail : NoCharacter decoder.tree tail)
    (hcode : ∀ c ∈ bytes, (c, code c) ∈ decoder.tree.codes) (h255 : 255 ∉ bytes)
    (hout : ∀ n, decoder.outfp.fails n = false)
    (h : Unread decoder.bfile (bytes.flatMap code ++ tail)) (fuel : ℕ)
    (hfuel : bytes.length < fuel) :
    ∃ decoder', decoder_decode fuel decoder = .ok decoder' ∧
      decoder'.outfp.written = decoder.outfp.written ++ bytes := by
  induction bytes generalizing decoder fuel with
  | nil =>
      obtain ⟨fuel, rfl⟩ := Nat.exists_eq_add_of_le' (Nat.one_le_of_lt hfuel)
      refine ⟨(decode_one decoder).2, ?_, (List.append_nil _).symm⟩
      rw [decoder_decode, decode_one]
      simp only [htail decoder.bfile h, if_true]
  | cons c bytes ih =>
      obtain ⟨fuel, rfl⟩ := Nat.exists_eq_add_of_le' (Nat.one_le_of_lt hfuel)
      rw [List.length_cons] at hfuel
      rw [List.mem_cons, not_or] at h255
      rw [List.flatMap_cons, List.append_assoc] at h
      -- the character is returned as an `int`, and only 255 is the same `int` as EOF
      have hne : c.signExtend 32 ≠ EOF := fun heof =>
        h255.1 ((signExtend_eq_eof_iff c).mp heof).symm
      obtain ⟨bfile₁, hone, h₁⟩ := decodeFrom_path (hcode c List.mem_cons_self) h
      rw [decoder_decode, decode_one, hone]
      simp only [if_neg hne, setWidth_char, fprintf_ok (hout _)]
      obtain ⟨decoder', hdecode, hwritten⟩ := ih
        ⟨{ decoder.outfp with
            written := decoder.outfp.written ++ [c], calls := decoder.outfp.calls + 1 },
          bfile₁, decoder.tree⟩
        htail (fun c' hc' => hcode c' (List.mem_cons_of_mem c hc')) h255.2 hout h₁ fuel (by omega)
      refine ⟨decoder', hdecode, ?_⟩
      rw [hwritten, List.append_assoc]
      rfl

end ProjectsInC.Huffman
