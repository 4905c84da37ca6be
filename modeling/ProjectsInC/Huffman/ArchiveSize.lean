/-
How long an archive is.

Behind the text of the tree `huffc` writes the paths of all bytes, seven bits to a
byte. Their number is the payload of the tree, in which a path is counted as often as
its byte occurs ([`length_flatMap_code`]), so that an optimal tree makes the shortest
archive that any prefix code for the bytes of the file can make in this format.
-/
import ProjectsInC.Huffman.BitStream
import ProjectsInC.Huffman.Optimality
import ProjectsInC.Huffman.RoundTrip

set_option autoImplicit false

namespace ProjectsInC.Huffman

open Lib (Fits cost PrefixFree)

/-! ## Bits and frequencies -/

section File

variable {bytes : List Byte}

/-- The entries of a file without the byte 255 are its bytes. -/
theorem toFinset_entries (hlen : bytes.length < 2 ^ 31) (h255 : 255 ∉ bytes) :
    ((entries (compute_freq bytes)).map Frequency.c).toFinset = bytes.toFinset := by
  ext c
  rw [List.mem_toFinset, List.mem_toFinset, mem_entries_iff hlen, counted_eq_self h255]

/-- The code words of all bytes of a file, one after the other, are as long as its frequencies
say. -/
theorem length_flatMap_code (hlen : bytes.length < 2 ^ 31) (h255 : 255 ∉ bytes)
    (code : Byte → List Bool) :
    ((bytes.flatMap code).length : ℤ) = codePayload (compute_freq bytes) code := by
  have hlabel := labelled_compute_freq bytes
  have hfreq : ∀ f ∈ entries (compute_freq bytes), f.v.toInt = bytes.count f.c := by
    intro f hf
    have hcount := compute_freq_byte hlen f.c
    rw [counted_eq_self h255] at hcount
    rw [hlabel.carries f hf]
    exact hcount
  have hcode : codePayload (compute_freq bytes) code
      = (((entries (compute_freq bytes)).map Frequency.c).map
          (fun c => ((code c).length : ℤ) * bytes.count c)).sum := by
    rw [codePayload, List.map_map]
    congr 1
    apply List.map_congr_left
    intro f hf
    rw [hfreq f hf]
    rfl
  rw [hcode, ← List.sum_toFinset _ hlabel.nodup_entries, toFinset_entries hlen h255,
    List.length_flatMap, Finset.sum_list_map_count, Nat.cast_sum]
  apply Finset.sum_congr rfl
  intro c _
  rw [smul_eq_mul, mul_comm, Nat.cast_mul]

/-- The payload of the tree of the file is the number of bits of the paths in it. -/
theorem TreeOf.payload_eq {root : TreeNode} (h : TreeOf bytes root) (hlen : bytes.length < 2 ^ 31)
    (h255 : 255 ∉ bytes) {code : Byte → List Bool} (hcode : ∀ c ∈ bytes, (c, code c) ∈ root.codes) :
    ((bytes.flatMap code).length : ℤ) = payload (compute_freq bytes) root := by
  have hlabel := labelled_compute_freq bytes
  have hchars : root.chars.Perm ((entries (compute_freq bytes)).map Frequency.c) := by
    rw [h.full.chars_eq]
    exact h.leaves.map _
  -- with distinct leaves the path of a leaf is the one of its character
  have hpath : ∀ p ∈ root.codes, p.2 = code p.1 := by
    rintro ⟨c, path⟩ hp
    have hc : c ∈ bytes := by
      rw [← counted_eq_self h255, ← h.mem_chars]
      exact mem_chars_of_codes hp
    exact congrArg Prod.snd (List.inj_on_of_nodup_map h.nodup hp (hcode c hc) rfl)
  have hroot : payload (compute_freq bytes) root
      = (root.chars.map (fun c => ((code c).length : ℤ) * freqOf (compute_freq bytes) c)).sum := by
    rw [payload, TreeNode.chars, List.map_map]
    congr 1
    apply List.map_congr_left
    intro p hp
    rw [hpath p hp]
    rfl
  have hentries : codePayload (compute_freq bytes) code
      = (((entries (compute_freq bytes)).map Frequency.c).map
          (fun c => ((code c).length : ℤ) * freqOf (compute_freq bytes) c)).sum := by
    rw [codePayload, List.map_map]
    congr 1
    apply List.map_congr_left
    intro f hf
    rw [hlabel.carries f hf]
    rfl
  rw [length_flatMap_code hlen h255, hentries, hroot, (hchars.map _).sum_eq]

/-! ## The archive -/

/-- The tree of a file has the shortest paths for it. -/
theorem paths_shortest (qsort : Qsort TreeNode) (beyond : ℕ → TreeNode)
    (hlen : bytes.length < 2 ^ 31) (h255 : 255 ∉ bytes) (hne : bytes ≠ [])
    {root : TreeNode} {ids : CInt}
    (hbuild : huffman_build_tree qsort beyond bytes = some (root, ids)) (htree : TreeOf bytes root)
    {paths code : Byte → List Bool} (hpaths : ∀ c ∈ bytes, (c, paths c) ∈ root.codes)
    (hcode : PrefixFree bytes.toFinset code) :
    (bytes.flatMap paths).length ≤ (bytes.flatMap code).length := by
  have hlabel := labelled_compute_freq bytes
  obtain ⟨root', ids', hbuild', -, hleast⟩ := build_tree_le_cost qsort beyond hlabel
    (entries_ne_nil hlen (by rwa [counted_eq_self h255])) (total_entries_lt hlen)
  obtain ⟨rfl, rfl⟩ := Prod.mk.inj (Option.some.inj (hbuild.symm.trans hbuild'))
  rw [← toFinset_entries hlen h255] at hcode
  obtain ⟨P, hP, hfits, hcost⟩ := exists_wordLengths hlabel hcode
  have hle := hleast P hP hfits
  rw [hcost, ← htree.payload_eq hlen h255 hpaths, ← length_flatMap_code hlen h255] at hle
  exact_mod_cast hle

/-- The eight bits of a byte. -/
def eightBits (c : Byte) : List Bool := (List.range 8).map c.getMsbD

theorem eightBits_inj : ∀ c d : Byte, eightBits c <+: eightBits d → c = d := by
  intro c d h
  have heq : eightBits c = eightBits d := h.eq_of_length (by simp [eightBits])
  apply BitVec.eq_of_getMsbD_eq
  intro i hi
  exact List.map_inj_left.mp heq i (List.mem_range.mpr hi)

/-- **`huffc` makes the shortest archive.** For every file of bytes other than 255 and every order
`qsort` may give to equal frequencies, the archive is the text of the tree and behind it one
byte for every seven bits of payload; no prefix code for the bytes of the file would need fewer
bytes, and there are never more than for the eight bits of each byte. -/
theorem huffc_shortest (qsort : Qsort TreeNode) (beyond : ℕ → TreeNode)
    (hlen : bytes.length < 2 ^ 31) (h255 : 255 ∉ bytes) (hne : bytes ≠ []) :
    ∃ root ids front payloadBytes, huffman_build_tree qsort beyond bytes = some (root, ids) ∧
      huffc qsort beyond bytes FILE.reliable
        = some (BitVec.ofNat 32 bytes.length, front ++ payloadBytes) ∧
      front = 35 :: (recordsText (recordsOf root) ++ [35]) ∧
      (∃ bits : ℕ, (bits : ℤ) = payload (compute_freq bytes) root ∧
        payloadBytes.length = (bits + 6) / 7) ∧
      (∀ code : Byte → List Bool, PrefixFree bytes.toFinset code →
        payloadBytes.length ≤ ((bytes.flatMap code).length + 6) / 7) ∧
      payloadBytes.length ≤ (8 * bytes.length + 6) / 7 := by
  obtain ⟨root, ids, paths, chunks, hbuild, htree, hpaths, hhuffc, hbits, hsevens⟩ :=
    huffc_sevens qsort beyond hlen h255 hne
  have hsize : (chunks.map packed).length = ((bytes.flatMap paths).length + 6) / 7 := by
    rw [List.length_map, hsevens.length_eq, ← hbits]
  have hshort : ∀ code : Byte → List Bool, PrefixFree bytes.toFinset code →
      (chunks.map packed).length ≤ ((bytes.flatMap code).length + 6) / 7 := by
    intro code hcode
    have hle := paths_shortest qsort beyond hlen h255 hne hbuild htree hpaths hcode
    omega
  have height := hshort eightBits (fun c _ d _ h => eightBits_inj c d h)
  have heightBits : (bytes.flatMap eightBits).length = 8 * bytes.length := by
    simp [List.length_flatMap, eightBits, mul_comm]
  rw [heightBits] at height
  refine ⟨root, ids, 35 :: (recordsText (recordsOf root) ++ [35]), chunks.map packed, hbuild, ?_,
    rfl, ⟨_, htree.payload_eq hlen h255 hpaths, hsize⟩, hshort, height⟩
  rw [hhuffc, List.cons_append, List.append_assoc]
  rfl

/-- The text "abracadabra". -/
theorem huffc_shortest_abracadabra :
    ∃ front payloadBytes, huffc (insertionQsort TreeNode) (fun _ => .null)
        [97, 98, 114, 97, 99, 97, 100, 97, 98, 114, 97] FILE.reliable
        = some (11, front ++ payloadBytes) ∧
      payloadBytes.length ≤ 13 := by
  obtain ⟨-, -, front, payloadBytes, -, hhuffc, -, -, -, hle⟩ :=
    @huffc_shortest [97, 98, 114, 97, 99, 97, 100, 97, 98, 114, 97] (insertionQsort TreeNode)
      (fun _ => .null) (by decide) (by decide) (by decide)
  exact ⟨front, payloadBytes, hhuffc, hle⟩

end File

end ProjectsInC.Huffman
