/-
An archive that was cut off anywhere.

In the tree the cut leaves whole records and part of one. Of that part `fscanf` takes six
numbers at most when only the last of them, the id of the right child, is cut
([`scanRecord_cut`]), and no '#' follows, so the parser returns NULL unless it dereferences one
on the way. It would have to find a single node on the list that is both children of the
record; but that node is the one of the record before, and no record of a tree names the one
before as its left child ([`linked_recordsOf`]). Behind the tree the cut loses bits, so not
all of the file can come out ([`Payload.cut_bits`]).
-/
import ProjectsInC.Huffman.ParserSafety
import ProjectsInC.Huffman.Truncation

set_option autoImplicit false

namespace ProjectsInC.Huffman

open NodeType

variable {wide : ℤ → CInt}

/-- A text of two that was cut off is part of the first, or the first and part of the second. -/
theorem cut_append {α : Type*} {kept first second : List α} (h : kept <+: first ++ second) :
    kept <+: first ∨ ∃ rest, kept = first ++ rest ∧ rest <+: second := by
  rcases List.prefix_or_prefix_of_prefix h (List.prefix_append first second) with hcut | hwhole
  · exact .inl hcut
  · obtain ⟨rest, rfl⟩ := hwhole
    exact .inr ⟨rest, rfl, (List.prefix_append_right_inj first).mp h⟩

/-! ## Part of a number -/

/-- No number can be read from these bytes, or nothing is left behind it. -/
def ReadsAll (wide : ℤ → CInt) (s : List Byte) : Prop :=
  ∀ x rest, scanInt wide s = some (x, rest) → rest = []

theorem scanInt_space (s : List Byte) : scanInt wide (32 :: s) = scanInt wide s := by
  rw [scanInt, List.dropWhile_cons_of_pos (by decide), scanInt]

/-- Digits are read to the last one. -/
theorem scanNat_digits {s rest : List Byte} {n : ℕ} (hs : ∀ b ∈ s, isDigit b = true)
    (h : scanNat s = some (n, rest)) : rest = [] := by
  unfold scanNat at h
  split_ifs at h
  obtain ⟨-, rfl⟩ := Prod.mk.inj (Option.some.inj h)
  exact List.dropWhile_eq_nil_iff.mpr hs

/-- A sign or a digit, and then digits. -/
theorem readsAll_digits {b : Byte} {s : List Byte} (hb : b = 45 ∨ isDigit b = true)
    (hs : ∀ d ∈ s, isDigit d = true) : ReadsAll wide (b :: s) := by
  intro x rest h
  have hspace : isSpace b = false := by
    rcases hb with rfl | hb
    · rfl
    · exact (isDigit_spec b hb).1
  rw [scanInt, List.dropWhile_cons_of_neg (by simp [hspace])] at h
  simp only at h
  split_ifs at h with hminus hplus
  · obtain ⟨⟨n, left⟩, hscan, heq⟩ := Option.map_eq_some_iff.mp h
    obtain ⟨-, rfl⟩ := Prod.mk.inj heq
    exact scanNat_digits hs hscan
  · obtain ⟨⟨n, left⟩, hscan, heq⟩ := Option.map_eq_some_iff.mp h
    obtain ⟨-, rfl⟩ := Prod.mk.inj heq
    exact scanNat_digits hs hscan
  · obtain ⟨⟨n, left⟩, hscan, heq⟩ := Option.map_eq_some_iff.mp h
    obtain ⟨-, rfl⟩ := Prod.mk.inj heq
    refine scanNat_digits ?_ hscan
    intro d hd
    rcases List.mem_cons.mp hd with rfl | hd
    · exact hb.resolve_left hminus
    · exact hs d hd

/-- **Part of a number** is read to its end, if at all. -/
theorem readsAll_part {x : CInt} {part : List Byte} (h : part <+: intText x) :
    ReadsAll wide part := by
  have hdigits := natText_digits x.toInt.natAbs
  cases part with
  | nil =>
      intro y rest hscan
      cases hscan
  | cons b part =>
      rw [intText] at h
      split_ifs at h
      · obtain ⟨rfl, hpart⟩ := List.cons_prefix_cons.mp h
        exact readsAll_digits (.inl rfl) (fun d hd => hdigits d (hpart.subset hd))
      · exact readsAll_digits (.inr (hdigits b (h.subset List.mem_cons_self)))
          (fun d hd => hdigits d (h.subset (List.mem_cons_of_mem b hd)))

/-- If a second number is read from a text that was cut off, the first was not cut. -/
theorem scanInt_cut {x y z : CInt} {tail part s rest : List Byte}
    (hpart : part <+: intText x ++ 32 :: tail) (h : scanInt wide part = some (y, s))
    (hnext : scanInt wide s = some (z, rest)) :
    ∃ tail', part = intText x ++ 32 :: tail' ∧ tail' <+: tail ∧ y = x ∧
      scanInt wide tail' = some (z, rest) := by
  have hstop : part <+: intText x → False := by
    intro hcut
    rw [readsAll_part hcut y s h] at hnext
    cases hnext
  rcases cut_append hpart with hcut | ⟨more, rfl, hmore⟩
  · exact absurd hcut hstop
  · cases more with
    | nil => exact absurd (by rw [List.append_nil]) hstop
    | cons b tail' =>
        obtain ⟨rfl, htail⟩ := List.cons_prefix_cons.mp hmore
        rw [scanInt_intText x (noDigit_cons (by decide) tail')] at h
        obtain ⟨rfl, rfl⟩ := Prod.mk.inj (Option.some.inj h)
        exact ⟨tail', rfl, htail, rfl, by rwa [scanInt_space] at hnext⟩

/-! ## Part of a record -/

/-- **Part of a record** is not scanned, or as a record with another right child. -/
theorem scanRecord_cut {r r' : Record} {fp fp' : FILE} (hpart : fp.rest <+: r.text)
    (hne : fp.rest ≠ r.text) (h : scanRecord wide fp = some (r', fp')) :
    r'.id = r.id ∧ r'.left = r.left ∧ fp'.rest = [] := by
  unfold scanRecord at h
  simp only [Option.bind_eq_bind, Option.bind_eq_some_iff] at h
  obtain ⟨⟨_, s₁⟩, h₁, ⟨_, s₂⟩, h₂, ⟨_, s₃⟩, h₃, ⟨_, s₄⟩, h₄, ⟨_, s₅⟩, h₅, ⟨_, s₆⟩, h₆, heq⟩ := h
  obtain ⟨rfl, rfl⟩ := Prod.mk.inj (Option.some.inj heq)
  unfold Record.text at hpart hne
  obtain ⟨t₁, htext, hpart₁, -, h₂⟩ := scanInt_cut hpart h₁ h₂
  obtain ⟨t₂, rfl, hpart₂, hid, h₃⟩ := scanInt_cut hpart₁ h₂ h₃
  obtain ⟨t₃, rfl, hpart₃, -, h₄⟩ := scanInt_cut hpart₂ h₃ h₄
  obtain ⟨t₄, rfl, hpart₄, -, h₅⟩ := scanInt_cut hpart₃ h₄ h₅
  obtain ⟨t₅, rfl, hpart₅, hleft, h₆⟩ := scanInt_cut hpart₄ h₅ h₆
  -- the comma behind the last number is what is missing at least
  have hcut : t₅ <+: intText r.right := by
    rcases List.prefix_concat_iff.mp hpart₅ with rfl | hcut
    · exact absurd htext hne
    · exact hcut
  refine ⟨hid, hleft, ?_⟩
  rw [readsAll_part hcut _ _ h₆]
  rfl

theorem scanRecord_end {fp : FILE} (h : fp.rest = []) : scanRecord wide fp = none := by
  rw [scanRecord, h]
  rfl

theorem scanRecords_end {fp : FILE} (h : fp.rest = []) (fuel : ℕ) :
    scanRecords wide fuel fp = ([], false) := by
  cases fuel with
  | zero => rfl
  | succ fuel =>
      rw [scanRecords, scanRecord_end h]

/-- A record with nothing behind it is the last one. -/
theorem scanRecords_last {fp fp' : FILE} {r : Record} (h : scanRecord wide fp = some (r, fp'))
    (hend : fp'.rest = []) (fuel : ℕ) : scanRecords wide (fuel + 1) fp = ([r], false) := by
  have heof : ungetc (((EOF.setWidth 8 : Byte)).signExtend 32) fp' = fp' := if_pos (by decide)
  have hdelim : ¬ (EOF.setWidth 8 : Byte) = 35 := by decide
  rw [scanRecords, h]
  simp only [fgetc_reading_nil fp' hend, if_neg hdelim, heof, scanRecords_end hend]

/-- A record that something stands behind, but no '#'. -/
theorem scanRecords_more {fp fp' : FILE} {r : Record} (h : scanRecord wide fp = some (r, fp'))
    {b : Byte} {rest : List Byte} (hrest : fp'.rest = b :: rest) (hhash : b ≠ 35) (h255 : b ≠ 255)
    (fuel : ℕ) :
    scanRecords wide (fuel + 1) fp
      = (r :: (scanRecords wide fuel fp').1, (scanRecords wide fuel fp').2) := by
  have hback : { fp' with rest := b :: rest } = fp' := by rw [← hrest]
  rw [scanRecords, h]
  simp only [fgetc_cons hrest, setWidth_byte, if_neg hhash, ungetc_char h255, hback]

/-- What the machine on ids needs of a record besides the id of the right child. -/
def Record.link (r : Record) : CInt × CInt := (r.id, r.left)

/-- Behind a record that was not cut there is a digit or a minus sign, if there is anything. -/
theorem recordsText_head {rs : List Record} {b : Byte} {rest : List Byte}
    (h : b :: rest <+: recordsText rs) : b ≠ 35 ∧ b ≠ 255 := by
  cases rs with
  | nil => exact absurd (List.prefix_nil.mp h) (List.cons_ne_nil _ _)
  | cons r rs =>
      obtain ⟨b', rest', htext, hhash, h255⟩ := text_head r
      rw [recordsText, List.flatMap_cons, htext, List.cons_append] at h
      obtain ⟨rfl, -⟩ := List.cons_prefix_cons.mp h
      exact ⟨hhash, h255⟩

/-- **Records that were cut off**: those scanned are the first, up to the right child of the last
one, and no '#' closes them. -/
theorem scanRecords_cut {rs : List Record} {fp : FILE} {fuel : ℕ}
    (hpart : fp.rest <+: recordsText rs) (hfuel : fp.rest.length < fuel) :
    (scanRecords wide fuel fp).2 = false ∧
      (scanRecords wide fuel fp).1.map Record.link <+: rs.map Record.link := by
  induction rs generalizing fp fuel with
  | nil =>
      rw [scanRecords_end (List.prefix_nil.mp hpart)]
      exact ⟨rfl, List.nil_prefix⟩
  | cons r rs ih =>
      obtain ⟨fuel, rfl⟩ := Nat.exists_eq_add_of_le' (Nat.one_le_of_lt hfuel)
      have hall : recordsText (r :: rs) = r.text ++ recordsText rs := rfl
      rw [hall] at hpart
      by_cases hwhole : r.text <+: fp.rest
      · obtain ⟨more, hmore⟩ := hwhole
        rw [← hmore, List.prefix_append_right_inj] at hpart
        have hscan := @scanRecord_text wide r _ _ hmore.symm
        cases more with
        | nil =>
            rw [scanRecords_last hscan rfl]
            exact ⟨rfl, List.cons_prefix_cons.mpr ⟨rfl, List.nil_prefix⟩⟩
        | cons b more =>
            obtain ⟨hhash, h255⟩ := recordsText_head hpart
            rw [scanRecords_more hscan rfl hhash h255]
            obtain ⟨hopen, hlink⟩ := @ih { fp with rest := b :: more } fuel hpart (by
              have hshort := scanRecord_shorter hscan
              exact Nat.lt_of_lt_of_le hshort (Nat.le_of_lt_succ hfuel))
            exact ⟨hopen, List.cons_prefix_cons.mpr ⟨rfl, hlink⟩⟩
      · have hcut : fp.rest <+: r.text := by
          rcases cut_append hpart with hcut | ⟨more, htext, -⟩
          · exact hcut
          · exact absurd ⟨more, htext.symm⟩ hwhole
        have hne : fp.rest ≠ r.text := fun heq => hwhole (heq ▸ List.prefix_refl _)
        cases hscan : scanRecord wide fp with
        | none =>
            rw [scanRecords, hscan]
            exact ⟨rfl, List.nil_prefix⟩
        | some scanned =>
            obtain ⟨r', fp'⟩ := scanned
            obtain ⟨hid, hleft, hend⟩ := scanRecord_cut hcut hne hscan
            rw [scanRecords_last hscan hend]
            refine ⟨rfl, List.cons_prefix_cons.mpr ⟨?_, List.nil_prefix⟩⟩
            rw [Record.link, Record.link, hid, hleft]

/-! ## The machine on ids -/

/-- The ids on the list behind a record, if the first is not that of its left child. -/
theorem addId_of_head {ids : List CInt} {r : Record} (h : ids.head? ≠ some r.left) :
    ∃ left, addId ids r = some (r.id :: left) := by
  cases ids with
  | nil => exact ⟨[], rfl⟩
  | cons id ids =>
      have hne : id ≠ r.left := fun heq => h (congrArg some heq)
      have hhits : r.hits id ≠ 2 := by
        rw [Record.hits, if_neg hne]
        split_ifs <;> decide
      exact ⟨_, by rw [addId, takeOff, if_neg (fun hboth => hhits hboth.1), Option.map_some]⟩

/-- No record names the one before it as its left child. -/
def Linked (links : List (CInt × CInt)) : Prop := links.IsChain (fun l l' => l.1 ≠ l'.2)

/-- **The machine gets through** such records. -/
theorem foldlM_addId_linked {rs : List Record} {ids : List CInt}
    (h : Linked (rs.map Record.link)) (hhead : ∀ r ∈ rs.head?, ids.head? ≠ some r.left) :
    ∃ ids', rs.foldlM addId ids = some ids' := by
  induction rs generalizing ids with
  | nil => exact ⟨ids, rfl⟩
  | cons r rs ih =>
      obtain ⟨left, hadd⟩ := addId_of_head (hhead r rfl)
      obtain ⟨hnext, hrest⟩ := List.isChain_cons.mp h
      obtain ⟨ids', hfold⟩ := @ih (r.id :: left) hrest (by
        intro r' hr'
        have hmem : r'.link ∈ (rs.map Record.link).head? := by
          rw [List.head?_map]
          exact Option.mem_map_of_mem _ hr'
        exact fun heq => hnext _ hmem (Option.some.inj heq))
      refine ⟨ids', ?_⟩
      rw [List.foldlM_cons, hadd]
      exact hfold

/-- The first record of a tree is that of a leaf. -/
theorem head_recordsOf {tree : TreeNode} (h : Full tree) :
    ∃ r rs, recordsOf tree = r :: rs ∧ r.left = 0 := by
  induction h with
  | leaf id freq => exact ⟨_, [], rfl, rfl⟩
  | internal id freq hleft hright ihl ihr =>
      obtain ⟨r, rs, hrecords, hzero⟩ := ihl
      exact ⟨r, _, by rw [recordsOf, hrecords, List.cons_append, List.cons_append], hzero⟩

/-- The last is that of the root. -/
theorem last_recordsOf {tree : TreeNode} (h : Full tree) :
    ∃ rs r, recordsOf tree = rs ++ [r] ∧ r.id = tree.idOr0 := by
  cases h with
  | leaf id freq => exact ⟨[], _, rfl, rfl⟩
  | internal id freq hleft hright => exact ⟨_, _, rfl, rfl⟩

/-- **The records of a tree** do not. -/
theorem linked_recordsOf {tree : TreeNode} (h : Full tree) (hnodup : tree.ids.Nodup)
    (hzero : 0 ∉ tree.ids) : Linked ((recordsOf tree).map Record.link) := by
  induction h with
  | leaf id freq => exact List.isChain_singleton _
  | @internal id freq left right hleft hright ihl ihr =>
      rw [TreeNode.ids, List.nodup_append, List.nodup_append] at hnodup
      obtain ⟨⟨hl, hr, hapart⟩, -, -⟩ := hnodup
      rw [TreeNode.ids, List.mem_append, List.mem_append, not_or, not_or] at hzero
      obtain ⟨⟨hzl, hzr⟩, -⟩ := hzero
      -- the first record of the right subtree has no children, and the root's left child is the
      -- root of the left subtree, while the record before is that of the right one
      obtain ⟨first, rest, hfirst, hnone⟩ := head_recordsOf hright
      obtain ⟨restl, lastl, hlastl, hidl⟩ := last_recordsOf hleft
      obtain ⟨restr, lastr, hlastr, hidr⟩ := last_recordsOf hright
      have hrootl : left.idOr0 ≠ 0 := fun heq => hzl (heq ▸ hleft.root_mem)
      have hroots : right.idOr0 ≠ left.idOr0 := fun heq =>
        hapart _ hleft.root_mem _ hright.root_mem heq.symm
      unfold Linked at ihl ihr ⊢
      rw [recordsOf, List.map_append, List.map_append, List.isChain_append, List.isChain_append]
      refine ⟨⟨ihl hl hzl, ihr hr hzr, ?_⟩, List.isChain_singleton _, ?_⟩
      · intro x hx y hy
        rw [hlastl, List.map_append, List.map_singleton, List.getLast?_concat,
          Option.mem_some_iff] at hx
        rw [hfirst, List.map_cons, List.head?_cons, Option.mem_some_iff] at hy
        rw [← hx, ← hy, Record.link, Record.link, hidl, hnone]
        exact hrootl
      · intro x hx y hy
        rw [hlastr, List.map_append, List.map_singleton, ← List.append_assoc, List.getLast?_concat,
          Option.mem_some_iff] at hx
        rw [List.map_singleton, List.head?_cons, Option.mem_some_iff] at hy
        rw [← hx, ← hy, Record.link, Record.link, hidr]
        exact hroots

/-! ## Part of an archive -/

/-- **A tree that was cut off** in front of its last '#' is refused. -/
theorem tree_deserialize_cut {tree : TreeNode} (hfull : Full tree) (hnodup : tree.ids.Nodup)
    (hzero : 0 ∉ tree.ids) {fp : FILE} (hcut : fp.rest <+: 35 :: recordsText (recordsOf tree)) :
    tree_deserialize wide fp = .ok none := by
  cases hrest : fp.rest with
  | nil =>
      unfold tree_deserialize
      rw [hrest]
  | cons b rest =>
      rw [hrest] at hcut
      obtain ⟨rfl, hpart⟩ := List.cons_prefix_cons.mp hcut
      obtain ⟨hopen, hlink⟩ := @scanRecords_cut wide _ { fp with rest := rest } _ hpart
        (Nat.lt_succ_self rest.length)
      have hlinked : Linked ((scanRecords wide (rest.length + 1) { fp with rest := rest }).1.map
          Record.link) := List.IsChain.prefix (linked_recordsOf hfull hnodup hzero) hlink
      obtain ⟨ids, hids⟩ := @foldlM_addId_linked _ [] hlinked (fun _ _ h => nomatch h)
      have hloop := deserialize_outcome wide { fp with rest := rest }
      rw [hids, hopen] at hloop
      have hnull : deserializeLoop wide (rest.length + 1) Heap.empty { fp with rest := rest }
          = .ok none := hloop
      rw [tree_deserialize_hash hrest, hnull]
      rfl

/-- There is no decoder then. -/
theorem huffd_cut_tree {tree : TreeNode} (hfull : Full tree) (hnodup : tree.ids.Nodup)
    (hzero : 0 ∉ tree.ids) {kept : List Byte} (hcut : kept <+: 35 :: recordsText (recordsOf tree))
    (fuel : ℕ) (outfile : FILE) : huffd wide fuel (FILE.reading kept) outfile = .ok none := by
  have hparse := @tree_deserialize_cut wide tree hfull hnodup hzero (FILE.reading kept) hcut
  rw [huffd, decoder_new_eq, hparse]
  rfl

/-- Part of a payload holds the first of its bits, and not all of them. -/
theorem Payload.cut_bits {bytes kept : List Byte} {bits : List Bool} (h : Payload bytes bits)
    (hkept : kept <+: bytes) (hne : kept ≠ bytes) :
    ∃ bits', Payload kept bits' ∧ bits' <+: bits ∧ bits' ≠ bits := by
  obtain ⟨chunks, rfl, rfl, hchunks⟩ := h
  obtain ⟨rest, hrest⟩ := hkept
  obtain ⟨first, last, rfl, rfl, rfl⟩ := List.map_eq_append_iff.mp hrest.symm
  refine ⟨first.flatten, ⟨first, rfl, rfl, fun chunk h => hchunks chunk (List.mem_append_left _ h)⟩,
    ⟨last.flatten, List.flatten_append.symm⟩, ?_⟩
  intro heq
  rw [List.flatten_append, List.self_eq_append_right, List.flatten_eq_nil_iff] at heq
  cases last with
  | nil => exact hne (by rw [List.append_nil])
  | cons chunk last =>
      exact (hchunks chunk (by simp)).1 (heq chunk List.mem_cons_self)

/-- **No part of an archive is mistaken for the whole.** If an archive of a file was cut off in
its tree, `huffd` says that there is no decoder; if it was cut off behind the tree, `huffd` ends and
what it has written are the first bytes of the file, but never all of them. -/
theorem huffd_cut (wide : ℤ → CInt) (qsort : Qsort TreeNode) (beyond : ℕ → TreeNode)
    {bytes : List Byte} (hlen : bytes.length < 2 ^ 31) (h255 : 255 ∉ bytes)
    (hmany : ∃ x ∈ bytes, ∃ y ∈ bytes, x ≠ y) :
    ∃ result root ids payload, huffman_build_tree qsort beyond bytes = some (root, ids) ∧
      huffc qsort beyond bytes FILE.reliable
        = some (result, (tree_serialize root FILE.reliable).2.written ++ payload) ∧
      (∀ kept, kept <+: (tree_serialize root FILE.reliable).2.written →
        kept ≠ (tree_serialize root FILE.reliable).2.written →
        ∀ fuel, huffd wide fuel (FILE.reading kept) FILE.reliable = .ok none) ∧
      ∀ kept, kept <+: payload → ∃ out, out <+: bytes ∧ (out = bytes ↔ kept = payload) ∧
        ∀ fuel > bytes.length,
          huffd wide fuel (FILE.reading ((tree_serialize root FILE.reliable).2.written ++ kept))
            FILE.reliable = .ok (some out) := by
  have hne : bytes ≠ [] := by
    obtain ⟨x, hx, -⟩ := hmany
    exact List.ne_nil_of_mem hx
  obtain ⟨root, ids, code, archive, hbuild, htree, hcode, hhuffc, payload, rfl, hpayload⟩ :=
    huffc_spec qsort beyond hlen h255 hne
  have hleaves := htree.two_le_leaves h255 hmany
  have hroot := noCharacter_nil htree.full hleaves
  have hheader := written_tree_serialize root
  have harchive : ∀ kept, (tree_serialize root FILE.reliable).2.written ++ kept
      = 35 :: (recordsText (recordsOf root) ++ 35 :: kept) := by
    intro kept
    rw [hheader, List.cons_append, List.append_assoc]
    rfl
  refine ⟨BitVec.ofNat 32 bytes.length, root, ids, payload, hbuild, ?_, ?_, ?_⟩
  · rw [harchive]
    exact hhuffc
  · intro kept hkept hwhole fuel
    rw [hheader, ← List.cons_append] at hkept hwhole
    exact huffd_cut_tree htree.full htree.nodup_ids htree.zero_not_mem
      ((List.prefix_concat_iff.mp hkept).resolve_left hwhole) fuel FILE.reliable
  · intro kept hkept
    by_cases hwhole : kept = payload
    · subst hwhole
      refine ⟨bytes, List.prefix_refl _, iff_of_true rfl rfl, fun fuel hfuel => ?_⟩
      refine huffd_spec ⟨kept, harchive kept, ?_⟩ hroot htree.full hleaves htree.nodup_ids
        htree.zero_not_mem hcode h255 hfuel
      rwa [List.append_nil]
    · obtain ⟨bits, hkeptBits, hbits, hless⟩ := hpayload.cut_bits hkept hwhole
      obtain ⟨out, tail, hout, rfl, htail⟩ := cut_paths hroot hcode hbits
      refine ⟨out, hout, iff_of_false ?_ hwhole, fun fuel hfuel => ?_⟩
      · rintro rfl
        -- all paths are there, so no bit is missing
        have hend := hbits.eq_of_length_le (by rw [List.length_append]; exact Nat.le_add_right _ _)
        exact hless hend
      · have hless := hout.length_le.trans_lt hfuel
        exact huffd_spec ⟨kept, harchive kept, hkeptBits⟩ htail htree.full hleaves htree.nodup_ids
          htree.zero_not_mem (fun c hc => hcode c (hout.subset hc)) (fun h => h255 (hout.subset h))
          hless

/-- The text "abab". -/
theorem huffd_cut_abab :
    ∃ result root ids payload, huffman_build_tree (insertionQsort TreeNode) (fun _ => .null)
        [97, 98, 97, 98] = some (root, ids) ∧
      huffc (insertionQsort TreeNode) (fun _ => .null) [97, 98, 97, 98] FILE.reliable
        = some (result, (tree_serialize root FILE.reliable).2.written ++ payload) ∧
      (∀ kept, kept <+: (tree_serialize root FILE.reliable).2.written →
        kept ≠ (tree_serialize root FILE.reliable).2.written →
        ∀ fuel, huffd saturate fuel (FILE.reading kept) FILE.reliable = .ok none) ∧
      ∀ kept, kept <+: payload → ∃ out, out <+: [97, 98, 97, 98] ∧
        (out = [97, 98, 97, 98] ↔ kept = payload) ∧ ∀ fuel > 4,
          huffd saturate fuel (FILE.reading ((tree_serialize root FILE.reliable).2.written ++ kept))
            FILE.reliable = .ok (some out) :=
  huffd_cut saturate (insertionQsort TreeNode) (fun _ => .null) (by decide) (by decide)
    ⟨97, by decide, 98, by decide, by decide⟩

end ProjectsInC.Huffman
