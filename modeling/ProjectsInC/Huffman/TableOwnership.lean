/-
What the encode table leaves allocated.

`rec_gen_table` gives every node a bit array of its own, frees those of INTERNAL nodes and
leaves those of the leaves in the table, where `table_free` finds them. The entry of a character
is the array of its last leaf ([`rec_gen_table_apply`]), so that an array is lost for every leaf
whose character comes again ([`table_leak_free_iff`]).

A block has a name, and allocating a name that is in use counts as an error too: that two nodes
never share an array is part of what is proved.
-/
import ProjectsInC.Lib.Allocation
import ProjectsInC.Huffman.PrefixCode

set_option autoImplicit false

namespace ProjectsInC.Huffman

open NodeType
open Lib (MemEvent replay replay_append replay_malloc replay_access Allocates Releases Reads)
open Lib.MemEvent

/-! ## Blocks -/

/-- The calls of `fopen` in `huffc`. -/
inductive Stream
  | infile
  /-- The input file once more, in `huffman_build_tree`. -/
  | counted
  | outfile
deriving DecidableEq, Repr

/-- What `malloc` and `fopen` are called for. -/
inductive Block
  | queue
  | node (id : CInt)
  | table
  /-- The `BitArray` with this string. -/
  | array (bits : List Byte)
  /-- Its string. -/
  | bits (bits : List Byte)
  /-- What the call number `i` of `table_bit_encode` returns. -/
  | string (i : ℕ)
  | bfile
  | encoder
  | stream (s : Stream)
deriving DecidableEq, Repr

/-! ## The functions of `table.c`, as far as blocks go -/

/-- `bit_array_new` -/
def bit_array_new_events : List (MemEvent Block) :=
  [malloc (.array []), access (.array []), malloc (.bits []), access (.array []), access (.bits [])]

/-- `bit_array_new_with` -/
def bit_array_new_with_events (b : BitArray) (bit : Byte) : List (MemEvent Block) :=
  let nb := bit_array_new_with b bit
  [malloc (.array nb.bits), access (.array b.bits), access (.array nb.bits), malloc (.bits nb.bits),
    access (.array nb.bits), access (.bits b.bits), access (.bits nb.bits)]

/-- `bit_array_free` -/
def bit_array_free_events (b : BitArray) : List (MemEvent Block) :=
  [access (.array b.bits), free (.bits b.bits), free (.array b.bits)]

/-- `rec_gen_table` -/
def rec_gen_table_events : TreeNode → BitArray → List (MemEvent Block)
  | .null, _ => []
  | .node id INTERNAL _ left right, b =>
      access (.node id) ::
        ((if left = .null then []
          else bit_array_new_with_events b 1 ++ rec_gen_table_events left (bit_array_new_with b 1))
        ++ ((if right = .null then []
          else bit_array_new_with_events b 0 ++ rec_gen_table_events right (bit_array_new_with b 0))
        ++ bit_array_free_events b))
  | .node id LEAF _ _ _, _ => [access (.node id), access .table]

/-- `table_build` -/
def table_build_events (root : TreeNode) : List (MemEvent Block) :=
  malloc .table :: access .table ::
    (bit_array_new_events ++ rec_gen_table_events root bit_array_new)

/-- `table_free` -/
def table_free_events (etab : EncodeTable) : List (MemEvent Block) :=
  (List.range 256).flatMap (fun i =>
    access .table ::
      match etab (BitVec.ofNat 8 i) with
      | none => []
      | some b => bit_array_free_events b)
  ++ [free .table]

/-! ## What belongs to a tree -/

/-- A bit array with its string. -/
def pair (bits : List Byte) : Finset Block := {.array bits, .bits bits}

/-- The nodes of a tree. -/
def nodeBlocks (tree : TreeNode) : Finset Block := tree.ids.toFinset.image Block.node

/-- The bit arrays of its leaves, if its root has the string `bits`. -/
def leafBlocks (tree : TreeNode) (bits : List Byte) : Finset Block :=
  (tree.codes.map (fun p => bits ++ bitText p.2)).toFinset.biUnion pair

section Blocks

variable {tree left right : TreeNode} {bits s t : List Byte} {x : Block}

theorem mem_pair : x ∈ pair bits ↔ x = .array bits ∨ x = .bits bits := by
  simp only [pair, Finset.mem_insert, Finset.mem_singleton]

theorem array_mem_pair (bits : List Byte) : Block.array bits ∈ pair bits := mem_pair.mpr (.inl rfl)

theorem bits_mem_pair (bits : List Byte) : Block.bits bits ∈ pair bits := mem_pair.mpr (.inr rfl)

/-- Different strings are strings of different arrays. -/
theorem pair_disjoint (h : s ≠ t) : Disjoint (pair s) (pair t) := by
  rw [Finset.disjoint_left]
  intro x hs ht
  rw [mem_pair] at hs ht
  rcases hs with rfl | rfl
  · rcases ht with heq | heq
    · exact h (Block.array.inj heq)
    · cases heq
  · rcases ht with heq | heq
    · cases heq
    · exact h (Block.bits.inj heq)

theorem mem_leafBlocks :
    x ∈ leafBlocks tree bits ↔
      ∃ c path, (c, path) ∈ tree.codes ∧ x ∈ pair (bits ++ bitText path) := by
  simp only [leafBlocks, Finset.mem_biUnion, List.mem_toFinset, List.mem_map]
  constructor
  · rintro ⟨_, ⟨⟨c, path⟩, hmem, rfl⟩, hx⟩
    exact ⟨c, path, hmem, hx⟩
  · rintro ⟨c, path, hmem, hx⟩
    exact ⟨_, ⟨(c, path), hmem, rfl⟩, hx⟩

theorem leafBlocks_null : leafBlocks .null bits = ∅ := rfl

theorem leafBlocks_leaf (id : CInt) (freq : Frequency) :
    leafBlocks (.node id LEAF freq left right) bits = pair bits := by
  simp [leafBlocks, TreeNode.codes, bitText]

theorem leafBlocks_internal (id : CInt) (freq : Frequency) :
    leafBlocks (.node id INTERNAL freq left right) bits
      = leafBlocks left (bits ++ [49]) ∪ leafBlocks right (bits ++ [48]) := by
  ext x
  rw [Finset.mem_union]
  simp only [mem_leafBlocks, mem_codes_internal]
  constructor
  · rintro ⟨c, _, ⟨rest, rfl, hmem⟩ | ⟨rest, rfl, hmem⟩, hx⟩
    · exact .inl ⟨c, rest, hmem, by rwa [List.append_assoc]⟩
    · exact .inr ⟨c, rest, hmem, by rwa [List.append_assoc]⟩
  · rintro (⟨c, rest, hmem, hx⟩ | ⟨c, rest, hmem, hx⟩)
    · exact ⟨c, _, .inl ⟨rest, rfl, hmem⟩, by rwa [List.append_assoc] at hx⟩
    · exact ⟨c, _, .inr ⟨rest, rfl, hmem⟩, by rwa [List.append_assoc] at hx⟩

/-- If nothing below a string is allocated, no array of the leaves is. -/
theorem leafBlocks_disjoint {live : Finset Block} (h : ∀ s, Disjoint (pair (bits ++ s)) live) :
    Disjoint (leafBlocks tree bits) live := by
  rw [Finset.disjoint_left]
  intro x hx
  obtain ⟨c, path, -, hpair⟩ := mem_leafBlocks.mp hx
  exact Finset.disjoint_left.mp (h _) hpair

theorem node_mem_nodeBlocks (id : CInt) (type : NodeType) (freq : Frequency) :
    Block.node id ∈ nodeBlocks (.node id type freq left right) := by
  simp [nodeBlocks, TreeNode.ids]

theorem table_not_mem_nodeBlocks (tree : TreeNode) : Block.table ∉ nodeBlocks tree := by
  simp [nodeBlocks]

theorem pair_disjoint_nodeBlocks (s : List Byte) (tree : TreeNode) :
    Disjoint (pair s) (nodeBlocks tree) := by
  simp [Finset.disjoint_left, mem_pair, nodeBlocks]

theorem nodeBlocks_node (id : CInt) (type : NodeType) (freq : Frequency) :
    nodeBlocks (.node id type freq left right)
      = insert (.node id) (nodeBlocks left ∪ nodeBlocks right) := by
  simp only [nodeBlocks, TreeNode.ids, List.toFinset_append, List.toFinset_cons, List.toFinset_nil,
    Finset.image_union, insert_empty_eq, Finset.image_singleton]
  rw [Finset.union_comm, ← Finset.insert_eq]

end Blocks

/-! ## Making the table -/

section Build

variable {b : BitArray} {bit : Byte} {live : Finset Block}

theorem bit_array_free_releases (ctx : Finset Block) (b : BitArray) :
    Releases ctx (pair b.bits) (bit_array_free_events b) := by
  have hbits : Releases (insert (Block.array b.bits) ctx) {Block.bits b.bits}
      [access (.array b.bits), free (.bits b.bits)] := by
    refine Releases.access ?_ (Releases.free _ _)
    exact Finset.mem_union_left _ (Finset.mem_insert_self _ _)
  exact hbits.last (by simp)

/-- The string of a new array is one character longer. -/
theorem bits_new_with (hb : b.len = b.bits.length) (bit : Byte) :
    (bit_array_new_with b bit).bits = b.bits ++ [48 + bit] := by
  rw [bit_array_new_with, hb, List.take_length]

theorem len_new_with (hb : b.len = b.bits.length) (bit : Byte) :
    (bit_array_new_with b bit).len = (bit_array_new_with b bit).bits.length := by
  simp [bit_array_new_with, hb]

theorem bit_array_new_with_allocates (hb : b.len = b.bits.length) (bit : Byte) :
    Allocates (pair b.bits) (pair (b.bits ++ [48 + bit])) (bit_array_new_with_events b bit) := by
  simp only [bit_array_new_with_events, bits_new_with hb]
  -- the two blocks, and between them accesses to what is there
  refine Allocates.malloc_cons ?_ (by simp)
  refine Allocates.access (by simp [pair]) (Allocates.access (by simp) ?_)
  refine Allocates.malloc_cons (A := ∅) ?_ (by simp)
  exact Reads.allocates (by simp [Reads, pair])

/-- The part of `rec_gen_table` for one child. -/
def childEvents (b : BitArray) (bit : Byte) (child : TreeNode) : List (MemEvent Block) :=
  if child = .null then []
  else bit_array_new_with_events b bit ++ rec_gen_table_events child (bit_array_new_with b bit)

theorem rec_gen_table_events_internal (id : CInt) (freq : Frequency) (left right : TreeNode) :
    rec_gen_table_events (.node id INTERNAL freq left right) b
      = access (.node id) ::
        (childEvents b 1 left ++ (childEvents b 0 right ++ bit_array_free_events b)) := rfl

/-- What `rec_gen_table` does to the blocks of a tree: the array it is handed becomes those of the
leaves, if nothing below its string is allocated. -/
def TurnsIntoLeaves (tree : TreeNode) : Prop :=
  ∀ (b : BitArray) (live : Finset Block), b.len = b.bits.length → nodeBlocks tree ⊆ live →
    Block.table ∈ live → pair b.bits ⊆ live → (∀ s ≠ [], Disjoint (pair (b.bits ++ s)) live) →
    replay live (rec_gen_table_events tree b)
      = some (live \ pair b.bits ∪ leafBlocks tree b.bits)

/-- One child, whose string ends with the character `c`. -/
theorem childEvents_replay {child : TreeNode} (h : child ≠ .null → TurnsIntoLeaves child)
    (hb : b.len = b.bits.length) {c : Byte} (hc : 48 + bit = c) (hnodes : nodeBlocks child ⊆ live)
    (htable : Block.table ∈ live) (hown : pair b.bits ⊆ live)
    (hfresh : ∀ s, Disjoint (pair (b.bits ++ [c] ++ s)) live) :
    replay live (childEvents b bit child) = some (live ∪ leafBlocks child (b.bits ++ [c])) := by
  have hbits : (bit_array_new_with b bit).bits = b.bits ++ [c] := by rw [bits_new_with hb, hc]
  rw [childEvents]
  split_ifs with hnull
  · rw [hnull, leafBlocks_null, Finset.union_empty]
    rfl
  · have hnew : Disjoint (pair (b.bits ++ [c])) live := by
      simpa only [List.append_nil] using hfresh []
    have hallocate := bit_array_new_with_allocates hb bit live hown (by rwa [hc])
    have hbelow : ∀ s ≠ [], Disjoint (pair ((bit_array_new_with b bit).bits ++ s))
        (live ∪ pair (b.bits ++ [c])) := by
      intro s hs
      rw [hbits, Finset.disjoint_union_right]
      exact ⟨hfresh s, pair_disjoint fun heq => hs (List.append_right_eq_self.mp heq)⟩
    rw [hc] at hallocate
    rw [replay_append, hallocate, Option.bind_some, h hnull _ _ (len_new_with hb bit)
        (hnodes.trans Finset.subset_union_left) (Finset.mem_union_left _ htable)
        (by rw [hbits]; exact Finset.subset_union_right) hbelow,
      hbits, Finset.union_sdiff_cancel_right hnew.symm]

/-- **`rec_gen_table`** makes no error, and what is left of its arrays are those of the leaves. -/
theorem rec_gen_table_turns {tree : TreeNode} (hnull : tree ≠ .null) : TurnsIntoLeaves tree := by
  induction tree with
  | null => exact absurd rfl hnull
  | node id type freq left right ihl ihr =>
      intro b live hb hnodes htable hown hfresh
      have hid : Block.node id ∈ live := hnodes (node_mem_nodeBlocks id type freq)
      cases type with
      | LEAF =>
          rw [rec_gen_table_events, replay_access hid, replay_access htable, leafBlocks_leaf,
            Finset.sdiff_union_of_subset hown]
          rfl
      | INTERNAL =>
          rw [nodeBlocks_node] at hnodes
          obtain ⟨hl, hr⟩ := Finset.union_subset_iff.mp
            ((Finset.subset_insert _ _).trans hnodes)
          -- the strings of the two children, and of all nodes below them, are different
          have hleft : ∀ s, Disjoint (pair (b.bits ++ [49] ++ s)) live := fun s => by
            rw [List.append_assoc]
            exact hfresh _ (List.cons_ne_nil _ _)
          have hright : ∀ s, Disjoint (pair (b.bits ++ [48] ++ s))
              (live ∪ leafBlocks left (b.bits ++ [49])) := by
            intro s
            rw [Finset.disjoint_union_right]
            refine ⟨?_, (leafBlocks_disjoint fun t => pair_disjoint ?_).symm⟩
            · rw [List.append_assoc]
              exact hfresh _ (List.cons_ne_nil _ _)
            · simp
          have hlonger : ∀ (bit : Byte) (child : TreeNode),
              Disjoint (leafBlocks child (b.bits ++ [bit])) (pair b.bits) := fun bit child =>
            leafBlocks_disjoint fun s => pair_disjoint (by simp)
          have hafter := @childEvents_replay b 1 live left ihl hb 49 rfl hl htable hown hleft
          have hafter' := @childEvents_replay b 0 _ right ihr hb 48 rfl
            (hr.trans Finset.subset_union_left) (Finset.mem_union_left _ htable)
            (hown.trans Finset.subset_union_left) hright
          have hfreed := bit_array_free_releases ∅ b
            (live ∪ leafBlocks left (b.bits ++ [49]) ∪ leafBlocks right (b.bits ++ [48]))
            (Finset.empty_subset _)
            ((hown.trans Finset.subset_union_left).trans Finset.subset_union_left)
          rw [rec_gen_table_events_internal, replay_access hid, replay_append, hafter,
            Option.bind_some, replay_append, hafter', Option.bind_some, hfreed, leafBlocks_internal,
            Finset.union_assoc, Finset.union_sdiff_distrib]
          congr 2
          rw [Finset.sdiff_eq_self_iff_disjoint, Finset.disjoint_union_left]
          exact ⟨hlonger 49 left, hlonger 48 right⟩

/-- **`table_build`** -/
theorem table_build_replay {root : TreeNode} (hroot : root ≠ .null)
    (hnodes : nodeBlocks root ⊆ live) (htable : Block.table ∉ live)
    (hfresh : ∀ s, Disjoint (pair s) live) :
    replay live (table_build_events root) = some (insert .table live ∪ leafBlocks root []) := by
  have hnew : Allocates {Block.table} (pair []) bit_array_new_events := by
    refine Allocates.malloc_cons (Allocates.access (by simp) ?_) (by simp)
    refine Allocates.malloc_cons (A := ∅) ?_ (by simp)
    exact Reads.allocates (by simp [Reads])
  have hfresh' : ∀ s, Disjoint (pair s) (insert .table live) := by
    intro s
    rw [Finset.disjoint_insert_right]
    exact ⟨by simp [mem_pair], hfresh s⟩
  have hbelow : ∀ s ≠ [], Disjoint (pair (bit_array_new.bits ++ s))
      (insert .table live ∪ pair []) := by
    intro s hs
    rw [Finset.disjoint_union_right]
    exact ⟨hfresh' s, pair_disjoint hs⟩
  have hturn : replay (insert .table live ∪ pair []) (rec_gen_table_events root bit_array_new)
      = some ((insert .table live ∪ pair []) \ pair [] ∪ leafBlocks root []) :=
    rec_gen_table_turns hroot bit_array_new _ rfl
      ((hnodes.trans (Finset.subset_insert _ _)).trans Finset.subset_union_left)
      (Finset.mem_union_left _ (Finset.mem_insert_self _ _)) Finset.subset_union_right hbelow
  rw [table_build_events, replay_malloc htable, replay_access (Finset.mem_insert_self _ _),
    replay_append, hnew _ (by simp) (hfresh' []), Option.bind_some, hturn,
    Finset.union_sdiff_cancel_right (hfresh' []).symm]

end Build

/-! ## Freeing it -/

/-- The path to the last leaf with this character. -/
def TreeNode.lastPath (c : Byte) : TreeNode → Option (List Bool)
  | null => none
  | node _ INTERNAL _ left right =>
      ((right.lastPath c).map (false :: ·)).or ((left.lastPath c).map (true :: ·))
  | node _ LEAF freq _ _ => if freq.c = c then some [] else none

section Free

variable {root tree : TreeNode} {c : Byte} {path : List Bool}

theorem mem_codes_of_lastPath (h : tree.lastPath c = some path) : (c, path) ∈ tree.codes := by
  induction tree generalizing path with
  | null => cases h
  | node id type freq left right ihl ihr =>
      cases type with
      | LEAF =>
          rw [TreeNode.lastPath] at h
          split_ifs at h with hc
          obtain rfl := Option.some.inj h
          exact List.mem_singleton.mpr (by rw [hc])
      | INTERNAL =>
          rw [TreeNode.lastPath, Option.or_eq_some_iff] at h
          rw [mem_codes_internal]
          rcases h with h | ⟨-, h⟩
          · obtain ⟨rest, hrest, rfl⟩ := Option.map_eq_some_iff.mp h
            exact .inr ⟨rest, rfl, ihr hrest⟩
          · obtain ⟨rest, hrest, rfl⟩ := Option.map_eq_some_iff.mp h
            exact .inl ⟨rest, rfl, ihl hrest⟩

theorem lastPath_isSome (h : (c, path) ∈ tree.codes) : (tree.lastPath c).isSome := by
  induction h using codes_induct with
  | leaf id v left right => simp [TreeNode.lastPath]
  | left id freq left right path h ih => simp [TreeNode.lastPath, Option.isSome_or, ih]
  | right id freq left right path h ih => simp [TreeNode.lastPath, Option.isSome_or, ih]

/-- **The entry of a character** is the array of its last leaf. -/
theorem rec_gen_table_apply (etab : EncodeTable) {b : BitArray} (hb : b.len = b.bits.length) :
    rec_gen_table etab tree b c
      = ((tree.lastPath c).map
            (fun path => (⟨b.len + path.length, b.bits ++ bitText path⟩ : BitArray))).or
          (etab c) := by
  induction tree generalizing etab b with
  | null => rfl
  | node id type freq left right ihl ihr =>
      cases type with
      | LEAF =>
          rw [rec_gen_table, TreeNode.lastPath]
          by_cases hc : freq.c = c
          · subst hc
            simp [bitText]
          · rw [if_neg hc, Function.update_of_ne (Ne.symm hc)]
            rfl
      | INTERNAL =>
          have hchild : ∀ (bit : Bool) (p : Option (List Bool)),
              p.map (fun path => (⟨(bit_array_new_with b (if bit then 1 else 0)).len + path.length,
                (bit_array_new_with b (if bit then 1 else 0)).bits ++ bitText path⟩ : BitArray))
              = (p.map (bit :: ·)).map
                (fun path => (⟨b.len + path.length, b.bits ++ bitText path⟩ : BitArray)) := by
            intro bit p
            rw [Option.map_map]
            congr 1
            funext path
            exact bit_array_new_with_path hb bit path
          have hl := hchild true (left.lastPath c)
          have hr := hchild false (right.lastPath c)
          simp only [if_true, Bool.false_eq_true, if_false] at hl hr
          rw [rec_gen_table, ihr _ (len_new_with hb 0), ihl _ (len_new_with hb 1), hl, hr,
            TreeNode.lastPath, Option.map_or, Option.or_assoc]

/-- The array an entry of the table points to. -/
def entryBlocks (entry : Option BitArray) : Finset Block :=
  match entry with
  | none => ∅
  | some b => pair b.bits

/-- The arrays of the table. -/
def tableBlocks (etab : EncodeTable) : Finset Block :=
  (List.range 256).toFinset.biUnion (fun i => entryBlocks (etab (BitVec.ofNat 8 i)))

theorem mem_tableBlocks {etab : EncodeTable} {x : Block} :
    x ∈ tableBlocks etab ↔ ∃ c b, etab c = some b ∧ x ∈ pair b.bits := by
  simp only [tableBlocks, Finset.mem_biUnion, List.mem_toFinset, List.mem_range]
  constructor
  · rintro ⟨i, -, hx⟩
    cases hentry : etab (BitVec.ofNat 8 i) with
    | none =>
        rw [hentry] at hx
        exact absurd hx (Finset.notMem_empty x)
    | some b =>
        rw [hentry] at hx
        exact ⟨_, b, hentry, hx⟩
  · rintro ⟨c, b, hentry, hx⟩
    refine ⟨c.toNat, c.isLt, ?_⟩
    rw [BitVec.ofNat_toNat, BitVec.setWidth_eq, hentry]
    exact hx

/-- **`table_free`** frees the arrays of a table whose entries have different strings. -/
theorem table_free_releases {etab : EncodeTable}
    (hinj : ∀ c c' b b', etab c = some b → etab c' = some b' → b.bits = b'.bits → c = c') :
    Releases ∅ (insert .table (tableBlocks etab)) (table_free_events etab) := by
  refine Releases.last ?_ (by simp [mem_tableBlocks, mem_pair])
  have hround : ∀ i ∈ List.range 256, Releases {Block.table} (entryBlocks (etab (BitVec.ofNat 8 i)))
      (access .table :: match etab (BitVec.ofNat 8 i) with
        | none => []
        | some b => bit_array_free_events b) := by
    intro i _
    refine Releases.access (Finset.mem_union_left _ (Finset.mem_singleton_self _)) ?_
    cases etab (BitVec.ofNat 8 i) with
    | none => exact Releases.nil _
    | some b => exact bit_array_free_releases _ b
  rw [tableBlocks]
  refine (Releases.flatMap List.nodup_range hround ?_ ?_).mono (by simp)
  · intro i _
    cases etab (BitVec.ofNat 8 i) with
    | none => exact Finset.disjoint_empty_right _
    | some b => simp [entryBlocks, pair]
  · intro i hi j hj hne
    cases hentry : etab (BitVec.ofNat 8 i) with
    | none => exact Finset.disjoint_empty_left _
    | some b =>
        cases hentry' : etab (BitVec.ofNat 8 j) with
        | none => exact Finset.disjoint_empty_right _
        | some b' =>
            refine pair_disjoint (fun heq => hne ?_)
            have hsame := congrArg BitVec.toNat (hinj _ _ _ _ hentry hentry' heq)
            rwa [BitVec.toNat_ofNat, BitVec.toNat_ofNat, Nat.mod_eq_of_lt (List.mem_range.mp hi),
              Nat.mod_eq_of_lt (List.mem_range.mp hj)] at hsame

-- nobody is to compute the union of 256 sets from here on
attribute [irreducible] tableBlocks

theorem bitText_injective : Function.Injective bitText :=
  List.map_injective_iff.mpr (by decide)

/-- The table that `table_build` returns. -/
def rootTable (root : TreeNode) : EncodeTable := rec_gen_table (fun _ => none) root bit_array_new

theorem table_build_root (hroot : root ≠ .null) : table_build root = some (rootTable root) :=
  if_neg hroot

/-- Its entries. -/
theorem table_entry {b : BitArray} (h : rootTable root c = some b) :
    ∃ path, root.lastPath c = some path ∧ b.bits = bitText path := by
  rw [rootTable, rec_gen_table_apply _ rfl, Option.or_none] at h
  obtain ⟨path, hpath, rfl⟩ := Option.map_eq_some_iff.mp h
  exact ⟨path, hpath, rfl⟩

theorem table_entries_differ {c' : Byte} {b b' : BitArray}
    (h : rootTable root c = some b)
    (h' : rootTable root c' = some b')
    (heq : b.bits = b'.bits) : c = c' := by
  obtain ⟨path, hpath, hbits⟩ := table_entry h
  obtain ⟨path', hpath', hbits'⟩ := table_entry h'
  have hsame : path = path' := bitText_injective (by rw [← hbits, ← hbits', heq])
  exact char_of_isPrefix (mem_codes_of_lastPath hpath) (mem_codes_of_lastPath hpath')
    (hsame ▸ List.prefix_rfl)

theorem rootTable_free_releases (root : TreeNode) :
    Releases ∅ (insert .table (tableBlocks (rootTable root)))
      (table_free_events (rootTable root)) :=
  table_free_releases (fun _ _ _ _ => table_entries_differ)

theorem mem_tableBlocks_root {x : Block} :
    x ∈ tableBlocks (rootTable root)
      ↔ ∃ c path, root.lastPath c = some path ∧ x ∈ pair (bitText path) := by
  rw [mem_tableBlocks]
  constructor
  · rintro ⟨c, b, hentry, hx⟩
    obtain ⟨path, hpath, hbits⟩ := table_entry hentry
    exact ⟨c, path, hpath, hbits ▸ hx⟩
  · rintro ⟨c, path, hpath, hx⟩
    refine ⟨c, ⟨0 + path.length, bitText path⟩, ?_, hx⟩
    rw [rootTable, rec_gen_table_apply _ rfl, hpath]
    rfl

theorem tableBlocks_subset (root : TreeNode) :
    tableBlocks (rootTable root) ⊆ leafBlocks root [] := by
  intro x hx
  rw [mem_tableBlocks_root] at hx
  obtain ⟨c, path, hlast, hpair⟩ := hx
  exact mem_leafBlocks.mpr ⟨c, path, mem_codes_of_lastPath hlast, hpair⟩

/-- With different characters nothing is overwritten. -/
theorem tableBlocks_of_nodup (h : root.chars.Nodup) :
    tableBlocks (rootTable root) = leafBlocks root [] := by
  ext x
  rw [mem_tableBlocks_root, mem_leafBlocks]
  constructor
  · rintro ⟨c, path, hpath, hx⟩
    exact ⟨c, path, mem_codes_of_lastPath hpath, hx⟩
  · rintro ⟨c, path, hmem, hx⟩
    obtain ⟨path', hpath'⟩ := Option.isSome_iff_exists.mp (lastPath_isSome hmem)
    have hsame := List.inj_on_of_nodup_map h (mem_codes_of_lastPath hpath') hmem rfl
    exact ⟨c, path, by rw [hpath', (Prod.mk.inj hsame).2], hx⟩

/-- The arrays that another leaf's has replaced in the table. -/
def lostBlocks (root : TreeNode) : Finset Block :=
  ((root.codes.filter (fun p => root.lastPath p.1 ≠ some p.2)).map
    (fun p => bitText p.2)).toFinset.biUnion pair

theorem mem_lostBlocks {x : Block} :
    x ∈ lostBlocks root ↔ ∃ c path, (c, path) ∈ root.codes ∧ root.lastPath c ≠ some path ∧
      x ∈ pair (bitText path) := by
  simp only [lostBlocks, Finset.mem_biUnion, List.mem_toFinset, List.mem_map, List.mem_filter,
    decide_eq_true_eq]
  constructor
  · rintro ⟨_, ⟨⟨c, path⟩, ⟨hmem, hlast⟩, rfl⟩, hx⟩
    exact ⟨c, path, hmem, hlast, hx⟩
  · rintro ⟨c, path, hmem, hlast, hx⟩
    exact ⟨_, ⟨(c, path), ⟨hmem, hlast⟩, rfl⟩, hx⟩

theorem leafBlocks_sdiff_tableBlocks (root : TreeNode) :
    leafBlocks root [] \ tableBlocks (rootTable root)
      = lostBlocks root := by
  ext x
  rw [Finset.mem_sdiff, mem_leafBlocks, mem_tableBlocks_root, mem_lostBlocks]
  constructor
  · rintro ⟨⟨c, path, hmem, hx⟩, hnot⟩
    exact ⟨c, path, hmem, fun hlast => hnot ⟨c, path, hlast, hx⟩, hx⟩
  · rintro ⟨c, path, hmem, hlast, hx⟩
    refine ⟨⟨c, path, hmem, hx⟩, ?_⟩
    rintro ⟨c', path', hlast', hx'⟩
    -- one block belongs to one string, and that to one leaf
    have hsame : path' = path := by
      by_contra hne
      exact Finset.disjoint_left.mp (pair_disjoint fun h => hne (bitText_injective h)) hx' hx
    obtain rfl := char_of_isPrefix (mem_codes_of_lastPath hlast') hmem (hsame ▸ List.prefix_rfl)
    exact hlast (hsame ▸ hlast')

theorem nodup_codes (tree : TreeNode) : tree.codes.Nodup := by
  induction tree with
  | null => exact List.nodup_nil
  | node id type freq left right ihl ihr =>
      cases type with
      | LEAF => exact List.nodup_singleton _
      | INTERNAL =>
          have hinj : ∀ bit : Bool, Function.Injective
              (fun p : Byte × List Bool => (p.1, bit :: p.2)) := by
            intro bit p q heq
            obtain ⟨hchar, hcons⟩ := Prod.mk.inj heq
            exact Prod.ext hchar (List.cons.inj hcons).2
          refine List.nodup_append.mpr ⟨ihl.map (hinj true), ihr.map (hinj false), ?_⟩
          intro p hp q hq heq
          obtain ⟨_, -, rfl⟩ := List.mem_map.mp hp
          obtain ⟨_, -, rfl⟩ := List.mem_map.mp hq
          exact absurd (List.cons.inj (Prod.mk.inj heq).2).1 (by decide)

/-- Nothing is lost exactly if the characters are different. -/
theorem lostBlocks_eq_empty_iff : lostBlocks root = ∅ ↔ root.chars.Nodup := by
  constructor
  · intro hnone
    have hlast : ∀ p ∈ root.codes, root.lastPath p.1 = some p.2 := by
      rintro ⟨c, path⟩ hmem
      by_contra hlast
      have hlost := mem_lostBlocks.mpr ⟨c, path, hmem, hlast, array_mem_pair _⟩
      rw [hnone] at hlost
      exact Finset.notMem_empty _ hlost
    refine (List.nodup_map_iff_inj_on (nodup_codes root)).mpr ?_
    intro p hp q hq heq
    have hsame := hlast p hp
    rw [heq, hlast q hq] at hsame
    exact Prod.ext heq (Option.some.inj hsame).symm
  · intro hnodup
    rw [← leafBlocks_sdiff_tableBlocks, tableBlocks_of_nodup hnodup, Finset.sdiff_self]

/-- **What an encode table leaks.** For any tree, `table_build` and `table_free` access and free
nothing that is not allocated, and leave the array and the string of every leaf whose character
comes again: nothing if and only if the characters of the leaves are different. -/
theorem table_leak_free_iff (hroot : root ≠ .null) :
    ∃ etab, table_build root = some etab ∧
      replay (nodeBlocks root) (table_build_events root ++ table_free_events etab)
        = some (nodeBlocks root ∪ lostBlocks root) ∧
      (lostBlocks root = ∅ ↔ root.chars.Nodup) := by
  refine ⟨_, table_build_root hroot, ?_, lostBlocks_eq_empty_iff⟩
  have hbuilt := table_build_replay hroot Finset.Subset.rfl (table_not_mem_nodeBlocks root)
    (fun s => pair_disjoint_nodeBlocks s root)
  have hfreed := rootTable_free_releases root (insert .table (nodeBlocks root) ∪ leafBlocks root [])
    (Finset.empty_subset _) (by
      rw [Finset.insert_union]
      exact Finset.insert_subset_insert _
        ((tableBlocks_subset root).trans Finset.subset_union_right))
  have hnodes : Disjoint (nodeBlocks root) (insert .table (tableBlocks (rootTable root))) := by
    rw [Finset.disjoint_insert_right]
    exact ⟨table_not_mem_nodeBlocks root, Finset.disjoint_of_subset_right (tableBlocks_subset root)
      (leafBlocks_disjoint fun s => pair_disjoint_nodeBlocks _ root).symm⟩
  have hleaf : Block.table ∉ leafBlocks root [] := by simp [mem_leafBlocks, mem_pair]
  rw [replay_append, hbuilt, Option.bind_some, hfreed, ← leafBlocks_sdiff_tableBlocks,
    Finset.union_sdiff_distrib, Finset.insert_sdiff_of_mem _ (Finset.mem_insert_self _ _),
    Finset.sdiff_eq_self_of_disjoint hnodes, Finset.sdiff_insert, Finset.erase_eq_of_notMem]
  exact fun hmem => hleaf (Finset.mem_sdiff.mp hmem).1

/-- A tree with one character at two leaves. -/
theorem table_leak_free_iff_twice :
    ∃ etab, table_build (.node 3 INTERNAL ⟨2, 0⟩ (.node 1 LEAF ⟨1, 97⟩ .null .null)
        (.node 2 LEAF ⟨1, 97⟩ .null .null)) = some etab ∧
      lostBlocks (.node 3 INTERNAL ⟨2, 0⟩ (.node 1 LEAF ⟨1, 97⟩ .null .null)
        (.node 2 LEAF ⟨1, 97⟩ .null .null)) ≠ ∅ := by
  obtain ⟨etab, hetab, -, hlost⟩ := table_leak_free_iff
    (show TreeNode.node 3 INTERNAL ⟨2, 0⟩ (.node 1 LEAF ⟨1, 97⟩ .null .null)
      (.node 2 LEAF ⟨1, 97⟩ .null .null) ≠ .null by decide)
  refine ⟨etab, hetab, ?_⟩
  rw [ne_eq, hlost]
  decide

end Free

end ProjectsInC.Huffman
