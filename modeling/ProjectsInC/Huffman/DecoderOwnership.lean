/-
Who frees what in `huffd`.

The parser of trees allocates a node for each record and frees none, so whatever is in the archive
all its pointers lead to allocated nodes ([`Closed`]), and the walks of the decoder stay among them.
`tree_free` then frees the nodes below the root in the order of its walk: an error exactly if it
meets one twice, and a leak of the nodes that are not below the root ([`huffd_memory`]). The archive
`huffc` writes has neither ([`huffd_frees_all`]).
-/
import ProjectsInC.Huffman.RoundTrip
import ProjectsInC.Huffman.Sharing
import ProjectsInC.Lib.Allocation

set_option autoImplicit false

namespace ProjectsInC.Huffman

open NodeType
open Lib (Chain Cell Child Falling MemEvent replay replay_append replay_malloc replay_access
  replay_free Reads Releases)
open Lib.MemEvent

namespace Huffd

variable {wide : ℤ → CInt}

/-- What `malloc` and `fopen` are called for in `huffd`. -/
inductive Block
  | infile
  | bfile
  | outfile
  | decoder
  /-- The node of the record number `a`. -/
  | node (a : ℕ)
deriving DecidableEq, Repr

/-! ## The parser -/

/-- "Adjust pointers to remove the child node from the list." -/
def unlink_events (list : Chain ℕ) (p : Option ℕ) (c : ℕ) : List (MemEvent Block) :=
  match p with
  | none => (list.head.map (fun head => access (.node head))).toList
  | some p => [access (.node c), access (.node p)]

/-- One of the two `if`s of the search, for the new node `n`. -/
def takeChild_events (nodes : ℕ → HeapNode) (child : CInt) (n : ℕ) (list : Chain ℕ) (p : Option ℕ)
    (c : ℕ) : List (MemEvent Block) :=
  access (.node c) ::
    if (nodes c).id = child then access (.node n) :: unlink_events list p c else []

/-- The search for the children of the new node. -/
def findChildren_events (nodes : ℕ → HeapNode) (r : Record) (new : ℕ) :
    ℕ → HeapNode → Chain ℕ → Option ℕ → Option ℕ → List (MemEvent Block)
  | _, _, _, _, none => []
  | 0, _, _, _, some _ => []
  | fuel + 1, n, list, p, some c =>
      takeChild_events nodes r.left new list p c ++
        match takeChild nodes r.left n { n with left := some c } list p c with
        | .error _ => []
        | .ok (n, list) =>
            takeChild_events nodes r.right new list p c ++
              match takeChild nodes r.right n { n with right := some c } list p c with
              | .error _ => []
              | .ok (n, list) =>
                  access (.node c) ::
                    findChildren_events nodes r new fuel n list (some c) (list.next c)

/-- What the main loop does with a record. -/
def addRecord_events (heap : Heap) (r : Record) : List (MemEvent Block) :=
  malloc (.node heap.size) :: access (.node heap.size) ::
    (findChildren_events heap.node r heap.size heap.size (newNode r) heap.list none heap.list.head
      ++ match addRecord heap r with
        | .error _ => []
        | .ok _ => [access (.node heap.size)])

/-- The main loop. -/
def deserializeLoop_events (wide : ℤ → CInt) : ℕ → Heap → FILE → List (MemEvent Block)
  | 0, _, _ => []
  | fuel + 1, heap, fp =>
      access .infile ::
        match scanRecord wide fp with
        | none => []
        | some (r, fp) =>
            addRecord_events heap r ++
              match addRecord heap r with
              | .error _ => []
              | .ok heap =>
                  let (c, fp) := fgetc fp
                  let delim : Byte := c.setWidth 8
                  access .infile ::
                    if delim = 35 then []
                    else access .infile ::
                      deserializeLoop_events wide fuel heap (ungetc (delim.signExtend 32) fp)

/-- "Reset all next pointers to NULL." -/
def clearNext_events : ℕ → Chain ℕ → Option ℕ → Option ℕ → List (MemEvent Block)
  | _, _, none, none => []
  | _, _, some p, none => [access (.node p)]
  | 0, _, _, some _ => []
  | fuel + 1, list, p, some c =>
      let list' := match p with
        | none => list
        | some p => list.set (.next p) none
      (p.map (fun p => access (.node p))).toList
        ++ access (.node c) :: clearNext_events fuel list' (some c) (list'.next c)

/-- `tree_deserialize` -/
def tree_deserialize_events (wide : ℤ → CInt) (fp : FILE) : List (MemEvent Block) :=
  access .infile ::
    match fp.rest with
    | [] => []
    | delim :: rest =>
        if delim ≠ 35 then []
        else
          deserializeLoop_events wide (rest.length + 1) Heap.empty { fp with rest := rest } ++
            match deserializeLoop wide (rest.length + 1) Heap.empty { fp with rest := rest } with
            | .ok (some (heap, _)) =>
                match heap.list.head with
                | none => []
                | some head =>
                    access (.node head) ::
                      clearNext_events heap.size heap.list none (heap.list.next head)
            | _ => []

/-! ## The decoder -/

/-- `bits_io_read_bit` -/
def bits_io_read_bit_events (bfile : BitsIOFile) : List (MemEvent Block) :=
  access .bfile :: if bfile.byte = ALL_BITS_READ then [access .infile] else []

/-- The walk of `decode_one` from the pointer `p` on. -/
def decodeFrom_events (nodes : ℕ → HeapNode) :
    ℕ → Option ℕ → BitsIOFile → List (MemEvent Block)
  | _, none, _ => []
  | 0, some _, _ => []
  | depth + 1, some a, bfile =>
      access (.node a) ::
        match (nodes a).type with
        | LEAF => [access (.node a)]
        | INTERNAL =>
            let (bit, bfile') := bits_io_read_bit bfile
            bits_io_read_bit_events bfile ++
              if bit = EOF then []
              else access (.node a) ::
                decodeFrom_events nodes depth
                  (if bit = 1 then (nodes a).left else (nodes a).right) bfile'

/-- `decoder_decode`, with the tree below the node `root`. -/
def decoder_decode_events (heap : Heap) (root : ℕ) : ℕ → Decoder → List (MemEvent Block)
  | 0, _ => []
  | fuel + 1, decoder =>
      let (ch, decoder') := decode_one decoder
      access .decoder ::
        (decodeFrom_events heap.node heap.size (some root) decoder.bfile ++
          if ch = EOF then []
          else access .decoder :: access .outfile ::
            decoder_decode_events heap root fuel
              { decoder' with outfp := (fprintf [ch.setWidth 8] decoder'.outfp).2 })

/-- `tree_free` -/
def tree_free_events (nodes : ℕ → HeapNode) : ℕ → Option ℕ → List (MemEvent Block)
  | _, none => []
  | 0, some _ => []
  | depth + 1, some a =>
      access (.node a) :: (tree_free_events nodes depth (nodes a).left
        ++ (access (.node a) :: (tree_free_events nodes depth (nodes a).right ++ [free (.node a)])))

/-- `bits_io_close`, of a file that was read. -/
def bits_io_close_events : List (MemEvent Block) :=
  [access .bfile, access .infile, free .infile, free .bfile]

/-- `decoder_free` -/
def decoder_free_events (heap : Heap) (root : ℕ) : List (MemEvent Block) :=
  access .decoder :: (bits_io_close_events ++
    (access .decoder :: (tree_free_events heap.node heap.size (some root)
      ++ [access .decoder, free .outfile, free .decoder])))

/-- `main` of `huffd`, with `decoder_new`. -/
def huffd_events (wide : ℤ → CInt) (fuel : ℕ) (archive outfp : FILE) : List (MemEvent Block) :=
  [malloc .infile, malloc .bfile, access .bfile, malloc .outfile, malloc .decoder, access .decoder,
    access .bfile] ++ (tree_deserialize_events wide archive ++
    match tree_deserialize wide archive with
    | .error _ => []
    | .ok none => access .decoder :: bits_io_close_events
    | .ok (some (heap, root, fp)) =>
        let new : Decoder :=
          ⟨outfp, bits_io_open fp 114, treeAt heap.node heap.size (some root)⟩
        access .decoder :: (decoder_decode_events heap root fuel new ++
          match decoder_decode fuel new with
          | .error _ => []
          | .ok _ => decoder_free_events heap root))

/-! ## Pointers to nodes -/

/-- The nodes made so far. -/
def madeNodes (n : ℕ) : Finset Block := (Finset.range n).image Block.node

theorem node_mem_madeNodes {a n : ℕ} : Block.node a ∈ madeNodes n ↔ a < n := by
  simp [madeNodes]

theorem madeNodes_succ (n : ℕ) : madeNodes (n + 1) = insert (Block.node n) (madeNodes n) := by
  rw [madeNodes, madeNodes, Finset.range_add_one, Finset.image_insert]

/-- The variable `head` and the fields `next` of the first `n` nodes lead to such nodes. -/
structure Closed (list : Chain ℕ) (n : ℕ) : Prop where
  head : ∀ a ∈ list.head, a < n
  next : ∀ a < n, ∀ b ∈ list.next a, b < n

section Pointers

variable {list list' : Chain ℕ} {n : ℕ} {p : Option ℕ} {c : ℕ} {live : Finset Block}

theorem Closed.set_next (h : Closed list n) {q : Option ℕ} (hq : ∀ a ∈ q, a < n) (a : ℕ) :
    Closed (list.set (.next a) q) n := by
  refine ⟨h.head, fun b hb => ?_⟩
  simp only [Chain.set, Function.update_apply]
  split_ifs
  · exact hq
  · exact h.next b hb

theorem Closed.unlink (h : Closed list n) (hc : c < n)
    (hok : Huffman.unlink list p c = .ok list') : Closed list' n := by
  unfold Huffman.unlink at hok
  cases p with
  | none =>
      cases hhead : list.head with
      | none =>
          rw [hhead] at hok
          cases hok
      | some head =>
          rw [hhead] at hok
          cases hok
          exact ⟨h.next head (h.head head hhead), h.next⟩
  | some p =>
      cases hok
      exact h.set_next (h.next c hc) p

theorem Closed.takeChild (h : Closed list n) (hc : c < n) {nodes : ℕ → HeapNode} {child : CInt}
    {m m' m₁ : HeapNode} (hok : Huffman.takeChild nodes child m m' list p c = .ok (m₁, list')) :
    Closed list' n := by
  unfold Huffman.takeChild at hok
  split_ifs at hok
  · cases hunlink : Huffman.unlink list p c with
    | error e =>
        rw [hunlink] at hok
        cases hok
    | ok list₁ =>
        rw [hunlink] at hok
        cases hok
        exact h.unlink hc hunlink
  · cases hok
    exact h

/-- What one of the two `if`s reads. -/
theorem Closed.reads_takeChild (h : Closed list n) (hlive : madeNodes n ⊆ live) (hc : c < n)
    (hp : ∀ a ∈ p, a < n) {new : ℕ} (hnew : Block.node new ∈ live) (nodes : ℕ → HeapNode)
    (child : CInt) : Reads live (takeChild_events nodes child new list p c) := by
  have hmade : ∀ a < n, Block.node a ∈ live := fun a ha => hlive (node_mem_madeNodes.mpr ha)
  refine Reads.cons ?_ (hmade c hc)
  split_ifs
  · refine Reads.cons ?_ hnew
    cases p with
    | none =>
        cases hhead : list.head with
        | none =>
            rw [unlink_events, hhead]
            exact Reads.nil live
        | some head =>
            rw [unlink_events, hhead]
            exact (Reads.nil live).cons (hmade head (h.head head hhead))
    | some p => exact ((Reads.nil live).cons (hmade p (hp p rfl))).cons (hmade c hc)
  · exact Reads.nil live

/-- **The search** reads nodes that have been made. -/
theorem Closed.reads_findChildren (h : Closed list n) (hlive : madeNodes n ⊆ live)
    (hp : ∀ a ∈ p, a < n) {q : Option ℕ} (hq : ∀ a ∈ q, a < n) {new : ℕ}
    (hnew : Block.node new ∈ live) (nodes : ℕ → HeapNode) (r : Record) (fuel : ℕ) (m : HeapNode) :
    Reads live (findChildren_events nodes r new fuel m list p q) ∧
      ∀ m' list', findChildren nodes r fuel m list p q = .ok (m', list') → Closed list' n := by
  induction fuel generalizing m list p q with
  | zero =>
      cases q with
      | none =>
          refine ⟨Reads.nil live, fun m' list' hok => ?_⟩
          cases hok
          exact h
      | some c => exact ⟨Reads.nil live, fun _ _ hok => by cases hok⟩
  | succ fuel ih =>
      cases q with
      | none =>
          refine ⟨Reads.nil live, fun m' list' hok => ?_⟩
          cases hok
          exact h
      | some c =>
          have hc := hq c rfl
          have hfirst := h.reads_takeChild hlive hc hp hnew nodes r.left
          rw [findChildren_events, findChildren]
          simp only [bind, Except.bind]
          cases hleft : Huffman.takeChild nodes r.left m { m with left := some c } list p c with
          | error e => exact ⟨hfirst.append (Reads.nil live), fun _ _ hok => by cases hok⟩
          | ok found =>
              obtain ⟨m₁, list₁⟩ := found
              have h₁ := h.takeChild hc hleft
              have hsecond := h₁.reads_takeChild hlive hc hp hnew nodes r.right
              simp only
              cases hright : Huffman.takeChild nodes r.right m₁ { m₁ with right := some c } list₁ p
                  c with
              | error e =>
                  exact ⟨hfirst.append (hsecond.append (Reads.nil live)),
                    fun _ _ hok => by cases hok⟩
              | ok found =>
                  obtain ⟨m₂, list₂⟩ := found
                  have h₂ := h₁.takeChild hc hright
                  have hself : ∀ a ∈ some c, a < n := fun a ha => Option.some.inj ha ▸ hc
                  obtain ⟨hrest, hclosed⟩ := ih h₂ hself (h₂.next c hc) m₂
                  have hnode : Block.node c ∈ live := hlive (node_mem_madeNodes.mpr hc)
                  exact ⟨hfirst.append (hsecond.append (hrest.cons hnode)), hclosed⟩

/-- The last loop, too. -/
theorem Closed.reads_clearNext (h : Closed list n) (hlive : madeNodes n ⊆ live)
    (hp : ∀ a ∈ p, a < n) {q : Option ℕ} (hq : ∀ a ∈ q, a < n) (fuel : ℕ) :
    Reads live (clearNext_events fuel list p q) := by
  have hmade : ∀ a < n, Block.node a ∈ live := fun a ha => hlive (node_mem_madeNodes.mpr ha)
  have hlast : ∀ fuel, Reads live (clearNext_events fuel list p none) := by
    intro fuel
    cases p with
    | none => cases fuel <;> exact Reads.nil live
    | some a => cases fuel <;> exact (Reads.nil live).cons (hmade a (hp a rfl))
  induction fuel generalizing list p q with
  | zero =>
      cases q with
      | none => exact hlast 0
      | some c => cases p <;> exact Reads.nil live
  | succ fuel ih =>
      cases q with
      | none => exact hlast _
      | some c =>
          have hc := hq c rfl
          have hself : ∀ a ∈ some c, a < n := fun a ha => Option.some.inj ha ▸ hc
          have hstep : ∀ list', Closed list' n →
              Reads live (access (.node c) :: clearNext_events fuel list' (some c)
                (list'.next c)) := by
            intro list' h'
            refine Reads.cons (ih h' hself (h'.next c hc) ?_) (hmade c hc)
            intro fuel
            cases fuel <;> exact (Reads.nil live).cons (hmade c hc)
          cases p with
          | none => exact hstep list h
          | some a =>
              have hcut := h.set_next (fun _ hb => absurd hb (Option.not_mem_none _)) a
              exact (hstep _ hcut).cons (hmade a (hp a rfl))

end Pointers

/-! ## The blocks of the parser -/

/-- The records the parser scans. -/
def recordsIn (wide : ℤ → CInt) (fp : FILE) : List Record :=
  match fp.rest with
  | [] => []
  | delim :: rest =>
      if delim ≠ 35 then [] else (scanRecords wide (rest.length + 1) { fp with rest := rest }).1

theorem closed_empty : Closed Heap.empty.list Heap.empty.size :=
  ⟨fun _ h => absurd h (Option.not_mem_none _), fun _ h => absurd h (Nat.not_lt_zero _)⟩

section Parser

variable {heap heap' : Heap} {r : Record} {base : Finset Block} {fp fp' : FILE} {fuel : ℕ}

theorem Closed.push {n : HeapNode} {list : Chain ℕ} (h : Closed list heap.size) :
    Closed (heap.push n list).list (heap.push n list).size := by
  refine ⟨fun a ha => ?_, fun a ha b hb => ?_⟩
  · obtain rfl : heap.size = a := Option.some.inj ha
    exact Nat.lt_succ_self _
  · simp only [Heap.push, Chain.set, Function.update_apply] at hb
    split_ifs at hb with hnew
    · exact Nat.lt_succ_of_lt (h.head b hb)
    · have ha' : a < heap.size := lt_of_le_of_ne (Nat.le_of_lt_succ ha) hnew
      exact Nat.lt_succ_of_lt (h.next a ha' b hb)

/-- **A record** has one more node allocated. -/
theorem addRecord_replay (h : Closed heap.list heap.size) (hbase : ∀ a, Block.node a ∉ base)
    (hadd : addRecord heap r = .ok heap') :
    Closed heap'.list heap'.size ∧ heap'.size = heap.size + 1 ∧
      replay (base ∪ madeNodes heap.size) (addRecord_events heap r)
        = some (base ∪ madeNodes heap'.size) := by
  have hfresh : Block.node heap.size ∉ base ∪ madeNodes heap.size := by
    rw [Finset.mem_union, node_mem_madeNodes]
    exact fun hmem => hmem.elim (hbase _) (Nat.lt_irrefl _)
  have hlive : madeNodes heap.size ⊆ insert (Block.node heap.size) (base ∪ madeNodes heap.size) :=
    Finset.subset_union_right.trans (Finset.subset_insert _ _)
  have hnew := Finset.mem_insert_self (Block.node heap.size) (base ∪ madeNodes heap.size)
  obtain ⟨hreads, hclosed⟩ := h.reads_findChildren hlive
    (fun a ha => absurd ha (Option.not_mem_none a)) h.head hnew heap.node r heap.size (newNode r)
  rw [addRecord_events, hadd, replay_malloc hfresh,
    ((hreads.append ((Reads.nil _).cons hnew)).cons hnew).replay, ← Finset.union_insert,
    ← madeNodes_succ]
  unfold addRecord at hadd
  cases hfind : findChildren heap.node r heap.size (newNode r) heap.list none heap.list.head with
  | error e =>
      rw [hfind] at hadd
      cases hadd
  | ok found =>
      rw [hfind] at hadd
      obtain rfl := Except.ok.inj hadd
      exact ⟨(hclosed _ _ hfind).push, rfl, rfl⟩

/-- **The main loop** has a node allocated for every record. -/
theorem deserializeLoop_replay (h : Closed heap.list heap.size)
    (hbase : ∀ a, Block.node a ∉ base) (hfile : Block.infile ∈ base)
    {result : Option (Heap × FILE)} (hok : deserializeLoop wide fuel heap fp = .ok result) :
    replay (base ∪ madeNodes heap.size) (deserializeLoop_events wide fuel heap fp)
        = some (base ∪ madeNodes (heap.size + (scanRecords wide fuel fp).1.length)) ∧
      ∀ heap' fp', result = some (heap', fp') → Closed heap'.list heap'.size ∧
        heap'.size = heap.size + (scanRecords wide fuel fp).1.length := by
  induction fuel generalizing heap fp with
  | zero => cases hok
  | succ fuel ih =>
      have hread : ∀ n, Block.infile ∈ base ∪ madeNodes n :=
        fun n => Finset.mem_union_left _ hfile
      rw [deserializeLoop] at hok
      rw [deserializeLoop_events, scanRecords, replay_access (hread _)]
      cases hscan : scanRecord wide fp with
      | none =>
          rw [hscan] at hok
          obtain rfl := Except.ok.inj hok
          exact ⟨rfl, fun _ _ heq => by cases heq⟩
      | some scanned =>
          obtain ⟨r, fp₁⟩ := scanned
          rw [hscan] at hok
          simp only [bind, Except.bind] at hok ⊢
          cases hadd : addRecord heap r with
          | error e =>
              rw [hadd] at hok
              cases hok
          | ok heap₁ =>
              rw [hadd] at hok
              simp only at hok ⊢
              obtain ⟨h₁, hsize, hreplay⟩ := @addRecord_replay heap heap₁ r base h hbase hadd
              rw [replay_append, hreplay, Option.bind_some, replay_access (hread _)]
              split_ifs at hok ⊢ with hhash
              · obtain rfl := Except.ok.inj hok
                refine ⟨by rw [hsize]; rfl, fun heap' fp' heq => ?_⟩
                obtain ⟨rfl, -⟩ := Prod.mk.inj (Option.some.inj heq)
                exact ⟨h₁, hsize⟩
              · obtain ⟨hrest, hresult⟩ := ih h₁ hok
                have hlen : ∀ rs : List Record,
                    heap₁.size + rs.length = heap.size + (r :: rs).length := by
                  intro rs
                  rw [hsize, List.length_cons]
                  omega
                rw [replay_access (hread _), hrest, ← hlen]
                exact ⟨rfl, fun heap' fp' heq => hlen _ ▸ hresult heap' fp' heq⟩

/-- What is behind the main loop reads nodes that have been made. -/
theorem Closed.reads_finish {live : Finset Block} (h : Closed heap.list heap.size)
    (hlive : madeNodes heap.size ⊆ live) {head : ℕ} (hhead : heap.list.head = some head) :
    Reads live (access (.node head) ::
      clearNext_events heap.size heap.list none (heap.list.next head)) := by
  have hlt := h.head head hhead
  have hreads := h.reads_clearNext hlive (fun a ha => absurd ha (Option.not_mem_none a))
    (h.next head hlt) heap.size
  exact hreads.cons (hlive (node_mem_madeNodes.mpr hlt))

/-- **The parser** leaves a node allocated for every record, also where it returns NULL. -/
theorem tree_deserialize_replay (hbase : ∀ a, Block.node a ∉ base) (hfile : Block.infile ∈ base)
    {result : Option (Heap × ℕ × FILE)} (hok : tree_deserialize wide fp = .ok result) :
    replay base (tree_deserialize_events wide fp)
        = some (base ∪ madeNodes (recordsIn wide fp).length) ∧
      ∀ heap root fp', result = some (heap, root, fp') →
        heap.size = (recordsIn wide fp).length := by
  have hnone : base ∪ madeNodes 0 = base := Finset.union_empty base
  have hzero : Heap.empty.size = 0 := rfl
  rw [tree_deserialize_events, replay_access hfile, recordsIn]
  cases hrest : fp.rest with
  | nil =>
      rw [tree_deserialize, hrest] at hok
      obtain rfl := Except.ok.inj hok
      exact ⟨congrArg some hnone.symm, fun _ _ _ heq => by cases heq⟩
  | cons delim rest =>
      simp only
      split_ifs with hdelim
      · rw [tree_deserialize, hrest] at hok
        simp only [if_pos hdelim] at hok
        obtain rfl := Except.ok.inj hok
        exact ⟨congrArg some hnone.symm, fun _ _ _ heq => by cases heq⟩
      · rw [not_ne_iff] at hdelim
        rw [hdelim] at hrest
        rw [tree_deserialize_hash hrest] at hok
        cases hloop : deserializeLoop wide (rest.length + 1) Heap.empty { fp with rest := rest } with
        | error e =>
            rw [hloop] at hok
            cases hok
        | ok found =>
            rw [hloop] at hok
            have hfinish : finish found = .ok result := hok
            obtain ⟨hreplay, hresult⟩ :=
              @deserializeLoop_replay wide Heap.empty base _ _ closed_empty hbase hfile _ hloop
            rw [hzero, hnone, Nat.zero_add] at hreplay
            rw [replay_append, hreplay, Option.bind_some]
            cases found with
            | none =>
                obtain rfl := Except.ok.inj hfinish
                exact ⟨rfl, fun _ _ _ heq => by cases heq⟩
            | some found =>
                obtain ⟨heap, fp₁⟩ := found
                obtain ⟨hclosed, hsize⟩ := hresult heap fp₁ rfl
                rw [hzero, Nat.zero_add] at hsize
                rw [← hsize]
                refine ⟨?_, fun heap' root fp' heq => (finish_some (heq ▸ hfinish)).1⟩
                cases hhead : heap.list.head with
                | none => simp only [hhead, Lib.replay_nil]
                | some head =>
                    simp only [hhead]
                    exact (hclosed.reads_finish Finset.subset_union_right hhead).replay

end Parser

/-! ## The blocks of the decoder -/

section Decoder

variable {heap : Heap} {n root : ℕ} {live : Finset Block}

theorem reads_decodeFrom (hfall : Falling heap.left heap.right n) (hlive : madeNodes n ⊆ live)
    (hbfile : Block.bfile ∈ live) (hfile : Block.infile ∈ live) (depth : ℕ) {q : Option ℕ}
    (hq : ∀ a ∈ q, a < n) (bf : BitsIOFile) :
    Reads live (decodeFrom_events heap.node depth q bf) := by
  induction depth generalizing q bf with
  | zero => cases q <;> exact Reads.nil live
  | succ depth ih =>
      cases q with
      | none => exact Reads.nil live
      | some a =>
          have ha := hq a rfl
          have hnode : Block.node a ∈ live := hlive (node_mem_madeNodes.mpr ha)
          have hbit : Reads live (bits_io_read_bit_events bf) := by
            refine Reads.cons ?_ hbfile
            split_ifs
            · exact (Reads.nil live).cons hfile
            · exact Reads.nil live
          have hchild : ∀ b, Child heap.left heap.right a b → b < n := fun b hb =>
            (hfall.child ha hb).1
          rw [decodeFrom_events]
          refine Reads.cons ?_ hnode
          cases (heap.node a).type with
          | LEAF => exact (Reads.nil live).cons hnode
          | INTERNAL =>
              rcases bits_io_read_bit bf with ⟨bit, bf'⟩
              refine hbit.append ?_
              split_ifs
              · exact Reads.nil live
              · exact (ih (fun b hb => hchild b (.inl hb)) _).cons hnode
              · exact (ih (fun b hb => hchild b (.inr hb)) _).cons hnode

theorem reads_decoder_decode (hfall : Falling heap.left heap.right heap.size)
    (hroot : root < heap.size) (hlive : madeNodes heap.size ⊆ live) (hbfile : Block.bfile ∈ live)
    (hfile : Block.infile ∈ live) (hout : Block.outfile ∈ live) (hdecoder : Block.decoder ∈ live)
    (fuel : ℕ) (decoder : Decoder) :
    Reads live (decoder_decode_events heap root fuel decoder) := by
  induction fuel generalizing decoder with
  | zero => exact Reads.nil live
  | succ fuel ih =>
      have hself : ∀ a ∈ some root, a < heap.size := fun a ha => Option.some.inj ha ▸ hroot
      have hwalk := reads_decodeFrom hfall hlive hbfile hfile heap.size hself decoder.bfile
      rw [decoder_decode_events]
      refine Reads.cons (hwalk.append ?_) hdecoder
      split_ifs
      · exact Reads.nil live
      · exact ((ih _).cons hout).cons hdecoder

end Decoder

/-! ## `tree_free` -/

section Free

variable {nodes : ℕ → HeapNode} {depth : ℕ} {p : Option ℕ} {freed : List ℕ}

/-- The nodes below a node are those below its children, and the node. -/
theorem tree_free_some {a : ℕ} (h : tree_free nodes (depth + 1) (some a) = .ok freed) :
    ∃ xs ys, tree_free nodes depth (nodes a).left = .ok xs ∧
      tree_free nodes depth (nodes a).right = .ok ys ∧ freed = xs ++ ys ++ [a] := by
  rw [tree_free] at h
  cases hleft : tree_free nodes depth (nodes a).left with
  | error e =>
      rw [hleft] at h
      cases h
  | ok xs =>
      cases hright : tree_free nodes depth (nodes a).right with
      | error e =>
          rw [hleft, hright] at h
          cases h
      | ok ys =>
          rw [hleft, hright] at h
          exact ⟨xs, ys, rfl, rfl, (Except.ok.inj h).symm⟩

theorem tree_free_none (h : tree_free nodes depth none = .ok freed) : freed = [] := by
  cases depth <;> exact (Except.ok.inj h).symm

/-- The blocks in the order they are freed. -/
theorem freedBlocks_tree_free (h : tree_free nodes depth p = .ok freed) :
    Lib.freedBlocks (tree_free_events nodes depth p) = freed.map Block.node ∧
      ∀ x, .malloc x ∉ tree_free_events nodes depth p := by
  induction depth generalizing p freed with
  | zero =>
      cases p with
      | none =>
          rw [tree_free_none h]
          exact ⟨rfl, fun _ => List.not_mem_nil⟩
      | some a => cases h
  | succ depth ih =>
      cases p with
      | none =>
          rw [tree_free_none h]
          exact ⟨rfl, fun _ => List.not_mem_nil⟩
      | some a =>
          obtain ⟨xs, ys, hleft, hright, rfl⟩ := tree_free_some h
          obtain ⟨hxs, hnewl⟩ := ih hleft
          obtain ⟨hys, hnewr⟩ := ih hright
          constructor
          · rw [tree_free_events, Lib.freedBlocks, Lib.freedBlocks_append, Lib.freedBlocks,
              Lib.freedBlocks_append, hxs, hys, List.map_append, List.map_append, List.append_assoc]
            rfl
          · intro x hx
            simp only [tree_free_events, List.mem_cons, List.mem_append, reduceCtorEq, false_or,
              List.not_mem_nil, or_false] at hx
            exact hx.elim (hnewl x) (hnewr x)

/-- The blocks of some nodes. -/
def nodeSet (l : List ℕ) : Finset Block := l.toFinset.image Block.node

theorem mem_nodeSet {l : List ℕ} {a : ℕ} : Block.node a ∈ nodeSet l ↔ a ∈ l := by
  simp [nodeSet]

theorem nodeSet_append (l l' : List ℕ) : nodeSet (l ++ l') = nodeSet l ∪ nodeSet l' := by
  rw [nodeSet, List.toFinset_append, Finset.image_union]
  rfl

theorem nodeSet_singleton (a : ℕ) : nodeSet [a] = {Block.node a} := by
  simp [nodeSet]

theorem nodeSet_disjoint {l l' : List ℕ} (h : ∀ a ∈ l, a ∉ l') :
    Disjoint (nodeSet l) (nodeSet l') := by
  rw [nodeSet, nodeSet, Finset.disjoint_image (fun _ _ heq => Block.node.inj heq),
    Finset.disjoint_left]
  intro a ha ha'
  exact h a (List.mem_toFinset.mp ha) (List.mem_toFinset.mp ha')

/-- A walk that meets no node twice frees what it meets. -/
theorem tree_free_releases (h : tree_free nodes depth p = .ok freed) (hnodup : freed.Nodup) :
    Releases ∅ (nodeSet freed) (tree_free_events nodes depth p) := by
  induction depth generalizing p freed with
  | zero =>
      cases p with
      | none =>
          rw [tree_free_none h]
          exact Releases.nil ∅
      | some a => cases h
  | succ depth ih =>
      cases p with
      | none =>
          rw [tree_free_none h]
          exact Releases.nil ∅
      | some a =>
          obtain ⟨xs, ys, hleft, hright, rfl⟩ := tree_free_some h
          obtain ⟨hchildren, -, hself⟩ := List.nodup_append.mp hnodup
          obtain ⟨hxs, hys, hdisj⟩ := List.nodup_append.mp hchildren
          have hax : a ∉ xs := fun ha =>
            hself a (List.mem_append_left _ ha) a List.mem_cons_self rfl
          have hay : a ∉ ys := fun ha =>
            hself a (List.mem_append_right _ ha) a List.mem_cons_self rfl
          have hapart : Disjoint (nodeSet xs) (nodeSet ys) :=
            nodeSet_disjoint fun b hb hb' => hdisj b hb b hb' rfl
          have hset : nodeSet (xs ++ ys ++ [a]) = insert (Block.node a) (nodeSet xs ∪ nodeSet ys) := by
            rw [nodeSet_append, nodeSet_append, nodeSet_singleton, Finset.union_comm,
              ← Finset.insert_eq]
          rw [hset, tree_free_events]
          exact (ih hleft hxs).postOrder (ih hright hys) (mt mem_nodeSet.mp hax)
            (mt mem_nodeSet.mp hay) hapart

/-- A walk that meets a node twice frees it twice. -/
theorem tree_free_twice (h : tree_free nodes depth p = .ok freed) (hnodup : ¬ freed.Nodup)
    (live : Finset Block) : replay live (tree_free_events nodes depth p) = none := by
  obtain ⟨hblocks, hnew⟩ := freedBlocks_tree_free h
  cases hreplay : replay live (tree_free_events nodes depth p) with
  | none => rfl
  | some live' =>
      have honce := (Lib.nodup_freedBlocks hreplay hnew).1
      rw [hblocks] at honce
      exact absurd honce.of_map hnodup

end Free

/-! ## `huffd` -/

/-- What `decoder_new` has allocated before it reads the tree. -/
def openBlocks : Finset Block := {.infile, .bfile, .outfile, .decoder}

theorem node_notMem_openBlocks (a : ℕ) : Block.node a ∉ openBlocks := by
  simp [openBlocks]

theorem openBlocks_replay :
    replay ∅ [malloc .infile, malloc .bfile, access .bfile, malloc .outfile, malloc .decoder,
      access .decoder, access .bfile] = some openBlocks := by
  decide

/-- `bits_io_close` -/
theorem bits_io_close_replay (n : ℕ) :
    replay (openBlocks ∪ madeNodes n) bits_io_close_events
      = some ({.outfile, .decoder} ∪ madeNodes n) := by
  have hclose : Releases ∅ {Block.bfile, Block.infile} bits_io_close_events :=
    Releases.access (by decide) (Releases.access (by decide)
      ((Releases.free _ Block.infile).last (by decide)))
  have hopen : {Block.bfile, Block.infile} ⊆ openBlocks ∪ madeNodes n :=
    (show {Block.bfile, Block.infile} ⊆ openBlocks by decide).trans Finset.subset_union_left
  rw [hclose _ (Finset.empty_subset _) hopen]
  congr 1
  ext x
  cases x <;> simp [openBlocks, madeNodes]

section Huffd

variable {heap : Heap} {root n : ℕ} {fp archive outfp : FILE} {freed : List ℕ}

/-- **`decoder_free`** frees the nodes `tree_free` walks over, if it meets none twice. -/
theorem decoder_free_replay (h : tree_free heap.node heap.size (some root) = .ok freed)
    (hsub : nodeSet freed ⊆ madeNodes n) :
    replay (openBlocks ∪ madeNodes n) (decoder_free_events heap root)
      = if freed.Nodup then some (madeNodes n \ nodeSet freed) else none := by
  have hdecoder : ∀ s : Finset Block, Block.decoder ∈ ({.outfile, .decoder} ∪ s : Finset Block) :=
    fun s => Finset.mem_union_left _ (by decide)
  rw [decoder_free_events, replay_access (Finset.mem_union_left _ (by decide)), replay_append,
    bits_io_close_replay, Option.bind_some, replay_access (hdecoder _), replay_append]
  split_ifs with hnodup
  · have hapart : ({.outfile, .decoder} ∪ madeNodes n) \ nodeSet freed
        = ({.outfile, .decoder} ∪ (madeNodes n \ nodeSet freed) : Finset Block) := by
      ext x
      cases x <;> simp [madeNodes, nodeSet]
    rw [tree_free_releases h hnodup _ (Finset.empty_subset _)
      (hsub.trans Finset.subset_union_right), Option.bind_some, hapart,
      replay_access (hdecoder _), replay_free (Finset.mem_union_left _ (by decide)), replay_free,
      Lib.replay_nil]
    · congr 1
      ext x
      cases x <;> simp [madeNodes]
    · exact Finset.mem_erase.mpr ⟨by decide, hdecoder _⟩
  · rw [tree_free_twice h hnodup]
    rfl

/-- A tree the parser returns: the root is one of its nodes, and children are older than parents. -/
theorem tree_deserialize_falling (h : tree_deserialize wide archive = .ok (some (heap, root, fp))) :
    root < heap.size ∧ Falling heap.left heap.right heap.size := by
  obtain ⟨rest, heap₁, fp₁, -, hloop, hfinish⟩ := tree_deserialize_some h
  obtain ⟨l, hlayered, -⟩ := layered_empty.addRecords (deserializeLoop_fold hloop).2
  obtain ⟨hsize, hnode, hhead⟩ := finish_some hfinish
  have hlist := hlayered.holds.head
  rw [hhead] at hlist
  have hfall := hlayered.falling
  unfold Heap.left Heap.right at hfall ⊢
  rw [hnode, hsize]
  exact ⟨hlayered.made root (List.mem_of_head? hlist.symm), hfall⟩

/-- What `tree_free` walks over. -/
theorem tree_free_walk (hfall : Falling heap.left heap.right heap.size) (hroot : root < heap.size) :
    ∃ freed, tree_free heap.node heap.size (some root) = .ok freed ∧
      (∀ a, a ∈ freed ↔ Relation.ReflTransGen (Child heap.left heap.right) root a) ∧
      ∀ a ∈ freed, a < heap.size := by
  obtain ⟨freed, hwalk⟩ := hfall.postorder hroot hroot
  refine ⟨freed, tree_free_eq heap.node hwalk, fun a => Lib.mem_postorder_iff hwalk, ?_⟩
  intro a ha
  exact (hfall.below_le hroot ((Lib.mem_postorder_iff hwalk).mp ha)).trans_lt hroot

/-- Everything up to the end of the parser. -/
theorem huffd_start_replay {result : Option (Heap × ℕ × FILE)}
    (hok : tree_deserialize wide archive = .ok result) (events : List (MemEvent Block)) :
    replay ∅ ([malloc .infile, malloc .bfile, access .bfile, malloc .outfile, malloc .decoder,
        access .decoder, access .bfile] ++ (tree_deserialize_events wide archive ++ events))
      = replay (openBlocks ∪ madeNodes (recordsIn wide archive).length) events := by
  rw [replay_append, openBlocks_replay, Option.bind_some, replay_append,
    (tree_deserialize_replay node_notMem_openBlocks (by decide) hok).1, Option.bind_some]

theorem huffd_replay_null (hnull : tree_deserialize wide archive = .ok none) (fuel : ℕ) :
    replay ∅ (huffd_events wide fuel archive outfp)
      = some ({.outfile, .decoder} ∪ madeNodes (recordsIn wide archive).length) := by
  rw [huffd_events, huffd_start_replay hnull, hnull]
  exact (replay_access (Finset.mem_union_left _ (by decide)) _).trans (bits_io_close_replay _)

theorem huffd_replay_tree (htree : tree_deserialize wide archive = .ok (some (heap, root, fp)))
    {fuel : ℕ} {decoder : Decoder} (hdecode : decoder_decode fuel
      ⟨outfp, bits_io_open fp 114, treeAt heap.node heap.size (some root)⟩ = .ok decoder) :
    ∃ freed, tree_free heap.node heap.size (some root) = .ok freed ∧
      (∀ a, a ∈ freed ↔ Relation.ReflTransGen (Child heap.left heap.right) root a) ∧
      nodeSet freed ⊆ madeNodes (recordsIn wide archive).length ∧
      replay ∅ (huffd_events wide fuel archive outfp)
        = if freed.Nodup then some (madeNodes (recordsIn wide archive).length \ nodeSet freed)
          else none := by
  obtain ⟨hroot, hfall⟩ := tree_deserialize_falling htree
  obtain ⟨freed, hfree, hbelow, hlt⟩ := tree_free_walk hfall hroot
  have hsize := (tree_deserialize_replay node_notMem_openBlocks (by decide) htree).2 _ _ _ rfl
  have hlive : madeNodes heap.size ⊆ openBlocks ∪ madeNodes (recordsIn wide archive).length := by
    rw [hsize]
    exact Finset.subset_union_right
  have hopen : ∀ x ∈ openBlocks, x ∈ openBlocks ∪ madeNodes (recordsIn wide archive).length :=
    fun x hx => Finset.mem_union_left _ hx
  have hreads := reads_decoder_decode hfall hroot hlive (hopen .bfile (by decide))
    (hopen .infile (by decide)) (hopen .outfile (by decide)) (hopen .decoder (by decide)) fuel
    ⟨outfp, bits_io_open fp 114, treeAt heap.node heap.size (some root)⟩
  have hsub : nodeSet freed ⊆ madeNodes (recordsIn wide archive).length := by
    intro x hx
    obtain ⟨a, ha, rfl⟩ := Finset.mem_image.mp hx
    exact node_mem_madeNodes.mpr (hsize ▸ hlt a (List.mem_toFinset.mp ha))
  refine ⟨freed, hfree, hbelow, hsub, ?_⟩
  rw [huffd_events, huffd_start_replay htree, htree]
  simp only [hdecode]
  rw [replay_access (hopen .decoder (by decide)), replay_append, hreads.replay, Option.bind_some]
  exact decoder_free_replay hfree hsub

end Huffd

/-- **The memory of `huffd`**, on every archive on which the parser dereferences no NULL. If it
returns NULL, the decoder, the output file and a node for every record are never freed. If it
returns a tree and the payload has an end, the nodes that are not below the root are never freed,
and a node is used behind its `free` exactly if `tree_free` meets one twice. -/
theorem huffd_memory (wide : ℤ → CInt) (fuel : ℕ) (archive outfp : FILE) :
    (tree_deserialize wide archive = .ok none →
      replay ∅ (huffd_events wide fuel archive outfp)
        = some ({.outfile, .decoder} ∪ madeNodes (recordsIn wide archive).length)) ∧
    ∀ heap root fp decoder, tree_deserialize wide archive = .ok (some (heap, root, fp)) →
      decoder_decode fuel
        ⟨outfp, bits_io_open fp 114, treeAt heap.node heap.size (some root)⟩ = .ok decoder →
      ∃ freed, tree_free heap.node heap.size (some root) = .ok freed ∧
        (∀ a, a ∈ freed ↔ Relation.ReflTransGen (Child heap.left heap.right) root a) ∧
        replay ∅ (huffd_events wide fuel archive outfp)
          = if freed.Nodup then some (madeNodes (recordsIn wide archive).length \ nodeSet freed)
            else none := by
  refine ⟨fun hnull => huffd_replay_null hnull fuel, fun heap root fp decoder htree hdecode => ?_⟩
  obtain ⟨freed, hfree, hbelow, -, hreplay⟩ := huffd_replay_tree htree hdecode
  exact ⟨freed, hfree, hbelow, hreplay⟩

/-- An archive of four records in which two nodes have the first leaf for a child, and no
payload. -/
def sharedLeaf : FILE := FILE.reading
  [35, 49, 32, 49, 32, 49, 32, 57, 55, 32, 48, 32, 48, 44,
    49, 32, 50, 32, 49, 32, 57, 56, 32, 48, 32, 48, 44,
    48, 32, 51, 32, 50, 32, 48, 32, 50, 32, 49, 44,
    48, 32, 52, 32, 51, 32, 48, 32, 51, 32, 49, 44, 35]

/-- The leaf is freed twice. -/
theorem huffd_memory_sharedLeaf :
    replay ∅ (huffd_events saturate 1 sharedLeaf FILE.reliable) = none := by
  obtain ⟨freed, hfree, -, hreplay⟩ :=
    (huffd_memory saturate 1 sharedLeaf FILE.reliable).2 _ _ _ _ rfl rfl
  obtain rfl : [1, 0, 2, 0, 3] = freed := Except.ok.inj hfree
  rw [hreplay]
  rfl

/-! ## The archives of `huffc` -/

section Archives

variable {tree : TreeNode} {fp archive outfp : FILE} {rest payload : List Byte}

/-- The records of a text are scanned. -/
theorem scanRecords_text {rs : List Record} (hne : rs ≠ [])
    (h : fp.rest = recordsText rs ++ 35 :: rest) {fuel : ℕ} (hfuel : rs.length ≤ fuel) :
    scanRecords wide fuel fp = (rs, true) := by
  induction rs generalizing fp fuel with
  | nil => exact absurd rfl hne
  | cons r rs ih =>
      obtain ⟨fuel, rfl⟩ := Nat.exists_eq_add_of_le' (Nat.one_le_of_lt hfuel)
      rw [List.length_cons] at hfuel
      have htext : fp.rest = r.text ++ (recordsText rs ++ 35 :: rest) := by
        rw [h, recordsText, List.flatMap_cons, List.append_assoc]
        rfl
      rw [scanRecords, scanRecord_text r htext]
      simp only
      cases rs with
      | nil =>
          rw [fgetc_cons rfl]
          rfl
      | cons r' rs =>
          -- the first byte of the next record is read and pushed back
          obtain ⟨b, tail, htail, hhash, h255⟩ := text_head r'
          have hnext : recordsText (r' :: rs) ++ 35 :: rest
              = b :: (tail ++ recordsText rs ++ 35 :: rest) := by
            rw [recordsText, List.flatMap_cons, htail]
            rfl
          rw [hnext, fgetc_cons rfl]
          simp only [setWidth_byte, if_neg hhash, ungetc_char h255]
          rw [← hnext, ih (List.cons_ne_nil _ _) rfl (by omega)]

theorem length_recordsOf (hfull : Full tree) : (recordsOf tree).length = tree.ids.length := by
  induction hfull with
  | leaf id freq => rfl
  | internal id freq _ _ ihl ihr =>
      rw [recordsOf, TreeNode.ids, List.length_append, List.length_append, List.length_append,
        List.length_append, ihl, ihr]
      rfl

/-- `tree_free` meets the ids in the order of the tree. -/
theorem treeAt_ids {nodes : ℕ → HeapNode} {depth : ℕ} {p : Option ℕ} {freed : List ℕ}
    (h : tree_free nodes depth p = .ok freed) :
    (treeAt nodes depth p).ids = freed.map (fun a => (nodes a).id) := by
  induction depth generalizing p freed with
  | zero =>
      cases p with
      | none =>
          rw [tree_free_none h]
          rfl
      | some a => cases h
  | succ depth ih =>
      cases p with
      | none =>
          rw [tree_free_none h]
          rfl
      | some a =>
          obtain ⟨xs, ys, hleft, hright, rfl⟩ := tree_free_some h
          rw [treeAt, TreeNode.ids, ih hleft, ih hright, List.map_append, List.map_append]
          rfl

/-- **On the text of a tree** everything is freed, whatever the payload decodes to. -/
theorem text_replay (hfull : Full tree) (hmany : 2 ≤ tree.leaves.length) (hnodup : tree.ids.Nodup)
    (hzero : 0 ∉ tree.ids)
    (h : archive.rest = 35 :: (recordsText (recordsOf tree) ++ 35 :: payload))
    {fuel : ℕ} {decoder : Decoder} (hdecode : decoder_decode fuel
      ⟨outfp, bits_io_open { archive with rest := payload } 114, tree⟩ = .ok decoder) :
    replay ∅ (huffd_events wide fuel archive outfp) = some ∅ := by
  obtain ⟨heap, root, hparse, htree⟩ := tree_deserialize_spec wide hfull hmany hnodup hzero h
  rw [← htree] at hdecode
  obtain ⟨freed, hfree, -, hsub, hreplay⟩ := huffd_replay_tree hparse hdecode
  have hids := treeAt_ids hfree
  rw [htree] at hids
  have honce : freed.Nodup := by
    rw [hids] at hnodup
    exact hnodup.of_map
  -- there are no more records than nodes in the tree
  have hrecords : (recordsIn wide archive).length = freed.length := by
    have hne : recordsOf tree ≠ [] := by
      cases hfull <;> simp [recordsOf]
    have hlen : (recordsOf tree).length
        ≤ (recordsText (recordsOf tree) ++ 35 :: payload).length + 1 := by
      have hbytes := length_le_recordsText (recordsOf tree)
      rw [List.length_append]
      omega
    have hscan := @scanRecords_text wide
      { archive with rest := recordsText (recordsOf tree) ++ 35 :: payload } payload _ hne rfl _
      hlen
    rw [recordsIn, h]
    simp only [ne_eq, not_true_eq_false, if_false, hscan]
    rw [length_recordsOf hfull, hids, List.length_map]
  have hall : madeNodes (recordsIn wide archive).length = nodeSet freed := by
    symm
    apply Finset.eq_of_subset_of_card_le hsub
    rw [madeNodes, nodeSet, Finset.card_image_of_injective _ (fun _ _ heq => Block.node.inj heq),
      Finset.card_image_of_injective _ (fun _ _ heq => Block.node.inj heq), Finset.card_range,
      List.toFinset_card_of_nodup honce, hrecords]
  rw [hreplay, if_pos honce, hall, Finset.sdiff_self]

end Archives

/-- **What `huffc` writes, `huffd` expands without a leak.** For every file without the byte 255
and with two different bytes, and every order `qsort` may give to equal frequencies, `huffd` on the
archive frees everything it has allocated, each block once and none too early. -/
theorem huffd_frees_all (wide : ℤ → CInt) (qsort : Qsort TreeNode) (beyond : ℕ → TreeNode)
    {bytes : List Byte} (hlen : bytes.length < 2 ^ 31) (h255 : 255 ∉ bytes)
    (hmany : ∃ x ∈ bytes, ∃ y ∈ bytes, x ≠ y) :
    ∃ result archive, huffc qsort beyond bytes FILE.reliable = some (result, archive) ∧
      ∀ fuel > bytes.length,
        replay ∅ (huffd_events wide fuel (FILE.reading archive) FILE.reliable) = some ∅ := by
  have hne : bytes ≠ [] := by
    obtain ⟨x, hx, -⟩ := hmany
    exact List.ne_nil_of_mem hx
  obtain ⟨root, -, code, archive, -, htree, hcode, hhuffc, payload, harchive, hpayload⟩ :=
    huffc_spec qsort beyond hlen h255 hne
  have hleaves := htree.two_le_leaves h255 hmany
  refine ⟨_, archive, hhuffc, fun fuel hfuel => ?_⟩
  rw [← List.append_nil (bytes.flatMap code)] at hpayload
  obtain ⟨decoder, hdecode, -⟩ := decoder_decode_spec
    ⟨FILE.reliable, bits_io_open (FILE.reading payload) 114, root⟩
    (noCharacter_nil htree.full hleaves) hcode h255 (fun _ => rfl) (unread_open hpayload) fuel hfuel
  exact text_replay htree.full hleaves htree.nodup_ids htree.zero_not_mem harchive hdecode

/-- The text "abracadabra". -/
theorem huffd_frees_all_abracadabra :
    ∃ result archive, huffc (insertionQsort TreeNode) (fun _ => .null)
        [97, 98, 114, 97, 99, 97, 100, 97, 98, 114, 97] FILE.reliable = some (result, archive) ∧
      ∀ fuel > 11,
        replay ∅ (huffd_events saturate fuel (FILE.reading archive) FILE.reliable) = some ∅ :=
  huffd_frees_all saturate (insertionQsort TreeNode) (fun _ => .null) (by decide) (by decide)
    ⟨97, by decide, 98, by decide, by decide⟩

end Huffd

end ProjectsInC.Huffman
