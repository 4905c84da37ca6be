/-
What the word sets leave allocated.

Every node of the list owns a copy of its word, and `wset_remove` frees both. No
function touches a block that has been freed ([`Listed.callEvents`]), but
`wset_free` frees the set and the first node only, so that all the words and the
other nodes stay allocated: `node_free_all` is never called.
-/
import ProjectsInC.Lib.Allocation
import ProjectsInC.WordFreq.Agreement
import ProjectsInC.WordFreq.WordMap

set_option autoImplicit false

namespace ProjectsInC.WordFreq

open Lib (Chain Cell Links MemEvent replay Allocates Releases Reads)
open Lib.MemEvent

/-! ## Blocks -/

/-- What `malloc` is called for. -/
inductive Block
  | set
  | node (n : ℕ)
  | word (n : ℕ)
  /-- What the call number `i` of `words_next_word` returns. -/
  | buffer (i : ℕ)
deriving DecidableEq, Repr

/-- The block a cell lies in. -/
def cellBlock : Cell ℕ → Block
  | .head => .set
  | .next n => .node n

/-! ## The functions of `wset.c`, as far as blocks go

The word that is handed over is read where the function is called. -/

/-- `wset_new` -/
def wset_new_events : List (MemEvent Block) := [malloc .set, access .set]

/-- `node_new` -/
def node_new_events (n : ℕ) : List (MemEvent Block) :=
  [malloc (.node n), access (.node n), malloc (.word n), access (.word n), access (.node n)]

/-- `node_free` -/
def node_free_events (n : ℕ) : List (MemEvent Block) :=
  [access (.node n), free (.word n), free (.node n)]

/-- The loop of `search`: a cell, and the word of the node it points to. -/
def searchEvents (wset : WordSet) (word : List Byte) : ℕ → Cell ℕ → List (MemEvent Block)
  | 0, _ => []
  | fuel + 1, p =>
      access (cellBlock p) ::
        match wset.list.get p with
        | none => []
        | some n =>
            access (.node n) :: access (.word n) ::
              if word = (wset.node n).word then [] else searchEvents wset word fuel (.next n)

/-- `search` -/
def search_events (wset : WordSet) (word : List Byte) : List (MemEvent Block) :=
  searchEvents wset word (wset.nodes + 1) .head

/-- `wset_add` -/
def wset_add_events (wset : WordSet) (word : List Byte) : Except Stop (List (MemEvent Block)) := do
  let curr ← search wset word
  match wset.list.get curr with
  | none =>
      let newNode := wset.nodes
      .ok ((search_events wset word ++ [access (cellBlock curr)]) ++ (node_new_events newNode
        ++ [access (.node newNode), access (cellBlock curr), access .set, access (.node newNode)]))
  | some n => .ok (search_events wset word ++ [access (cellBlock curr), access (.node n)])

/-- `wset_fast_add` -/
def wset_fast_add_events (wset : WordSet) (word : List Byte) :
    Except Stop (List (MemEvent Block)) := do
  let curr ← search wset word
  match wset.list.get curr with
  | none =>
      let newNode := wset.nodes
      .ok ((search_events wset word ++ [access (cellBlock curr)]) ++ (node_new_events newNode
        ++ [access .set, access (.node newNode), access .set, access (.node newNode)]))
  | some prev =>
      .ok (search_events wset word
        ++ [access (cellBlock curr), access (.node prev), access (cellBlock curr), access .set,
          access (.node prev), access .set])

/-- `wset_remove` -/
def wset_remove_events (wset : WordSet) (word : List Byte) :
    Except Stop (List (MemEvent Block)) :=
  if wset_size wset = 0 then .ok [access .set]
  else do
    let curr ← search wset word
    match wset.list.get curr with
    | none => .ok (access .set :: (search_events wset word ++ [access (cellBlock curr)]))
    | some prev =>
        .ok (access .set :: (search_events wset word
          ++ [access (cellBlock curr), access (.node prev), access (cellBlock curr)])
          ++ (node_free_events prev ++ [access .set]))

/-- The loop of `wset_exists` and `wset_freq` behind `search`. -/
def lookupEvents (wset : WordSet) (word : List Byte) : ℕ → Cell ℕ → List (MemEvent Block)
  | 0, _ => []
  | fuel + 1, curr =>
      access (cellBlock curr) ::
        match wset.list.get curr with
        | none => []
        | some n =>
            access (.node n) :: access (.word n) ::
              if word = (wset.node n).word then []
              else if wset.list.next n = none then []
              else lookupEvents wset word fuel (.next n)

/-- `wset_exists` and `wset_freq` -/
def lookup_events (wset : WordSet) (word : List Byte) : Except Stop (List (MemEvent Block)) := do
  let curr ← search wset word
  .ok (search_events wset word ++ lookupEvents wset word (wset.nodes + 1) curr)

/-- A loop of `wset_print`. -/
def printEvents (wset : WordSet) : ℕ → Option ℕ → List (MemEvent Block)
  | _, none => []
  | 0, some _ => []
  | fuel + 1, some p =>
      access (.node p) :: access (.word p) :: printEvents wset fuel (wset.list.next p)

/-- `wset_print`, with its two loops. -/
def wset_print_events (wset : WordSet) : List (MemEvent Block) :=
  let loop := access .set :: printEvents wset wset.nodes wset.list.head
  loop ++ loop

/-- `wset_free`; `free(NULL)` does nothing. -/
def wset_free_events (wset : WordSet) : List (MemEvent Block) :=
  access .set :: ((wset.list.head.map (fun n => free (Block.node n))).toList ++ [free .set])

/-- A call on a set. -/
def WordSet.callEvents (wset : WordSet) : Call → Except Stop (List (MemEvent Block))
  | .add w => wset_add_events wset w
  | .fast_add w => wset_fast_add_events wset w
  | .remove w => wset_remove_events wset w
  | .exists_ w | .freq w => lookup_events wset w
  | .size => .ok [access .set]

/-- One call after the other. -/
def WordSet.runEvents : WordSet → List Call → Except Stop (List (MemEvent Block))
  | _, [] => .ok []
  | wset, call :: calls => do
      let events ← wset.callEvents call
      let (_, wset) ← wset.call call
      let rest ← WordSet.runEvents wset calls
      .ok (events ++ rest)

/-! ## What a set owns -/

/-- A node and its word. -/
def pair (n : ℕ) : Finset Block := {.node n, .word n}

/-- The set, and the nodes of a chain with their words. -/
def owned (chain : List ℕ) : Finset Block := insert .set (chain.toFinset.biUnion pair)

/-- What is left of it behind `wset_free`. -/
def leaked (chain : List ℕ) : Finset Block :=
  chain.toFinset.image Block.word ∪ chain.tail.toFinset.image Block.node

section Owned

variable {wset : WordSet} {chain chain' xs ys : List ℕ} {seen keys : List (List Byte)}
  {w : List Byte} {n : ℕ}

theorem set_mem_owned (chain : List ℕ) : Block.set ∈ owned chain := Finset.mem_insert_self _ _

theorem node_mem_owned (hn : n ∈ chain) : Block.node n ∈ owned chain := by
  simp only [owned, pair, Finset.mem_insert, Finset.mem_biUnion, List.mem_toFinset]
  exact .inr ⟨n, hn, .inl rfl⟩

theorem word_mem_owned (hn : n ∈ chain) : Block.word n ∈ owned chain := by
  simp only [owned, pair, Finset.mem_insert, Finset.mem_biUnion, List.mem_toFinset,
    Finset.mem_singleton]
  exact .inr ⟨n, hn, .inr rfl⟩

theorem cell_mem_owned {p : Cell ℕ} (hp : ∀ m, p = .next m → m ∈ chain) :
    cellBlock p ∈ owned chain := by
  cases p with
  | head => exact set_mem_owned chain
  | next m => exact node_mem_owned (hp m rfl)

/-- The order of the chain does not matter. -/
theorem owned_perm (h : chain'.Perm chain) : owned chain' = owned chain := by
  rw [owned, owned, List.toFinset_eq_of_perm _ _ h]

theorem owned_cons (n : ℕ) (chain : List ℕ) : owned (n :: chain) = owned chain ∪ pair n := by
  rw [owned, List.toFinset_cons, Finset.biUnion_insert, Finset.union_comm, ← Finset.insert_union]
  rfl

theorem pair_disjoint (hn : n ∉ chain) : Disjoint (pair n) (owned chain) := by
  simp only [pair, owned, Finset.disjoint_left, Finset.mem_insert, Finset.mem_singleton,
    Finset.mem_biUnion, List.mem_toFinset]
  rintro _ (rfl | rfl) (heq | ⟨m, hm, heq | heq⟩) <;> cases heq
  · exact hn hm
  · exact hn hm

/-! ## Looking around -/

/-- Every event is an access to something the chain owns. -/
abbrev Looks (chain : List ℕ) (events : List (MemEvent Block)) : Prop := Reads (owned chain) events

theorem looks_searchEvents (hholds : wset.list.Holds chain) (w : List Byte) (fuel : ℕ) {p : Cell ℕ}
    (hp : ∀ m, p = .next m → m ∈ chain) : Looks chain (searchEvents wset w fuel p) := by
  induction fuel generalizing p with
  | zero => exact Reads.nil _
  | succ fuel ih =>
      rw [searchEvents]
      apply Reads.cons _ (cell_mem_owned hp)
      split
      · exact Reads.nil _
      · rename_i n hget
        have hn : n ∈ chain := hholds.get_mem hp hget
        apply Reads.cons (Reads.cons _ (word_mem_owned hn)) (node_mem_owned hn)
        split_ifs
        · exact Reads.nil _
        · exact ih (fun m hm => Cell.next.inj hm ▸ hn)

theorem looks_search_events (hholds : wset.list.Holds chain) (w : List Byte) :
    Looks chain (search_events wset w) :=
  looks_searchEvents hholds w _ (fun _ hm => by cases hm)

theorem looks_lookupEvents (hholds : wset.list.Holds chain) (w : List Byte) (fuel : ℕ) {p : Cell ℕ}
    (hp : ∀ m, p = .next m → m ∈ chain) : Looks chain (lookupEvents wset w fuel p) := by
  induction fuel generalizing p with
  | zero => exact Reads.nil _
  | succ fuel ih =>
      rw [lookupEvents]
      apply Reads.cons _ (cell_mem_owned hp)
      split
      · exact Reads.nil _
      · rename_i n hget
        have hn : n ∈ chain := hholds.get_mem hp hget
        apply Reads.cons (Reads.cons _ (word_mem_owned hn)) (node_mem_owned hn)
        split_ifs
        · exact Reads.nil _
        · exact Reads.nil _
        · exact ih (fun m hm => Cell.next.inj hm ▸ hn)

theorem looks_printEvents {p : Option ℕ} (hlinks : Links wset.list.next p ys)
    (hsub : ∀ m ∈ ys, m ∈ chain) (fuel : ℕ) : Looks chain (printEvents wset fuel p) := by
  induction ys generalizing p fuel with
  | nil =>
      obtain rfl : p = none := hlinks
      cases fuel <;> exact Reads.nil _
  | cons n ys ih =>
      obtain ⟨rfl, hrest⟩ := hlinks
      have hn : n ∈ chain := hsub n List.mem_cons_self
      cases fuel with
      | zero => exact Reads.nil _
      | succ fuel =>
          exact ((ih hrest (fun m hm => hsub m (List.mem_cons_of_mem n hm)) fuel).cons
            (word_mem_owned hn)).cons (node_mem_owned hn)

theorem looks_print_events (hholds : wset.list.Holds chain) :
    Looks chain (wset_print_events wset) := by
  have hloop : Looks chain (access .set :: printEvents wset wset.nodes wset.list.head) :=
    (looks_printEvents hholds (fun _ hm => hm) _).cons (set_mem_owned chain)
  exact hloop.append hloop

/-- The cell in front of a node of the chain. -/
theorem cellAfter_mem : cellBlock (Lib.cellAfter xs) ∈ owned (xs ++ ys) :=
  cell_mem_owned (fun _ hm => List.mem_append_left ys (Lib.mem_of_cellAfter hm))

/-- The cell behind the last node. -/
theorem lastCell_mem (chain : List ℕ) : cellBlock (Lib.cellAfter chain) ∈ owned chain :=
  cell_mem_owned (fun _ hm => Lib.mem_of_cellAfter hm)

/-! ## One call -/

/-- A call whose events take the blocks of one chain to those of another, whatever else is
allocated; nobody else has blocks of nodes. -/
def Turns (chain chain' : List ℕ) (events : List (MemEvent Block)) : Prop :=
  ∀ buffers : Finset ℕ, replay (buffers.image Block.buffer ∪ owned chain) events
    = some (buffers.image Block.buffer ∪ owned chain')

theorem buffers_disjoint (buffers : Finset ℕ) (n : ℕ) :
    Disjoint (pair n) (buffers.image Block.buffer) := by
  simp only [pair, Finset.disjoint_left, Finset.mem_insert, Finset.mem_singleton, Finset.mem_image]
  rintro _ (rfl | rfl) ⟨i, -, heq⟩ <;> cases heq

theorem Looks.turns {events : List (MemEvent Block)} (h : Looks chain events)
    (hperm : chain'.Perm chain) : Turns chain chain' events := by
  intro buffers
  rw [h.allocates _ Finset.subset_union_right (Finset.disjoint_empty_left _), Finset.union_empty,
    owned_perm hperm]

/-- A node and its word are added. -/
theorem turns_new {before after : List (MemEvent Block)} (hn : n ∉ chain)
    (hperm : chain'.Perm (n :: chain)) (hbefore : Looks chain before)
    (hafter : Looks (n :: chain) after) :
    Turns chain chain' (before ++ (node_new_events n ++ after)) := by
  intro buffers
  -- what comes after `node_new` may use the new node too, so it counts to the allocation
  have hnew : Allocates (owned chain) (pair n) (node_new_events n ++ after) := by
    have hrest : Allocates
        (insert (Block.word n) (insert (Block.node n) (owned chain))) ∅ after := by
      apply Reads.allocates
      intro event hevent
      obtain ⟨a, ha, rfl⟩ := hafter event hevent
      refine ⟨a, ?_, rfl⟩
      rw [owned_cons, pair] at ha
      simp only [Finset.mem_union, Finset.mem_insert, Finset.mem_singleton] at ha ⊢
      tauto
    have hword := ((hrest.access (a := Block.node n) (by simp)).access
      (a := Block.word n) (by simp)).malloc_cons (Finset.notMem_empty _)
    exact (hword.access (Finset.mem_insert_self _ _)).malloc_cons (by simp)
  have hall := hbefore.allocates.append (hnew.mono Finset.subset_union_left)
    (Finset.disjoint_empty_left _)
  rw [hall _ Finset.subset_union_right, Finset.empty_union, owned_perm hperm, owned_cons,
    Finset.union_assoc]
  rw [Finset.empty_union, Finset.disjoint_union_right]
  exact ⟨buffers_disjoint buffers n, pair_disjoint hn⟩

/-- A node and its word are freed. -/
theorem turns_free {before after : List (MemEvent Block)} (hn : n ∉ chain')
    (hperm : chain.Perm (n :: chain')) (hbefore : Looks chain before)
    (hafter : Looks chain' after) :
    Turns chain chain' (before ++ (node_free_events n ++ after)) := by
  intro buffers
  rw [Lib.replay_append, hbefore.turns (List.Perm.refl _) buffers, Option.bind_some,
    owned_perm hperm, owned_cons]
  have hfree : Releases ∅ (pair n) (node_free_events n) :=
    ((Releases.free _ _).last (by simp)).access (by simp [pair])
  have hleft : (buffers.image Block.buffer ∪ (owned chain' ∪ pair n)) \ pair n
      = buffers.image Block.buffer ∪ owned chain' := by
    rw [← Finset.union_assoc, Finset.union_sdiff_cancel_right]
    rw [Finset.disjoint_union_left]
    exact ⟨(buffers_disjoint buffers n).symm, (pair_disjoint hn).symm⟩
  rw [Lib.replay_append, hfree _ (Finset.empty_subset _)
    (Finset.subset_union_right.trans Finset.subset_union_right), Option.bind_some, hleft,
    hafter.turns (List.Perm.refl _) buffers]

/-- What a call does to the set and to the blocks. -/
def Owns (chain : List ℕ) (outcome : Except Stop (CInt × WordSet))
    (events : Except Stop (List (MemEvent Block))) (seen' : List (List Byte)) : Prop :=
  ∃ result wset' chain' keys' events', outcome = .ok (result, wset') ∧ events = .ok events' ∧
    Listed wset' chain' seen' keys' ∧ Turns chain chain' events'

/-- **`wset_add`** allocates a node and its word, if the word is new. -/
theorem Listed.wset_add_owns (h : Listed wset chain seen keys) (w : List Byte) :
    Owns chain (wset_add wset w) (wset_add_events wset w) (seen ++ [w]) := by
  obtain ⟨wset', chain', hadd, h'⟩ := wset_add_spec h w
  by_cases hw : w ∈ keys
  · obtain ⟨xs, n, ys, rfl, hn⟩ := h.at_word hw
    obtain ⟨hsearch, hget⟩ := search_present h hn
    -- a known word only has its counter raised, so the chain is the one there was
    have hlist : wset'.list = wset.list := by
      simp only [wset_add, hsearch, hget, bind, Except.bind] at hadd
      rw [← (Prod.mk.inj (Except.ok.inj hadd)).2]
      rfl
    have hchain : chain' = xs ++ n :: ys := h'.holds.unique (hlist ▸ h.holds)
    have hlooks : Looks (xs ++ n :: ys)
        (search_events wset w ++ [access (cellBlock (Lib.cellAfter xs)), access (.node n)]) := by
      apply (looks_search_events h.holds w).append
      exact ((Reads.nil _).cons (node_mem_owned (by simp))).cons cellAfter_mem
    refine ⟨_, wset', chain', _, _, hadd, ?_, h', hlooks.turns (hchain ▸ .refl _)⟩
    simp only [wset_add_events, hsearch, hget, bind, Except.bind]
  · obtain ⟨hsearch, hget⟩ := search_absent h hw
    have hchain : chain' = chain ++ [wset.nodes] := by
      apply h'.holds.unique
      simp only [wset_add, hsearch, hget, bind, Except.bind, node_new, WordSet.setFreq, Chain.set,
        Function.update_idem] at hadd
      rw [← (Prod.mk.inj (Except.ok.inj hadd)).2]
      exact h.holds.append h.nodup h.new_not_mem
    have hbefore : Looks chain
        (search_events wset w ++ [access (cellBlock (Lib.cellAfter chain))]) := by
      apply (looks_search_events h.holds w).append
      exact (Reads.nil _).cons (lastCell_mem chain)
    have hafter : Looks (wset.nodes :: chain) [access (.node wset.nodes),
        access (cellBlock (Lib.cellAfter chain)), access .set, access (.node wset.nodes)] := by
      have hnew : Block.node wset.nodes ∈ owned (wset.nodes :: chain) :=
        node_mem_owned List.mem_cons_self
      have hold : cellBlock (Lib.cellAfter chain) ∈ owned (wset.nodes :: chain) := by
        rw [owned_cons]
        exact Finset.mem_union_left _ (lastCell_mem chain)
      exact ((((Reads.nil _).cons hnew).cons (set_mem_owned _)).cons hold).cons hnew
    refine ⟨_, wset', chain', _, _, hadd, ?_, h', turns_new h.new_not_mem
      (hchain ▸ List.perm_append_singleton wset.nodes chain) hbefore hafter⟩
    simp only [wset_add_events, hsearch, hget, bind, Except.bind]

/-- **`wset_fast_add`** too. -/
theorem Listed.wset_fast_add_owns (h : Listed wset chain seen keys) (w : List Byte) :
    Owns chain (wset_fast_add wset w) (wset_fast_add_events wset w) (seen ++ [w]) := by
  obtain ⟨wset', chain', hadd, h'⟩ := wset_fast_add_spec h w
  by_cases hw : w ∈ keys
  · obtain ⟨xs, n, ys, rfl, hn⟩ := h.at_word hw
    obtain ⟨hsearch, hget⟩ := search_present h hn
    have hmid : (n :: (xs ++ ys)).Nodup := List.perm_middle.nodup_iff.mp h.nodup
    -- the node is unchained and put in front
    have hchain : chain' = n :: (xs ++ ys) := by
      apply h'.holds.unique
      simp only [wset_fast_add, hsearch, hget, bind, Except.bind] at hadd
      rw [← (Prod.mk.inj (Except.ok.inj hadd)).2]
      exact (h.holds.unlink h.nodup).push (List.nodup_cons.mp hmid).1
    have hlooks : Looks (xs ++ n :: ys) (search_events wset w
        ++ [access (cellBlock (Lib.cellAfter xs)), access (.node n),
          access (cellBlock (Lib.cellAfter xs)), access .set, access (.node n), access .set]) := by
      have hnode : Block.node n ∈ owned (xs ++ n :: ys) := node_mem_owned (by simp)
      have hset := set_mem_owned (xs ++ n :: ys)
      apply (looks_search_events h.holds w).append
      exact ((((((Reads.nil _).cons hset).cons hnode).cons hset).cons cellAfter_mem).cons
        hnode).cons cellAfter_mem
    refine ⟨_, wset', chain', _, _, hadd, ?_, h', hlooks.turns (hchain ▸ List.perm_middle.symm)⟩
    simp only [wset_fast_add_events, hsearch, hget, bind, Except.bind]
  · obtain ⟨hsearch, hget⟩ := search_absent h hw
    have hchain : chain' = wset.nodes :: chain := by
      apply h'.holds.unique
      simp only [wset_fast_add, hsearch, hget, bind, Except.bind, node_new, WordSet.setFreq,
        Chain.set, Function.update_idem] at hadd
      rw [← (Prod.mk.inj (Except.ok.inj hadd)).2]
      exact h.holds.push h.new_not_mem
    have hbefore : Looks chain
        (search_events wset w ++ [access (cellBlock (Lib.cellAfter chain))]) := by
      apply (looks_search_events h.holds w).append
      exact (Reads.nil _).cons (lastCell_mem chain)
    have hafter : Looks (wset.nodes :: chain)
        [access .set, access (.node wset.nodes), access .set, access (.node wset.nodes)] := by
      have hnew : Block.node wset.nodes ∈ owned (wset.nodes :: chain) :=
        node_mem_owned List.mem_cons_self
      have hset := set_mem_owned (wset.nodes :: chain)
      exact ((((Reads.nil _).cons hnew).cons hset).cons hnew).cons hset
    refine ⟨_, wset', chain', _, _, hadd, ?_, h',
      turns_new h.new_not_mem (hchain ▸ List.Perm.refl _) hbefore hafter⟩
    simp only [wset_fast_add_events, hsearch, hget, bind, Except.bind]

/-- **`wset_remove`** frees the node and its word, if it finds it. -/
theorem Listed.wset_remove_owns (h : Listed wset chain seen keys) (w : List Byte) :
    ∃ seen', Owns chain (wset_remove wset w) (wset_remove_events wset w) seen' := by
  have hset := set_mem_owned chain
  by_cases hsize : wset.size = 0
  · have hlooks : Looks chain [access .set] := (Reads.nil _).cons hset
    refine ⟨seen, -1, wset, chain, keys, [access .set], ?_, ?_, h, hlooks.turns (.refl _)⟩
    · rw [wset_remove, if_pos (show wset_size wset = 0 from hsize)]
    · rw [wset_remove_events, if_pos (show wset_size wset = 0 from hsize)]
  · have hshown : ¬ wset_size wset = 0 := hsize
    by_cases hw : w ∈ keys
    · obtain ⟨wset', chain', hremove, h'⟩ := wset_remove_present h hw hsize
      obtain ⟨xs, n, ys, rfl, hn⟩ := h.at_word hw
      obtain ⟨hsearch, hget⟩ := search_present h hn
      have hmid : (n :: (xs ++ ys)).Nodup := List.perm_middle.nodup_iff.mp h.nodup
      -- the node is unchained before it is freed, so nothing leads to it any more
      have hchain : chain' = xs ++ ys := by
        apply h'.holds.unique
        simp only [wset_remove, if_neg hshown, hsearch, hget, bind, Except.bind] at hremove
        rw [← (Prod.mk.inj (Except.ok.inj hremove)).2]
        exact h.holds.unlink h.nodup
      have hbefore : Looks (xs ++ n :: ys) (access .set :: (search_events wset w
          ++ [access (cellBlock (Lib.cellAfter xs)), access (.node n),
            access (cellBlock (Lib.cellAfter xs))])) := by
        apply Reads.cons _ hset
        apply (looks_search_events h.holds w).append
        exact (((Reads.nil _).cons cellAfter_mem).cons
          (node_mem_owned (by simp))).cons cellAfter_mem
      have hafter : Looks chain' [access .set] := (Reads.nil _).cons (set_mem_owned _)
      refine ⟨_, _, wset', chain', _, _, hremove, ?_, h', turns_free (n := n)
        (hchain ▸ (List.nodup_cons.mp hmid).1) (hchain ▸ List.perm_middle) hbefore hafter⟩
      simp only [wset_remove_events, if_neg hshown, hsearch, hget, bind, Except.bind,
        List.cons_append]
    · obtain ⟨hsearch, hget⟩ := search_absent h hw
      have hlooks : Looks chain (access .set :: (search_events wset w
          ++ [access (cellBlock (Lib.cellAfter chain))])) := by
        apply Reads.cons _ hset
        apply (looks_search_events h.holds w).append
        exact (Reads.nil _).cons (lastCell_mem chain)
      refine ⟨seen, _, wset, chain, keys, _, wset_remove_absent h hw, ?_, h, hlooks.turns (.refl _)⟩
      simp only [wset_remove_events, if_neg hshown, hsearch, hget, bind, Except.bind]

/-- **`wset_exists`** and **`wset_freq`** only look. -/
theorem Listed.lookup_owns (h : Listed wset chain seen keys) (w : List Byte) {result : CInt}
    {outcome : Except Stop (CInt × WordSet)} (houtcome : outcome = .ok (result, wset)) :
    Owns chain outcome (lookup_events wset w) seen := by
  have hsearch : ∃ xs ys, chain = xs ++ ys ∧ search wset w = .ok (Lib.cellAfter xs) := by
    by_cases hw : w ∈ keys
    · obtain ⟨xs, n, ys, rfl, hn⟩ := h.at_word hw
      exact ⟨xs, n :: ys, rfl, (search_present h hn).1⟩
    · exact ⟨chain, [], (List.append_nil chain).symm, (search_absent h hw).1⟩
  obtain ⟨xs, ys, hsplit, hsearch⟩ := hsearch
  have hlooks : Looks chain (search_events wset w
      ++ lookupEvents wset w (wset.nodes + 1) (Lib.cellAfter xs)) := by
    apply (looks_search_events h.holds w).append
    apply looks_lookupEvents h.holds
    intro m hm
    rw [hsplit]
    exact List.mem_append_left ys (Lib.mem_of_cellAfter hm)
  refine ⟨result, wset, chain, keys, _, houtcome, ?_, h, hlooks.turns (.refl _)⟩
  simp only [lookup_events, hsearch, bind, Except.bind]

/-- **Every call** keeps to what the set owns. -/
theorem Listed.call_owns (h : Listed wset chain seen keys) (call : Call) :
    ∃ seen', Owns chain (wset.call call) (wset.callEvents call) seen' := by
  cases call with
  | add w => exact ⟨_, h.wset_add_owns w⟩
  | fast_add w => exact ⟨_, h.wset_fast_add_owns w⟩
  | remove w => exact h.wset_remove_owns w
  | exists_ w =>
      have hcall : wset.call (.exists_ w) = .ok (if w ∈ keys then 1 else 0, wset) := by
        rw [WordSet.call, wset_exists_spec h]
        rfl
      exact ⟨seen, h.lookup_owns w hcall⟩
  | freq w =>
      have hcall : wset.call (.freq w) = .ok (BitVec.ofNat 32 (seen.count w), wset) := by
        rw [WordSet.call, wset_freq_spec h]
        rfl
      exact ⟨seen, h.lookup_owns w hcall⟩
  | size =>
      have hlooks : Looks chain [access .set] := (Reads.nil _).cons (set_mem_owned chain)
      exact ⟨seen, _, wset, chain, keys, _, rfl, rfl, h, hlooks.turns (.refl _)⟩

theorem Turns.trans {chain'' : List ℕ} {events events' : List (MemEvent Block)}
    (h : Turns chain chain' events) (h' : Turns chain' chain'' events') :
    Turns chain chain'' (events ++ events') := by
  intro buffers
  rw [Lib.replay_append, h buffers, Option.bind_some, h' buffers]

/-- So does a run of calls. -/
theorem Listed.run_owns (h : Listed wset chain seen keys) (calls : List Call) :
    ∃ results wset' chain' seen' keys' events, wset.run calls = .ok (results, wset') ∧
      wset.runEvents calls = .ok events ∧ Listed wset' chain' seen' keys' ∧
      Turns chain chain' events := by
  induction calls generalizing wset chain seen keys with
  | nil => exact ⟨[], wset, chain, seen, keys, [], rfl, rfl, h, Looks.turns (Reads.nil _) (.refl _)⟩
  | cons call calls ih =>
      obtain ⟨seen₁, result, wset₁, chain₁, keys₁, events₁, hcall, hevents, h₁, hturns⟩ :=
        h.call_owns call
      obtain ⟨results, wset', chain', seen', keys', events, hrun, hrest, h', hturns'⟩ := ih h₁
      refine ⟨result :: results, wset', chain', seen', keys', events₁ ++ events, ?_, ?_, h',
        hturns.trans hturns'⟩
      · simp only [WordSet.run, hcall, hrun, bind, Except.bind]
      · simp only [WordSet.runEvents, hevents, hcall, hrest, bind, Except.bind]

/-- `wset_free` leaves the words and all nodes but the first. -/
theorem replay_wset_free (hholds : wset.list.Holds chain) (hnodup : chain.Nodup)
    (buffers : Finset ℕ) :
    replay (buffers.image Block.buffer ∪ owned chain) (wset_free_events wset)
      = some (buffers.image Block.buffer ∪ leaked chain) := by
  have hset : Block.set ∈ buffers.image Block.buffer ∪ owned chain :=
    Finset.mem_union_right _ (set_mem_owned chain)
  have hhead : wset.list.head = chain.head? := Links.head hholds
  rw [wset_free_events, Lib.replay_access hset, hhead]
  cases chain with
  | nil =>
      have hnone : (buffers.image Block.buffer ∪ owned []).erase Block.set
          = buffers.image Block.buffer ∪ leaked [] := by
        ext b
        simp only [owned, leaked, Finset.mem_erase, Finset.mem_union, Finset.mem_insert,
          Finset.mem_image]
        cases b <;> simp
      show replay _ [free Block.set] = _
      rw [Lib.replay_free hset, Lib.replay_nil, hnone]
  | cons n chain =>
      obtain ⟨hn, hnodup'⟩ := List.nodup_cons.mp hnodup
      have hnode : Block.node n ∈ buffers.image Block.buffer ∪ owned (n :: chain) :=
        Finset.mem_union_right _ (node_mem_owned List.mem_cons_self)
      have hset' : Block.set ∈ (buffers.image Block.buffer ∪ owned (n :: chain)).erase (.node n) :=
        Finset.mem_erase_of_ne_of_mem (by simp) hset
      have hrest : ((buffers.image Block.buffer ∪ owned (n :: chain)).erase (.node n)).erase .set
          = buffers.image Block.buffer ∪ leaked (n :: chain) := by
        ext b
        simp only [owned, leaked, pair, List.toFinset_cons, List.tail_cons, Finset.mem_erase,
          Finset.mem_union, Finset.mem_insert, Finset.mem_image, Finset.mem_biUnion,
          Finset.mem_singleton, List.mem_toFinset]
        cases b with
        | set => simp
        | buffer i => simp
        | word m => simp
        | node m =>
            have hother : m ∈ chain → m ≠ n := fun hm => ne_of_mem_of_not_mem hm hn
            simp
            tauto
      show replay _ [free (Block.node n), free Block.set] = _
      rw [Lib.replay_free hnode, Lib.replay_free hset', Lib.replay_nil, hrest]

theorem card_leaked (hnodup : chain.Nodup) : (leaked chain).card = 2 * chain.length - 1 := by
  have hdisj : Disjoint (chain.toFinset.image Block.word)
      (chain.tail.toFinset.image Block.node) := by
    rw [Finset.disjoint_left]
    intro b hword hnode
    obtain ⟨m, -, rfl⟩ := Finset.mem_image.mp hword
    obtain ⟨k, -, heq⟩ := Finset.mem_image.mp hnode
    cases heq
  have hwords : (chain.toFinset.image Block.word).card = chain.length := by
    rw [Finset.card_image_of_injective _ (fun _ _ => Block.word.inj),
      List.toFinset_card_of_nodup hnodup]
  have hnodes : (chain.tail.toFinset.image Block.node).card = chain.length - 1 := by
    rw [Finset.card_image_of_injective _ (fun _ _ => Block.node.inj),
      List.toFinset_card_of_nodup hnodup.tail, List.length_tail]
  rw [leaked, Finset.card_union_of_disjoint hdisj, hwords, hnodes]
  omega

end Owned

/-! ## Any history of a set -/

/-- The loop of the three `main`s. Call number `i` of `words_next_word` leaves its word in a new
block, and `body` is what follows. -/
def mainLoop (body : ℕ → WordSet → List Byte → Except Stop (WordSet × List (MemEvent Block))) :
    ℕ → ℕ → WordSet → FILE → Except Stop (WordSet × List (MemEvent Block))
  | 0, _, _, _ => .error .outOfFuel
  | fuel + 1, i, ws, stdin => do
      match ← words_next_word stdin with
      | (none, _) => .ok (ws, [])
      | (some word, stdin) => do
          let (ws, events) ← body i ws word
          let (ws, rest) ← mainLoop body fuel (i + 1) ws stdin
          .ok (ws, malloc (.buffer i) :: access (.buffer i) :: (events ++ rest))

/-- The body of the loop where the word is added and freed. -/
def addBody (add : WordSet → List Byte → Except Stop (CInt × WordSet))
    (add_events : WordSet → List Byte → Except Stop (List (MemEvent Block))) (i : ℕ) (ws : WordSet)
    (word : List Byte) : Except Stop (WordSet × List (MemEvent Block)) := do
  let events ← add_events ws word
  let (_, ws) ← add ws word
  .ok (ws, access (.buffer i) :: (events ++ [free (.buffer i)]))

/-- In `wordfreq.c`. -/
def wordfreqBody : ℕ → WordSet → List Byte → Except Stop (WordSet × List (MemEvent Block)) :=
  addBody wset_add wset_add_events

/-- In `wordfreq-fast.c`. -/
def wordfreqFastBody : ℕ → WordSet → List Byte → Except Stop (WordSet × List (MemEvent Block)) :=
  addBody wset_fast_add wset_fast_add_events

/-- In `wordfreq-none.c`, where it is commented out. -/
def wordfreqNoneBody (_ : ℕ) (ws : WordSet) (_ : List Byte) :
    Except Stop (WordSet × List (MemEvent Block)) := .ok (ws, [])

/-- A `main` with its loop's body. -/
def mainEvents (body : ℕ → WordSet → List Byte → Except Stop (WordSet × List (MemEvent Block)))
    (quiet : Bool) (text : List Byte) : Except Stop (List (MemEvent Block)) := do
  let (ws, events) ← mainLoop body (text.length + 1) 0 wset_new (.reading text)
  let printed := if quiet then [] else wset_print_events ws
  .ok (wset_new_events ++ events ++ printed ++ wset_free_events ws)

/-- What one round of the loop keeps, all rounds keep. -/
theorem mainLoop_spec {Inv : List (List Byte) → WordSet → Finset Block → Prop}
    {body : ℕ → WordSet → List Byte → Except Stop (WordSet × List (MemEvent Block))}
    (hbody : ∀ seen ws live w, Inv seen ws live → Block.buffer seen.length ∉ live ∧
      ∃ ws' events live', body seen.length ws w = .ok (ws', events) ∧
        replay (insert (.buffer seen.length) live) events = some live' ∧
        Inv (seen ++ [w]) ws' live')
    {seen : List (List Byte)} {ws : WordSet} {live : Finset Block} (h : Inv seen ws live)
    {stdin : FILE} {fuel : ℕ} (hfuel : stdin.rest.length < fuel)
    (hruns : ∀ w ∈ wordsOf stdin.rest, w.length ≤ MAXBUF) :
    ∃ ws' events live', mainLoop body fuel seen.length ws stdin = .ok (ws', events) ∧
      replay live events = some live' ∧ Inv (seen ++ wordsOf stdin.rest) ws' live' := by
  induction fuel generalizing seen ws live stdin with
  | zero => exact absurd hfuel (Nat.not_lt_zero _)
  | succ fuel ih =>
      rcases text_cases stdin.rest with hnone | ⟨seps, w, tail, hfirst⟩
      · obtain ⟨stdin', hnext⟩ := words_next_word_none hnone
        refine ⟨ws, [], live, ?_, rfl, ?_⟩
        · rw [mainLoop, hnext]
          rfl
        · rw [wordsOf_none hnone, List.append_nil]
          exact h
      · rw [hfirst.wordsOf_eq] at hruns ⊢
        have hnext := words_next_word_word hfirst
        rw [if_pos (hruns w List.mem_cons_self)] at hnext
        obtain ⟨hfresh, ws₁, events₁, live₁, hround, hreplay, h₁⟩ := hbody seen ws live w h
        -- each call of `words_next_word` consumes at least the word it returns
        have hshort : tail.tail.length < fuel :=
          Nat.lt_of_lt_of_le hfirst.length_lt (Nat.le_of_lt_succ hfuel)
        obtain ⟨ws', events, live', hrun, hrest, h'⟩ :=
          @ih _ _ _ h₁ { stdin with rest := tail.tail } hshort
            (fun v hv => hruns v (List.mem_cons_of_mem w hv))
        rw [List.length_append, List.length_singleton] at hrun
        refine ⟨ws', malloc (.buffer seen.length) :: access (.buffer seen.length)
          :: (events₁ ++ events), live', ?_, ?_, ?_⟩
        · rw [mainLoop, hnext]
          simp only [bind, Except.bind, hround, hrun]
        · rw [Lib.replay_malloc hfresh, Lib.replay_access (Finset.mem_insert_self _ _),
            Lib.replay_append, hreplay, Option.bind_some, hrest]
        · rw [List.append_assoc, List.singleton_append] at h'
          exact h'

/-- The set owns all that is allocated. -/
def AllOwned (seen : List (List Byte)) (ws : WordSet) (live : Finset Block) : Prop :=
  ∃ chain keys, Listed ws chain seen keys ∧ live = owned chain

/-- The set is empty, and no word has been freed. -/
def AllBuffers (seen : List (List Byte)) (ws : WordSet) (live : Finset Block) : Prop :=
  ws = wset_new ∧ live = (Finset.range seen.length).image Block.buffer ∪ owned []

theorem buffer_notMem_owned (i : ℕ) (chain : List ℕ) : Block.buffer i ∉ owned chain := by
  simp [owned, pair]

/-- A round that adds the word and frees it. -/
theorem AllOwned.round {seen : List (List Byte)} {ws : WordSet} {live : Finset Block}
    {w : List Byte}
    {add : WordSet → List Byte → Except Stop (CInt × WordSet)}
    {add_events : WordSet → List Byte → Except Stop (List (MemEvent Block))}
    (hadd : ∀ chain keys, Listed ws chain seen keys →
      Owns chain (add ws w) (add_events ws w) (seen ++ [w])) (h : AllOwned seen ws live) (i : ℕ) :
    Block.buffer i ∉ live ∧ ∃ ws' events live', addBody add add_events i ws w = .ok (ws', events) ∧
        replay (insert (.buffer i) live) events = some live' ∧
        AllOwned (seen ++ [w]) ws' live' := by
  obtain ⟨chain, keys, hlisted, rfl⟩ := h
  obtain ⟨freq, ws', chain', keys', events, houtcome, hevents, h', hturns⟩ :=
    hadd chain keys hlisted
  refine ⟨buffer_notMem_owned i chain, ws', access (.buffer i) :: (events ++ [free (.buffer i)]),
    owned chain', ?_, ?_, chain', keys', h', rfl⟩
  · simp only [addBody, houtcome, hevents, bind, Except.bind]
  · have hone := hturns {i}
    rw [Finset.image_singleton, ← Finset.insert_eq, ← Finset.insert_eq] at hone
    rw [Lib.replay_access (Finset.mem_insert_self _ _), Lib.replay_append, hone, Option.bind_some,
      Lib.replay_free (Finset.mem_insert_self _ _), Lib.replay_nil,
      Finset.erase_insert (buffer_notMem_owned i chain')]

/-- A round that forgets the word. -/
theorem AllBuffers.round {seen : List (List Byte)} {ws : WordSet} {live : Finset Block}
    (w : List Byte) (h : AllBuffers seen ws live) :
    Block.buffer seen.length ∉ live ∧ ∃ ws' events live',
      wordfreqNoneBody seen.length ws w = .ok (ws', events) ∧
        replay (insert (.buffer seen.length) live) events = some live' ∧
        AllBuffers (seen ++ [w]) ws' live' := by
  obtain ⟨rfl, rfl⟩ := h
  refine ⟨?_, wset_new, [], _, rfl, rfl, rfl, ?_⟩
  · rw [Finset.mem_union, not_or]
    exact ⟨by simp, buffer_notMem_owned _ _⟩
  · rw [List.length_append, List.length_singleton, Finset.range_add_one, Finset.image_insert,
      Finset.insert_union]

section Text

variable {text : List Byte}

/-- The end of a `main`: what is printed is still allocated, and `wset_free` leaks. -/
theorem replay_mainEvents
    {body : ℕ → WordSet → List Byte → Except Stop (WordSet × List (MemEvent Block))}
    {ws : WordSet} {events : List (MemEvent Block)} {chain : List ℕ} {seen keys : List (List Byte)}
    {buffers : Finset ℕ} (quiet : Bool)
    (hloop : mainLoop body (text.length + 1) 0 wset_new (.reading text) = .ok (ws, events))
    (hlisted : Listed ws chain seen keys)
    (hreplay : replay (owned []) events = some (buffers.image Block.buffer ∪ owned chain)) :
    ∃ events', mainEvents body quiet text = .ok events' ∧
      replay ∅ events' = some (buffers.image Block.buffer ∪ leaked chain) := by
  have hprint : Turns chain chain (if quiet then [] else wset_print_events ws) := by
    cases quiet
    · exact (looks_print_events hlisted.holds).turns (.refl _)
    · exact Looks.turns (Reads.nil _) (.refl _)
  have hnew : replay ∅ wset_new_events = some (owned []) := rfl
  refine ⟨wset_new_events ++ events ++ (if quiet then [] else wset_print_events ws)
    ++ wset_free_events ws, ?_, ?_⟩
  · simp only [mainEvents, hloop, bind, Except.bind]
  · rw [Lib.replay_append, Lib.replay_append, Lib.replay_append, hnew, Option.bind_some, hreplay,
      Option.bind_some, hprint buffers, Option.bind_some,
      replay_wset_free hlisted.holds hlisted.nodup buffers]

/-- The programs that add the words. -/
theorem AllOwned.program
    {body : ℕ → WordSet → List Byte → Except Stop (WordSet × List (MemEvent Block))}
    (hround : ∀ seen ws live w, AllOwned seen ws live → Block.buffer seen.length ∉ live ∧
      ∃ ws' events live', body seen.length ws w = .ok (ws', events) ∧
        replay (insert (.buffer seen.length) live) events = some live' ∧
        AllOwned (seen ++ [w]) ws' live')
    (quiet : Bool) (hruns : ∀ w ∈ wordsOf text, w.length ≤ MAXBUF) :
    ∃ events live, mainEvents body quiet text = .ok events ∧ replay ∅ events = some live ∧
      live.card = 2 * (wordsOf text).toFinset.card - 1 := by
  obtain ⟨ws, events, live, hloop, hreplay, chain, keys, hlisted, rfl⟩ :=
    @mainLoop_spec AllOwned body hround [] wset_new (owned []) ⟨[], [], listed_new, rfl⟩
      (.reading text) _ (Nat.lt_succ_self _) hruns
  rw [← Finset.empty_union (owned chain), ← Finset.image_empty Block.buffer] at hreplay
  obtain ⟨events', hmain, hleak⟩ := replay_mainEvents quiet hloop hlisted hreplay
  refine ⟨events', leaked chain, hmain, ?_, ?_⟩
  · rw [hleak, Finset.image_empty, Finset.empty_union]
  · have hwords : keys.toFinset = (wordsOf text).toFinset := by
      ext w
      rw [List.mem_toFinset, List.mem_toFinset]
      exact hlisted.mem w
    have hlength : chain.length = keys.length := by rw [← hlisted.words, List.length_map]
    rw [card_leaked hlisted.nodup, hlength, ← hwords, List.toFinset_card_of_nodup hlisted.distinct]

/-- **What the three programs leave allocated.** On a text with `d` distinct words, whether they
print or not, `wordfreq` and `wordfreq-fast` leave `2 d - 1` blocks, all words and all nodes
but one, and `wordfreq-none` leaves every word it has read; none of them touches a block it
has freed. -/
theorem programs_leak (text : List Byte) (quiet : Bool)
    (hruns : ∀ w ∈ wordsOf text, w.length ≤ MAXBUF) :
    (∃ events live, mainEvents wordfreqBody quiet text = .ok events ∧ replay ∅ events = some live ∧
      live.card = 2 * (wordsOf text).toFinset.card - 1) ∧
    (∃ events live, mainEvents wordfreqFastBody quiet text = .ok events ∧
      replay ∅ events = some live ∧ live.card = 2 * (wordsOf text).toFinset.card - 1) ∧
    (∃ events live, mainEvents wordfreqNoneBody quiet text = .ok events ∧
      replay ∅ events = some live ∧ live.card = (wordsOf text).length) := by
  refine ⟨?_, ?_, ?_⟩
  · apply AllOwned.program _ quiet hruns
    intro seen ws live w h
    exact h.round (fun chain keys hlisted => hlisted.wset_add_owns w) seen.length
  · apply AllOwned.program _ quiet hruns
    intro seen ws live w h
    exact h.round (fun chain keys hlisted => hlisted.wset_fast_add_owns w) seen.length
  · obtain ⟨ws, events, live, hloop, hreplay, rfl, rfl⟩ :=
      @mainLoop_spec AllBuffers wordfreqNoneBody (fun _ _ _ w h => h.round w) [] wset_new (owned [])
        ⟨rfl, by simp⟩ (.reading text) _ (Nat.lt_succ_self _) hruns
    obtain ⟨events', hmain, hleak⟩ := replay_mainEvents quiet hloop listed_new hreplay
    refine ⟨events', _, hmain, hleak, ?_⟩
    rw [show leaked [] = ∅ from rfl, Finset.union_empty,
      Finset.card_image_of_injective _ (fun _ _ => Block.buffer.inj), Finset.card_range,
      List.nil_append]
    rfl

/-- The text "a b a". -/
theorem programs_leak_aba :
    (∃ events live, mainEvents wordfreqBody false [97, 32, 98, 32, 97] = .ok events ∧
      replay ∅ events = some live ∧ live.card = 3) ∧
    (∃ events live, mainEvents wordfreqFastBody false [97, 32, 98, 32, 97] = .ok events ∧
      replay ∅ events = some live ∧ live.card = 3) ∧
    (∃ events live, mainEvents wordfreqNoneBody false [97, 32, 98, 32, 97] = .ok events ∧
      replay ∅ events = some live ∧ live.card = 3) :=
  programs_leak [97, 32, 98, 32, 97] false (by decide)

end Text

end ProjectsInC.WordFreq
