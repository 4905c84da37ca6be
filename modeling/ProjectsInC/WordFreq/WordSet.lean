/-
`wset.c`: a set of words with their frequencies, as a linked list.

`wset_add` appends a new word at the cell where `search` met NULL. `wset_fast_add` puts the
node of the word in front and, if the word was there, first unlinks the node through the cell
`search` found it in, which may be the head itself. Both only relink the nodes and count, so
that one statement about a permuted chain serves both ([`Listed.found`], [`Listed.fresh`]).
-/
import ProjectsInC.Lib.LinkedList
import ProjectsInC.Lib.Recency
import ProjectsInC.WordFreq.Words

set_option autoImplicit false

namespace ProjectsInC.WordFreq

open Lib (Chain Cell Links cellAfter touch arrive)

/-- `WordNode`, without its link -/
structure WordNode where
  freq : CInt
  word : List Byte

/-- `WordSet`: the nodes made so far, and how `head` and the fields `next` link them. -/
structure WordSet where
  size : CInt
  nodes : ℕ
  node : ℕ → WordNode
  list : Chain ℕ

/-- `node_new`; a word is shorter than the `int len` of `copy_word` can count. -/
def node_new (wset : WordSet) (word : List Byte) : ℕ × WordSet :=
  (wset.nodes, { wset with
    nodes := wset.nodes + 1
    node := Function.update wset.node wset.nodes ⟨0, word⟩
    list := wset.list.set (.next wset.nodes) none })

/-- `wset_new` -/
def wset_new : WordSet := ⟨0, 0, fun _ => ⟨0, []⟩, ⟨none, fun _ => none⟩⟩

/-- `wset_size` -/
def wset_size (wset : WordSet) : CInt := wset.size

/-- `n->freq = freq` -/
def WordSet.setFreq (wset : WordSet) (n : ℕ) (freq : CInt) : WordSet :=
  { wset with node := Function.update wset.node n { wset.node n with freq := freq } }

theorem setFreq_self (wset : WordSet) (n : ℕ) (freq : CInt) :
    (wset.setFreq n freq).node n = ⟨freq, (wset.node n).word⟩ :=
  Function.update_self ..

theorem setFreq_of_ne (wset : WordSet) {m n : ℕ} (freq : CInt) (hm : m ≠ n) :
    (wset.setFreq n freq).node m = wset.node m :=
  Function.update_of_ne hm ..

theorem setFreq_word (wset : WordSet) (m n : ℕ) (freq : CInt) :
    ((wset.setFreq n freq).node m).word = (wset.node m).word := by
  by_cases hm : m = n
  · rw [hm, setFreq_self]
  · rw [setFreq_of_ne wset freq hm]

/-- The loop of `search`. -/
def searchLoop (wset : WordSet) (word : List Byte) : ℕ → Cell ℕ → Except Stop (Cell ℕ)
  | 0, _ => .error .outOfFuel
  | fuel + 1, p =>
      match wset.list.get p with
      | none => .ok p
      | some n => if word = (wset.node n).word then .ok p else searchLoop wset word fuel (.next n)

/-- `search`: the cell that points to the node of the word, or the last cell. -/
def search (wset : WordSet) (word : List Byte) : Except Stop (Cell ℕ) :=
  searchLoop wset word (wset.nodes + 1) .head

/-- `wset_add` -/
def wset_add (wset : WordSet) (word : List Byte) : Except Stop (CInt × WordSet) := do
  let curr ← search wset word
  match wset.list.get curr with
  | none =>
      let (newNode, wset) := node_new wset word
      let wset := { wset with list := wset.list.set (.next newNode) none }
      let wset := wset.setFreq newNode ((wset.node newNode).freq + 1)
      let wset := { wset with list := wset.list.set curr (some newNode), size := wset.size + 1 }
      .ok ((wset.node newNode).freq, wset)
  | some n =>
      let wset := wset.setFreq n ((wset.node n).freq + 1)
      .ok ((wset.node n).freq, wset)

/-- `wset_fast_add` -/
def wset_fast_add (wset : WordSet) (word : List Byte) : Except Stop (CInt × WordSet) := do
  let curr ← search wset word
  match wset.list.get curr with
  | none =>
      let (newNode, wset) := node_new wset word
      let list := wset.list.set (.next newNode) wset.list.head
      let wset := { wset with list := list.set .head (some newNode), size := wset.size + 1 }
      let wset := wset.setFreq newNode 1
      .ok ((wset.node newNode).freq, wset)
  | some prev =>
      let freq := (wset.node prev).freq + 1
      let wset := wset.setFreq prev freq
      let list := wset.list.set curr (wset.list.next prev)
      let list := list.set (.next prev) list.head
      .ok (freq, { wset with list := list.set .head (some prev) })

/-- `wset_remove`; the node is freed and no longer on the list. -/
def wset_remove (wset : WordSet) (word : List Byte) : Except Stop (CInt × WordSet) :=
  if wset_size wset = 0 then .ok (-1, wset)
  else do
    let curr ← search wset word
    match wset.list.get curr with
    | none => .ok (-1, wset)
    | some prev =>
        let k := (wset.node prev).freq
        let list := wset.list.set curr (wset.list.next prev)
        .ok (k, { wset with list := list, size := wset.size - 1 })

/-- The loop of `wset_exists` and `wset_freq` behind `search`; they differ in what they return
for the node they find. -/
def lookupLoop (wset : WordSet) (word : List Byte) (found : ℕ → CInt) :
    ℕ → Cell ℕ → Except Stop CInt
  | 0, _ => .error .outOfFuel
  | fuel + 1, curr =>
      match wset.list.get curr with
      | none => .ok 0
      | some n =>
          if word = (wset.node n).word then .ok (found n)
          else if wset.list.next n = none then .ok 0
          else lookupLoop wset word found fuel (.next n)

/-- `search`, and then the loop. -/
def lookup (wset : WordSet) (word : List Byte) (found : ℕ → CInt) : Except Stop CInt := do
  let curr ← search wset word
  lookupLoop wset word found (wset.nodes + 1) curr

/-- `wset_exists` -/
def wset_exists (wset : WordSet) (word : List Byte) : Except Stop CInt :=
  lookup wset word (fun _ => 1)

/-- `wset_freq` -/
def wset_freq (wset : WordSet) (word : List Byte) : Except Stop CInt :=
  lookup wset word (fun n => (wset.node n).freq)

/-- The loop of `wset_print`: the words and frequencies in the order of the list. -/
def printLoop (wset : WordSet) : ℕ → Option ℕ → Except Stop (List (List Byte × CInt))
  | _, none => .ok []
  | 0, some _ => .error .outOfFuel
  | fuel + 1, some p => do
      let entries ← printLoop wset fuel (wset.list.next p)
      .ok (((wset.node p).word, (wset.node p).freq) :: entries)

/-- What `wset_print` prints. -/
def wset_print (wset : WordSet) : Except Stop (List (List Byte × CInt)) :=
  printLoop wset wset.nodes wset.list.head

/-! ## What a set stands for -/

/-- The list leads through the nodes of `chain`, which are those of `keys`; their frequencies
are those in `seen`, the words added so far. -/
structure Listed (wset : WordSet) (chain : List ℕ) (seen keys : List (List Byte)) : Prop where
  holds : wset.list.Holds chain
  nodup : chain.Nodup
  old : ∀ n ∈ chain, n < wset.nodes
  words : chain.map (fun n => (wset.node n).word) = keys
  freq : ∀ n ∈ chain, (wset.node n).freq = BitVec.ofNat 32 (seen.count (wset.node n).word)
  size : wset.size = BitVec.ofNat 32 keys.length
  distinct : keys.Nodup
  mem : ∀ w, w ∈ keys ↔ w ∈ seen

theorem listed_new : Listed wset_new [] [] [] := by
  refine ⟨?_, List.nodup_nil, ?_, rfl, ?_, rfl, List.nodup_nil, fun w => Iff.rfl⟩
  · unfold Chain.Holds
    rfl
  · intro n hn
    exact absurd hn List.not_mem_nil
  · intro n hn
    exact absurd hn List.not_mem_nil

section Listed

variable {wset : WordSet} {chain chain' xs ys : List ℕ} {seen keys : List (List Byte)}
  {w : List Byte} {n : ℕ} {list' : Chain ℕ}

theorem Listed.length_le (h : Listed wset chain seen keys) : chain.length ≤ wset.nodes :=
  Lib.length_le_of_lt h.nodup h.old

/-- Two nodes of the chain have different words. -/
theorem Listed.word_ne (h : Listed wset chain seen keys) {m : ℕ} (hm : m ∈ chain)
    (hn : n ∈ chain) (hne : m ≠ n) : (wset.node m).word ≠ (wset.node n).word := by
  intro heq
  have hdistinct := h.distinct
  rw [← h.words] at hdistinct
  exact hne (List.inj_on_of_nodup_map hdistinct hm hn heq)

/-- A word that is not in the set has no count. -/
theorem Listed.count_absent (h : Listed wset chain seen keys) (hw : w ∉ keys) :
    seen.count w = 0 :=
  List.count_eq_zero.mpr (fun hmem => hw ((h.mem w).mpr hmem))

/-! ## `search` -/

/-- The loop walks over the nodes of other words. -/
theorem searchLoop_walk (hholds : wset.list.Holds (xs ++ ys))
    (hother : ∀ m ∈ xs, w ≠ (wset.node m).word) (fuel : ℕ) :
    searchLoop wset w (xs.length + fuel) .head = searchLoop wset w fuel (cellAfter xs) := by
  refine hholds.walkFromHead (searchLoop wset w) ?_ fuel
  intro fuel p m hm hget
  rw [searchLoop]
  simp only [hget]
  rw [if_neg (hother m hm)]

/-- **`search`** for a word that is not in the set: the cell at the end. -/
theorem search_absent (h : Listed wset chain seen keys) (hw : w ∉ keys) :
    search wset w = .ok (cellAfter chain) ∧ wset.list.get (cellAfter chain) = none := by
  have hholds : wset.list.Holds (chain ++ []) := by
    rw [List.append_nil]
    exact h.holds
  have hother : ∀ m ∈ chain, w ≠ (wset.node m).word := by
    rintro m hm rfl
    apply hw
    rw [← h.words]
    exact List.mem_map_of_mem hm
  have hget : wset.list.get (cellAfter chain) = none := hholds.get_cellAfter
  have hlen := h.length_le
  obtain ⟨fuel, hfuel⟩ := Nat.exists_eq_add_of_lt (Nat.lt_succ_of_le hlen)
  refine ⟨?_, hget⟩
  have hsplit : wset.nodes + 1 = chain.length + (fuel + 1) := by omega
  rw [search, hsplit, searchLoop_walk hholds hother, searchLoop]
  simp only [hget]

/-- **`search`** for a word of the set: the cell in front of its node. -/
theorem search_present (h : Listed wset (xs ++ n :: ys) seen keys)
    (hn : (wset.node n).word = w) :
    search wset w = .ok (cellAfter xs) ∧ wset.list.get (cellAfter xs) = some n := by
  have hother : ∀ m ∈ xs, w ≠ (wset.node m).word := by
    intro m hm heq
    have hne : m ≠ n := by
      rintro rfl
      exact (List.nodup_append.mp h.nodup).2.2 m hm m List.mem_cons_self rfl
    exact h.word_ne (List.mem_append_left _ hm)
      (List.mem_append_right _ List.mem_cons_self) hne (heq.symm.trans hn.symm)
  have hget : wset.list.get (cellAfter xs) = some n := h.holds.get_cellAfter
  have hlen := h.length_le
  rw [List.length_append, List.length_cons] at hlen
  obtain ⟨fuel, hfuel⟩ := Nat.exists_eq_add_of_lt (show xs.length < wset.nodes + 1 by omega)
  refine ⟨?_, hget⟩
  have hsplit : wset.nodes + 1 = xs.length + (fuel + 1) := by omega
  rw [search, hsplit, searchLoop_walk h.holds hother, searchLoop]
  simp only [hget]
  rw [if_pos hn.symm]

/-! ## Counting and relinking -/

/-- The node of a word that was there counts one more, and the nodes are linked in another
order. -/
theorem Listed.found (h : Listed wset chain seen keys) (hn : n ∈ chain)
    (hw : (wset.node n).word = w) (hperm : chain'.Perm chain) (hlist : list'.Holds chain') :
    Listed { wset with
        node := (wset.setFreq n ((wset.node n).freq + 1)).node
        list := list' }
      chain' (seen ++ [w]) (chain'.map (fun m => (wset.node m).word)) := by
  have hkeys : (chain'.map (fun m => (wset.node m).word)).Perm keys := by
    rw [← h.words]
    exact hperm.map _
  refine ⟨hlist, hperm.nodup_iff.mpr h.nodup, ?_, ?_, ?_, ?_, hkeys.nodup_iff.mpr h.distinct, ?_⟩
  · intro m hm
    exact h.old m (hperm.mem_iff.mp hm)
  · exact List.map_congr_left (fun m _ => setFreq_word wset m n _)
  · intro m hm
    have hm' := hperm.mem_iff.mp hm
    rw [setFreq_word]
    by_cases hmn : m = n
    · have hfreq := h.freq n hn
      rw [hw] at hfreq
      rw [hmn, setFreq_self, hw, List.count_append, List.count_singleton_self, BitVec.ofNat_add,
        ← hfreq]
      rfl
    · -- the other words keep their counts
      have hne : (wset.node n).word ≠ (wset.node m).word := h.word_ne hn hm' (Ne.symm hmn)
      rw [hw] at hne
      rw [setFreq_of_ne wset _ hmn, List.count_append, List.count_singleton,
        if_neg (by simpa using hne), Nat.add_zero, h.freq m hm']
  · rw [hkeys.length_eq]
    exact h.size
  · intro v
    have hwkeys : w ∈ keys := by
      rw [← h.words, ← hw]
      exact List.mem_map_of_mem hn
    rw [hkeys.mem_iff, h.mem v, List.mem_append, List.mem_singleton]
    constructor
    · exact Or.inl
    · rintro (hv | rfl)
      · exact hv
      · exact (h.mem v).mp hwkeys

theorem Listed.new_not_mem (h : Listed wset chain seen keys) : wset.nodes ∉ chain :=
  fun hmem => Nat.lt_irrefl _ (h.old _ hmem)

/-- A new node does not show in the others. -/
theorem Listed.node_fresh (h : Listed wset chain seen keys) (new : WordNode) :
    ∀ m ∈ chain, Function.update wset.node wset.nodes new m = wset.node m :=
  fun _ hm => Function.update_of_ne (ne_of_mem_of_not_mem hm h.new_not_mem) ..

theorem Listed.words_fresh (h : Listed wset chain seen keys) (new : WordNode) :
    chain.map (fun m => (Function.update wset.node wset.nodes new m).word) = keys := by
  rw [← h.words]
  exact List.map_congr_left (fun m hm => congrArg WordNode.word (h.node_fresh new m hm))

/-- A new node with a new word joins, anywhere in the list. -/
theorem Listed.fresh (h : Listed wset chain seen keys) (hw : w ∉ keys)
    (hperm : chain'.Perm (wset.nodes :: chain)) (hlist : list'.Holds chain') :
    Listed
      { size := wset.size + 1
        nodes := wset.nodes + 1
        node := Function.update wset.node wset.nodes ⟨1, w⟩
        list := list' }
      chain' (seen ++ [w])
      (chain'.map (fun m => (Function.update wset.node wset.nodes ⟨1, w⟩ m).word)) := by
  have hkeys : (chain'.map (fun m => (Function.update wset.node wset.nodes ⟨1, w⟩ m).word)).Perm
      (w :: keys) := by
    apply (hperm.map _).trans
    rw [List.map_cons, Function.update_self, h.words_fresh]
  refine ⟨hlist, hperm.nodup_iff.mpr (List.nodup_cons.mpr ⟨h.new_not_mem, h.nodup⟩), ?_, rfl, ?_, ?_,
    hkeys.nodup_iff.mpr (List.nodup_cons.mpr ⟨hw, h.distinct⟩), ?_⟩
  · intro m hm
    rcases List.mem_cons.mp (hperm.mem_iff.mp hm) with rfl | hm
    · exact Nat.lt_succ_self _
    · exact Nat.lt_succ_of_lt (h.old m hm)
  · intro m hm
    rcases List.mem_cons.mp (hperm.mem_iff.mp hm) with rfl | hm
    · simp only [Function.update_self]
      rw [List.count_append, h.count_absent hw, List.count_singleton_self]
      rfl
    · have hne : w ≠ (wset.node m).word := by
        rintro rfl
        apply hw
        rw [← h.words]
        exact List.mem_map_of_mem hm
      simp only [h.node_fresh _ m hm]
      rw [List.count_append, List.count_singleton, if_neg (by simpa using hne), Nat.add_zero]
      exact h.freq m hm
  · rw [hkeys.length_eq, List.length_cons, BitVec.ofNat_add, ← h.size]
    rfl
  · intro v
    rw [hkeys.mem_iff, List.mem_cons, h.mem v, List.mem_append, List.mem_singleton, or_comm]

/-! ## The two ways to add a word -/

/-- Where a word of the set is. -/
theorem Listed.at_word (h : Listed wset chain seen keys) (hw : w ∈ keys) :
    ∃ xs n ys, chain = xs ++ n :: ys ∧ (wset.node n).word = w := by
  rw [← h.words] at hw
  obtain ⟨n, hn, hword⟩ := List.mem_map.mp hw
  obtain ⟨xs, ys, hsplit⟩ := List.append_of_mem hn
  exact ⟨xs, n, ys, hsplit, hword⟩

/-- The frequency of a word that was just added. -/
theorem Listed.freq_found (h : Listed wset chain seen keys) (hn : n ∈ chain)
    (hw : (wset.node n).word = w) :
    (wset.node n).freq + 1 = BitVec.ofNat 32 ((seen ++ [w]).count w) := by
  rw [h.freq n hn, hw, List.count_append, List.count_singleton_self, BitVec.ofNat_add]
  rfl

theorem Listed.freq_fresh (h : Listed wset chain seen keys) (hw : w ∉ keys) :
    (1 : CInt) = BitVec.ofNat 32 ((seen ++ [w]).count w) := by
  rw [List.count_append, h.count_absent hw, List.count_singleton_self]
  rfl

/-- **`wset_add`** returns the frequency and appends a new word. -/
theorem wset_add_spec (h : Listed wset chain seen keys) (w : List Byte) :
    ∃ wset' chain', wset_add wset w = .ok (BitVec.ofNat 32 ((seen ++ [w]).count w), wset') ∧
      Listed wset' chain' (seen ++ [w]) (arrive w keys) := by
  unfold arrive
  by_cases hw : w ∈ keys
  · obtain ⟨xs, n, ys, rfl, hn⟩ := h.at_word hw
    have hmem : n ∈ xs ++ n :: ys := by simp
    obtain ⟨hsearch, hget⟩ := search_present h hn
    refine ⟨wset.setFreq n ((wset.node n).freq + 1), xs ++ n :: ys, ?_, ?_⟩
    · unfold wset_add
      simp only [hsearch, hget, bind, Except.bind, setFreq_self]
      rw [h.freq_found hmem hn]
    · rw [if_pos hw]
      have hlisted := h.found hmem hn (List.Perm.refl _) h.holds
      rwa [h.words] at hlisted
  · obtain ⟨hsearch, hget⟩ := search_absent h hw
    have hlisted := h.fresh hw (List.perm_append_singleton wset.nodes chain)
      (h.holds.append h.nodup h.new_not_mem)
    rw [List.map_append, List.map_singleton, Function.update_self, h.words_fresh] at hlisted
    refine ⟨_, chain ++ [wset.nodes], ?_, by rwa [if_neg hw]⟩
    unfold wset_add
    simp only [hsearch, hget, bind, Except.bind, node_new, WordSet.setFreq, Chain.set,
      Function.update_self, Function.update_idem]
    rw [← h.freq_fresh hw]
    rfl

/-- **`wset_fast_add`** returns the frequency and moves the word to the front. -/
theorem wset_fast_add_spec (h : Listed wset chain seen keys) (w : List Byte) :
    ∃ wset' chain',
      wset_fast_add wset w = .ok (BitVec.ofNat 32 ((seen ++ [w]).count w), wset') ∧
      Listed wset' chain' (seen ++ [w]) (touch w keys) := by
  by_cases hw : w ∈ keys
  · obtain ⟨xs, n, ys, rfl, hn⟩ := h.at_word hw
    have hmem : n ∈ xs ++ n :: ys := by simp
    obtain ⟨hsearch, hget⟩ := search_present h hn
    have hmid : (n :: (xs ++ ys)).Nodup := List.perm_middle.nodup_iff.mp h.nodup
    have hlisted := h.found hmem hn List.perm_middle.symm
      ((h.holds.unlink h.nodup).push (List.nodup_cons.mp hmid).1)
    -- the word stands where its node does
    have hkeys : (n :: (xs ++ ys)).map (fun m => (wset.node m).word) = touch w keys := by
      have hwords := h.words
      have hdistinct := h.distinct
      rw [List.map_append, List.map_cons, hn] at hwords
      rw [← hwords] at hdistinct ⊢
      have hfront : w ∉ xs.map (fun m => (wset.node m).word) := fun hmem' =>
        (List.nodup_append.mp hdistinct).2.2 w hmem' w List.mem_cons_self rfl
      rw [Lib.touch_middle hfront, List.map_cons, hn, List.map_append]
    rw [hkeys] at hlisted
    refine ⟨_, n :: (xs ++ ys), ?_, hlisted⟩
    unfold wset_fast_add
    simp only [hsearch, hget, bind, Except.bind]
    rw [← h.freq_found hmem hn]
    rfl
  · obtain ⟨hsearch, hget⟩ := search_absent h hw
    have hlisted := h.fresh hw (List.Perm.refl _) (h.holds.push h.new_not_mem)
    rw [List.map_cons, Function.update_self, h.words_fresh] at hlisted
    rw [Lib.touch_of_not_mem hw]
    refine ⟨_, wset.nodes :: chain, ?_, hlisted⟩
    unfold wset_fast_add
    simp only [hsearch, hget, bind, Except.bind, node_new, WordSet.setFreq, Chain.set,
      Function.update_self, Function.update_idem]
    rw [← h.freq_fresh hw]

/-! ## Removing and looking up -/

/-- A chain without the node of `w` has lost the word and its count. -/
theorem Listed.removed (h : Listed wset (xs ++ n :: ys) seen keys) (hn : (wset.node n).word = w)
    (hlist : list'.Holds (xs ++ ys)) :
    Listed { wset with list := list', size := wset.size - 1 } (xs ++ ys)
      (seen.filter (· ≠ w)) (keys.erase w) := by
  have hsub : ∀ m ∈ xs ++ ys, m ∈ xs ++ n :: ys := by
    intro m hm
    exact List.perm_middle.symm.mem_iff.mp (List.mem_cons_of_mem n hm)
  have hmem : n ∈ xs ++ n :: ys := List.mem_append_right _ List.mem_cons_self
  have hmid : (n :: (xs ++ ys)).Nodup := List.perm_middle.nodup_iff.mp h.nodup
  have hother : ∀ m ∈ xs ++ ys, (wset.node m).word ≠ w := by
    intro m hm
    rw [← hn]
    exact h.word_ne (hsub m hm) hmem (ne_of_mem_of_not_mem hm (List.nodup_cons.mp hmid).1)
  have hw : w ∈ keys := by
    rw [← h.words, ← hn]
    exact List.mem_map_of_mem hmem
  have hkeys : (xs ++ ys).map (fun m => (wset.node m).word) = keys.erase w := by
    have hwords := h.words
    rw [List.map_append, List.map_cons, hn] at hwords
    have hfront : w ∉ xs.map (fun m => (wset.node m).word) := by
      intro hmem'
      obtain ⟨m, hm, heq⟩ := List.mem_map.mp hmem'
      exact hother m (List.mem_append_left ys hm) heq
    rw [← hwords, List.erase_append_right _ hfront, List.erase_cons_head, List.map_append]
  refine ⟨hlist, (List.nodup_cons.mp hmid).2, ?_, hkeys, ?_, ?_, h.distinct.erase w, ?_⟩
  · intro m hm
    exact h.old m (hsub m hm)
  · intro m hm
    rw [List.count_filter (by simpa using hother m hm)]
    exact h.freq m (hsub m hm)
  · have hlen := List.length_erase_of_mem hw
    have hpos := List.length_pos_of_mem hw
    have hsucc : keys.length = (keys.erase w).length + 1 := by omega
    have hsize : wset.size = BitVec.ofNat 32 (keys.erase w).length + 1 := by
      rw [h.size, hsucc, BitVec.ofNat_add]
      rfl
    show wset.size - 1 = _
    rw [hsize, add_sub_cancel_right]
  · intro v
    rw [h.distinct.mem_erase_iff, h.mem v, List.mem_filter]
    simp [and_comm]

/-- **`wset_remove`** for a word that is not in the set. -/
theorem wset_remove_absent (h : Listed wset chain seen keys) (hw : w ∉ keys) :
    wset_remove wset w = .ok (-1, wset) := by
  obtain ⟨hsearch, hget⟩ := search_absent h hw
  unfold wset_remove
  split_ifs
  · rfl
  · simp only [hsearch, hget, bind, Except.bind]

/-- **`wset_remove`** for a word of the set, if the size shows that there are words. -/
theorem wset_remove_present (h : Listed wset chain seen keys) (hw : w ∈ keys)
    (hsize : wset.size ≠ 0) :
    ∃ wset' chain', wset_remove wset w = .ok (BitVec.ofNat 32 (seen.count w), wset') ∧
      Listed wset' chain' (seen.filter (· ≠ w)) (keys.erase w) := by
  obtain ⟨xs, n, ys, rfl, hn⟩ := h.at_word hw
  obtain ⟨hsearch, hget⟩ := search_present h hn
  have hfreq := h.freq n (by simp)
  rw [hn] at hfreq
  refine ⟨_, xs ++ ys, ?_, h.removed hn (h.holds.unlink h.nodup)⟩
  unfold wset_remove
  rw [if_neg (show ¬ wset_size wset = 0 from hsize)]
  simp only [hsearch, hget, bind, Except.bind, hfreq]

/-- What `wset_exists` and `wset_freq` return. -/
theorem lookup_spec (h : Listed wset chain seen keys) (w : List Byte) (found : ℕ → CInt) :
    (w ∉ keys → lookup wset w found = .ok 0) ∧
      ∀ n ∈ chain, (wset.node n).word = w → lookup wset w found = .ok (found n) := by
  constructor
  · intro hw
    obtain ⟨hsearch, hget⟩ := search_absent h hw
    unfold lookup
    simp only [hsearch, bind, Except.bind, lookupLoop, hget]
  · intro n hn hword
    obtain ⟨xs, ys, rfl⟩ := List.append_of_mem hn
    obtain ⟨hsearch, hget⟩ := search_present h hword
    unfold lookup
    simp only [hsearch, bind, Except.bind, lookupLoop, hget, hword, if_true]

/-- **`wset_exists`** -/
theorem wset_exists_spec (h : Listed wset chain seen keys) (w : List Byte) :
    wset_exists wset w = .ok (if w ∈ keys then 1 else 0) := by
  by_cases hw : w ∈ keys
  · obtain ⟨xs, n, ys, rfl, hn⟩ := h.at_word hw
    rw [if_pos hw]
    exact (lookup_spec h w _).2 n (by simp) hn
  · rw [if_neg hw]
    exact (lookup_spec h w _).1 hw

/-- **`wset_freq`** -/
theorem wset_freq_spec (h : Listed wset chain seen keys) (w : List Byte) :
    wset_freq wset w = .ok (BitVec.ofNat 32 (seen.count w)) := by
  by_cases hw : w ∈ keys
  · obtain ⟨xs, n, ys, rfl, hn⟩ := h.at_word hw
    have hfreq := h.freq n (by simp)
    rw [hn] at hfreq
    rw [← hfreq]
    exact (lookup_spec h w _).2 n (by simp) hn
  · rw [h.count_absent hw]
    exact (lookup_spec h w _).1 hw

/-! ## Printing -/

/-- The loop prints the words of the nodes it goes through. -/
theorem printLoop_spec {p : Option ℕ} (hlinks : Links wset.list.next p chain) {fuel : ℕ}
    (hfuel : chain.length ≤ fuel) :
    printLoop wset fuel p
      = .ok (chain.map (fun n => ((wset.node n).word, (wset.node n).freq))) := by
  induction chain generalizing p fuel with
  | nil =>
      obtain rfl : p = none := hlinks
      unfold printLoop
      rfl
  | cons n chain ih =>
      obtain ⟨rfl, hrest⟩ := hlinks
      rw [List.length_cons] at hfuel
      obtain ⟨fuel, rfl⟩ := Nat.exists_eq_add_of_le' (Nat.one_le_of_lt hfuel)
      rw [printLoop, ih hrest (Nat.le_of_succ_le_succ hfuel), List.map_cons]
      rfl

/-- **`wset_print`**: every word with the number of times it was added. -/
theorem wset_print_spec (h : Listed wset chain seen keys) :
    wset_print wset = .ok (keys.map (fun w => (w, BitVec.ofNat 32 (seen.count w)))) := by
  rw [wset_print, printLoop_spec h.holds h.length_le, ← h.words, List.map_map]
  congr 1
  apply List.map_congr_left
  intro n hn
  rw [h.freq n hn]
  rfl

end Listed

end ProjectsInC.WordFreq
