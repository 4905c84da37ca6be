/-
Nodes with two pointers, and the walk that visits children before their parent.

The nodes are numbered in the order they were made, and a pointer leads to an older node
([`Falling`]). The walk from a node visits all nodes below it ([`mem_postorder_iff`]), and each of
them once if no node is pointed to twice ([`Unshared.postorder_nodup`]): a node that is met on
both sides has a parent that is met on both sides, and so on up to the two children themselves.
-/
import Mathlib.Data.List.Nodup
import Mathlib.Logic.Relation

set_option autoImplicit false

namespace ProjectsInC.Lib

section Forest

variable {left right : ℕ → Option ℕ} {n depth a b : ℕ} {visited : List ℕ}

/-- `b` is a child of `a`. -/
def Child (left right : ℕ → Option ℕ) (a b : ℕ) : Prop := left a = some b ∨ right a = some b

instance (left right : ℕ → Option ℕ) (a b : ℕ) : Decidable (Child left right a b) :=
  inferInstanceAs (Decidable (left a = some b ∨ right a = some b))

/-- Of the first `n` nodes, every child is older than its parent. -/
def Falling (left right : ℕ → Option ℕ) (n : ℕ) : Prop :=
  ∀ a < n, ∀ b, Child left right a b → b < a

/-- Among the first `n` nodes, every node is the child of one node at most, and once at most. -/
structure Unshared (left right : ℕ → Option ℕ) (n : ℕ) : Prop where
  parent : ∀ a < n, ∀ a' < n, ∀ b, Child left right a b → Child left right a' b → a = a'
  once : ∀ a < n, ∀ b, ¬ (left a = some b ∧ right a = some b)

/-- The walk, down to a depth; `none` if that is not enough. -/
def postorder (left right : ℕ → Option ℕ) : ℕ → Option ℕ → Option (List ℕ)
  | _, none => some []
  | 0, some _ => none
  | depth + 1, some a => do
      let below ← postorder left right depth (left a)
      let below' ← postorder left right depth (right a)
      some (below ++ below' ++ [a])

@[simp] theorem postorder_none (depth : ℕ) : postorder left right depth none = some [] := by
  cases depth <;> rfl

/-- A walk from a node is the walks from its children. -/
theorem postorder_some (h : postorder left right depth (some a) = some visited) :
    ∃ depth' below below', depth = depth' + 1 ∧
      postorder left right depth' (left a) = some below ∧
      postorder left right depth' (right a) = some below' ∧ visited = below ++ below' ++ [a] := by
  cases depth with
  | zero => cases h
  | succ depth =>
      rw [postorder] at h
      simp only [Option.bind_eq_bind, Option.bind_eq_some_iff] at h
      obtain ⟨below, hbelow, below', hbelow', heq⟩ := h
      exact ⟨depth, below, below', rfl, hbelow, hbelow', (Option.some.inj heq).symm⟩

/-- Another node with older children. -/
theorem Falling.succ (h : Falling left right n) (hnew : ∀ b, Child left right n b → b < n) :
    Falling left right (n + 1) := by
  intro a ha b hb
  rcases Nat.lt_succ_iff_lt_or_eq.mp ha with ha | rfl
  · exact h a ha b hb
  · exact hnew b hb

/-- **Another node** shares nothing if its children have no parent yet and are two. -/
theorem unshared_succ_iff : Unshared left right (n + 1) ↔ Unshared left right n ∧
    (∀ b, Child left right n b → ¬ ∃ a < n, Child left right a b) ∧
      ∀ b, ¬ (left n = some b ∧ right n = some b) := by
  constructor
  · intro h
    refine ⟨⟨?_, fun a ha => h.once a (Nat.lt_succ_of_lt ha)⟩, ?_, h.once n (Nat.lt_succ_self n)⟩
    · intro a ha a' ha' b
      exact h.parent a (Nat.lt_succ_of_lt ha) a' (Nat.lt_succ_of_lt ha') b
    · rintro b hb ⟨a, ha, hab⟩
      have heq := h.parent a (Nat.lt_succ_of_lt ha) n (Nat.lt_succ_self n) b hab hb
      omega
  · rintro ⟨h, hnew, honce⟩
    refine ⟨?_, ?_⟩
    · intro a ha a' ha' b hab hab'
      rcases Nat.lt_succ_iff_lt_or_eq.mp ha with ha | rfl
      · rcases Nat.lt_succ_iff_lt_or_eq.mp ha' with ha' | rfl
        · exact h.parent a ha a' ha' b hab hab'
        · exact absurd ⟨a, ha, hab⟩ (hnew b hab')
      · rcases Nat.lt_succ_iff_lt_or_eq.mp ha' with ha' | rfl
        · exact absurd ⟨a', ha', hab'⟩ (hnew b hab)
        · rfl
    · intro a ha
      rcases Nat.lt_succ_iff_lt_or_eq.mp ha with ha | rfl
      · exact h.once a ha
      · exact honce

theorem Child.congr {left' right' : ℕ → Option ℕ} (hleft : left' a = left a)
    (hright : right' a = right a) : Child left' right' a b ↔ Child left right a b := by
  unfold Child
  rw [hleft, hright]

/-- Only the pointers of the nodes that count matter. -/
theorem Unshared.congr {left' right' : ℕ → Option ℕ} (h : Unshared left right n)
    (hleft : ∀ a < n, left' a = left a) (hright : ∀ a < n, right' a = right a) :
    Unshared left' right' n := by
  refine ⟨?_, ?_⟩
  · intro a ha a' ha' b hab hab'
    rw [Child.congr (hleft a ha) (hright a ha)] at hab
    rw [Child.congr (hleft a' ha') (hright a' ha')] at hab'
    exact h.parent a ha a' ha' b hab hab'
  · intro a ha b
    rw [hleft a ha, hright a ha]
    exact h.once a ha b

theorem Falling.congr {left' right' : ℕ → Option ℕ} (h : Falling left right n)
    (hleft : ∀ a < n, left' a = left a) (hright : ∀ a < n, right' a = right a) :
    Falling left' right' n := by
  intro a ha b hab
  rw [Child.congr (hleft a ha) (hright a ha)] at hab
  exact h a ha b hab

theorem Falling.child (h : Falling left right n) (ha : a < n) (hb : Child left right a b) :
    b < n ∧ b < a :=
  ⟨Nat.lt_trans (h a ha b hb) ha, h a ha b hb⟩

/-- There are no more levels than older nodes. -/
theorem Falling.postorder (h : Falling left right n) (ha : a < n) (hdepth : a < depth) :
    ∃ visited, postorder left right depth (some a) = some visited := by
  induction depth generalizing a with
  | zero => exact absurd hdepth (Nat.not_lt_zero a)
  | succ depth ih =>
      have hchild : ∀ p, (∀ b, p = some b → Child left right a b) →
          ∃ below, Lib.postorder left right depth p = some below := by
        intro p hp
        cases p with
        | none => exact ⟨[], postorder_none depth⟩
        | some b =>
            obtain ⟨hb, hlt⟩ := h.child ha (hp b rfl)
            exact ih hb (by omega)
      obtain ⟨below, hbelow⟩ := hchild (left a) (fun b hb => .inl hb)
      obtain ⟨below', hbelow'⟩ := hchild (right a) (fun b hb => .inr hb)
      refine ⟨below ++ below' ++ [a], ?_⟩
      rw [Lib.postorder, hbelow, hbelow']
      rfl

/-- A walk that visits a node starts at one. -/
theorem exists_root {p : Option ℕ} (h : postorder left right depth p = some visited)
    (hb : b ∈ visited) : ∃ c, p = some c := by
  cases p with
  | none =>
      rw [postorder_none] at h
      rw [← Option.some.inj h] at hb
      exact absurd hb List.not_mem_nil
  | some c => exact ⟨c, rfl⟩

/-- What holds below the children of the root and of the root itself. -/
theorem mem_postorder_cases (h : postorder left right depth (some a) = some visited) :
    b ∈ visited ↔ b = a ∨ ∃ c depth' below, Child left right a c ∧ depth = depth' + 1 ∧
      postorder left right depth' (some c) = some below ∧ b ∈ below := by
  obtain ⟨depth', below, below', rfl, hbelow, hbelow', rfl⟩ := postorder_some h
  rw [List.mem_append, List.mem_append, List.mem_singleton]
  constructor
  · rintro ((hb | hb) | rfl)
    · obtain ⟨c, hleft⟩ := exists_root hbelow hb
      rw [hleft] at hbelow
      exact .inr ⟨c, depth', below, .inl hleft, rfl, hbelow, hb⟩
    · obtain ⟨c, hright⟩ := exists_root hbelow' hb
      rw [hright] at hbelow'
      exact .inr ⟨c, depth', below', .inr hright, rfl, hbelow', hb⟩
    · exact .inl rfl
  · rintro (rfl | ⟨c, depth'', below'', hchild, hdepth, hwalk, hb⟩)
    · exact .inr rfl
    · obtain rfl := Nat.succ.inj hdepth
      rcases hchild with hleft | hright
      · rw [hleft, hwalk] at hbelow
        exact .inl (.inl (Option.some.inj hbelow ▸ hb))
      · rw [hright, hwalk] at hbelow'
        exact .inl (.inr (Option.some.inj hbelow' ▸ hb))

/-- A child of a visited node is visited. -/
theorem postorder_closed (h : postorder left right depth (some a) = some visited) {p : ℕ}
    (hp : p ∈ visited) (hchild : Child left right p b) : b ∈ visited := by
  induction depth generalizing a visited with
  | zero => cases h
  | succ depth ih =>
      rw [mem_postorder_cases h]
      rcases (mem_postorder_cases h).mp hp with rfl | ⟨c, depth', below, hc, hdepth, hwalk, hmem⟩
      · -- the walk from the child begins with the child
        obtain ⟨depth', below, below', hdepth, hbelow, hbelow', -⟩ := postorder_some h
        obtain rfl := Nat.succ.inj hdepth
        rcases hchild with hleft | hright
        · rw [hleft] at hbelow
          exact .inr ⟨b, depth, below, .inl hleft, rfl, hbelow,
            (mem_postorder_cases hbelow).mpr (.inl rfl)⟩
        · rw [hright] at hbelow'
          exact .inr ⟨b, depth, below', .inr hright, rfl, hbelow',
            (mem_postorder_cases hbelow').mpr (.inl rfl)⟩
      · obtain rfl := Nat.succ.inj hdepth
        exact .inr ⟨c, depth, below, hc, rfl, hwalk, ih hwalk hmem⟩

/-- **The walk visits** the nodes below its root. -/
theorem mem_postorder_iff (h : postorder left right depth (some a) = some visited) :
    b ∈ visited ↔ Relation.ReflTransGen (Child left right) a b := by
  constructor
  · intro hb
    induction depth generalizing a visited with
    | zero => cases h
    | succ depth ih =>
        rcases (mem_postorder_cases h).mp hb with rfl | ⟨c, depth', below, hc, hdepth, hwalk, hmem⟩
        · exact .refl
        · obtain rfl := Nat.succ.inj hdepth
          exact .head hc (ih hwalk hmem)
  · intro hpath
    induction hpath with
    | refl => exact (mem_postorder_cases h).mpr (.inl rfl)
    | tail _ hchild ih => exact postorder_closed h ih hchild

/-- A visited node other than the root has a visited parent. -/
theorem parent_visited (h : postorder left right depth (some a) = some visited)
    (hb : b ∈ visited) : b = a ∨ ∃ p ∈ visited, Child left right p b := by
  rcases ((mem_postorder_iff h).mp hb).cases_tail with rfl | ⟨p, hpath, hchild⟩
  · exact .inl rfl
  · exact .inr ⟨p, (mem_postorder_iff h).mpr hpath, hchild⟩

/-- Nothing below a node is younger. -/
theorem Falling.below_le (h : Falling left right n) (ha : a < n)
    (hpath : Relation.ReflTransGen (Child left right) a b) : b ≤ a := by
  induction hpath with
  | refl => exact Nat.le_refl a
  | @tail b c _ hchild ih =>
      have hlt := h b (Nat.lt_of_le_of_lt ih ha) c hchild
      omega

/-- **The two sides of a node** have nothing in common. -/
theorem Unshared.disjoint (h : Unshared left right n) (hfall : Falling left right n) (ha : a < n)
    {c c' depth' : ℕ} {below below' : List ℕ} (hc : left a = some c) (hc' : right a = some c')
    (hbelow : postorder left right depth (some c) = some below)
    (hbelow' : postorder left right depth' (some c') = some below') (hb : b ∈ below) :
    b ∉ below' := by
  obtain ⟨hcn, hca⟩ := hfall.child ha (.inl hc)
  obtain ⟨hcn', hca'⟩ := hfall.child ha (.inr hc')
  have hle : ∀ p ∈ below, p ≤ c := fun p hp =>
    hfall.below_le hcn ((mem_postorder_iff hbelow).mp hp)
  have hle' : ∀ p ∈ below', p ≤ c' := fun p hp =>
    hfall.below_le hcn' ((mem_postorder_iff hbelow').mp hp)
  -- the induction goes up from parent to parent
  induction hk : n - b using Nat.strongRecOn generalizing b with
  | ind k ih =>
      intro hb'
      rcases parent_visited hbelow hb with rfl | ⟨p, hp, hchild⟩
      · rcases parent_visited hbelow' hb' with rfl | ⟨p', hp', hchild'⟩
        · exact h.once a ha b ⟨hc, hc'⟩
        · have hlt := hle' p' hp'
          have heq := h.parent p' (by omega) a ha b hchild' (.inl hc)
          omega
      · have hlt := hle p hp
        have hpn : p < n := by omega
        have hpb := hfall p hpn b hchild
        rcases parent_visited hbelow' hb' with rfl | ⟨p', hp', hchild'⟩
        · have heq := h.parent p hpn a ha b hchild (.inr hc')
          omega
        · have hlt' := hle' p' hp'
          obtain rfl := h.parent p hpn p' (by omega) b hchild hchild'
          exact ih (n - p) (by omega) hp rfl hp'

/-- **Every node is visited once** if none is shared. -/
theorem Unshared.postorder_nodup (h : Unshared left right n) (hfall : Falling left right n)
    (ha : a < n) (hwalk : postorder left right depth (some a) = some visited) : visited.Nodup := by
  induction depth generalizing a visited with
  | zero => cases hwalk
  | succ depth ih =>
      obtain ⟨depth', below, below', hdepth, hbelow, hbelow', rfl⟩ := postorder_some hwalk
      obtain rfl := Nat.succ.inj hdepth
      have hside : ∀ {p l}, postorder left right depth p = some l →
          (∀ c, p = some c → Child left right a c) → l.Nodup ∧ a ∉ l := by
        intro p l hl hp
        cases p with
        | none =>
            obtain rfl := Option.some.inj ((postorder_none depth).symm.trans hl)
            exact ⟨List.nodup_nil, List.not_mem_nil⟩
        | some c =>
            obtain ⟨hcn, hca⟩ := hfall.child ha (hp c rfl)
            refine ⟨ih hcn hl, fun hmem => ?_⟩
            have hle := hfall.below_le hcn ((mem_postorder_iff hl).mp hmem)
            omega
      obtain ⟨hnodup, hroot⟩ := hside hbelow (fun c hc => .inl hc)
      obtain ⟨hnodup', hroot'⟩ := hside hbelow' (fun c hc => .inr hc)
      have hdisj : ∀ b ∈ below, b ∉ below' := by
        intro b hb hb'
        obtain ⟨c, hleft⟩ := exists_root hbelow hb
        obtain ⟨c', hright⟩ := exists_root hbelow' hb'
        rw [hleft] at hbelow
        rw [hright] at hbelow'
        exact h.disjoint hfall ha hleft hright hbelow hbelow' hb hb'
      refine List.nodup_append.mpr ⟨List.nodup_append.mpr ⟨hnodup, hnodup', ?_⟩,
        List.nodup_singleton a, ?_⟩
      · rintro b hb b' hb' rfl
        exact hdisj b hb hb'
      · rintro b hb b' hb' rfl
        rw [List.mem_singleton] at hb'
        subst hb'
        rcases List.mem_append.mp hb with hb | hb
        · exact hroot hb
        · exact hroot' hb

end Forest

end ProjectsInC.Lib
