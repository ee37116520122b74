/-
# Trees by parent and height

A tree given by what each node says of itself: its parent and its height.  The
parent a root names is not looked at.  A path runs from the root to its tip,
one node a height; every node has exactly one (`IsTree.exists_path`,
`Path.unique`), and a path to a node passes through its ancestors and nothing
else.
-/
import Mathlib.Data.List.Nodup
import Mathlib.Logic.Relation
import Mathlib.Tactic.Common

namespace HeightTree

universe u

variable {α : Type u}

/-- The parent and the height of each node. -/
abbrev Nodes (α : Type u) := α → Option (α × ℕ)

/-- One root, at height zero, and every other node one above its parent. -/
structure IsTree (node : Nodes α) (root : α) : Prop where
  root_node : ∃ p, node root = some (p, 0)
  height_zero : ∀ {a p}, node a = some (p, 0) → a = root
  parent_node : ∀ {a p n}, node a = some (p, n + 1) → ∃ q, node p = some (q, n)

/-- `l` is the path from the root to `a`. -/
inductive Path (node : Nodes α) (root : α) : List α → α → Prop
  | root : Path node root [root] root
  | snoc {l : List α} {a b : α} (init : Path node root l a) (step : node b = some (a, l.length)) :
      Path node root (l ++ [b]) b

/-- `c` names `p` as its parent. -/
def Child (node : Nodes α) (p c : α) : Prop := ∃ n, node c = some (p, n + 1)

/-- `b` is `a` or is built on it. -/
def Descends (node : Nodes α) : α → α → Prop := Relation.ReflTransGen (Child node)

section Path

variable {node : Nodes α} {root : α} {l m : List α} {a b c : α}

theorem Path.length_pos (h : Path node root l a) : 0 < l.length := by
  cases h <;> simp

theorem Path.getLast? (h : Path node root l a) : l.getLast? = some a := by
  cases h <;> simp

theorem Path.tip_mem (h : Path node root l a) : a ∈ l := List.mem_of_getLast? h.getLast?

theorem Path.head? (h : Path node root l a) : l.head? = some root := by
  induction h with
  | root => rfl
  | snoc init step ih => rw [List.head?_append, ih, Option.some_or]

/-- The entry of a path at each height is a node of that height. -/
theorem Path.node_getElem? (hT : IsTree node root) (h : Path node root l a) {i : ℕ}
    (hi : l[i]? = some b) : ∃ p, node b = some (p, i) := by
  induction h with
  | root =>
    obtain ⟨rfl, rfl⟩ : i = 0 ∧ root = b := by
      cases i with
      | zero => exact ⟨rfl, Option.some.inj hi⟩
      | succ i => cases hi
    exact hT.root_node
  | @snoc l a c init step ih =>
    rw [List.getElem?_append] at hi
    split at hi
    · exact ih hi
    · rw [List.getElem?_singleton] at hi
      split at hi
      · obtain rfl : i = l.length := by omega
        cases hi
        exact ⟨a, step⟩
      · cases hi

theorem Path.tip_getElem? (h : Path node root l a) : l[l.length - 1]? = some a := by
  rw [← List.getLast?_eq_getElem?, h.getLast?]

theorem Path.node_tip (hT : IsTree node root) (h : Path node root l a) :
    ∃ p, node a = some (p, l.length - 1) := h.node_getElem? hT h.tip_getElem?

theorem Path.node_of_mem (hT : IsTree node root) (h : Path node root l a) (hb : b ∈ l) :
    ∃ p n, node b = some (p, n) ∧ l[n]? = some b := by
  obtain ⟨i, hi⟩ := List.mem_iff_getElem?.mp hb
  obtain ⟨p, hp⟩ := h.node_getElem? hT hi
  exact ⟨p, i, hp, hi⟩

/-- A node of a path is the path's entry at its height. -/
theorem Path.getElem?_of_mem (hT : IsTree node root) (h : Path node root l a) (hb : b ∈ l)
    {p : α} {n : ℕ} (hn : node b = some (p, n)) : l[n]? = some b := by
  obtain ⟨q, i, hq, hi⟩ := h.node_of_mem hT hb
  rw [hn, Option.some.injEq, Prod.mk.injEq] at hq
  exact hq.2 ▸ hi

theorem Path.nodup (hT : IsTree node root) (h : Path node root l a) : l.Nodup := by
  rw [List.nodup_iff_injective_getElem]
  intro i j hij
  obtain ⟨p, hp⟩ := h.node_getElem? hT (List.getElem?_eq_getElem i.isLt)
  obtain ⟨q, hq⟩ := h.node_getElem? hT (List.getElem?_eq_getElem j.isLt)
  rw [show l[j.val] = l[i.val] from hij.symm, hp, Option.some.injEq, Prod.mk.injEq] at hq
  exact Fin.ext hq.2

/-- A path to a node above the root, cut by its tip, is the path to its parent. -/
theorem Path.exists_dropLast (h : Path node root l a) (hne : a ≠ root) :
    ∃ p, Path node root l.dropLast p ∧ node a = some (p, l.dropLast.length) := by
  cases h with
  | root => exact absurd rfl hne
  | @snoc l p _ init step =>
    rw [List.dropLast_concat]
    exact ⟨p, init, step⟩

/-- Neighbours on a path are parent and child. -/
theorem Path.parent_getElem? (h : Path node root l a) {i : ℕ}
    (hi : l[i + 1]? = some b) : ∃ p, l[i]? = some p ∧ node b = some (p, i + 1) := by
  induction h with
  | root => cases hi
  | @snoc l a c init step ih =>
    rw [List.getElem?_append] at hi
    split at hi
    · obtain ⟨p, hp, hb⟩ := ih hi
      exact ⟨p, by rw [List.getElem?_append_left (by omega), hp], hb⟩
    · rw [List.getElem?_singleton] at hi
      split at hi
      · have hlen : i + 1 = l.length := by omega
        cases hi
        refine ⟨a, ?_, hlen ▸ step⟩
        rw [List.getElem?_append_left (by omega), ← init.tip_getElem?]
        congr 1
        omega
      · cases hi

/-- The path cut at a height is the path to the entry there. -/
theorem Path.take (h : Path node root l a) {i : ℕ} (hi : l[i]? = some b) :
    Path node root (l.take (i + 1)) b := by
  induction h with
  | root =>
    obtain ⟨rfl, rfl⟩ : i = 0 ∧ root = b := by
      cases i with
      | zero => exact ⟨rfl, Option.some.inj hi⟩
      | succ i => cases hi
    exact .root
  | @snoc l a c init step ih =>
    rw [List.getElem?_append] at hi
    split at hi
    · rw [List.take_append_of_le_length (by omega)]
      exact ih hi
    · rw [List.getElem?_singleton] at hi
      split at hi
      · obtain rfl : i = l.length := by omega
        cases hi
        rw [List.take_of_length_le (by simp)]
        exact .snoc init step
      · cases hi

theorem Path.mono {node' : Nodes α} (h : Path node root l a)
    (hmono : ∀ x ∈ l, ∀ y, node x = some y → node' x = some y) : Path node' root l a := by
  induction h with
  | root => exact .root
  | @snoc l a c init step ih =>
    exact .snoc (ih fun x hx => hmono x (List.mem_append_left _ hx))
      (hmono c (by simp) _ step)

/-- **Every node has a path.** -/
theorem IsTree.exists_path (hT : IsTree node root) {p : α} {n : ℕ} (ha : node a = some (p, n)) :
    ∃ l, Path node root l a ∧ l.length = n + 1 := by
  induction n generalizing a p with
  | zero =>
    obtain rfl := hT.height_zero ha
    exact ⟨[a], .root, rfl⟩
  | succ n ih =>
    obtain ⟨q, hq⟩ := hT.parent_node ha
    obtain ⟨l, hl, hlen⟩ := ih hq
    exact ⟨l ++ [a], .snoc hl (hlen ▸ ha), by simp [hlen]⟩

/-- **The path of a node is unique.** -/
theorem Path.unique (hT : IsTree node root) (hl : Path node root l a)
    (hm : Path node root m a) : l = m := by
  induction hl generalizing m with
  | root =>
    cases hm with
    | root => rfl
    | @snoc m a _ init step =>
      obtain ⟨p, hp⟩ := hT.root_node
      rw [hp, Option.some.injEq, Prod.mk.injEq] at step
      have := init.length_pos
      omega
  | @snoc l a c init step ih =>
    have hheight : ∀ {x}, node c = some (x, l.length) → c ≠ root := by
      rintro x hx rfl
      obtain ⟨p, hp⟩ := hT.root_node
      rw [hp, Option.some.injEq, Prod.mk.injEq] at hx
      have := init.length_pos
      omega
    cases hm with
    | root => exact absurd rfl (hheight step)
    | @snoc m b _ init' step' =>
      rw [step, Option.some.injEq, Prod.mk.injEq] at step'
      obtain ⟨rfl, -⟩ := step'
      rw [ih init']

/-- The path of a node of a path is a prefix of it. -/
theorem Path.prefix_of_mem (hT : IsTree node root) (hl : Path node root l a) (hb : b ∈ l)
    (hm : Path node root m b) : m <+: l := by
  obtain ⟨i, hi⟩ := List.mem_iff_getElem?.mp hb
  rw [Path.unique hT hm (hl.take hi)]
  exact List.take_prefix _ _

/-! ## Descent -/

theorem Descends.refl (a : α) : Descends node a a := Relation.ReflTransGen.refl

theorem Descends.trans (hab : Descends node a b) (hbc : Descends node b c) : Descends node a c :=
  Relation.ReflTransGen.trans hab hbc

theorem Descends.of_child (h : Child node a b) : Descends node a b :=
  Relation.ReflTransGen.single h

/-- What passes from parent to child passes to every descendant. -/
theorem Descends.closed {P : α → Prop} (hclosed : ∀ p c, Child node p c → P p → P c)
    (h : Descends node a b) (ha : P a) : P b := by
  induction h with
  | refl => exact ha
  | tail _ hstep ih => exact hclosed _ _ hstep ih

/-- **The nodes of a path are the ancestors of its tip.** -/
theorem Path.mem_iff_descends (hT : IsTree node root) (h : Path node root l a) :
    b ∈ l ↔ Descends node b a := by
  constructor
  · intro hb
    induction h with
    | root => rw [List.mem_singleton.mp hb]; exact Descends.refl _
    | @snoc l a c init step ih =>
      rcases List.mem_append.mp hb with hl | hc
      · refine (ih hl).trans (Descends.of_child ⟨l.length - 1, ?_⟩)
        have := init.length_pos
        rw [step]
        congr 2
        omega
      · rw [List.mem_singleton.mp hc]
        exact Descends.refl c
  · intro hba
    induction hba using Relation.ReflTransGen.head_induction_on with
    | refl => exact h.tip_mem
    | head hstep _ ih =>
      obtain ⟨n, hn⟩ := hstep
      obtain ⟨p, hp, hnode⟩ := h.parent_getElem? (h.getElem?_of_mem hT ih hn)
      rw [hn, Option.some.injEq, Prod.mk.injEq] at hnode
      rw [hnode.1]
      exact List.mem_of_getElem? hp

/-- A descendant is not lower. -/
theorem Descends.height_le (hT : IsTree node root) (h : Descends node a b) {p q : α} {n k : ℕ}
    (ha : node a = some (p, n)) (hb : node b = some (q, k)) : n ≤ k := by
  obtain ⟨l, hl, hlen⟩ := hT.exists_path hb
  have hi := hl.getElem?_of_mem hT ((hl.mem_iff_descends hT).mpr h) ha
  have := (List.getElem?_eq_some_iff.mp hi).1
  omega

/-! ## Weights -/

/-- A weight that grows from parent to child is greatest at the tip of a path. -/
theorem Path.weight_lt {weight : α → ℕ}
    (hweight : ∀ {x p n}, node x = some (p, n + 1) → weight p < weight x)
    (h : Path node root l a) (hb : b ∈ l) (hne : b ≠ a) : weight b < weight a := by
  induction h with
  | root => exact absurd (List.mem_singleton.mp hb) hne
  | @snoc l a c init step ih =>
    rcases List.mem_append.mp hb with hl | hc
    · have hlt : weight a < weight c := by
        refine hweight (n := l.length - 1) ?_
        have := init.length_pos
        rw [step]
        congr 2
        omega
      by_cases hba : b = a
      · exact hba ▸ hlt
      · exact Nat.lt_trans (ih hl hba) hlt
    · exact absurd (List.mem_singleton.mp hc) hne

theorem Path.weight_le {weight : α → ℕ}
    (hweight : ∀ {x p n}, node x = some (p, n + 1) → weight p < weight x)
    (h : Path node root l a) (hb : b ∈ l) : weight b ≤ weight a := by
  by_cases hne : b = a
  · exact Nat.le_of_eq (congrArg weight hne)
  · exact Nat.le_of_lt (h.weight_lt hweight hb hne)

end Path

end HeightTree
