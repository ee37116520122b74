/-
# Counting references

Each row of a map refers to something through `loc`.  `count` is how many rows
refer to `c`; `tally` counts the entries of a list into a map, as a loop over
`d[c] = d.get(c, 0) + 1` does.
-/
import BtclibNode.Lib.FiniteMap
import Mathlib.Data.List.Count

namespace RefCount

universe u v w

variable {α : Type u} {β : Type v} {γ : Type w} [Ord α] [Std.TransOrd α] [Std.LawfulEqOrd α]
  [DecidableEq γ]

/-! ## The rows that refer to something -/

/-- How many rows of `m` refer to `c`. -/
def count (m : Std.ExtTreeMap α β) (loc : β → γ) (c : γ) : ℕ :=
  (m.toList.map fun row => loc row.2).count c

variable {m : Std.ExtTreeMap α β} {loc : β → γ} {k : α} {b b' : β} {c : γ}

omit [Std.LawfulEqOrd α] in
theorem count_empty : count (∅ : Std.ExtTreeMap α β) loc c = 0 := by
  have hnil : (∅ : Std.ExtTreeMap α β).toList = [] := rfl
  rw [count, hnil]
  rfl

/-- A new row is one reference more. -/
theorem count_insert (h : m[k]? = none) :
    count (m.insert k b) loc c = count m loc c + if loc b = c then 1 else 0 := by
  unfold count
  rw [((FiniteMap.toList_insert_perm b h).map _).count_eq, List.map_cons, List.count_cons]
  simp only [beq_iff_eq]

/-- A row taken out is one reference less. -/
theorem count_erase (h : m[k]? = some b) :
    count (m.erase k) loc c + (if loc b = c then 1 else 0) = count m loc c := by
  have hnone : (m.erase k)[k]? = none := by
    classical rw [FiniteMap.getElem?_erase, if_pos rfl]
  rw [← count_insert hnone, FiniteMap.insert_erase h]

/-- A row written again under the same reference. -/
theorem count_insert_same (h : m[k]? = some b) (hloc : loc b' = loc b) :
    count (m.insert k b') loc c = count m loc c := by
  have hself : (m.insert k b')[k]? = some b' := by
    classical rw [FiniteMap.getElem?_insert, if_pos rfl]
  have hrest : (m.insert k b').erase k = m.erase k := by
    classical
    refine Std.ExtTreeMap.ext_getElem? fun {a} => ?_
    rw [FiniteMap.getElem?_erase, FiniteMap.getElem?_erase, FiniteMap.getElem?_insert]
    split <;> rfl
  rw [← count_erase hself, ← count_erase h, hrest, hloc]

theorem count_pos_iff : 0 < count m loc c ↔ ∃ (a : α) (b : β), m[a]? = some b ∧ loc b = c := by
  rw [count, List.count_pos_iff, List.mem_map]
  constructor
  · rintro ⟨⟨a, b⟩, hrow, hloc⟩
    exact ⟨a, b, (FiniteMap.mem_toList m a b).mp hrow, hloc⟩
  · rintro ⟨a, b, hrow, hloc⟩
    exact ⟨(a, b), (FiniteMap.mem_toList m a b).mpr hrow, hloc⟩

/-! ## A tally -/

variable [Ord γ] [Std.TransOrd γ] [Std.LawfulEqOrd γ]

/-- `d[c] = d.get(c, 0) + 1`. -/
def bump (d : Std.ExtTreeMap γ ℕ) (c : γ) : Std.ExtTreeMap γ ℕ := d.insert c (d[c]?.getD 0 + 1)

/-- The tally of a list. -/
def tally (l : List γ) : Std.ExtTreeMap γ ℕ := l.foldl bump ∅

theorem getD_bump (d : Std.ExtTreeMap γ ℕ) (c x : γ) :
    (bump d c)[x]?.getD 0 = d[x]?.getD 0 + if c = x then 1 else 0 := by
  unfold bump
  rw [FiniteMap.getElem?_insert]
  split
  · next h =>
    rw [h]
    rfl
  · rfl

theorem getD_tally (l : List γ) (x : γ) : (tally l)[x]?.getD 0 = l.count x := by
  have hfold : ∀ d : Std.ExtTreeMap γ ℕ,
      (l.foldl bump d)[x]?.getD 0 = d[x]?.getD 0 + l.count x := by
    induction l with
    | nil => exact fun d => rfl
    | cons c l ih =>
      intro d
      rw [List.foldl_cons, ih, getD_bump, List.count_cons]
      simp only [beq_iff_eq]
      omega
  rw [tally, hfold, Std.ExtTreeMap.getElem?_empty]
  exact Nat.zero_add _

omit [DecidableEq γ] in
theorem mem_tally (l : List γ) (x : γ) : x ∈ tally l ↔ x ∈ l := by
  have hfold : ∀ d : Std.ExtTreeMap γ ℕ, x ∈ l.foldl bump d ↔ x ∈ d ∨ x ∈ l := by
    induction l with
    | nil => simp
    | cons c l ih =>
      intro d
      rw [List.foldl_cons, ih, bump, Std.ExtTreeMap.mem_insert, Std.LawfulEqCmp.compare_eq_iff_eq,
        List.mem_cons, eq_comm (a := x)]
      tauto
  rw [tally, hfold]
  simp

end RefCount
