/-
# Arrays by their entries

A list given by what stands at each index, and the array operations that raise out of range.
-/
import Mathlib.Tactic.Common

namespace Tabulate

universe u

variable {α : Type u} {n i : ℕ} {f g : ℕ → α}

/-- The list of `n` entries. -/
def tab (n : ℕ) (f : ℕ → α) : List α := (List.range n).map f

/-- `l[i] = x`. -/
def setAt (l : List α) (i : ℕ) (x : α) : Option (List α) :=
  if i < l.length then some (l.set i x) else none

/-- `l[i] = f(l[i])`. -/
def modifyAt (l : List α) (i : ℕ) (f : α → α) : Option (List α) :=
  if i < l.length then some (l.modify i f) else none

@[simp] theorem length_tab (n : ℕ) (f : ℕ → α) : (tab n f).length = n := by
  rw [tab, List.length_map, List.length_range]

theorem replicate_eq_tab (n : ℕ) (x : α) : List.replicate n x = tab n fun _ => x := by
  rw [tab, List.map_const', List.length_range]

theorem tab_congr (h : ∀ i < n, f i = g i) : tab n f = tab n g :=
  List.map_congr_left fun i hi => h i (List.mem_range.mp hi)

theorem getElem?_tab (hi : i < n) : (tab n f)[i]? = some (f i) := by
  rw [tab, List.getElem?_map, List.getElem?_range hi]
  rfl

/-- A list is the table of its entries. -/
theorem eq_tab {l : List α} (hn : l.length = n) (h : ∀ i < n, l[i]? = some (f i)) :
    l = tab n f := by
  refine List.ext_getElem? fun i => ?_
  by_cases hi : i < n
  · rw [h i hi, getElem?_tab hi]
  · rw [List.getElem?_eq_none (by omega), List.getElem?_eq_none (by rw [length_tab]; omega)]

theorem setAt_tab (x : α) (hi : i < n) :
    setAt (tab n f) i x = some (tab n (Function.update f i x)) := by
  rw [setAt, if_pos (by rw [length_tab]; exact hi)]
  congr 1
  refine eq_tab (by rw [List.length_set, length_tab]) fun j hj => ?_
  rw [List.getElem?_set]
  by_cases hij : i = j
  · rw [if_pos hij, if_pos (by rw [length_tab]; exact hi), hij, Function.update_self]
  · rw [if_neg hij, getElem?_tab hj, Function.update_of_ne (Ne.symm hij)]

theorem modifyAt_tab (next : α → α) (hi : i < n) :
    modifyAt (tab n f) i next = some (tab n (Function.update f i (next (f i)))) := by
  rw [modifyAt, if_pos (by rw [length_tab]; exact hi)]
  congr 1
  refine eq_tab (by rw [List.length_modify, length_tab]) fun j hj => ?_
  rw [List.getElem?_modify, getElem?_tab hj, Option.map_eq_map, Option.map_some]
  by_cases hij : i = j
  · rw [if_pos hij, hij, Function.update_self]
  · rw [if_neg hij, Function.update_of_ne (Ne.symm hij)]

end Tabulate
