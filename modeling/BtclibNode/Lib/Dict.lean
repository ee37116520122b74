/-
# Insertion-ordered dictionaries

Python's `dict`: a finite map with the order its keys were first set in.  A new
value for a key leaves the key where it stands.
-/
import BtclibNode.Lib.FiniteMap

universe u v

/-- A finite map with its keys in insertion order. -/
structure Dict (α : Type u) (β : Type v) [Ord α] [Std.TransOrd α] where
  map : Std.ExtTreeMap α β
  keys : List α
  nodup : keys.Nodup
  mem_keys : ∀ a, a ∈ keys ↔ a ∈ map

namespace Dict

variable {α : Type u} {β : Type v} [Ord α] [Std.TransOrd α] [Std.LawfulEqOrd α]

/-- `d.get(a)`. -/
def get? (d : Dict α β) (a : α) : Option β := d.map[a]?

omit [Std.LawfulEqOrd α] in
theorem mem_keys_iff (d : Dict α β) (a : α) : a ∈ d.keys ↔ ∃ b, d.get? a = some b := by
  rw [d.mem_keys, FiniteMap.mem_iff_exists]
  rfl

omit [Std.LawfulEqOrd α] in
theorem mem_keys_of_get? {d : Dict α β} {a : α} {b : β} (h : d.get? a = some b) : a ∈ d.keys :=
  (d.mem_keys_iff a).mpr ⟨b, h⟩

/-- `{a: b}`. -/
def singleton (a : α) (b : β) : Dict α β where
  map := (∅ : Std.ExtTreeMap α β).insert a b
  keys := [a]
  nodup := List.nodup_singleton a
  mem_keys x := by
    rw [List.mem_singleton, Std.ExtTreeMap.mem_insert, Std.LawfulEqCmp.compare_eq_iff_eq]
    simp [eq_comm]

/-- `{}`. -/
def empty : Dict α β where
  map := ∅
  keys := []
  nodup := List.nodup_nil
  mem_keys x := by simp

/-- `d[a] = b`. -/
def set (d : Dict α β) (a : α) (b : β) : Dict α β where
  map := d.map.insert a b
  keys := if a ∈ d.map then d.keys else d.keys ++ [a]
  nodup := by
    by_cases ha : a ∈ d.map
    · rw [if_pos ha]
      exact d.nodup
    · rw [if_neg ha, List.nodup_append]
      refine ⟨d.nodup, List.nodup_singleton a, ?_⟩
      rintro x hx y hy rfl
      rw [List.mem_singleton] at hy
      exact ha ((d.mem_keys a).mp (hy ▸ hx))
  mem_keys x := by
    rw [Std.ExtTreeMap.mem_insert, Std.LawfulEqCmp.compare_eq_iff_eq]
    by_cases ha : a ∈ d.map
    · rw [if_pos ha, d.mem_keys]
      constructor
      · exact .inr
      · rintro (rfl | hx)
        · exact ha
        · exact hx
    · rw [if_neg ha, List.mem_append, List.mem_singleton, d.mem_keys, or_comm, eq_comm]

/-- `del d[a]`, of a key or of none. -/
def erase (d : Dict α β) (a : α) : Dict α β where
  map := d.map.erase a
  keys := d.keys.filter fun x => compare a x ≠ .eq
  nodup := d.nodup.filter _
  mem_keys x := by
    rw [List.mem_filter, decide_eq_true_iff, Std.ExtTreeMap.mem_erase, d.mem_keys, and_comm]

/-- `d.values()`. -/
def values (d : Dict α β) : List β := d.keys.filterMap d.get?

omit [Std.LawfulEqOrd α] in
@[simp] theorem get?_empty (a : α) : (empty : Dict α β).get? a = none :=
  Std.ExtTreeMap.getElem?_empty

omit [Std.LawfulEqOrd α] in
theorem mem_values {d : Dict α β} {b : β} : b ∈ d.values ↔ ∃ a, d.get? a = some b := by
  unfold values
  rw [List.mem_filterMap]
  constructor
  · rintro ⟨a, -, ha⟩
    exact ⟨a, ha⟩
  · rintro ⟨a, ha⟩
    exact ⟨a, mem_keys_of_get? ha, ha⟩

theorem get?_erase (d : Dict α β) (a x : α) [Decidable (a = x)] :
    (d.erase a).get? x = if a = x then none else d.get? x :=
  FiniteMap.getElem?_erase d.map a x

omit [Std.LawfulEqOrd α] in
/-- No key, no value. -/
theorem get?_eq_none_of_keys {d : Dict α β} (h : d.keys = []) (a : α) : d.get? a = none := by
  cases hd : d.get? a with
  | none => rfl
  | some b =>
    have hmem := mem_keys_of_get? hd
    rw [h] at hmem
    cases hmem

omit [Std.LawfulEqOrd α] in
theorem exists_get?_of_keys {d : Dict α β} (h : d.keys ≠ []) : ∃ a b, d.get? a = some b := by
  obtain ⟨a, ha⟩ := List.exists_mem_of_ne_nil _ h
  exact ⟨a, (d.mem_keys_iff a).mp ha⟩

omit [Std.LawfulEqOrd α] in
/-- A dictionary is empty where no key has a value. -/
theorem keys_eq_nil_iff {d : Dict α β} : d.keys = [] ↔ ∀ a, d.get? a = none := by
  constructor
  · exact get?_eq_none_of_keys
  · intro h
    by_contra hne
    obtain ⟨a, b, hab⟩ := exists_get?_of_keys hne
    rw [h a] at hab
    cases hab

theorem get?_singleton (a : α) (b : β) (x : α) [Decidable (a = x)] :
    (singleton a b).get? x = if a = x then some b else none := by
  unfold get? singleton
  rw [FiniteMap.getElem?_insert, Std.ExtTreeMap.getElem?_empty]

theorem get?_set (d : Dict α β) (a : α) (b : β) (x : α) [Decidable (a = x)] :
    (d.set a b).get? x = if a = x then some b else d.get? x :=
  FiniteMap.getElem?_insert d.map a x b

@[simp] theorem get?_set_self (d : Dict α β) (a : α) (b : β) : (d.set a b).get? a = some b :=
  Std.ExtTreeMap.getElem?_insert_self

theorem get?_set_ne (d : Dict α β) {a x : α} (b : β) (h : a ≠ x) :
    (d.set a b).get? x = d.get? x := FiniteMap.getElem?_insert_ne d.map b h

/-- A known key keeps the order. -/
theorem keys_set_of_get? {d : Dict α β} {a : α} {b : β} (b' : β) (h : d.get? a = some b) :
    (d.set a b').keys = d.keys :=
  if_pos ((FiniteMap.mem_iff_exists d.map a).mpr ⟨b, h⟩)

/-- A new key is the last. -/
theorem keys_set_of_none {d : Dict α β} {a : α} (b' : β) (h : d.get? a = none) :
    (d.set a b').keys = d.keys ++ [a] :=
  if_neg ((FiniteMap.notMem_iff d.map a).mpr h)

end Dict
