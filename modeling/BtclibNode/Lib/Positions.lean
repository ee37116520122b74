/-
# The positions of a list

A dictionary that holds the position of each row of a list under the row's key, as rows are
pushed, replaced in place, or removed by letting the last row take their place.
-/
import Mathlib.Logic.Function.Basic
import Mathlib.Data.List.Basic

namespace Positions

variable {α κ : Type} {key : α → κ} {l : List α} {f : κ → Option ℕ} {i j : ℕ}
  {a b last : α}

/-- `f` holds the position of each row of `l` under its key, and no other. -/
def Indexes (key : α → κ) (l : List α) (f : κ → Option ℕ) : Prop :=
  ∀ k i, f k = some i ↔ ∃ a, l[i]? = some a ∧ key a = k

theorem Indexes.nil : Indexes key [] fun _ => none := by
  intro k i
  simp

theorem Indexes.at (h : Indexes key l f) (hi : l[i]? = some a) : f (key a) = some i :=
  (h _ _).mpr ⟨a, hi, rfl⟩

/-- A key names one position. -/
theorem Indexes.inj (h : Indexes key l f) (hi : l[i]? = some a) (hj : l[j]? = some b)
    (hkey : key a = key b) : i = j := by
  have hij : some i = some j := by rw [← h.at hi, hkey, h.at hj]
  exact Option.some.inj hij

theorem Indexes.eq_of_key (h : Indexes key l f) (ha : a ∈ l) (hb : b ∈ l)
    (hkey : key a = key b) : a = b := by
  obtain ⟨i, hi⟩ := List.mem_iff_getElem?.mp ha
  obtain ⟨j, hj⟩ := List.mem_iff_getElem?.mp hb
  have hij := h.inj hi hj hkey
  subst hij
  rw [hi] at hj
  exact Option.some.inj hj

/-- A row is replaced by one of its key. -/
theorem Indexes.set (h : Indexes key l f) (hi : l[i]? = some b) (hkey : key a = key b) :
    Indexes key (l.set i a) f := by
  have hlt : i < l.length := (List.getElem?_eq_some_iff.mp hi).1
  intro k j
  rw [h]
  by_cases hij : i = j
  · subst hij
    rw [List.getElem?_set_self hlt, hi]
    constructor
    · rintro ⟨_, hb, hk⟩
      obtain rfl := Option.some.inj hb
      exact ⟨a, rfl, hkey.trans hk⟩
    · rintro ⟨_, ha, hk⟩
      obtain rfl := Option.some.inj ha
      exact ⟨b, rfl, hkey.symm.trans hk⟩
  · rw [List.getElem?_set_ne hij]

theorem eq_dropLast_append (hlast : l.getLast? = some last) : l = l.dropLast ++ [last] := by
  obtain ⟨l', rfl⟩ := List.getLast?_eq_some_iff.mp hlast
  rw [List.dropLast_concat]

variable [DecidableEq κ]

/-- A row with a new key is pushed. -/
theorem Indexes.push (h : Indexes key l f) (hnew : ∀ b ∈ l, key b ≠ key a) :
    Indexes key (l ++ [a]) (Function.update f (key a) (some l.length)) := by
  intro k i
  by_cases hk : k = key a
  · subst hk
    rw [Function.update_self]
    constructor
    · intro hi
      obtain rfl := Option.some.inj hi
      exact ⟨a, List.getElem?_concat_length, rfl⟩
    · rintro ⟨b, hb, hkey⟩
      rcases Nat.lt_or_ge i l.length with hlt | hge
      · rw [List.getElem?_append_left hlt] at hb
        exact absurd hkey (hnew b (List.mem_of_getElem? hb))
      · have hbound : i < (l ++ [a]).length := (List.getElem?_eq_some_iff.mp hb).1
        rw [List.length_append, List.length_singleton] at hbound
        have hi : l.length = i := by omega
        rw [hi]
  · rw [Function.update_of_ne hk, h]
    constructor
    · rintro ⟨b, hb, hkey⟩
      refine ⟨b, ?_, hkey⟩
      rw [List.getElem?_append_left (List.getElem?_eq_some_iff.mp hb).1]
      exact hb
    · rintro ⟨b, hb, hkey⟩
      refine ⟨b, ?_, hkey⟩
      rcases Nat.lt_or_ge i l.length with hlt | hge
      · rw [List.getElem?_append_left hlt] at hb
        exact hb
      · rw [List.getElem?_append_right hge] at hb
        have hmem := List.mem_of_getElem? hb
        rw [List.mem_singleton] at hmem
        rw [hmem] at hkey
        exact absurd hkey.symm hk

theorem Indexes.mem_set (h : Indexes key l f) (hi : l[i]? = some b) (hkey : key a = key b)
    (x : α) : x ∈ l.set i a ↔ if key x = key a then x = a else x ∈ l := by
  have hlt : i < l.length := (List.getElem?_eq_some_iff.mp hi).1
  have ha : a ∈ l.set i a := List.mem_of_getElem? (List.getElem?_set_self hlt)
  by_cases hx : key x = key a
  · rw [if_pos hx]
    constructor
    · intro hmem
      exact (h.set hi hkey).eq_of_key hmem ha hx
    · rintro rfl
      exact ha
  · rw [if_neg hx]
    constructor
    · intro hmem
      rcases List.mem_or_eq_of_mem_set hmem with hmem | rfl
      · exact hmem
      · exact absurd rfl hx
    · intro hmem
      obtain ⟨j, hj⟩ := List.mem_iff_getElem?.mp hmem
      apply List.mem_of_getElem? (i := j)
      rw [List.getElem?_set_ne]
      · exact hj
      · rintro rfl
        rw [hi] at hj
        obtain rfl := Option.some.inj hj
        exact hx hkey.symm

/-- The last row is removed. -/
theorem Indexes.pop (h : Indexes key l f) (hlast : l.getLast? = some last) :
    Indexes key l.dropLast (Function.update f (key last) none) := by
  obtain ⟨l, rfl⟩ := List.getLast?_eq_some_iff.mp hlast
  rw [List.dropLast_concat]
  have hat : (l ++ [last])[l.length]? = some last := List.getElem?_concat_length
  intro k i
  by_cases hk : k = key last
  · subst hk
    rw [Function.update_self]
    constructor
    · intro hnone
      cases hnone
    · rintro ⟨b, hb, hkey⟩
      have hlt : i < l.length := (List.getElem?_eq_some_iff.mp hb).1
      have hfront : (l ++ [last])[i]? = l[i]? := List.getElem?_append_left hlt
      rw [← hfront] at hb
      have := h.inj hb hat hkey
      omega
  · rw [Function.update_of_ne hk, h]
    constructor
    · rintro ⟨b, hb, hkey⟩
      refine ⟨b, ?_, hkey⟩
      rcases Nat.lt_or_ge i l.length with hlt | hge
      · rw [List.getElem?_append_left hlt] at hb
        exact hb
      · rw [List.getElem?_append_right hge] at hb
        have hmem := List.mem_of_getElem? hb
        rw [List.mem_singleton] at hmem
        rw [hmem] at hkey
        exact absurd hkey.symm hk
    · rintro ⟨b, hb, hkey⟩
      refine ⟨b, ?_, hkey⟩
      rw [List.getElem?_append_left (List.getElem?_eq_some_iff.mp hb).1]
      exact hb

theorem Indexes.mem_dropLast (h : Indexes key l f) (hlast : l.getLast? = some last) (x : α) :
    x ∈ l.dropLast ↔ key x ≠ key last ∧ x ∈ l := by
  have hpop := h.pop hlast
  have hl := eq_dropLast_append hlast
  have hmem : last ∈ l := by
    rw [hl]
    exact List.mem_append_right _ List.mem_cons_self
  constructor
  · intro hx
    refine ⟨?_, List.dropLast_subset l hx⟩
    intro hkey
    obtain ⟨j, hj⟩ := List.mem_iff_getElem?.mp hx
    have hat := hpop.at hj
    rw [hkey, Function.update_self] at hat
    cases hat
  · rintro ⟨hne, hx⟩
    rw [hl, List.mem_append, List.mem_singleton] at hx
    rcases hx with hx | rfl
    · exact hx
    · exact absurd rfl hne

/-- A row is removed, and the last row takes its place. -/
theorem Indexes.swapRemove (h : Indexes key l f) (hlast : l.getLast? = some last)
    (hi : l.dropLast[i]? = some a) :
    Indexes key (l.dropLast.set i last)
      (Function.update (Function.update f (key a) none) (key last) (some i)) := by
  have hpop := h.pop hlast
  have hlt : i < l.dropLast.length := (List.getElem?_eq_some_iff.mp hi).1
  have hne : key a ≠ key last := ((h.mem_dropLast hlast a).mp (List.mem_of_getElem? hi)).1
  intro k j
  by_cases hk : k = key last
  · subst hk
    rw [Function.update_self]
    constructor
    · intro hij
      obtain rfl := Option.some.inj hij
      exact ⟨last, List.getElem?_set_self hlt, rfl⟩
    · rintro ⟨b, hb, hkey⟩
      by_cases hij : i = j
      · rw [hij]
      · rw [List.getElem?_set_ne hij] at hb
        exact absurd hkey ((h.mem_dropLast hlast b).mp (List.mem_of_getElem? hb)).1
  · have hpopk := hpop k j
    rw [Function.update_of_ne hk] at hpopk ⊢
    by_cases hka : k = key a
    · subst hka
      rw [Function.update_self]
      constructor
      · intro hnone
        cases hnone
      · rintro ⟨b, hb, hkey⟩
        by_cases hij : i = j
        · subst hij
          rw [List.getElem?_set_self hlt] at hb
          obtain rfl := Option.some.inj hb
          exact absurd hkey.symm hne
        · rw [List.getElem?_set_ne hij] at hb
          exact absurd (hpop.inj hi hb hkey.symm) hij
    · rw [Function.update_of_ne hka, hpopk]
      by_cases hij : i = j
      · subst hij
        rw [List.getElem?_set_self hlt, hi]
        constructor
        · rintro ⟨b, hb, hkey⟩
          obtain rfl := Option.some.inj hb
          exact absurd hkey.symm hka
        · rintro ⟨b, hb, hkey⟩
          obtain rfl := Option.some.inj hb
          exact absurd hkey.symm hk
      · rw [List.getElem?_set_ne hij]

theorem Indexes.mem_swapRemove (h : Indexes key l f) (hlast : l.getLast? = some last)
    (hi : l.dropLast[i]? = some a) (x : α) :
    x ∈ l.dropLast.set i last ↔ key x ≠ key a ∧ x ∈ l := by
  have hswap := h.swapRemove hlast hi
  have hne : key a ≠ key last := ((h.mem_dropLast hlast a).mp (List.mem_of_getElem? hi)).1
  have hlt : i < l.dropLast.length := (List.getElem?_eq_some_iff.mp hi).1
  have hmem : last ∈ l := by
    rw [eq_dropLast_append hlast]
    exact List.mem_append_right _ List.mem_cons_self
  constructor
  · intro hx
    constructor
    · intro hkey
      obtain ⟨j, hj⟩ := List.mem_iff_getElem?.mp hx
      have hat := hswap.at hj
      rw [hkey, Function.update_of_ne hne, Function.update_self] at hat
      cases hat
    · rcases List.mem_or_eq_of_mem_set hx with hx | rfl
      · exact List.dropLast_subset l hx
      · exact hmem
  · rintro ⟨hxa, hx⟩
    by_cases hxl : key x = key last
    · obtain rfl := h.eq_of_key hx hmem hxl
      exact List.mem_of_getElem? (List.getElem?_set_self hlt)
    · obtain ⟨j, hj⟩ := List.mem_iff_getElem?.mp ((h.mem_dropLast hlast x).mpr ⟨hxl, hx⟩)
      apply List.mem_of_getElem? (i := j)
      rw [List.getElem?_set_ne]
      · exact hj
      · rintro rfl
        rw [hi] at hj
        exact hxa (congrArg key (Option.some.inj hj)).symm

end Positions
