/-
# Finite maps and sets over a lawful order

`Std.ExtTreeMap` and `Std.ExtTreeSet` with their lookups stated by equality of
keys, two maps with the same lookups being equal, and what one insertion does
to the list of rows.
-/
import Std.Data.ExtTreeMap
import Std.Data.ExtTreeSet
import Mathlib.Data.List.Perm.Basic
import Mathlib.Data.List.Nodup
import Mathlib.Tactic.Common

namespace FiniteMap

universe u v

variable {α : Type u} {β : Type v} [Ord α] [Std.TransOrd α] [Std.LawfulEqOrd α]

/-! ## Lookups -/

theorem getElem?_insert (m : Std.ExtTreeMap α β) (k a : α) (b : β) [Decidable (k = a)] :
    (m.insert k b)[a]? = if k = a then some b else m[a]? := by
  rw [Std.ExtTreeMap.getElem?_insert]
  by_cases h : k = a
  · rw [if_pos h, if_pos (Std.LawfulEqCmp.compare_eq_iff_eq.mpr h)]
  · rw [if_neg h, if_neg (fun hc => h (Std.LawfulEqCmp.compare_eq_iff_eq.mp hc))]

theorem getElem?_insert_ne (m : Std.ExtTreeMap α β) {k a : α} (b : β) (h : k ≠ a) :
    (m.insert k b)[a]? = m[a]? := by
  classical rw [getElem?_insert, if_neg h]

theorem getElem?_erase (m : Std.ExtTreeMap α β) (k a : α) [Decidable (k = a)] :
    (m.erase k)[a]? = if k = a then none else m[a]? := by
  rw [Std.ExtTreeMap.getElem?_erase]
  by_cases h : k = a
  · rw [if_pos h, if_pos (Std.LawfulEqCmp.compare_eq_iff_eq.mpr h)]
  · rw [if_neg h, if_neg (fun hc => h (Std.LawfulEqCmp.compare_eq_iff_eq.mp hc))]

theorem getElem?_erase_ne (m : Std.ExtTreeMap α β) {k a : α} (h : k ≠ a) :
    (m.erase k)[a]? = m[a]? := by
  classical rw [getElem?_erase, if_neg h]

omit [Std.LawfulEqOrd α] in
theorem mem_iff_exists (m : Std.ExtTreeMap α β) (a : α) : a ∈ m ↔ ∃ b, m[a]? = some b := by
  rw [Std.ExtTreeMap.mem_iff_isSome_getElem?, Option.isSome_iff_exists]

omit [Std.LawfulEqOrd α] in
theorem notMem_iff (m : Std.ExtTreeMap α β) (a : α) : a ∉ m ↔ m[a]? = none := by
  rw [mem_iff_exists, not_exists, Option.eq_none_iff_forall_ne_some]

theorem insert_erase {m : Std.ExtTreeMap α β} {k : α} {b : β} (h : m[k]? = some b) :
    (m.erase k).insert k b = m := by
  classical
  apply Std.ExtTreeMap.ext_getElem?
  intro a
  rw [getElem?_insert, getElem?_erase]
  by_cases hka : k = a
  · rw [if_pos hka, ← hka, h]
  · rw [if_neg hka, if_neg hka]

theorem erase_insert {m : Std.ExtTreeMap α β} {k : α} (b : β) (h : m[k]? = none) :
    (m.insert k b).erase k = m := by
  classical
  apply Std.ExtTreeMap.ext_getElem?
  intro a
  rw [getElem?_erase, getElem?_insert]
  by_cases hka : k = a
  · rw [if_pos hka, ← hka, h]
  · rw [if_neg hka, if_neg hka]

theorem insert_insert {m : Std.ExtTreeMap α β} {k : α} {b : β} (b' : β) (h : m[k]? = some b) :
    (m.insert k b').insert k b = m := by
  classical
  apply Std.ExtTreeMap.ext_getElem?
  intro a
  rw [getElem?_insert, getElem?_insert]
  by_cases hka : k = a
  · rw [if_pos hka, ← hka, h]
  · rw [if_neg hka, if_neg hka]

/-! ## Sets -/

theorem mem_insert (s : Std.ExtTreeSet α) (k a : α) : a ∈ s.insert k ↔ k = a ∨ a ∈ s := by
  rw [Std.ExtTreeSet.mem_insert, Std.LawfulEqCmp.compare_eq_iff_eq]

theorem mem_erase (s : Std.ExtTreeSet α) (k a : α) : a ∈ s.erase k ↔ k ≠ a ∧ a ∈ s := by
  rw [Std.ExtTreeSet.mem_erase, ne_eq, Std.LawfulEqCmp.compare_eq_iff_eq, ne_eq]

theorem mem_foldl_insert (s t : Std.ExtTreeSet α) (a : α) :
    a ∈ s.foldl (fun u k => u.insert k) t ↔ a ∈ s ∨ a ∈ t := by
  have hlist : ∀ (ks : List α) (t : Std.ExtTreeSet α),
      a ∈ ks.foldl (fun u k => u.insert k) t ↔ a ∈ ks ∨ a ∈ t := by
    intro ks
    induction ks with
    | nil => simp
    | cons k ks ih =>
      intro t
      rw [List.foldl_cons, ih, mem_insert, List.mem_cons]
      tauto
  rw [Std.ExtTreeSet.foldl_eq_foldl_toList, hlist, Std.ExtTreeSet.mem_toList]

theorem set_ext {s t : Std.ExtTreeSet α} (h : ∀ a, a ∈ s ↔ a ∈ t) : s = t :=
  Std.ExtTreeSet.ext_mem h

/-! ## Rows -/

theorem mem_toList (m : Std.ExtTreeMap α β) (a : α) (b : β) :
    (a, b) ∈ m.toList ↔ m[a]? = some b := Std.ExtTreeMap.mem_toList_iff_getElem?_eq_some

theorem nodup_toList (m : Std.ExtTreeMap α β) : m.toList.Nodup := by
  refine (Std.ExtTreeMap.distinct_keys_toList (t := m)).imp ?_
  rintro a b hab rfl
  exact hab Std.ReflOrd.compare_self

theorem nodup_members (s : Std.ExtTreeSet α) : s.toList.Nodup := by
  refine (Std.ExtTreeSet.distinct_toList (t := s)).imp ?_
  rintro a b hab rfl
  exact hab Std.ReflOrd.compare_self

theorem nodup_keys (m : Std.ExtTreeMap α β) : (m.toList.map Prod.fst).Nodup := by
  refine List.pairwise_map.mpr ((Std.ExtTreeMap.distinct_keys_toList (t := m)).imp ?_)
  intro a b hab heq
  exact hab (heq ▸ Std.ReflOrd.compare_self)

/-- A map from positions is the list it is the positions of. -/
theorem map_snd_toList {β : Type v} (m : Std.ExtTreeMap ℕ β) (l : List β)
    (h : ∀ i : ℕ, m[i]? = l[i]?) : m.toList.map Prod.snd = l := by
  have hsorted : m.toList.Pairwise fun a b => a.1 < b.1 :=
    (Std.ExtTreeMap.ordered_keys_toList (t := m)).imp fun hab => Nat.compare_eq_lt.mp hab
  have hzip : (l.zipIdx.map fun p => (p.2, p.1)).Pairwise fun a b => a.1 < b.1 := by
    rw [List.pairwise_map]
    have : (List.range' 0 l.length).Pairwise (· < ·) := List.pairwise_lt_range'
    rw [← List.zipIdx_map_snd 0 l, List.pairwise_map] at this
    exact this
  have hmem : ∀ p : ℕ × β, p ∈ m.toList ↔ p ∈ l.zipIdx.map fun p => (p.2, p.1) := by
    rintro ⟨i, b⟩
    rw [Std.ExtTreeMap.mem_toList_iff_getElem?_eq_some, h i, List.mem_map]
    constructor
    · intro hi
      exact ⟨(b, i), List.mk_mem_zipIdx_iff_getElem?.mpr hi, rfl⟩
    · rintro ⟨⟨b', i'⟩, hp, heq⟩
      cases heq
      exact List.mk_mem_zipIdx_iff_getElem?.mp hp
  have hnodup : ∀ {k : List (ℕ × β)}, k.Pairwise (fun a b => a.1 < b.1) → k.Nodup := by
    intro k hk
    refine hk.imp ?_
    rintro a b hab rfl
    exact Nat.lt_irrefl _ hab
  have hperm := (List.perm_ext_iff_of_nodup (hnodup hsorted) (hnodup hzip)).mpr hmem
  rw [hperm.eq_of_pairwise (fun a b _ _ hab hba => absurd hab (Nat.lt_asymm hba)) hsorted hzip,
    List.map_map]
  exact List.zipIdx_map_fst 0 l

/-- The rows of a map with one key more. -/
theorem toList_insert_perm {m : Std.ExtTreeMap α β} {k : α} (b : β) (h : m[k]? = none) :
    (m.insert k b).toList.Perm ((k, b) :: m.toList) := by
  classical
  have hnew : (k, b) ∉ m.toList := by
    rw [mem_toList, h]
    simp
  refine (List.perm_ext_iff_of_nodup (nodup_toList _)
    (List.nodup_cons.mpr ⟨hnew, nodup_toList m⟩)).mpr ?_
  rintro ⟨a, c⟩
  rw [List.mem_cons, mem_toList, mem_toList, getElem?_insert]
  by_cases hka : k = a
  · subst hka
    simp [h, eq_comm]
  · simp [hka, Ne.symm hka]

/-! ## Writing a list of keys -/

theorem getElem?_foldl_erase_list [DecidableEq α] (m : Std.ExtTreeMap α β) (ks : List α) (a : α) :
    (ks.foldl (fun m k => m.erase k) m)[a]? = if a ∈ ks then none else m[a]? := by
  induction ks generalizing m with
  | nil => simp
  | cons k ks ih =>
    rw [List.foldl_cons, ih, getElem?_erase]
    by_cases ha : a ∈ ks
    · rw [if_pos ha, if_pos (List.mem_cons_of_mem k ha)]
    · by_cases hk : k = a
      · rw [if_neg ha, if_pos hk, if_pos (by simp [hk])]
      · rw [if_neg ha, if_neg hk, if_neg (by simp [ha, Ne.symm hk])]

theorem getElem?_foldl_insert_list [DecidableEq α] (m : Std.ExtTreeMap α β) (ks : List α) (b : β)
    (a : α) :
    (ks.foldl (fun m k => m.insert k b) m)[a]? = if a ∈ ks then some b else m[a]? := by
  induction ks generalizing m with
  | nil => simp
  | cons k ks ih =>
    rw [List.foldl_cons, ih, getElem?_insert]
    by_cases ha : a ∈ ks
    · rw [if_pos ha, if_pos (List.mem_cons_of_mem k ha)]
    · by_cases hk : k = a
      · rw [if_neg ha, if_pos hk, if_pos (by simp [hk])]
      · rw [if_neg ha, if_neg hk, if_neg (by simp [ha, Ne.symm hk])]

/-! ## Writing one map into another -/

theorem getElem?_foldl_erase (m : Std.ExtTreeMap α β) (s : Std.ExtTreeSet α) (a : α)
    [Decidable (a ∈ s)] :
    (s.foldl (fun m k => m.erase k) m)[a]? = if a ∈ s then none else m[a]? := by
  classical
  have hlist : ∀ (ks : List α) (m : Std.ExtTreeMap α β),
      (ks.foldl (fun m k => m.erase k) m)[a]? = if a ∈ ks then none else m[a]? := by
    intro ks
    induction ks with
    | nil => simp
    | cons k ks ih =>
      intro m
      rw [List.foldl_cons, ih, getElem?_erase]
      by_cases ha : a ∈ ks
      · rw [if_pos ha, if_pos (List.mem_cons_of_mem k ha)]
      · by_cases hk : k = a
        · rw [if_neg ha, if_pos hk, if_pos (by simp [hk])]
        · rw [if_neg ha, if_neg hk, if_neg (by simp [ha, Ne.symm hk])]
  rw [Std.ExtTreeSet.foldl_eq_foldl_toList, hlist]
  by_cases ha : a ∈ s
  · rw [if_pos ha, if_pos (Std.ExtTreeSet.mem_toList.mpr ha)]
  · rw [if_neg ha, if_neg fun h => ha (Std.ExtTreeSet.mem_toList.mp h)]

theorem getElem?_foldl_insert {γ : Type v} (m : Std.ExtTreeMap α β) (t : Std.ExtTreeMap α γ)
    (f : γ → β) (a : α) :
    (t.foldl (fun m k c => m.insert k (f c)) m)[a]? = (t[a]?.map f).or m[a]? := by
  classical
  have hlist : ∀ (rows : List (α × γ)) (m : Std.ExtTreeMap α β), (rows.map Prod.fst).Nodup →
      (∀ c, (a, c) ∈ rows → (rows.foldl (fun m r => m.insert r.1 (f r.2)) m)[a]? = some (f c)) ∧
      ((∀ c, (a, c) ∉ rows) → (rows.foldl (fun m r => m.insert r.1 (f r.2)) m)[a]? = m[a]?) := by
    intro rows
    induction rows with
    | nil => simp
    | cons row rows ih =>
      intro m hnodup
      rw [List.map_cons, List.nodup_cons] at hnodup
      obtain ⟨hmem, hnot⟩ := ih (m.insert row.1 (f row.2)) hnodup.2
      rw [List.foldl_cons]
      constructor
      · intro c hc
        rcases List.mem_cons.mp hc with rfl | htl
        · rw [hnot fun c' hc' => hnodup.1 (List.mem_map.mpr ⟨_, hc', rfl⟩)]
          exact Std.ExtTreeMap.getElem?_insert_self
        · exact hmem c htl
      · intro hno
        rw [hnot fun c hc => hno c (List.mem_cons_of_mem _ hc), getElem?_insert_ne]
        rintro rfl
        exact hno row.2 List.mem_cons_self
  have hnodup : (t.toList.map Prod.fst).Nodup := by
    rw [List.nodup_map_iff_inj_on (nodup_toList t)]
    rintro ⟨k, b⟩ hk ⟨k', b'⟩ hk' heq
    obtain rfl : k = k' := heq
    rw [mem_toList] at hk hk'
    rw [hk, Option.some.injEq] at hk'
    rw [hk']
  obtain ⟨hmem, hnot⟩ := hlist t.toList m hnodup
  rw [Std.ExtTreeMap.foldl_eq_foldl_toList]
  cases ht : t[a]? with
  | some c =>
    rw [hmem c ((mem_toList t a c).mpr ht)]
    rfl
  | none =>
    rw [hnot fun c hc => by rw [mem_toList, ht] at hc; cases hc]
    rfl

end FiniteMap
