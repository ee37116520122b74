/-
# Changes laid over a sorted store

Two lists of keys and values, each in the order of its keys, are merged, and of
the entries of one key the first is kept: the changes', where there is one.  What
comes out is in order again, and holds at every key what the changes say there,
or else what the store does.
-/
import Mathlib.Data.List.Nodup
import Mathlib.Data.List.Perm.Basic
import Mathlib.Data.List.Sort
import Mathlib.Tactic.Common

universe u v

namespace Overlay

variable {κ : Type u} {β : Type v}

/-! ## Lists of keys and values -/

/-- The first entry of a key. -/
def find [DecidableEq κ] (l : List (κ × β)) (k : κ) : Option β :=
  (l.find? fun x => x.1 = k).map Prod.snd

/-- The first entry of every run of one key; `last` is the key before the list. -/
def firsts [DecidableEq κ] : Option κ → List (κ × β) → List (κ × β)
  | _, [] => []
  | last, x :: l => if last = some x.1 then firsts last l else x :: firsts (some x.1) l

section Find

variable [DecidableEq κ]

@[simp] theorem find_nil (k : κ) : find ([] : List (κ × β)) k = none := rfl

theorem find_cons (x : κ × β) (l : List (κ × β)) (k : κ) :
    find (x :: l) k = if x.1 = k then some x.2 else find l k := by
  unfold find
  rw [List.find?_cons]
  by_cases h : x.1 = k
  · simp [h]
  · simp [h]

theorem find_eq_none {l : List (κ × β)} {k : κ} : find l k = none ↔ k ∉ l.map Prod.fst := by
  unfold find
  rw [Option.map_eq_none_iff, List.find?_eq_none]
  simp only [List.mem_map, not_exists, not_and, decide_eq_true_eq]

theorem mem_of_find {l : List (κ × β)} {k : κ} {v : β} (h : find l k = some v) : (k, v) ∈ l := by
  induction l with
  | nil => cases h
  | cons x l ih =>
    rw [find_cons] at h
    split at h
    · next hk =>
      obtain rfl := Option.some.inj h
      rw [← hk]
      exact List.mem_cons_self
    · exact List.mem_cons_of_mem x (ih h)

theorem find_eq_some {l : List (κ × β)} (hnodup : (l.map Prod.fst).Nodup) {k : κ} {v : β} :
    find l k = some v ↔ (k, v) ∈ l := by
  refine ⟨mem_of_find, fun hmem => ?_⟩
  induction l with
  | nil => cases hmem
  | cons x l ih =>
    rw [List.map_cons, List.nodup_cons] at hnodup
    rw [find_cons]
    rcases List.mem_cons.mp hmem with rfl | hmem
    · rw [if_pos rfl]
    · rw [if_neg fun hk : x.1 = k => hnodup.1 (List.mem_map.mpr ⟨_, hmem, hk.symm⟩)]
      exact ih hnodup.2 hmem

/-- Leaving out the later entries of a run leaves the first entry of a key. -/
theorem find_firsts (last : Option κ) (l : List (κ × β)) {k : κ} (hk : last ≠ some k) :
    find (firsts last l) k = find l k := by
  induction l generalizing last with
  | nil => rfl
  | cons x l ih =>
    unfold firsts
    split
    · next hx => rw [ih last hk, find_cons, if_neg fun hxk => hk (hx.trans (congrArg some hxk))]
    · rw [find_cons, find_cons x l]
      by_cases hxk : x.1 = k
      · rw [if_pos hxk, if_pos hxk]
      · rw [if_neg hxk, if_neg hxk, ih (some x.1) fun h => hxk (Option.some.inj h)]

end Find

/-! ## In the order of the keys -/

variable [Ord κ]

/-- In the order of their keys, each key once. -/
def Ordered (l : List (κ × β)) : Prop := l.Pairwise fun x y => compare x.1 y.1 = .lt

/-- The order of the keys. -/
abbrev keyLe (x y : κ × β) : Bool := (compare x.1 y.1).isLE

/-- In the order of the keys, from any list. -/
def sortKeys (l : List (κ × β)) : List (κ × β) := l.insertionSort fun x y => keyLe x y = true

/-- The `changes` over what is `stored`. -/
def overlay [DecidableEq κ] (changes stored : List (κ × β)) : List (κ × β) :=
  firsts none (List.merge changes stored keyLe)

theorem sortKeys_perm (l : List (κ × β)) : (sortKeys l).Perm l := List.perm_insertionSort _ l

theorem Ordered.pairwise_keyLe {l : List (κ × β)} (h : Ordered l) :
    l.Pairwise fun x y => keyLe x y = true := by
  refine List.Pairwise.imp (fun {x y} hlt => ?_) h
  rw [keyLe, hlt]
  rfl

section Order

variable [Std.TransOrd κ]

theorem keyLe_trans (x y z : κ × β) (h : keyLe x y = true) (h' : keyLe y z = true) :
    keyLe x z = true := Std.TransCmp.isLE_trans h h'

theorem keyLe_total (x y : κ × β) : (keyLe x y || keyLe y x) = true := by
  unfold keyLe
  rw [Std.OrientedOrd.eq_swap (a := x.1)]
  cases compare y.1 x.1 <;> rfl

theorem ne_of_lt {k k' : κ} (h : compare k k' = .lt) : k ≠ k' := by
  rintro rfl
  rw [Std.ReflOrd.compare_self] at h
  cases h

theorem Ordered.nodup_keys {l : List (κ × β)} (h : Ordered l) : (l.map Prod.fst).Nodup :=
  List.pairwise_map.mpr (List.Pairwise.imp ne_of_lt h)

theorem Ordered.eq_of_mem_iff {l l' : List (κ × β)} (h : Ordered l) (h' : Ordered l')
    (hmem : ∀ x, x ∈ l ↔ x ∈ l') : l = l' := by
  have hperm : l.Perm l' := (List.perm_ext_iff_of_nodup
    (List.Nodup.of_map Prod.fst h.nodup_keys) (List.Nodup.of_map Prod.fst h'.nodup_keys)).mpr hmem
  refine hperm.eq_of_pairwise (fun x y _ _ hxy hyx => ?_) h h'
  rw [Std.OrientedCmp.gt_of_lt hyx] at hxy
  cases hxy

theorem Ordered.ext [DecidableEq κ] {l l' : List (κ × β)} (h : Ordered l) (h' : Ordered l')
    (hfind : ∀ k, find l k = find l' k) : l = l' := by
  refine h.eq_of_mem_iff h' fun x => ?_
  rw [← find_eq_some h.nodup_keys, ← find_eq_some h'.nodup_keys, hfind]

/-- Of two ordered lists merged, the first entry of a key is the changes'. -/
theorem find_merge [DecidableEq κ] {changes stored : List (κ × β)} (hc : Ordered changes) (hs : Ordered stored)
    (k : κ) : find (List.merge changes stored keyLe) k = (find changes k).or (find stored k) := by
  induction changes generalizing stored with
  | nil => simp
  | cons x changes ih =>
    induction stored with
    | nil => simp
    | cons y stored ihs =>
      by_cases hle : keyLe x y = true
      · rw [List.cons_merge_cons_pos keyLe _ _ hle, find_cons, find_cons x changes,
          ih (List.Pairwise.of_cons hc) hs]
        split
        · rw [Option.some_or]
        · rfl
      · rw [List.cons_merge_cons_neg keyLe _ _ hle, find_cons,
          ihs (List.Pairwise.of_cons hs), find_cons y stored]
        split
        · next hk =>
          -- the key of `y` is before every key of the changes
          have hlt : compare y.1 x.1 = .lt := by
            rw [Bool.not_eq_true, keyLe, Ordering.isLE_eq_false] at hle
            exact Std.OrientedCmp.lt_of_gt hle
          have hnone : find (x :: changes) k = none := by
            rw [find_eq_none]
            intro hmem
            obtain ⟨z, hz, hzk⟩ := List.mem_map.mp hmem
            have hyz : compare y.1 z.1 = .lt := by
              rcases List.mem_cons.mp hz with rfl | hz
              · exact hlt
              · exact Std.TransCmp.lt_trans hlt (List.rel_of_pairwise_cons hc hz)
            exact ne_of_lt hyz (hk.trans hzk.symm)
          rw [hnone, Option.none_or]
        · rfl

variable [Std.LawfulEqOrd κ]

theorem ordered_sortKeys {l : List (κ × β)} (hnodup : (l.map Prod.fst).Nodup) :
    Ordered (sortKeys l) := by
  have hsorted : (sortKeys l).Pairwise fun x y => keyLe x y = true :=
    haveI : IsTrans (κ × β) fun x y => keyLe x y = true := ⟨keyLe_trans⟩
    haveI : Std.Total fun x y : κ × β => keyLe x y = true :=
      ⟨fun x y => by simpa using keyLe_total x y⟩
    List.pairwise_insertionSort _ l
  have hne : (sortKeys l).Pairwise fun x y => x.1 ≠ y.1 :=
    List.pairwise_map.mp (((sortKeys_perm l).map Prod.fst).nodup_iff.mpr hnodup)
  refine (hsorted.and hne).imp fun {x y} h => ?_
  cases hcmp : compare x.1 y.1 with
  | lt => rfl
  | eq => exact absurd (Std.LawfulEqCmp.eq_of_compare hcmp) h.2
  | gt =>
    have hle := h.1
    rw [keyLe, hcmp] at hle
    cases hle

variable [DecidableEq κ]

theorem find_sortKeys {l : List (κ × β)} (hnodup : (l.map Prod.fst).Nodup) (k : κ) :
    find (sortKeys l) k = find l k := by
  refine Option.ext fun v => ?_
  rw [find_eq_some (ordered_sortKeys hnodup).nodup_keys, find_eq_some hnodup,
    (sortKeys_perm l).mem_iff]

/-! ## The overlay -/

theorem ordered_firsts {last : Option κ} {l : List (κ × β)}
    (hl : l.Pairwise fun x y => keyLe x y = true)
    (hlast : ∀ k ∈ last, ∀ x ∈ l, (compare k x.1).isLE = true) :
    Ordered (firsts last l) ∧ ∀ k ∈ last, ∀ x ∈ firsts last l, compare k x.1 = .lt := by
  induction l generalizing last with
  | nil => exact ⟨List.Pairwise.nil, fun _ _ x hx => by cases hx⟩
  | cons x l ih =>
    unfold firsts
    split
    · exact ih hl.of_cons fun k hk y hy => hlast k hk y (List.mem_cons_of_mem x hy)
    · next hne =>
      have hfrom : ∀ k ∈ some x.1, ∀ y ∈ l, (compare k y.1).isLE = true := by
        intro k hk y hy
        obtain rfl := Option.some.inj hk
        exact List.rel_of_pairwise_cons hl hy
      obtain ⟨hord, hafter⟩ := ih hl.of_cons hfrom
      have hlt : ∀ k ∈ last, compare k x.1 = .lt := by
        intro k hk
        have hle := hlast k hk x List.mem_cons_self
        cases hcmp : compare k x.1 with
        | lt => rfl
        | eq =>
          obtain rfl := Std.LawfulEqCmp.eq_of_compare hcmp
          exact absurd hk hne
        | gt =>
          rw [hcmp] at hle
          cases hle
      refine ⟨List.Pairwise.cons (fun y hy => hafter x.1 rfl y hy) hord, fun k hk y hy => ?_⟩
      rcases List.mem_cons.mp hy with rfl | hy
      · exact hlt k hk
      · exact Std.TransCmp.lt_trans (hlt k hk) (hafter x.1 rfl y hy)

/-- **The overlay is in order.** -/
theorem ordered_overlay {changes stored : List (κ × β)} (hc : Ordered changes)
    (hs : Ordered stored) : Ordered (overlay changes stored) :=
  (ordered_firsts (List.pairwise_merge keyLe_trans keyLe_total _ _ hc.pairwise_keyLe
    hs.pairwise_keyLe) fun _ hk => by cases hk).1

omit [Std.LawfulEqOrd κ] in
/-- **The overlay holds what the changes say, or else what the store does.** -/
theorem find_overlay {changes stored : List (κ × β)} (hc : Ordered changes) (hs : Ordered stored)
    (k : κ) : find (overlay changes stored) k = (find changes k).or (find stored k) := by
  unfold overlay
  rw [find_firsts none _ nofun, find_merge hc hs]

end Order

end Overlay
