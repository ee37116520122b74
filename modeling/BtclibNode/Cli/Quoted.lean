/-
# What a refusal quotes

The part of a line that a refusal may quote stands before the first end of a sensitive option's
name and before the first `=`, and is short.
-/
import Mathlib.Data.List.TakeWhile
import BtclibNode.Cli.Config

namespace BtclibNode.Cli

variable {p s : Str} {name : Str} {n m : ℕ}

/-! ## The first end of a name -/

theorem findEnd_le (h : findEnd name p = some n) : n ≤ p.length := by
  induction p generalizing n with
  | nil =>
    rw [findEnd] at h
    split_ifs at h with hname
    obtain rfl := Option.some.inj h
    exact (List.isPrefixOf_iff_prefix.mp hname).length_le
  | cons c p ih =>
    rw [findEnd] at h
    split_ifs at h with hname
    · obtain rfl := Option.some.inj h
      exact (List.isPrefixOf_iff_prefix.mp hname).length_le
    · obtain ⟨k, hk, rfl⟩ := Option.map_eq_some_iff.mp h
      exact Nat.succ_le_succ (ih hk)

theorem le_findEnd (h : findEnd name p = some n) : name.length ≤ n := by
  induction p generalizing n with
  | nil =>
    rw [findEnd] at h
    split_ifs at h with hname
    exact Nat.le_of_eq (Option.some.inj h)
  | cons c p ih =>
    rw [findEnd] at h
    split_ifs at h with hname
    · exact Nat.le_of_eq (Option.some.inj h)
    · obtain ⟨k, hk, rfl⟩ := Option.map_eq_some_iff.mp h
      exact (ih hk).trans (Nat.le_succ k)

/-- A name that is found is found there in a longer line. -/
theorem findEnd_append_of_some (h : findEnd name p = some n) (s : Str) :
    findEnd name (p ++ s) = some n := by
  have hlength := (le_findEnd h).trans (findEnd_le h)
  induction p generalizing n with
  | nil =>
    obtain rfl := List.length_eq_zero_iff.mp (Nat.le_zero.mp hlength)
    cases s with
    | nil => exact h
    | cons c s => exact h
  | cons c p ih =>
    rw [findEnd] at h
    rw [List.cons_append, findEnd]
    split_ifs at h with hname
    · have hlong : name.isPrefixOf (c :: (p ++ s)) = true :=
        List.isPrefixOf_iff_prefix.mpr
          ((List.isPrefixOf_iff_prefix.mp hname).trans (List.prefix_append (c :: p) s))
      rw [if_pos hlong, h]
    · obtain ⟨k, hk, rfl⟩ := Option.map_eq_some_iff.mp h
      have hlong : ¬ name.isPrefixOf (c :: (p ++ s)) = true := by
        intro hlong
        refine hname (List.isPrefixOf_iff_prefix.mpr ?_)
        exact List.prefix_of_prefix_length_le (List.isPrefixOf_iff_prefix.mp hlong)
          (List.prefix_append (c :: p) s) hlength
      rw [if_neg hlong, ih hk ((le_findEnd hk).trans (findEnd_le hk))]
      rfl

/-- A name that is not found ends in a longer line behind the shorter one. -/
theorem lt_findEnd_append (h : findEnd name p = none) (hm : findEnd name (p ++ s) = some m) :
    p.length < m := by
  induction p generalizing m with
  | nil =>
    refine Nat.lt_of_lt_of_le (List.length_pos_iff.mpr ?_) (le_findEnd hm)
    rintro rfl
    cases h
  | cons c p ih =>
    rw [findEnd] at h
    rw [List.cons_append, findEnd] at hm
    split_ifs at h with hname
    split_ifs at hm with hlong
    · obtain rfl := Option.some.inj hm
      by_contra hle
      refine hname (List.isPrefixOf_iff_prefix.mpr ?_)
      exact List.prefix_of_prefix_length_le (List.isPrefixOf_iff_prefix.mp hlong)
        (List.prefix_append (c :: p) s) (Nat.le_of_not_lt hle)
    · obtain ⟨k, hk, rfl⟩ := Option.map_eq_some_iff.mp hm
      exact Nat.succ_lt_succ (ih (Option.map_eq_none_iff.mp h) hk)

theorem firstEnd_eq_some_iff : firstEnd p = some n ↔
    (∃ name ∈ sensitiveNames, findEnd name p = some n) ∧
      ∀ name ∈ sensitiveNames, ∀ m, findEnd name p = some m → n ≤ m := by
  rw [firstEnd, List.min?_eq_some_iff]
  simp only [List.mem_filterMap]
  constructor
  · rintro ⟨hn, hle⟩
    exact ⟨hn, fun name hname m hm => hle m ⟨name, hname, hm⟩⟩
  · rintro ⟨hn, hle⟩
    exact ⟨hn, fun m ⟨name, hname, hm⟩ => hle name hname m hm⟩

theorem findEnd_of_firstEnd_none (h : firstEnd p = none) :
    ∀ name ∈ sensitiveNames, findEnd name p = none := by
  rw [firstEnd, List.min?_eq_none_iff, List.filterMap_eq_nil_iff] at h
  exact h

theorem firstEnd_le (h : firstEnd p = some n) : n ≤ p.length := by
  obtain ⟨⟨name, -, hname⟩, -⟩ := firstEnd_eq_some_iff.mp h
  exact findEnd_le hname

/-- The first end of a name is the same in a longer line. -/
theorem firstEnd_append_of_some (h : firstEnd p = some n) (s : Str) :
    firstEnd (p ++ s) = some n := by
  have hle := firstEnd_le h
  obtain ⟨⟨name, hmem, hname⟩, hmin⟩ := firstEnd_eq_some_iff.mp h
  refine firstEnd_eq_some_iff.mpr ⟨⟨name, hmem, findEnd_append_of_some hname s⟩, ?_⟩
  intro other hother m hm
  cases hp : findEnd other p with
  | none => exact hle.trans (Nat.le_of_lt (lt_findEnd_append hp hm))
  | some k =>
    rw [findEnd_append_of_some hp s] at hm
    obtain rfl := Option.some.inj hm
    exact hmin other hother k hp

theorem lt_firstEnd_append (h : firstEnd p = none) (hm : firstEnd (p ++ s) = some m) :
    p.length < m := by
  obtain ⟨⟨name, hmem, hname⟩, -⟩ := firstEnd_eq_some_iff.mp hm
  exact lt_findEnd_append (findEnd_of_firstEnd_none h name hmem) hname

/-! ## What is quoted -/

theorem before_eq {c : ℕ} (hp : c ∉ p) (s : Str) : before c (p ++ c :: s) = p := by
  rw [before, List.takeWhile_append_of_pos]
  · rw [List.takeWhile_cons_of_neg (by simp), List.append_nil]
  · intro d hd
    rw [decide_eq_true_eq]
    rintro rfl
    exact hp hd

theorem before_of_not_mem {c : ℕ} (hp : c ∉ p) : before c p = p := by
  refine List.takeWhile_eq_self_iff.mpr fun d hd => ?_
  rw [decide_eq_true_eq]
  rintro rfl
  exact hp hd

theorem behind_eq {c : ℕ} (hp : c ∉ p) (s : Str) : behind c (p ++ c :: s) = s := by
  rw [behind, List.dropWhile_append_of_pos]
  · rw [List.dropWhile_cons_of_neg (by simp)]
    rfl
  · intro d hd
    rw [decide_eq_true_eq]
    rintro rfl
    exact hp hd

/-- What stands behind the first end of a name is not quoted. -/
theorem nameOf_behind_end (hp : firstEnd p = some p.length) (s : Str) :
    nameOf (p ++ s) = rstrip [ord ' ', ord '\t'] (before (ord '=') p) := by
  rw [nameOf, firstEnd_append_of_some hp s]
  dsimp only
  rw [List.take_left]

/-- Nor is what stands behind the first `=`. -/
theorem nameOf_behind_equals (hp : ord '=' ∉ p) (s : Str) :
    nameOf (p ++ ord '=' :: s) = nameOf p := by
  rw [nameOf, nameOf]
  cases hend : firstEnd p with
  | some n =>
    rw [firstEnd_append_of_some hend]
    dsimp only
    rw [List.take_append_of_le_length (firstEnd_le hend)]
  | none =>
    dsimp only
    rw [before_of_not_mem hp]
    cases hlong : firstEnd (p ++ ord '=' :: s) with
    | none =>
      dsimp only
      rw [before_eq hp]
    | some m =>
      dsimp only
      obtain ⟨k, rfl⟩ : ∃ k, m = p.length + 1 + k :=
        Nat.exists_eq_add_of_lt (lt_firstEnd_append hend hlong) |>.imp fun k hk => by omega
      have htake : (p ++ ord '=' :: s).take (p.length + 1 + k) = p ++ ord '=' :: s.take k := by
        rw [List.take_append, List.take_of_length_le (by omega),
          show p.length + 1 + k - p.length = k + 1 by omega, List.take_succ_cons]
      rw [htake, before_eq hp]

/-- Two lines that a refusal may not tell apart: they are the same up to the first end of a
sensitive option's name, or up to their first `=`. -/
inductive Alike : Str → Str → Prop where
  | name {p s s' : Str} (hp : firstEnd p = some p.length) : Alike (p ++ s) (p ++ s')
  | equals {p s s' : Str} (hp : ord '=' ∉ p) : Alike (p ++ ord '=' :: s) (p ++ ord '=' :: s')

theorem Alike.nameOf {line line' : Str} (h : Alike line line') : nameOf line = nameOf line' := by
  cases h with
  | name hp => rw [nameOf_behind_end hp, nameOf_behind_end hp]
  | equals hp => rw [nameOf_behind_equals hp, nameOf_behind_equals hp]

theorem Alike.quotedLine {line line' : Str} (h : Alike line line') :
    quotedLine line = quotedLine line' := by
  rw [Cli.quotedLine, Cli.quotedLine, h.nameOf]

theorem rstrip_begins (chars : List ℕ) (s : Str) : rstrip chars s <+: s := by
  rw [rstrip, ← List.reverse_suffix, List.reverse_reverse]
  exact List.dropWhile_suffix _

theorem nameOf_begins (line : Str) : nameOf line <+: line := by
  rw [nameOf]
  refine (rstrip_begins _ _).trans ((List.takeWhile_prefix _).trans ?_)
  split
  · exact List.take_prefix _ _
  · exact List.prefix_rfl

/-- **What is quoted** is what the line begins with, at most `maxQuotedName` characters of it, or
how long that would be. -/
theorem quotedLine_cases (line : Str) :
    (Cli.quotedLine line = nameOf line ∧ nameOf line <+: line ∧
      (nameOf line).length ≤ maxQuotedName) ∨
    Cli.quotedLine line = str "<" ++ decimal (nameOf line).length ++ str " characters>" := by
  rw [Cli.quotedLine]
  split_ifs with hlength
  · exact .inl ⟨rfl, nameOf_begins line, hlength⟩
  · exact .inr rfl

end BtclibNode.Cli
