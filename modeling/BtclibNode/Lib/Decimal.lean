/-
# Rows of decimal digits

The number a row of digits writes, and what the zeros at either end of it are worth.
-/
import Mathlib.Data.List.DropRight
import Mathlib.Data.List.TakeDrop
import Mathlib.Tactic.Common
import Mathlib.Tactic.Ring

namespace Decimal

variable {cs ds : List Char} {c : Char} {n : ℕ}

/-- Decimal digits only. -/
def Digits (cs : List Char) : Prop := ∀ c ∈ cs, c.isDigit = true

/-- The number a row of digits writes. -/
def value (cs : List Char) : ℕ := Nat.ofDigitChars 10 cs 0

/-- What a digit is worth. -/
def digit (c : Char) : ℕ := c.toNat - '0'.toNat

def isZero (c : Char) : Bool := c = '0'

def lstrip (cs : List Char) : List Char := cs.dropWhile isZero

def rstrip (cs : List Char) : List Char := cs.rdropWhile isZero

theorem Digits.append (hcs : Digits cs) (hds : Digits ds) : Digits (cs ++ ds) :=
  fun c hc => (List.mem_append.mp hc).elim (hcs c) (hds c)

theorem Digits.rstrip (h : Digits cs) : Digits (rstrip cs) :=
  fun c hc => h c (( List.rdropWhile_prefix isZero cs).subset hc)

theorem Digits.lstrip (h : Digits cs) : Digits (lstrip cs) :=
  fun c hc => h c ((List.dropWhile_suffix isZero).subset hc)

theorem digits_toDigits (n : ℕ) : Digits (Nat.toDigits 10 n) :=
  fun _ hc => Nat.isDigit_of_mem_toDigits (by decide) (by decide) hc

theorem digits_replicate (n : ℕ) : Digits (List.replicate n '0') := by
  intro c hc
  rw [List.eq_of_mem_replicate hc]
  rfl

/-! ## A digit -/

theorem digit_lt (h : c.isDigit = true) : digit c < 10 := by
  have hle := (Char.isDigit_iff_toNat.mp h).2
  have hnine : '9'.toNat = 57 := rfl
  have hzero : '0'.toNat = 48 := rfl
  rw [digit]
  omega

theorem digit_eq_zero_iff (h : c.isDigit = true) : digit c = 0 ↔ c = '0' := by
  constructor
  · intro hzero
    have hle := (Char.isDigit_iff_toNat.mp h).1
    rw [digit] at hzero
    exact Char.toNat_inj.mp (by omega)
  · rintro rfl
    rfl

/-! ## Values -/

@[simp] theorem value_nil : value [] = 0 := rfl

theorem value_append (cs ds : List Char) :
    value (cs ++ ds) = value cs * 10 ^ ds.length + value ds := by
  rw [value, Nat.ofDigitChars_append, Nat.ofDigitChars_eq_ofDigitChars_zero, Nat.mul_comm]
  rfl

theorem value_singleton (c : Char) : value [c] = digit c := by
  rw [value, Nat.ofDigitChars_cons, Nat.ofDigitChars_nil, Nat.mul_zero, Nat.zero_add]
  rfl

theorem value_cons (c : Char) (cs : List Char) :
    value (c :: cs) = digit c * 10 ^ cs.length + value cs := by
  rw [← List.singleton_append, value_append, value_singleton]

theorem value_concat (cs : List Char) (c : Char) : value (cs ++ [c]) = value cs * 10 + digit c := by
  rw [value_append, value_singleton, List.length_singleton, pow_one]

@[simp] theorem value_toDigits (n : ℕ) : value (Nat.toDigits 10 n) = n :=
  Nat.ofDigitChars_ten_toDigits

theorem value_replicate (n : ℕ) : value (List.replicate n '0') = 0 := by
  rw [value, Nat.ofDigitChars_replicate_zero, Nat.mul_zero]

theorem value_lt (h : Digits cs) : value cs < 10 ^ cs.length := by
  induction cs using List.reverseRecOn with
  | nil => exact Nat.one_pos
  | append_singleton cs c ih =>
    have hlt := ih fun d hd => h d (List.mem_append_left _ hd)
    have hc := digit_lt (h c (List.mem_append_right _ List.mem_cons_self))
    rw [value_concat, List.length_append, List.length_singleton, pow_succ]
    omega

/-- A row whose first digit is no zero is worth its length. -/
theorem le_value (h : Digits (c :: cs)) (hc : c ≠ '0') : 10 ^ cs.length ≤ value (c :: cs) := by
  have hpos : 0 < digit c :=
    Nat.pos_of_ne_zero fun hzero => hc ((digit_eq_zero_iff (h c List.mem_cons_self)).mp hzero)
  rw [value_cons]
  exact (Nat.le_mul_of_pos_left _ hpos).trans (Nat.le_add_right _ _)

/-! ## Zeros at the left -/

theorem value_lstrip (cs : List Char) : value (lstrip cs) = value cs := by
  induction cs with
  | nil => rfl
  | cons c cs ih =>
    by_cases hc : c = '0'
    · have hstep : lstrip (c :: cs) = lstrip cs := List.dropWhile_cons_of_pos (decide_eq_true hc)
      rw [hstep, ih, value_cons, hc]
      exact (Nat.zero_add _).symm.trans (congrArg (· + value cs) (Nat.zero_mul _).symm)
    · have hstep : lstrip (c :: cs) = c :: cs :=
        List.dropWhile_cons_of_neg fun h => hc (of_decide_eq_true h)
      rw [hstep]

/-- The digits that count bound the number from below. -/
theorem le_value_of_lt_length (h : Digits cs) (hn : n < (lstrip cs).length) :
    10 ^ n ≤ value cs := by
  rw [← value_lstrip]
  cases hstrip : lstrip cs with
  | nil =>
    rw [hstrip] at hn
    exact absurd hn (Nat.not_lt_zero n)
  | cons c ds =>
    have hdigits : Digits (c :: ds) := hstrip ▸ h.lstrip
    have hc : c ≠ '0' := by
      have hhead := List.head?_dropWhile_not isZero cs
      have hsome : (cs.dropWhile isZero).head? = some c := congrArg List.head? hstrip
      rw [hsome] at hhead
      exact of_decide_eq_false hhead
    rw [hstrip, List.length_cons] at hn
    exact (Nat.pow_le_pow_right (by decide) (by omega)).trans (le_value hdigits hc)

/-! ## Zeros at the right -/

/-- What is stripped at the right are tens. -/
theorem value_rstrip (cs : List Char) :
    value cs = value (rstrip cs) * 10 ^ (cs.length - (rstrip cs).length) := by
  induction cs using List.reverseRecOn with
  | nil => rfl
  | append_singleton cs c ih =>
    by_cases hc : c = '0'
    · have hstep : rstrip (cs ++ [c]) = rstrip cs :=
        List.rdropWhile_concat_pos isZero cs c (decide_eq_true hc)
      have hle : (rstrip cs).length ≤ cs.length := ( List.rdropWhile_prefix isZero cs).length_le
      have hlen : cs.length + 1 - (rstrip cs).length = cs.length - (rstrip cs).length + 1 := by
        omega
      rw [hstep, value_concat, hc, List.length_append, List.length_singleton, hlen, pow_succ,
        ← Nat.mul_assoc, ← ih]
      rfl
    · have hstep : rstrip (cs ++ [c]) = cs ++ [c] :=
        List.rdropWhile_concat_neg isZero cs c fun h => hc (of_decide_eq_true h)
      rw [hstep, Nat.sub_self, pow_zero, Nat.mul_one]

/-- What is left ends with no zero. -/
theorem value_rstrip_mod (h : Digits cs) (hne : rstrip cs ≠ []) : value (rstrip cs) % 10 ≠ 0 := by
  have hlast := List.rdropWhile_last_not isZero cs hne
  have hsplit : (rstrip cs).dropLast ++ [(rstrip cs).getLast hne] = rstrip cs :=
    List.dropLast_append_getLast hne
  have hdigit := h.rstrip _ (List.getLast_mem hne)
  have hlt := digit_lt hdigit
  have hzero : digit ((rstrip cs).getLast hne) ≠ 0 := fun hd =>
    hlast (decide_eq_true ((digit_eq_zero_iff hdigit).mp hd))
  rw [← hsplit, value_concat]
  omega

theorem rstrip_eq_nil_iff : rstrip cs = [] ↔ ∀ c ∈ cs, c = '0' := by
  rw [rstrip, List.rdropWhile_eq_nil_iff]
  exact forall₂_congr fun c _ => decide_eq_true_iff

/-! ## Numbers as they are written -/

/-- The first digit of a number is no zero. -/
theorem toDigits_of_pos (hn : 0 < n) : ∃ c cs, Nat.toDigits 10 n = c :: cs ∧ c ≠ '0' := by
  induction n using Nat.strong_induction_on with
  | _ n ih =>
    by_cases hlt : n < 10
    · refine ⟨_, [], Nat.toDigits_of_lt_base hlt, fun hzero => ?_⟩
      have hvalue := Nat.toNat_digitChar_sub_48_of_lt_ten hlt
      rw [hzero] at hvalue
      have hnone : '0'.toNat - 48 = 0 := rfl
      omega
    · obtain ⟨c, cs, htoDigits, hc⟩ := ih (n / 10) (by omega) (by omega)
      refine ⟨c, cs ++ [Nat.digitChar (n % 10)], ?_, hc⟩
      rw [Nat.toDigits_of_base_le (by decide) (by omega), htoDigits]
      rfl

/-- `n` with zeros in front, up to a width. -/
def padded (width n : ℕ) : List Char :=
  List.replicate (width - (Nat.toDigits 10 n).length) '0' ++ Nat.toDigits 10 n

theorem digits_padded (width n : ℕ) : Digits (padded width n) :=
  (digits_replicate _).append (digits_toDigits n)

@[simp] theorem value_padded (width n : ℕ) : value (padded width n) = n := by
  rw [padded, value_append, value_replicate, Nat.zero_mul, Nat.zero_add, value_toDigits]

theorem length_padded {width : ℕ} (hwidth : 0 < width) (hn : n < 10 ^ width) :
    (padded width n).length = width := by
  have hle := (Nat.length_toDigits_le_iff (by decide) hwidth).mpr hn
  rw [padded, List.length_append, List.length_replicate]
  omega

end Decimal
