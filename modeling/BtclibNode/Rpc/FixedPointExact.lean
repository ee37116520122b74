/-
# Amount texts are read exactly

A text of the grammar has its parts, and the parts have a value.  The parser answers that value
in units of the last decimal, up to what it refuses by its count of digits and up to what `int`
can read.
-/
import BtclibNode.Rpc.FixedPoint
import Mathlib.Algebra.Order.Field.Power
import Mathlib.Tactic.FieldSimp
import Mathlib.Tactic.Linarith

namespace BtclibNode.FixedPoint

open Decimal

/-! ## The grammar -/

/-- The parts of a text: an exponent has its mark, its sign and its digits. -/
structure AmountText where
  neg : Bool
  int : List Char
  frac : Option (List Char)
  exp : Option (Char × List Char × List Char)

namespace AmountText

def fracText (a : AmountText) : List Char :=
  match a.frac with
  | none => []
  | some digits => '.' :: digits

def expText (a : AmountText) : List Char :=
  match a.exp with
  | none => []
  | some (mark, sign, digits) => mark :: (sign ++ digits)

def text (a : AmountText) : List Char :=
  (if a.neg then ['-'] else []) ++ (a.int ++ (a.fracText ++ a.expText))

/-- An optional minus, a 0 or digits that do not start with 0, optionally a point and digits,
optionally an exponent. -/
structure Grammatical (a : AmountText) : Prop where
  int : a.int = ['0'] ∨ ∃ c cs, a.int = c :: cs ∧ c ≠ '0' ∧ Digits (c :: cs)
  frac : ∀ digits, a.frac = some digits → digits ≠ [] ∧ Digits digits
  exp : ∀ mark sign digits, a.exp = some (mark, sign, digits) →
    (mark = 'e' ∨ mark = 'E') ∧ (sign = [] ∨ sign = ['+'] ∨ sign = ['-']) ∧
      digits ≠ [] ∧ Digits digits

def fraction (a : AmountText) : List Char := a.frac.getD []

def exponentDigits (a : AmountText) : List Char :=
  match a.exp with
  | none => []
  | some (_, _, digits) => digits

def exponent (a : AmountText) : ℤ :=
  match a.exp with
  | none => 0
  | some (_, sign, digits) =>
    if sign = ['-'] then -(Decimal.value digits : ℤ) else Decimal.value digits

/-- The number written. -/
def value (a : AmountText) : ℚ :=
  (if a.neg then -1 else 1) *
    (Decimal.value a.int + Decimal.value a.fraction / 10 ^ a.fraction.length) * 10 ^ a.exponent

/-- What the parser refuses although it is a number: an exponent of more than 18 significant
digits, and a zero with an exponent out of range. -/
def Refused (a : AmountText) (decimals : ℕ) : Prop :=
  18 < (lstrip a.exponentDigits).length ∨
    a.value = 0 ∧ ¬ (0 ≤ a.exponent + decimals ∧ a.exponent + decimals ≤ 17)

/-- The groups of the match. -/
def groups (a : AmountText) : Match := ⟨a.int, a.frac, a.exp.map fun p => p.2.1 ++ p.2.2⟩

end AmountText

/-- What the text is to be read as. -/
def Reads (text : List Char) (decimals : ℕ) (n : ℤ) : Prop :=
  ∃ a : AmountText, a.Grammatical ∧ a.text = text ∧ a.value * 10 ^ decimals = n ∧
    |n| < 10 ^ 18 ∧ ¬ a.Refused decimals

/-! ## Matching -/

variable {a : AmountText} {m : Match} {text rest digits : List Char}

/-- Nothing that a row of digits would go on with. -/
def EndsDigits (rest : List Char) : Prop := ∀ c ∈ rest.head?, c.isDigit = false

theorem digitRun_append (hne : digits ≠ []) (hdigits : Digits digits) (hrest : EndsDigits rest) :
    digitRun (digits ++ rest) = some (digits, rest) := by
  have hspan : (digits ++ rest).takeWhile Char.isDigit = digits ∧
      (digits ++ rest).dropWhile Char.isDigit = rest := by
    rw [List.takeWhile_append_of_pos hdigits, List.dropWhile_append_of_pos hdigits]
    cases rest with
    | nil => exact ⟨List.append_nil _, rfl⟩
    | cons c rest =>
      have hc := hrest c rfl
      have hstop : ¬ c.isDigit = true := by rw [hc]; exact Bool.false_ne_true
      rw [List.takeWhile_cons_of_neg hstop, List.dropWhile_cons_of_neg hstop]
      exact ⟨List.append_nil _, rfl⟩
  rw [digitRun, hspan.1, hspan.2]
  cases digits with
  | nil => exact absurd rfl hne
  | cons c cs => rfl

theorem of_digitRun (h : digitRun text = some (digits, rest)) :
    text = digits ++ rest ∧ digits ≠ [] ∧ Digits digits := by
  rw [digitRun] at h
  split at h
  · cases h
  · rename_i hne
    cases h
    exact ⟨(List.takeWhile_append_dropWhile).symm, fun hnil => hne hnil,
      fun c hc => List.mem_takeWhile_imp hc⟩

theorem ne_of_digits {c d : Char} {cs : List Char} (h : Digits (c :: cs))
    (hd : d.isDigit = false) : c ≠ d := by
  rintro rfl
  have hc := h c List.mem_cons_self
  rw [hd] at hc
  exact Bool.false_ne_true hc

theorem matchInt_of_ne {c : Char} {cs : List Char} (hc : c ≠ '0') :
    matchInt (c :: cs) = digitRun (c :: cs) := by
  rw [matchInt]
  intro text h
  exact hc (List.cons.inj h).1

/-- Neither a point nor the mark of an exponent is a digit. -/
theorem endsDigits_expText (h : a.Grammatical) : EndsDigits a.expText := by
  intro c hc
  rw [AmountText.expText] at hc
  cases hexp : a.exp with
  | none =>
    rw [hexp] at hc
    cases hc
  | some p =>
    obtain ⟨mark, sign, digits⟩ := p
    rw [hexp] at hc
    cases hc
    rcases (h.exp _ _ _ hexp).1 with rfl | rfl <;> rfl

theorem endsDigits_fracText (h : a.Grammatical) : EndsDigits (a.fracText ++ a.expText) := by
  rw [AmountText.fracText]
  cases a.frac with
  | none => exact endsDigits_expText h
  | some digits =>
    intro c hc
    cases hc
    rfl

theorem matchInt_text (h : a.Grammatical) :
    matchInt (a.int ++ (a.fracText ++ a.expText)) = some (a.int, a.fracText ++ a.expText) := by
  rcases h.int with hint | ⟨c, cs, hint, hc, hdigits⟩
  · rw [hint]
    rfl
  · rw [hint, List.cons_append, matchInt_of_ne hc, ← List.cons_append]
    exact digitRun_append (List.cons_ne_nil _ _) hdigits (endsDigits_fracText h)

theorem matchFrac_text (h : a.Grammatical) :
    matchFrac (a.fracText ++ a.expText) = some (a.frac, a.expText) := by
  rw [AmountText.fracText]
  cases hfrac : a.frac with
  | none =>
    rw [List.nil_append, AmountText.expText]
    cases hexp : a.exp with
    | none => rfl
    | some p =>
      obtain ⟨mark, sign, digits⟩ := p
      rcases (h.exp _ _ _ hexp).1 with rfl | rfl <;> rfl
  | some digits =>
    obtain ⟨hne, hdigits⟩ := h.frac _ hfrac
    rw [List.cons_append, matchFrac, digitRun_append hne hdigits (endsDigits_expText h)]
    rfl

theorem matchSigned_text {sign : List Char} (hsign : sign = [] ∨ sign = ['+'] ∨ sign = ['-'])
    (hne : digits ≠ []) (hdigits : Digits digits) :
    matchSigned (sign ++ digits) = some (sign ++ digits, []) := by
  have hrun : digitRun digits = some (digits, []) := by
    have happend : digitRun (digits ++ []) = some (digits, []) :=
      digitRun_append hne hdigits nofun
    rwa [List.append_nil] at happend
  rcases hsign with rfl | rfl | rfl
  · rw [List.nil_append]
    cases digits with
    | nil => exact absurd rfl hne
    | cons c cs =>
      have hplus : c ≠ '+' := ne_of_digits hdigits rfl
      have hminus : c ≠ '-' := ne_of_digits hdigits rfl
      rw [matchSigned]
      · exact hrun
      · exact fun text h => hplus (List.cons.inj h).1
      · exact fun text h => hminus (List.cons.inj h).1
  · exact congrArg (Option.map fun p => ('+' :: p.1, p.2)) hrun
  · exact congrArg (Option.map fun p => ('-' :: p.1, p.2)) hrun

theorem matchExp_text (h : a.Grammatical) :
    matchExp a.expText = some (a.groups.exp, []) := by
  rw [AmountText.expText, AmountText.groups]
  cases hexp : a.exp with
  | none => rfl
  | some p =>
    obtain ⟨mark, sign, digits⟩ := p
    obtain ⟨hmark, hsign, hne, hdigits⟩ := h.exp _ _ _ hexp
    have hsigned := matchSigned_text hsign hne hdigits
    rcases hmark with rfl | rfl
    · exact congrArg (Option.map fun p => (some p.1, p.2)) hsigned
    · exact congrArg (Option.map fun p => (some p.1, p.2)) hsigned

theorem dropMinus_text (h : a.Grammatical) :
    dropMinus a.text = a.int ++ (a.fracText ++ a.expText) ∧
      (a.text.head? = some '-' ↔ a.neg = true) := by
  rw [AmountText.text]
  cases hneg : a.neg with
  | true => exact ⟨rfl, iff_of_true rfl rfl⟩
  | false =>
    have hhead : ∃ c cs, a.int = c :: cs ∧ c ≠ '-' := by
      rcases h.int with hint | ⟨c, cs, hint, -, hdigits⟩
      · exact ⟨'0', [], hint, by decide⟩
      · exact ⟨c, cs, hint, ne_of_digits hdigits rfl⟩
    obtain ⟨c, cs, hint, hc⟩ := hhead
    rw [hint]
    refine ⟨?_, iff_of_false (fun hsome => hc (Option.some.inj hsome)) Bool.false_ne_true⟩
    change dropMinus (c :: (cs ++ (a.fracText ++ a.expText))) = _
    rw [dropMinus]
    · rfl
    · exact fun text htext => hc (List.cons.inj htext).1

/-- A text of the grammar matches, and the groups are its parts. -/
theorem fullmatch_text (h : a.Grammatical) : fullmatch a.text = some a.groups := by
  rw [fullmatch, (dropMinus_text h).1, matchUnsigned, matchInt_text h, Option.bind_eq_bind,
    Option.bind_some]
  dsimp only
  rw [matchFrac_text h, Option.bind_eq_bind, Option.bind_some]
  dsimp only
  rw [matchExp_text h]
  rfl

/-! ## What matches -/

theorem of_matchInt {int : List Char} (h : matchInt text = some (int, rest)) :
    text = int ++ rest ∧ (int = ['0'] ∨ ∃ c cs, int = c :: cs ∧ c ≠ '0' ∧ Digits (c :: cs)) := by
  cases text with
  | nil => cases h
  | cons c text =>
    by_cases hc : c = '0'
    · subst hc
      cases h
      exact ⟨rfl, Or.inl rfl⟩
    · rw [matchInt_of_ne hc] at h
      obtain ⟨htext, hne, hdigits⟩ := of_digitRun h
      cases int with
      | nil => exact absurd rfl hne
      | cons d cs =>
        have hd : c = d := (List.cons.inj htext).1
        exact ⟨htext, Or.inr ⟨d, cs, rfl, hd ▸ hc, hdigits⟩⟩

theorem of_matchFrac {frac : Option (List Char)} (h : matchFrac text = some (frac, rest)) :
    (frac = none ∧ rest = text) ∨
      ∃ digits, frac = some digits ∧ text = '.' :: (digits ++ rest) ∧ digits ≠ [] ∧
        Digits digits := by
  rw [matchFrac.eq_def] at h
  split at h
  · obtain ⟨⟨digits, rest'⟩, hrun, heq⟩ := Option.map_eq_some_iff.mp h
    cases heq
    obtain ⟨htext, hne, hdigits⟩ := of_digitRun hrun
    exact Or.inr ⟨digits, rfl, by rw [htext], hne, hdigits⟩
  · cases h
    exact Or.inl ⟨rfl, rfl⟩

theorem of_matchSigned {signed : List Char} (h : matchSigned text = some (signed, rest)) :
    ∃ sign digits, signed = sign ++ digits ∧ text = sign ++ (digits ++ rest) ∧
      (sign = [] ∨ sign = ['+'] ∨ sign = ['-']) ∧ digits ≠ [] ∧ Digits digits := by
  rw [matchSigned.eq_def] at h
  split at h
  · obtain ⟨⟨digits, rest'⟩, hrun, heq⟩ := Option.map_eq_some_iff.mp h
    cases heq
    obtain ⟨htext, hne, hdigits⟩ := of_digitRun hrun
    exact ⟨['+'], digits, rfl, by rw [htext]; rfl, Or.inr (Or.inl rfl), hne, hdigits⟩
  · obtain ⟨⟨digits, rest'⟩, hrun, heq⟩ := Option.map_eq_some_iff.mp h
    cases heq
    obtain ⟨htext, hne, hdigits⟩ := of_digitRun hrun
    exact ⟨['-'], digits, rfl, by rw [htext]; rfl, Or.inr (Or.inr rfl), hne, hdigits⟩
  · obtain ⟨htext, hne, hdigits⟩ := of_digitRun h
    exact ⟨[], signed, rfl, htext, Or.inl rfl, hne, hdigits⟩

theorem of_matchExp {exp : Option (List Char)} (h : matchExp text = some (exp, rest)) :
    (exp = none ∧ rest = text) ∨
      ∃ mark sign digits, exp = some (sign ++ digits) ∧ text = mark :: (sign ++ (digits ++ rest)) ∧
        (mark = 'e' ∨ mark = 'E') ∧ (sign = [] ∨ sign = ['+'] ∨ sign = ['-']) ∧
          digits ≠ [] ∧ Digits digits := by
  rw [matchExp.eq_def] at h
  split at h
  · obtain ⟨⟨signed, rest'⟩, hsigned, heq⟩ := Option.map_eq_some_iff.mp h
    cases heq
    obtain ⟨sign, digits, hsplit, htext, hrest⟩ := of_matchSigned hsigned
    exact Or.inr ⟨'e', sign, digits, congrArg some hsplit, by rw [htext], Or.inl rfl, hrest⟩
  · obtain ⟨⟨signed, rest'⟩, hsigned, heq⟩ := Option.map_eq_some_iff.mp h
    cases heq
    obtain ⟨sign, digits, hsplit, htext, hrest⟩ := of_matchSigned hsigned
    exact Or.inr ⟨'E', sign, digits, congrArg some hsplit, by rw [htext], Or.inr rfl, hrest⟩
  · cases h
    exact Or.inl ⟨rfl, rfl⟩

/-- **What matches is of the grammar**, and its groups are the parts. -/
theorem exists_of_fullmatch (h : fullmatch text = some m) :
    ∃ a : AmountText, a.Grammatical ∧ a.text = text ∧ a.groups = m := by
  rw [fullmatch, matchUnsigned] at h
  obtain ⟨⟨int, rest₁⟩, hint, h⟩ := Option.bind_eq_some_iff.mp h
  obtain ⟨⟨frac, rest₂⟩, hfrac, h⟩ := Option.bind_eq_some_iff.mp h
  obtain ⟨⟨exp, rest₃⟩, hexp, h⟩ := Option.bind_eq_some_iff.mp h
  dsimp only at hfrac hexp h
  split_ifs at h with hend
  cases h
  subst hend
  obtain ⟨hdrop, hintOk⟩ := of_matchInt hint
  -- the sign is what the first step drops
  have hsign : ∃ neg : Bool, text = (if neg then ['-'] else []) ++ (int ++ rest₁) := by
    rw [← hdrop, dropMinus.eq_def]
    split
    · exact ⟨true, rfl⟩
    · exact ⟨false, rfl⟩
  obtain ⟨neg, htext⟩ := hsign
  have hfracOk : ∀ digits, frac = some digits → digits ≠ [] ∧ Digits digits := by
    rintro digits rfl
    rcases of_matchFrac hfrac with ⟨hnone, -⟩ | ⟨digits', hsome, -, hne, hdigits⟩
    · cases hnone
    · cases hsome
      exact ⟨hne, hdigits⟩
  have hfracText : rest₁ = AmountText.fracText ⟨neg, int, frac, none⟩ ++ rest₂ := by
    rcases of_matchFrac hfrac with ⟨rfl, hrest⟩ | ⟨digits, rfl, hrest, -, -⟩
    · exact hrest.symm
    · exact hrest
  rcases of_matchExp hexp with ⟨rfl, hrest⟩ | ⟨mark, sign, digits, rfl, hrest, hmark, hsigns, hne,
      hdigits⟩
  · refine ⟨⟨neg, int, frac, none⟩, ⟨hintOk, hfracOk, nofun⟩, ?_, rfl⟩
    rw [htext, hfracText, ← hrest]
    rfl
  · refine ⟨⟨neg, int, frac, some (mark, sign, digits)⟩, ⟨hintOk, hfracOk, ?_⟩, ?_, rfl⟩
    · intro mark' sign' digits' heq
      cases heq
      exact ⟨hmark, hsigns, hne, hdigits⟩
    · rw [htext, hfracText, hrest, List.append_nil]
      rfl

/-! ## The value -/

theorem exponentDigits_groups (h : a.Grammatical) :
    a.groups.exponentDigits = lstrip a.exponentDigits := by
  rw [Match.exponentDigits, Match.exponentText, AmountText.groups, AmountText.exponentDigits]
  cases hexp : a.exp with
  | none => rfl
  | some p =>
    obtain ⟨mark, sign, digits⟩ := p
    obtain ⟨-, hsign, hne, hdigits⟩ := h.exp _ _ _ hexp
    have hdrop : digits.dropWhile (fun c => c = '+' ∨ c = '-') = digits := by
      cases digits with
      | nil => rfl
      | cons c cs =>
        have hplus : c ≠ '+' := ne_of_digits hdigits rfl
        have hminus : c ≠ '-' := ne_of_digits hdigits rfl
        exact List.dropWhile_cons_of_neg (by simp [hplus, hminus])
    rcases hsign with rfl | rfl | rfl
    · exact congrArg lstrip hdrop
    · exact congrArg lstrip hdrop
    · exact congrArg lstrip hdrop

theorem exponent_groups (h : a.Grammatical) (decimals : ℕ) :
    a.groups.exponent (Decimal.value a.exponentDigits) decimals =
      a.exponent - a.fraction.length + a.groups.digits.length - a.groups.mantissa.length +
        decimals := by
  have hsigned : (if a.groups.exponentText.head? = some '-' then (-1 : ℤ) else 1) *
      (Decimal.value a.exponentDigits : ℤ) = a.exponent := by
    rw [Match.exponentText, AmountText.groups, AmountText.exponentDigits, AmountText.exponent]
    cases hexp : a.exp with
    | none => rfl
    | some p =>
      obtain ⟨mark, sign, digits⟩ := p
      obtain ⟨-, hsign, hne, hdigits⟩ := h.exp _ _ _ hexp
      cases digits with
      | nil => exact absurd rfl hne
      | cons c cs =>
        have hminus : c ≠ '-' := ne_of_digits hdigits rfl
        rcases hsign with rfl | rfl | rfl <;> simp [hminus]
  rw [Match.exponent, hsigned]
  rfl

theorem value_digits (a : AmountText) : Decimal.value a.groups.digits =
    Decimal.value a.int * 10 ^ a.fraction.length + Decimal.value a.fraction := by
  rw [Match.digits, value_append]
  change Decimal.value (if a.int = ['0'] then [] else a.int) * 10 ^ a.fraction.length + _ = _
  split_ifs with hint
  · rw [hint]
    rfl
  · rfl

/-- **The value is the mantissa times the power of ten that the parser finds.** -/
theorem value_eq (h : a.Grammatical) (decimals : ℕ) :
    a.value * 10 ^ decimals = (if a.neg then -1 else 1) * (Decimal.value a.groups.mantissa *
      10 ^ a.groups.exponent (Decimal.value a.exponentDigits) decimals) := by
  have hten : (10 : ℚ) ≠ 0 := by norm_num
  have hlen : a.groups.mantissa.length ≤ a.groups.digits.length :=
    ( List.rdropWhile_prefix isZero a.groups.digits).length_le
  have hpower : (10 : ℚ) ^ a.groups.exponent (Decimal.value a.exponentDigits) decimals =
      10 ^ (a.groups.digits.length - a.groups.mantissa.length) / 10 ^ a.fraction.length *
        10 ^ a.exponent * 10 ^ decimals := by
    have hsum : a.groups.exponent (Decimal.value a.exponentDigits) decimals =
        ((a.groups.digits.length - a.groups.mantissa.length : ℕ) : ℤ) - a.fraction.length +
          a.exponent + decimals := by
      rw [exponent_groups h]
      omega
    rw [hsum, zpow_add₀ hten, zpow_add₀ hten, zpow_sub₀ hten, zpow_natCast, zpow_natCast,
      zpow_natCast]
  have hdigits : (Decimal.value a.int : ℚ) + Decimal.value a.fraction / 10 ^ a.fraction.length =
      Decimal.value a.groups.mantissa * 10 ^ (a.groups.digits.length - a.groups.mantissa.length) /
        10 ^ a.fraction.length := by
    have hrstrip := (value_digits a).symm.trans (value_rstrip a.groups.digits)
    rw [eq_div_iff (pow_ne_zero _ hten), add_mul, div_mul_cancel₀ _ (pow_ne_zero _ hten)]
    exact_mod_cast hrstrip
  rw [AmountText.value, hpower, hdigits]
  ring

/-! ## Digits of the grammar -/

theorem digits_groups (h : a.Grammatical) : Digits a.groups.digits := by
  refine Digits.append ?_ ?_
  · change Digits (if a.int = ['0'] then [] else a.int)
    split_ifs with hint
    · exact nofun
    · rcases h.int with hzero | ⟨c, cs, hcons, -, hdigits⟩
      · exact absurd hzero hint
      · exact hcons ▸ hdigits
  · change Digits (a.frac.getD [])
    cases hfrac : a.frac with
    | none => exact nofun
    | some digits => exact (h.frac _ hfrac).2

theorem digits_exponentDigits (h : a.Grammatical) : Digits a.exponentDigits := by
  rw [AmountText.exponentDigits]
  cases hexp : a.exp with
  | none => exact nofun
  | some p => exact (h.exp _ _ _ hexp).2.2.2

/-- The mantissa is zero only where it has no digit left, and all digits are the fraction's. -/
theorem mantissa_zero (h : a.Grammatical) (hzero : Decimal.value a.groups.mantissa = 0) :
    a.groups.mantissa = [] ∧ a.groups.digits.length = a.fraction.length := by
  have hnil : a.groups.mantissa = [] := by
    by_contra hne
    have hmod := value_rstrip_mod (digits_groups h) hne
    rw [Match.mantissa] at hzero
    rw [hzero] at hmod
    exact hmod rfl
  refine ⟨hnil, ?_⟩
  have hall : ∀ c ∈ a.groups.digits, c = '0' := rstrip_eq_nil_iff.mp hnil
  have hint : a.int = ['0'] := by
    by_contra hne
    rcases h.int with hzero | ⟨c, cs, hcons, hc, -⟩
    · exact hne hzero
    · refine hc (hall c ?_)
      rw [Match.digits]
      change c ∈ (if a.int = ['0'] then [] else a.int) ++ _
      rw [if_neg hne, hcons]
      exact List.mem_append_left _ List.mem_cons_self
  rw [Match.digits]
  change ((if a.int = ['0'] then [] else a.int) ++ a.fraction).length = _
  rw [if_pos hint, List.nil_append]

/-! ## The parser's checks -/

/-- The checks let through the numbers below the bound, and zeros in range. -/
theorem checks_iff {M N significant : ℕ} {E : ℤ} (hM : M ≠ 0 → M % 10 ≠ 0)
    (hsignificant : 18 < significant → 10 ^ 18 ≤ M) :
    (significant ≤ 18 ∧ (0 ≤ E ∧ E < 18) ∧ M * 10 ^ E.toNat ≤ 10 ^ 18 - 1 ∧
        N = M * 10 ^ E.toNat) ↔
      (M : ℚ) * 10 ^ E = N ∧ N < 10 ^ 18 ∧ (M = 0 → 0 ≤ E ∧ E < 18) := by
  constructor
  · rintro ⟨-, hE, hbound, hN⟩
    have hcast : (10 : ℚ) ^ E = 10 ^ E.toNat := by
      rw [← zpow_natCast, Int.toNat_of_nonneg hE.1]
    refine ⟨?_, by omega, fun _ => hE⟩
    rw [hcast, hN]
    push_cast
    rfl
  · rintro ⟨hvalue, hN, hzero⟩
    have hpos : 0 ≤ E := by
      by_contra hneg
      have hM0 : M ≠ 0 := fun h0 => hneg (hzero h0).1
      -- a mantissa that ends with no zero is no multiple of ten
      obtain ⟨k, hk⟩ : ∃ k : ℕ, E = -((k + 1 : ℕ) : ℤ) := ⟨(-E - 1).toNat, by omega⟩
      have hten : (10 : ℚ) ^ (k + 1) ≠ 0 := pow_ne_zero _ (by norm_num)
      rw [hk, zpow_neg, zpow_natCast, ← div_eq_mul_inv, div_eq_iff hten] at hvalue
      have hnat : M = N * 10 ^ (k + 1) := by exact_mod_cast hvalue
      refine hM hM0 ?_
      rw [hnat, pow_succ, ← Nat.mul_assoc, Nat.mul_mod_left]
    have hcast : (10 : ℚ) ^ E = 10 ^ E.toNat := by
      rw [← zpow_natCast, Int.toNat_of_nonneg hpos]
    rw [hcast] at hvalue
    have hnat : M * 10 ^ E.toNat = N := by exact_mod_cast hvalue
    have hE : E < 18 := by
      by_contra hge
      have hM0 : M ≠ 0 := fun h0 => hge (hzero h0).2
      have hpow : 10 ^ 18 ≤ 10 ^ E.toNat := Nat.pow_le_pow_right (by decide) (by omega)
      have hle : 10 ^ E.toNat ≤ M * 10 ^ E.toNat :=
        Nat.le_mul_of_pos_left _ (Nat.pos_of_ne_zero hM0)
      omega
    have hsig : significant ≤ 18 := by
      by_contra hgt
      have hle : M ≤ M * 10 ^ E.toNat := Nat.le_mul_of_pos_right _ (Nat.pow_pos (by decide))
      have hlarge := hsignificant (by omega)
      omega
    exact ⟨hsig, ⟨hpos, hE⟩, by omega, hnat.symm⟩

theorem value_orZero (digits : List Char) :
    Decimal.value (orZero digits) = Decimal.value digits := by
  rw [orZero]
  split_ifs with h
  · rw [h]
    rfl
  · rfl

theorem readInt_orZero (digits : List Char) : readInt (orZero digits) =
    if maxStrDigits < digits.length then none else some (Decimal.value digits) := by
  rw [readInt, value_orZero]
  refine if_congr ?_ rfl rfl
  rw [orZero]
  split_ifs with h
  · rw [h]
    decide
  · rfl

theorem readInt_power (h : (lstrip digits).length ≤ 18) :
    readInt (orZero (lstrip digits)) = some (Decimal.value digits) := by
  rw [readInt_orZero, value_lstrip, if_neg]
  exact Nat.not_lt.mpr (h.trans (by decide))

/-- When the parser answers a number. -/
theorem parse_checks (h : a.Grammatical) (decimals : ℕ) (n : ℤ) :
    parseFixedPoint a.text decimals = some (some n) ↔
      (lstrip a.exponentDigits).length ≤ 18 ∧ a.groups.mantissa.length ≤ maxStrDigits ∧
        ∃ N : ℕ, ((lstrip a.groups.mantissa).length ≤ 18 ∧
          (0 ≤ a.groups.exponent (Decimal.value a.exponentDigits) decimals ∧
            a.groups.exponent (Decimal.value a.exponentDigits) decimals < 18) ∧
          Decimal.value a.groups.mantissa *
            10 ^ (a.groups.exponent (Decimal.value a.exponentDigits) decimals).toNat ≤
              10 ^ 18 - 1 ∧
          N = Decimal.value a.groups.mantissa *
            10 ^ (a.groups.exponent (Decimal.value a.exponentDigits) decimals).toNat) ∧
          n = if a.neg then -(N : ℤ) else N := by
  rw [parseFixedPoint, fullmatch_text h]
  dsimp only
  rw [exponentDigits_groups h]
  by_cases hlong : fixedPointDigits <
      max (lstrip a.groups.mantissa).length (lstrip a.exponentDigits).length
  · rw [if_pos hlong]
    refine iff_of_false (by simp) ?_
    rintro ⟨hexp, -, N, ⟨hsig, -⟩, -⟩
    exact absurd hlong (Nat.not_lt.mpr (max_le hsig hexp))
  · rw [if_neg hlong]
    obtain ⟨hsig, hexp⟩ := max_le_iff.mp (Nat.not_lt.mp hlong)
    rw [readInt_power hexp, Option.bind_eq_bind, Option.bind_some]
    by_cases hE : 0 ≤ a.groups.exponent (Decimal.value a.exponentDigits) decimals ∧
        a.groups.exponent (Decimal.value a.exponentDigits) decimals < fixedPointDigits
    · rw [if_neg (not_not.mpr hE), readInt_orZero]
      by_cases hlen : maxStrDigits < a.groups.mantissa.length
      · rw [if_pos hlen]
        refine iff_of_false (by simp) ?_
        rintro ⟨-, hle, -⟩
        exact absurd hlen (Nat.not_lt.mpr hle)
      · rw [if_neg hlen, Option.bind_some]
        by_cases hbound : fixedPointBound < Decimal.value a.groups.mantissa *
            10 ^ (a.groups.exponent (Decimal.value a.exponentDigits) decimals).toNat
        · rw [if_pos hbound]
          refine iff_of_false (by simp) ?_
          rintro ⟨-, -, N, ⟨-, -, hle, -⟩, -⟩
          exact absurd hbound (Nat.not_lt.mpr hle)
        · rw [if_neg hbound, Option.some.injEq, Option.some.injEq]
          simp only [(dropMinus_text h).2]
          constructor
          · intro hn
            exact ⟨hexp, Nat.not_lt.mp hlen, _, ⟨hsig, hE, Nat.not_lt.mp hbound, rfl⟩, hn.symm⟩
          · rintro ⟨-, -, N, ⟨-, -, -, rfl⟩, hn⟩
            exact hn.symm
    · rw [if_pos hE]
      refine iff_of_false (by simp) ?_
      rintro ⟨-, -, N, ⟨-, hE', -⟩, -⟩
      exact hE hE'

/-- Past what `int` reads, a text that passes the checks before raises. -/
theorem parse_raises (h : a.Grammatical) {decimals : ℕ}
    (hexp : (lstrip a.exponentDigits).length ≤ 18)
    (hsignificant : (lstrip a.groups.mantissa).length ≤ 18)
    (hE : 0 ≤ a.groups.exponent (Decimal.value a.exponentDigits) decimals ∧
      a.groups.exponent (Decimal.value a.exponentDigits) decimals < 18)
    (hlong : maxStrDigits < a.groups.mantissa.length) :
    parseFixedPoint a.text decimals = none := by
  have hshort : ¬ fixedPointDigits <
      max (lstrip a.groups.mantissa).length (lstrip a.exponentDigits).length :=
    Nat.not_lt.mpr (max_le hsignificant hexp)
  rw [parseFixedPoint, fullmatch_text h]
  dsimp only
  rw [exponentDigits_groups h, if_neg hshort, readInt_power hexp, Option.bind_eq_bind,
    Option.bind_some]
  have hrange : ¬ ¬ (0 ≤ a.groups.exponent (Decimal.value a.exponentDigits) decimals ∧
      a.groups.exponent (Decimal.value a.exponentDigits) decimals < (fixedPointDigits : ℤ)) :=
    not_not.mpr hE
  rw [if_neg hrange, readInt_orZero, if_pos hlong]
  rfl

/-- A signed number is its magnitude. -/
theorem signed_iff {neg : Bool} {x : ℚ} (hx : 0 ≤ x) (n : ℤ) {P : ℕ → Prop} :
    (∃ N : ℕ, (x = N ∧ P N) ∧ n = if neg then -(N : ℤ) else N) ↔
      (if neg then -1 else 1) * x = n ∧ P n.natAbs := by
  constructor
  · rintro ⟨N, ⟨rfl, hP⟩, rfl⟩
    cases neg with
    | true => simpa using hP
    | false => simpa using hP
  · rintro ⟨hn, hP⟩
    cases neg with
    | true =>
      rw [if_pos rfl] at hn
      have hle : n ≤ 0 := by
        have hcast : (n : ℚ) ≤ 0 := by linarith
        exact_mod_cast hcast
      have habs : ((n.natAbs : ℤ) : ℚ) = ((-n : ℤ) : ℚ) := by
        rw [Int.ofNat_natAbs_of_nonpos hle]
      rw [Int.cast_natCast, Int.cast_neg] at habs
      refine ⟨n.natAbs, ⟨by linarith, hP⟩, ?_⟩
      rw [if_pos rfl]
      omega
    | false =>
      rw [if_neg Bool.false_ne_true, one_mul] at hn
      have hle : 0 ≤ n := by
        have hcast : (0 : ℚ) ≤ n := by linarith
        exact_mod_cast hcast
      have habs : ((n.natAbs : ℤ) : ℚ) = (n : ℚ) := by rw [Int.natAbs_of_nonneg hle]
      rw [Int.cast_natCast] at habs
      refine ⟨n.natAbs, ⟨hn.trans habs.symm, hP⟩, ?_⟩
      rw [if_neg Bool.false_ne_true]
      omega

theorem value_eq_zero_iff (h : a.Grammatical) :
    a.value = 0 ↔ Decimal.value a.groups.mantissa = 0 := by
  have hvalue := value_eq h 0
  rw [pow_zero, mul_one] at hvalue
  have hpower : (10 : ℚ) ^ a.groups.exponent (Decimal.value a.exponentDigits) 0 ≠ 0 :=
    zpow_ne_zero _ (by norm_num)
  have hsign : (if a.neg then (-1 : ℚ) else 1) ≠ 0 := by split_ifs <;> norm_num
  rw [hvalue, mul_eq_zero, mul_eq_zero, Nat.cast_eq_zero]
  exact ⟨fun hor => (hor.resolve_left hsign).resolve_right hpower, fun hM => Or.inr (Or.inl hM)⟩

theorem not_refused_iff (h : a.Grammatical) (decimals : ℕ) : ¬ a.Refused decimals ↔
    (lstrip a.exponentDigits).length ≤ 18 ∧ (Decimal.value a.groups.mantissa = 0 →
      0 ≤ a.groups.exponent (Decimal.value a.exponentDigits) decimals ∧
        a.groups.exponent (Decimal.value a.exponentDigits) decimals < 18) := by
  rw [AmountText.Refused, not_or, Nat.not_lt, value_eq_zero_iff h, not_and, not_not]
  refine and_congr_right fun _ => forall_congr' fun hzero => ?_
  obtain ⟨hnil, hlen⟩ := mantissa_zero h hzero
  have hE : a.groups.exponent (Decimal.value a.exponentDigits) decimals =
      a.exponent + decimals := by
    rw [exponent_groups h, hnil, hlen, List.length_nil]
    omega
  rw [hE]
  omega

/-- **A text of the grammar is read as its value**, up to what is refused and what `int` takes. -/
theorem parse_text (h : a.Grammatical) (decimals : ℕ) (n : ℤ) :
    parseFixedPoint a.text decimals = some (some n) ↔
      a.value * 10 ^ decimals = n ∧ |n| < 10 ^ 18 ∧ ¬ a.Refused decimals ∧
        a.groups.mantissa.length ≤ maxStrDigits := by
  have hM : Decimal.value a.groups.mantissa ≠ 0 → Decimal.value a.groups.mantissa % 10 ≠ 0 :=
    fun hne => value_rstrip_mod (digits_groups h) fun hnil => hne (by
      rw [Match.mantissa, hnil]
      rfl)
  have hsignificant : 18 < (lstrip a.groups.mantissa).length →
      10 ^ 18 ≤ Decimal.value a.groups.mantissa :=
    fun hlt => le_value_of_lt_length (digits_groups h).rstrip hlt
  have hnonneg : (0 : ℚ) ≤ Decimal.value a.groups.mantissa *
      10 ^ a.groups.exponent (Decimal.value a.exponentDigits) decimals := by positivity
  have hbound : n.natAbs < 10 ^ 18 ↔ |n| < 10 ^ 18 := by
    rw [Int.abs_eq_natAbs]
    omega
  rw [parse_checks h, not_refused_iff h, value_eq h decimals]
  simp only [checks_iff hM hsignificant]
  rw [signed_iff hnonneg n, hbound]
  tauto

/-! ## Amounts -/

/-- The parts of what `btc_amount` writes. -/
def amountParts (sats : ℤ) : AmountText :=
  ⟨decide (sats < 0), Nat.toDigits 10 (sats.natAbs / coin),
    some (padded btcDecimals (sats.natAbs % coin)), none⟩

theorem text_amountParts (sats : ℤ) : (amountParts sats).text = (btcAmount sats).toList := by
  rw [btcAmount, String.toList_ofList, AmountText.text, AmountText.fracText, AmountText.expText,
    amountParts]
  simp only [decide_eq_true_eq, List.append_nil, List.append_assoc]
  rfl

theorem length_cents (sats : ℤ) :
    (padded btcDecimals (sats.natAbs % coin)).length = btcDecimals :=
  length_padded (by decide) (Nat.mod_lt sats.natAbs (by decide : 0 < coin))

theorem grammatical_amountParts (sats : ℤ) : (amountParts sats).Grammatical := by
  refine ⟨?_, ?_, nofun⟩
  · change Nat.toDigits 10 (sats.natAbs / coin) = ['0'] ∨ ∃ c cs,
      Nat.toDigits 10 (sats.natAbs / coin) = c :: cs ∧ c ≠ '0' ∧ Digits (c :: cs)
    rcases Nat.eq_zero_or_pos (sats.natAbs / coin) with hzero | hpos
    · rw [hzero]
      exact Or.inl rfl
    · obtain ⟨c, cs, hcons, hc⟩ := toDigits_of_pos hpos
      exact Or.inr ⟨c, cs, hcons, hc, hcons ▸ digits_toDigits _⟩
  · intro digits hsome
    cases hsome
    refine ⟨fun hnil => ?_, digits_padded _ _⟩
    have hlen := length_cents sats
    rw [hnil] at hlen
    exact absurd hlen (by decide)

theorem value_amountParts (sats : ℤ) : (amountParts sats).value * 10 ^ btcDecimals = sats := by
  have hsum : ((sats.natAbs / coin : ℕ) : ℚ) * 10 ^ btcDecimals + (sats.natAbs % coin : ℕ) =
      sats.natAbs := by
    have hdiv : sats.natAbs / coin * 10 ^ btcDecimals + sats.natAbs % coin = sats.natAbs :=
      Nat.div_add_mod' sats.natAbs coin
    exact_mod_cast hdiv
  have hten : (10 : ℚ) ^ btcDecimals ≠ 0 := pow_ne_zero _ (by norm_num)
  have hvalue : (amountParts sats).value * 10 ^ btcDecimals =
      (if decide (sats < 0) then -1 else 1) * (sats.natAbs : ℚ) := by
    rw [← hsum, AmountText.value, AmountText.fraction, AmountText.exponent]
    change (if decide (sats < 0) then (-1 : ℚ) else 1) *
      ((Decimal.value (Nat.toDigits 10 (sats.natAbs / coin)) : ℚ) +
        (Decimal.value (padded btcDecimals (sats.natAbs % coin)) : ℚ) /
          10 ^ (padded btcDecimals (sats.natAbs % coin)).length) * 10 ^ (0 : ℤ) *
      10 ^ btcDecimals = _
    rw [length_cents, value_toDigits, value_padded, zpow_zero, mul_one]
    field_simp
  rw [hvalue]
  by_cases hneg : sats < 0
  · have habs : ((sats.natAbs : ℤ) : ℚ) = ((-sats : ℤ) : ℚ) := by
      rw [Int.ofNat_natAbs_of_nonpos hneg.le]
    rw [Int.cast_natCast, Int.cast_neg] at habs
    rw [decide_eq_true hneg, if_pos rfl, habs]
    ring
  · have habs : ((sats.natAbs : ℤ) : ℚ) = (sats : ℚ) := by
      rw [Int.natAbs_of_nonneg (Int.not_lt.mp hneg)]
    rw [Int.cast_natCast] at habs
    rw [decide_eq_false hneg, if_neg Bool.false_ne_true, habs, one_mul]

/-- **What `btc_amount` writes is read back.** -/
theorem parse_btcAmount {sats : ℤ} (h : |sats| < 10 ^ 18) :
    parseFixedPoint (btcAmount sats).toList btcDecimals = some (some sats) := by
  rw [← text_amountParts, parse_text (grammatical_amountParts sats)]
  refine ⟨value_amountParts sats, h, ?_, ?_⟩
  · rw [AmountText.Refused, not_or]
    exact ⟨(by decide : ¬ 18 < (lstrip []).length), fun hzero => hzero.2
      (by decide : (0 : ℤ) ≤ 0 + btcDecimals ∧ (0 : ℤ) + btcDecimals ≤ 17)⟩
  · have hquotient : (Nat.toDigits 10 (sats.natAbs / coin)).length ≤ 10 := by
      refine (Nat.length_toDigits_le_iff (by decide) (by decide)).mpr ?_
      refine Nat.div_lt_of_lt_mul ?_
      rw [Int.abs_eq_natAbs] at h
      have hcoin : coin * 10 ^ 10 = 10 ^ 18 := by decide
      omega
    have hstart : (amountParts sats).groups.mantissa.length ≤
        (amountParts sats).groups.digits.length :=
      ( List.rdropWhile_prefix isZero _).length_le
    have hdigits : (amountParts sats).groups.digits.length ≤ 18 := by
      rw [Match.digits, List.length_append]
      change (if Nat.toDigits 10 (sats.natAbs / coin) = ['0'] then []
        else Nat.toDigits 10 (sats.natAbs / coin)).length +
          (padded btcDecimals (sats.natAbs % coin)).length ≤ 18
      rw [length_cents, btcDecimals]
      split_ifs
      · exact (by decide : 0 + 8 ≤ 18)
      · omega
    exact hstart.trans (hdigits.trans (by decide))

/-- The mantissa of a text, as `int` is to read it. -/
def mantissa (text : List Char) : List Char := ((fullmatch text).map (·.mantissa)).getD []

/-- **Amount texts are read exactly** where `int` takes their mantissa; and what `btc_amount`
writes is read back, by the parser and as an argument. -/
theorem amounts_exact (text : List Char) (decimals : ℕ) :
    ((∀ n : ℤ, parseFixedPoint text decimals = some (some n) ↔ Reads text decimals n) ↔
      ¬ (maxStrDigits < (mantissa text).length ∧ ∃ n, Reads text decimals n)) ∧
      (∀ sats : ℤ, |sats| < 10 ^ 18 →
        parseFixedPoint (btcAmount sats).toList btcDecimals = some (some sats)) ∧
      ∀ (repr : String → String) (params : List Json) (position : ℕ) (default sats : ℤ),
        0 ≤ sats → sats ≤ maxMoney → params[position]? = some (.str (btcAmount sats)) →
          amountParam repr params position default = some (.ok sats) := by
  have hparse : ∀ n, parseFixedPoint text decimals = some (some n) ↔
      Reads text decimals n ∧ (mantissa text).length ≤ maxStrDigits := by
    intro n
    constructor
    · intro hsome
      have hmatch : ∃ m, fullmatch text = some m := by
        cases hm : fullmatch text with
        | none =>
          rw [parseFixedPoint, hm] at hsome
          cases hsome
        | some m => exact ⟨m, rfl⟩
      obtain ⟨m, hm⟩ := hmatch
      obtain ⟨a, ha, rfl, rfl⟩ := exists_of_fullmatch hm
      obtain ⟨hvalue, hbound, hrefused, hlen⟩ := (parse_text ha decimals n).mp hsome
      refine ⟨⟨a, ha, rfl, hvalue, hbound, hrefused⟩, ?_⟩
      rw [mantissa, hm]
      exact hlen
    · rintro ⟨⟨a, ha, rfl, hvalue, hbound, hrefused⟩, hlen⟩
      rw [mantissa, fullmatch_text ha] at hlen
      exact (parse_text ha decimals n).mpr ⟨hvalue, hbound, hrefused, hlen⟩
  refine ⟨?_, fun sats hsats => parse_btcAmount hsats, ?_⟩
  · constructor
    · rintro hall ⟨hlong, n, hn⟩
      exact absurd hlong (Nat.not_lt.mpr ((hparse n).mp ((hall n).mpr hn)).2)
    · intro hshort n
      rw [hparse]
      refine ⟨And.left, fun hn => ⟨hn, Nat.not_lt.mp fun hlong => hshort ⟨hlong, n, hn⟩⟩⟩
  · intro repr params position default sats hpos hmax hparam
    have hsmall : |sats| < 10 ^ 18 := by
      have hmoney : maxMoney = 2100000000000000 := by decide
      rw [abs_of_nonneg hpos]
      omega
    rw [amountParam, hparam]
    dsimp only [amountText]
    rw [parse_btcAmount hsmall]
    exact if_pos ⟨hpos, hmax⟩

/-- A hundredth, as text and as an argument. -/
theorem amounts_exact_cent :
    parseFixedPoint (btcAmount 1000000).toList btcDecimals = some (some 1000000) ∧
      amountParam id [.str (btcAmount 1000000)] 0 0 = some (.ok 1000000) :=
  ⟨(amounts_exact [] btcDecimals).2.1 1000000 (by decide),
    (amounts_exact [] btcDecimals).2.2 id [.str (btcAmount 1000000)] 0 0 1000000 (by decide) (by decide) rfl⟩

/-- 1, written with zeros behind the point and an exponent that takes them back. -/
def smallOne (zeros : ℕ) : AmountText :=
  ⟨false, ['0'], some (List.replicate zeros '0' ++ ['1']),
    some ('e', [], Nat.toDigits 10 (zeros + 1))⟩

/-- With more zeros than `int` reads digits, it raises. -/
theorem smallOne_raises {zeros : ℕ} (hlong : maxStrDigits ≤ zeros) (hzeros : zeros + 1 < 10 ^ 18) :
    Reads (smallOne zeros).text btcDecimals (10 ^ 8) ∧
      parseFixedPoint (smallOne zeros).text btcDecimals = none := by
  have hgrammatical : (smallOne zeros).Grammatical := by
    refine ⟨Or.inl rfl, fun digits hsome => ?_, fun mark sign digits hsome => ?_⟩
    · cases hsome
      refine ⟨List.append_ne_nil_of_right_ne_nil _ (List.cons_ne_nil _ _), ?_⟩
      exact (digits_replicate _).append (List.forall_mem_singleton.mpr rfl)
    · cases hsome
      exact ⟨Or.inl rfl, Or.inl rfl, Nat.toDigits_ne_nil, digits_toDigits _⟩
  have hfraction : (smallOne zeros).fraction.length = zeros + 1 := by
    rw [AmountText.fraction, smallOne, Option.getD_some, List.length_append, List.length_replicate]
    rfl
  have hdigits : (smallOne zeros).groups.digits = List.replicate zeros '0' ++ ['1'] := rfl
  have hmantissa : (smallOne zeros).groups.mantissa = List.replicate zeros '0' ++ ['1'] := by
    rw [Match.mantissa, hdigits]
    exact List.rdropWhile_concat_neg _ _ _ (by decide)
  have hwritten : (smallOne zeros).exponent = zeros + 1 := by
    change (if ([] : List Char) = ['-'] then -(Decimal.value (Nat.toDigits 10 (zeros + 1)) : ℤ)
      else Decimal.value (Nat.toDigits 10 (zeros + 1))) = _
    rw [if_neg (List.cons_ne_nil _ _).symm, value_toDigits]
    rfl
  have hexponent : (smallOne zeros).groups.exponent
      (Decimal.value (smallOne zeros).exponentDigits) btcDecimals = 8 := by
    have hdecimals : btcDecimals = 8 := rfl
    rw [exponent_groups hgrammatical, hmantissa, hdigits, hfraction, hwritten]
    omega
  have hone : Decimal.value (smallOne zeros).groups.mantissa = 1 := by
    rw [hmantissa, value_concat, value_replicate]
    rfl
  have hvalue : (smallOne zeros).value * 10 ^ btcDecimals = 10 ^ 8 := by
    rw [value_eq hgrammatical, hexponent, hone]
    norm_num [smallOne]
  have hexp : (lstrip (smallOne zeros).exponentDigits).length ≤ 18 :=
    (List.dropWhile_suffix isZero).length_le.trans
      ((Nat.length_toDigits_le_iff (by decide) (by decide)).mpr hzeros)
  refine ⟨⟨smallOne zeros, hgrammatical, rfl, by rw [hvalue]; norm_num, by decide, ?_⟩, ?_⟩
  · rw [not_refused_iff hgrammatical, hone]
    exact ⟨hexp, fun hzero => absurd hzero Nat.one_ne_zero⟩
  · refine parse_raises hgrammatical hexp ?_ ?_ ?_
    · have hstrip : lstrip (List.replicate zeros '0' ++ ['1']) = ['1'] :=
        List.dropWhile_append_of_pos fun c hc => decide_eq_true (List.eq_of_mem_replicate hc)
      rw [hmantissa, hstrip]
      decide
    · rw [hexponent]
      decide
    · rw [hmantissa, List.length_append, List.length_replicate]
      exact Nat.lt_succ_of_le hlong

/-- The text of a whole amount that raises. -/
theorem amounts_exact_longOne : Reads (smallOne maxStrDigits).text btcDecimals (10 ^ 8) ∧
    parseFixedPoint (smallOne maxStrDigits).text btcDecimals = none :=
  smallOne_raises (Nat.le_refl _) (by decide)

end BtclibNode.FixedPoint
