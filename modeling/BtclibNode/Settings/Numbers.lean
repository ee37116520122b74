/-
# Numbers

`_number` reads the numbers of the grammar, as far as they go, and a minus sign that ends the text.
-/
import BtclibNode.Settings.Strings

namespace BtclibNode.Settings

/-- What does not go on with a number. -/
def Ends (rest : List Char) : Prop :=
  ∀ c ∈ rest.head?, c.isDigit = false ∧ c ≠ '.' ∧ c ≠ 'e' ∧ c ≠ 'E'

variable {text ds rest : List Char}

theorem isDigit_cons (c : Char) (text : List Char) : isDigit (c :: text) = c.isDigit := rfl

theorem Ends.isDigit (h : Ends rest) : isDigit rest = false := by
  cases rest with
  | nil => rfl
  | cons c rest => exact (h c rfl).1

theorem take_one_iff {c : Char} : text.take 1 = [c] ↔ ∃ rest, text = c :: rest := by
  cases text with
  | nil => exact ⟨nofun, nofun⟩
  | cons d text =>
    rw [List.take_succ_cons, List.take_zero]
    constructor
    · intro h
      exact ⟨text, by rw [List.cons.inj h |>.1]⟩
    · rintro ⟨rest, h⟩
      rw [(List.cons.inj h).1]

/-! ## Digits -/

theorem digits_append (hds : ∀ d ∈ ds, d.isDigit) (hrest : isDigit rest = false) :
    digits (ds ++ rest) = rest := by
  rw [digits, List.dropWhile_append_of_pos hds]
  cases rest with
  | nil => rfl
  | cons c rest => exact List.dropWhile_cons_of_neg (by rw [← isDigit_cons c rest, hrest]; decide)

theorem isDigit_digits (text : List Char) : isDigit (digits text) = false := by
  induction text with
  | nil => rfl
  | cons c text ih =>
    cases hc : c.isDigit with
    | true =>
      rw [digits, List.dropWhile_cons_of_pos hc]
      exact ih
    | false =>
      rw [digits, List.dropWhile_cons_of_neg (by rw [hc]; decide)]
      exact hc

/-- The digits a text begins with. -/
theorem exists_digits (text : List Char) :
    ∃ ds, text = ds ++ digits text ∧ ∀ d ∈ ds, d.isDigit :=
  ⟨text.takeWhile Char.isDigit, (List.takeWhile_append_dropWhile ..).symm,
    fun d hd => List.all_eq_true.mp List.all_takeWhile d hd⟩

theorem exists_digits_of_isDigit (text : List Char) (h : isDigit text = true) :
    ∃ ds, text = ds ++ digits text ∧ Digits ds := by
  obtain ⟨ds, htext, hds⟩ := exists_digits text
  refine ⟨ds, htext, ?_, hds⟩
  rintro rfl
  have hnot := isDigit_digits text
  rw [← show text = digits text from htext, h] at hnot
  cases hnot

/-! ## The parts of a number -/

theorem fraction_append {f : List Char} (h : FractionText f) (hdigit : isDigit rest = false)
    (hpoint : rest.head? ≠ some '.') : fraction (f ++ rest) = .ok rest := by
  cases h with
  | none =>
    rw [List.nil_append, fraction, if_neg]
    rintro htake
    obtain ⟨rest, rfl⟩ := take_one_iff.mp htake
    exact hpoint rfl
  | @point ds hds =>
    obtain ⟨d, ds', rfl⟩ := List.exists_cons_of_ne_nil hds.1
    have hd : isDigit (d :: ds' ++ rest) = true := hds.2 d List.mem_cons_self
    change (if ['.'] = ['.'] then if isDigit (d :: ds' ++ rest) then
      Except.ok (digits (d :: ds' ++ rest)) else _ else _) = _
    rw [if_pos rfl, if_pos hd, digits_append hds.2 hdigit]

theorem fraction_split (h : fraction text = .ok rest) :
    ∃ f, text = f ++ rest ∧ FractionText f := by
  rw [fraction] at h
  split_ifs at h with hpoint hdigit
  · cases h
    obtain ⟨text, rfl⟩ := take_one_iff.mp hpoint
    obtain ⟨ds, htext, hds⟩ := exists_digits_of_isDigit text hdigit
    exact ⟨'.' :: ds, congrArg (List.cons '.') htext, .point hds⟩
  · cases h
    exact ⟨[], rfl, .none⟩

theorem exponentSign_append {sign : List Char} (hsign : sign = [] ∨ sign = ['+'] ∨ sign = ['-'])
    (hds : Digits ds) : exponentSign (sign ++ ds ++ rest) = ds ++ rest := by
  rcases hsign with rfl | rfl | rfl
  · obtain ⟨d, ds', rfl⟩ := List.exists_cons_of_ne_nil hds.1
    have hd := hds.2 d List.mem_cons_self
    rw [List.nil_append, exponentSign, if_neg]
    rintro (h | h)
    · obtain ⟨_, heq⟩ := take_one_iff.mp h
      obtain rfl := (List.cons.inj heq).1
      cases hd
    · obtain ⟨_, heq⟩ := take_one_iff.mp h
      obtain rfl := (List.cons.inj heq).1
      cases hd
  · exact if_pos (Or.inl rfl)
  · exact if_pos (Or.inr rfl)

theorem exponentSign_split (text : List Char) :
    ∃ sign, text = sign ++ exponentSign text ∧ (sign = [] ∨ sign = ['+'] ∨ sign = ['-']) := by
  by_cases hsign : text.take 1 = ['+'] ∨ text.take 1 = ['-']
  · refine ⟨text.take 1, ?_, .inr hsign⟩
    rw [exponentSign, if_pos hsign, List.take_append_drop]
  · refine ⟨[], ?_, .inl rfl⟩
    rw [exponentSign, if_neg hsign]
    rfl

theorem exponent_append {x : List Char} (h : ExponentText x) (hdigit : isDigit rest = false)
    (he : rest.head? ≠ some 'e' ∧ rest.head? ≠ some 'E') : exponent (x ++ rest) = .ok rest := by
  cases h with
  | none =>
    rw [List.nil_append, exponent, if_neg]
    rintro (h | h)
    · obtain ⟨_, rfl⟩ := take_one_iff.mp h
      exact he.1 rfl
    · obtain ⟨_, rfl⟩ := take_one_iff.mp h
      exact he.2 rfl
  | @some e sign ds he hsign hds =>
    obtain ⟨d, ds', hcons⟩ := List.exists_cons_of_ne_nil hds.1
    have hd : isDigit (ds ++ rest) = true := by
      rw [hcons]
      exact hds.2 d (hcons ▸ List.mem_cons_self)
    have htake : (e :: sign ++ ds ++ rest).take 1 = ['e'] ∨
        (e :: sign ++ ds ++ rest).take 1 = ['E'] :=
      he.imp (fun h => by rw [h]; rfl) fun h => by rw [h]; rfl
    have hdrop : (e :: sign ++ ds ++ rest).drop 1 = sign ++ ds ++ rest := rfl
    rw [exponent, if_pos htake, hdrop, exponentSign_append hsign hds, if_pos hd,
      digits_append hds.2 hdigit]

theorem exponent_split (h : exponent text = .ok rest) :
    ∃ x, text = x ++ rest ∧ ExponentText x := by
  rw [exponent] at h
  split_ifs at h with he hdigit
  · cases h
    obtain ⟨e, text, rfl, he'⟩ : ∃ e text', text = e :: text' ∧ (e = 'e' ∨ e = 'E') := by
      rcases he with he | he
      · obtain ⟨text', rfl⟩ := take_one_iff.mp he
        exact ⟨_, text', rfl, .inl rfl⟩
      · obtain ⟨text', rfl⟩ := take_one_iff.mp he
        exact ⟨_, text', rfl, .inr rfl⟩
    obtain ⟨sign, htext, hsign⟩ := exponentSign_split text
    obtain ⟨ds, hds', hds⟩ := exists_digits_of_isDigit (exponentSign text) hdigit
    refine ⟨e :: sign ++ ds, ?_, .some he' hsign hds⟩
    change e :: text = e :: (sign ++ ds ++ digits (exponentSign text))
    rw [List.append_assoc, ← hds', ← htext]
  · cases h
    exact ⟨[], rfl, .none⟩

/-! ## A number -/

/-- A number whose digits are read. -/
theorem split_of_numberFrom {n m body : List Char} (htext : text = n ++ body)
    (h : numberFrom text body = .ok (m, rest)) :
    ∃ f x, text = n ++ f ++ x ++ rest ∧ m = n ++ f ++ x ∧ FractionText f ∧ ExponentText x := by
  obtain ⟨behind, hfraction, hbehind⟩ := ExceptBind.bind_eq_ok_iff.mp h
  obtain ⟨rest', hexponent, hlast⟩ := ExceptBind.bind_eq_ok_iff.mp hbehind
  obtain ⟨f, rfl, hf⟩ := fraction_split hfraction
  obtain ⟨x, rfl, hx⟩ := exponent_split hexponent
  rw [Except.ok.injEq, Prod.mk.injEq] at hlast
  obtain ⟨rfl, rfl⟩ := hlast
  have hall : text = n ++ f ++ x ++ rest' := by
    rw [htext]
    simp only [List.append_assoc]
  have hlen : text.length - rest'.length = (n ++ f ++ x).length := by
    rw [hall, List.length_append]
    omega
  refine ⟨f, x, hall, ?_, hf, hx⟩
  rw [hlen, hall, List.take_left]

theorem numberFrom_append {f x : List Char} (n : List Char) (hf : FractionText f)
    (hx : ExponentText x) (hrest : Ends rest) :
    numberFrom (n ++ f ++ x ++ rest) (f ++ (x ++ rest)) = .ok (n ++ f ++ x, rest) := by
  have hpoint : (x ++ rest).head? ≠ some '.' := by
    cases hx with
    | none =>
      intro hhead
      exact (hrest _ hhead).2.1 rfl
    | some he =>
      intro hhead
      obtain rfl := Option.some.inj hhead
      revert he
      decide
  have hdigit : isDigit (x ++ rest) = false := by
    cases hx with
    | none => exact hrest.isDigit
    | some he => rcases he with rfl | rfl <;> rfl
  have hlen : (n ++ f ++ x ++ rest).length - rest.length = (n ++ f ++ x).length := by
    rw [List.length_append]
    omega
  rw [numberFrom, fraction_append hf hdigit hpoint, ExceptBind.ok_bind,
    exponent_append hx hrest.isDigit
      ⟨fun h => (hrest _ h).2.2.1 rfl, fun h => (hrest _ h).2.2.2 rfl⟩,
    ExceptBind.ok_bind, hlen, List.take_left]

/-- A number with a sign, and one without. -/
theorem number_minus (text : List Char) :
    number ('-' :: text) =
      if text.take 1 = ['0'] ∧ isDigit (text.drop 1) then .error .invalidJson
      else if text ≠ [] ∧ isDigit text = false then .error .invalidJson
      else numberFrom ('-' :: text) (digits text) := by
  simp only [number, List.take_succ_cons, List.take_zero, List.drop_succ_cons, List.drop_zero,
    if_true, true_and]

theorem number_digit {c : Char} (hc : c.isDigit) (text : List Char) :
    number (c :: text) =
      if (c :: text).take 1 = ['0'] ∧ isDigit text then .error .invalidJson
      else numberFrom (c :: text) (digits text) := by
  have hminus : ¬ (c :: text).take 1 = ['-'] := by
    intro hminus
    obtain ⟨_, heq⟩ := take_one_iff.mp hminus
    obtain rfl := (List.cons.inj heq).1
    cases hc
  simp only [number, hminus, false_and, if_false, List.drop_succ_cons,
    List.drop_zero]

/-- The whole part of a number that a zero does not lead. -/
theorem wholeText (text : List Char) (hdigit : isDigit text = true)
    (hzero : ¬ (text.take 1 = ['0'] ∧ isDigit (text.drop 1) = true)) :
    ∃ ds, text = ds ++ digits text ∧ WholeText ds := by
  obtain ⟨ds, htext, hne, hds⟩ := exists_digits_of_isDigit text hdigit
  refine ⟨ds, htext, ?_⟩
  obtain ⟨d, ds', rfl⟩ := List.exists_cons_of_ne_nil hne
  by_cases hd : d = '0'
  · subst hd
    cases ds' with
    | nil => exact .zero
    | cons e ds' =>
      refine absurd ⟨?_, ?_⟩ hzero
      · rw [htext]
        rfl
      · rw [htext]
        exact hds e (List.mem_cons_of_mem _ List.mem_cons_self)
  · exact .digits (hds d List.mem_cons_self) hd fun e he => hds e (List.mem_cons_of_mem _ he)

/-- **What `_number` reads** is a number, or a minus sign that ends the text. -/
theorem text_of_number {c : Char} {n : List Char} (hc : c = '-' ∨ c.isDigit = true)
    (h : number (c :: text) = .ok (n, rest)) :
    c :: text = n ++ rest ∧ (NumberText n ∨ (n = ['-'] ∧ rest = [])) := by
  rcases hc with rfl | hc
  · rw [number_minus] at h
    split_ifs at h with hzero hsign
    cases hdigit : isDigit text with
    | false =>
      have htext : text = [] := by
        by_contra hne
        exact hsign ⟨hne, hdigit⟩
      subst htext
      cases h
      exact ⟨rfl, .inr ⟨rfl, rfl⟩⟩
    | true =>
      obtain ⟨ds, htext, hds⟩ := wholeText text hdigit hzero
      obtain ⟨f, x, hall, rfl, hf, hx⟩ :=
        split_of_numberFrom (n := '-' :: ds) (congrArg (List.cons '-') htext) h
      exact ⟨hall, .inl (.mk (.inr rfl) hds hf hx)⟩
  · rw [number_digit hc] at h
    split_ifs at h with hzero
    obtain ⟨ds, htext, hds⟩ := wholeText (c :: text) hc hzero
    rw [digits, List.dropWhile_cons_of_pos hc] at htext
    obtain ⟨f, x, hall, rfl, hf, hx⟩ := split_of_numberFrom (n := ds) htext h
    exact ⟨hall, .inl (.mk (.inl rfl) hds hf hx)⟩

/-- The whole part of a number, and the digits it ends with. -/
theorem wholeText_cons {whole : List Char} (h : WholeText whole) (hrest : isDigit rest = false) :
    ∃ c cs, whole = c :: cs ∧ c.isDigit ∧ digits (cs ++ rest) = rest ∧
      digits (whole ++ rest) = rest ∧
      ¬ ((whole ++ rest).take 1 = ['0'] ∧ isDigit (cs ++ rest)) := by
  cases h with
  | zero =>
    have hnot : ¬ isDigit ([] ++ rest) = true := by
      rw [List.nil_append, hrest]
      decide
    refine ⟨'0', [], rfl, rfl, digits_append (fun _ h => nomatch h) hrest,
      digits_append (fun d hd => ?_) hrest, fun hand => hnot hand.2⟩
    rw [List.mem_singleton.mp hd]
    rfl
  | @digits c cs hc hzero hcs =>
    refine ⟨c, cs, rfl, hc, digits_append hcs hrest,
      digits_append (fun d hd => ?_) hrest, fun hand => ?_⟩
    · rcases List.mem_cons.mp hd with rfl | hd
      · exact hc
      · exact hcs d hd
    · obtain ⟨_, heq⟩ := take_one_iff.mp hand.1
      exact hzero (List.cons.inj heq).1

/-- **A number of the grammar is read** where what follows does not go on with it. -/
theorem number_of_text {n : List Char} (h : NumberText n) (hrest : Ends rest) :
    number (n ++ rest) = .ok (n, rest) := by
  obtain ⟨hsign, hwhole, hf, hx⟩ := h
  next sign whole f x =>
  have hdigit : isDigit (f ++ (x ++ rest)) = false := by
    cases hf with
    | none =>
      cases hx with
      | none => exact hrest.isDigit
      | some he => rcases he with rfl | rfl <;> rfl
    | point hds => rfl
  obtain ⟨c, cs, rfl, hc, hcs, hwhole', hzero⟩ := wholeText_cons hwhole hdigit
  have hall : ∀ m, m ++ f ++ x ++ rest = m ++ (f ++ (x ++ rest)) := fun m => by
    simp only [List.append_assoc]
  rw [List.cons_append] at hzero hwhole'
  rcases hsign with rfl | rfl
  · have htext := hall (c :: cs)
    rw [List.nil_append, htext, List.cons_append, number_digit hc, if_neg hzero, hcs,
      ← List.cons_append, ← htext, numberFrom_append _ hf hx hrest]
  · have htext := hall ('-' :: c :: cs)
    have hnot : ¬ (c :: (cs ++ (f ++ (x ++ rest))) ≠ [] ∧
        isDigit (c :: (cs ++ (f ++ (x ++ rest)))) = false) := fun hand => by
      rw [isDigit_cons, hc] at hand
      cases hand.2
    change number ('-' :: c :: cs ++ f ++ x ++ rest) = .ok ('-' :: c :: cs ++ f ++ x, rest)
    rw [htext, List.cons_append, List.cons_append, number_minus, List.drop_succ_cons,
      List.drop_zero, if_neg hzero, if_neg hnot, hwhole', ← List.cons_append,
      ← List.cons_append, ← htext, numberFrom_append _ hf hx hrest]

/-! ## What is refused -/

theorem refuses_fraction (text : List Char) : Refuses (fraction text) := by
  rw [fraction]
  exact ((refuses_ok _).ite refuses_invalid).ite (refuses_ok _)

theorem refuses_exponent (text : List Char) : Refuses (exponent text) := by
  rw [exponent]
  exact ((refuses_ok _).ite refuses_invalid).ite (refuses_ok _)

/-- A number is refused with `_InvalidJsonError`. -/
theorem refuses_number (text : List Char) : Refuses (number text) := by
  rw [number]
  exact refuses_invalid.ite (refuses_invalid.ite ((refuses_fraction _).bind fun _ =>
    (refuses_exponent _).bind fun _ => refuses_ok _))

end BtclibNode.Settings
