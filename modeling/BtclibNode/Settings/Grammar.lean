/-
# The grammar

The JSON texts, as a grammar of their own: numbers, strings made of pieces whose surrogate halves
pair, and values with a bound on the arrays and objects open at once.
-/
import BtclibNode.Settings.Json

namespace BtclibNode.Settings

/-! ## Numbers -/

/-- The whole part of a number: no zero leads other digits. -/
inductive WholeText : List Char → Prop where
  | zero : WholeText ['0']
  | digits {c : Char} {cs : List Char} (hc : c.isDigit) (hzero : c ≠ '0')
      (hcs : ∀ d ∈ cs, d.isDigit) : WholeText (c :: cs)

/-- One digit or more. -/
def Digits (text : List Char) : Prop := text ≠ [] ∧ ∀ d ∈ text, d.isDigit

/-- A fraction, or nothing. -/
inductive FractionText : List Char → Prop where
  | none : FractionText []
  | point {ds : List Char} (hds : Digits ds) : FractionText ('.' :: ds)

/-- An exponent, or nothing. -/
inductive ExponentText : List Char → Prop where
  | none : ExponentText []
  | some {e : Char} {sign ds : List Char} (he : e = 'e' ∨ e = 'E')
      (hsign : sign = [] ∨ sign = ['+'] ∨ sign = ['-']) (hds : Digits ds) :
      ExponentText (e :: sign ++ ds)

/-- The numbers of JSON. -/
inductive NumberText : List Char → Prop where
  | mk {sign whole fraction exponent : List Char} (hsign : sign = [] ∨ sign = ['-'])
      (hwhole : WholeText whole) (hfraction : FractionText fraction)
      (hexponent : ExponentText exponent) :
      NumberText (sign ++ whole ++ fraction ++ exponent)

/-! ## Strings -/

/-- An octet inside a UTF-8 sequence: its bits are `10xxxxxx`. -/
def Inside (c : Char) : Prop := c.toNat &&& 0xC0 = 0x80

/-- The bits an octet adds to a code point. -/
def payload (c : Char) : ℕ := c.toNat &&& 0x3F

/-- **A piece of a string and what it stands for**: a character that is written at once, or a code
point that may be half of a pair. -/
inductive Piece : List Char → Char ⊕ ℕ → Prop where
  | ascii {c : Char} (hcontrol : ¬ c < ' ') (hquote : c ≠ '"') (hescape : c ≠ '\\')
      (hascii : c.toNat < 0x80) : Piece [c] (.inl c)
  | escape {c ch : Char} (h : escaped c = some ch) : Piece ['\\', c] (.inl ch)
  | unicode {a b c d : Char} {code : ℕ} (h : hex4 a b c d = some code) :
      Piece ['\\', 'u', a, b, c, d] (.inr code)
  | two {lead a : Char} (hlead : 0xC0 ≤ lead.toNat ∧ lead.toNat < 0xE0) (ha : Inside a) :
      Piece [lead, a] (.inr ((lead.toNat &&& 0x1F) <<< 6 ||| payload a))
  | three {lead a b : Char} (hlead : 0xE0 ≤ lead.toNat ∧ lead.toNat < 0xF0) (ha : Inside a)
      (hb : Inside b) :
      Piece [lead, a, b] (.inr ((lead.toNat &&& 0x0F) <<< 12 ||| payload a <<< 6 ||| payload b))
  | four {lead a b c : Char} (hlead : 0xF0 ≤ lead.toNat ∧ lead.toNat < 0xF8) (ha : Inside a)
      (hb : Inside b) (hc : Inside c) :
      Piece [lead, a, b, c] (.inr ((lead.toNat &&& 0x07) <<< 18 ||| payload a <<< 12 |||
        payload b <<< 6 ||| payload c))

/-- **What pieces spell.**  A first half is followed by its second half, with nothing but
characters that are written at once between them. -/
inductive Spells : List (Char ⊕ ℕ) → List Char → Prop where
  | nil : Spells [] []
  | char {c : Char} {ms : List (Char ⊕ ℕ)} {s : List Char} (h : Spells ms s) :
      Spells (.inl c :: ms) (c :: s)
  | code {code : ℕ} {ms : List (Char ⊕ ℕ)} {s : List Char} (hfirst : ¬ FirstHalf code)
      (hsecond : ¬ SecondHalf code) (hmax : code ≤ 0x10FFFF) (h : Spells ms s) :
      Spells (.inr code :: ms) (Char.ofNat code :: s)
  | pair {first second : ℕ} {between s : List Char} {ms : List (Char ⊕ ℕ)}
      (hfirst : FirstHalf first) (hsecond : SecondHalf second) (h : Spells ms s) :
      Spells (.inr first :: (between.map .inl ++ .inr second :: ms))
        (between ++ pairChar first second :: s)

/-- A text made of pieces, and what they stand for. -/
inductive Pieces : List Char → List (Char ⊕ ℕ) → Prop where
  | nil : Pieces [] []
  | cons {piece text : List Char} {m : Char ⊕ ℕ} {ms : List (Char ⊕ ℕ)} (h : Piece piece m)
      (hs : Pieces text ms) : Pieces (piece ++ text) (m :: ms)

/-- What may stand between quotes, and the string it is. -/
def StringText (text s : List Char) : Prop := ∃ ms, Pieces text ms ∧ Spells ms s

/-! ## Values -/

/-- Whitespace. -/
def Ws (text : List Char) : Prop := ∀ c ∈ text, isSpace c

/-- A part of a text: a value, or the items of an array or object. -/
inductive Part where
  | value (v : Json)
  | elements (vs : List Json)
  | members (ps : List (List Char × Json))

/-- **The texts of a part** with at most so many arrays and objects open at once. -/
inductive Derives : ℕ → Part → List Char → Prop where
  | null {d : ℕ} : Derives d (.value .null) "null".toList
  | true {d : ℕ} : Derives d (.value (.bool true)) "true".toList
  | false {d : ℕ} : Derives d (.value (.bool false)) "false".toList
  | number {d : ℕ} {text : List Char} (h : NumberText text) :
      Derives d (.value (.number text)) text
  | string {d : ℕ} {text s : List Char} (h : StringText text s) :
      Derives d (.value (.string s)) ('"' :: text ++ ['"'])
  | emptyArray {d : ℕ} {ws : List Char} (hws : Ws ws) :
      Derives (d + 1) (.value (.array [])) ('[' :: ws ++ [']'])
  | array {d : ℕ} {vs : List Json} {text : List Char} (h : Derives d (.elements vs) text) :
      Derives (d + 1) (.value (.array vs)) ('[' :: text ++ [']'])
  | emptyObject {d : ℕ} {ws : List Char} (hws : Ws ws) :
      Derives (d + 1) (.value (.object [])) ('{' :: ws ++ ['}'])
  | object {d : ℕ} {ps : List (List Char × Json)} {text : List Char}
      (h : Derives d (.members ps) text) :
      Derives (d + 1) (.value (.object ps)) ('{' :: text ++ ['}'])
  | element {d : ℕ} {v : Json} {before text behind : List Char} (hbefore : Ws before)
      (h : Derives d (.value v) text) (hbehind : Ws behind) :
      Derives d (.elements [v]) (before ++ text ++ behind)
  | moreElements {d : ℕ} {vs : List Json} {v : Json} {items before text behind : List Char}
      (hs : Derives d (.elements vs) items) (hbefore : Ws before) (h : Derives d (.value v) text)
      (hbehind : Ws behind) :
      Derives d (.elements (vs ++ [v])) (items ++ ',' :: (before ++ text ++ behind))
  | member {d : ℕ} {key : List Char} {v : Json}
      {before name colon gap text behind : List Char} (hbefore : Ws before)
      (hname : StringText name key) (hcolon : Ws colon) (hgap : Ws gap)
      (h : Derives d (.value v) text) (hbehind : Ws behind) :
      Derives d (.members [(key, v)])
        (before ++ '"' :: (name ++ '"' :: (colon ++ ':' :: (gap ++ text ++ behind))))
  | moreMembers {d : ℕ} {ps : List (List Char × Json)} {key : List Char} {v : Json}
      {items before name colon gap text behind : List Char}
      (hs : Derives d (.members ps) items) (hbefore : Ws before) (hname : StringText name key)
      (hcolon : Ws colon) (hgap : Ws gap) (h : Derives d (.value v) text) (hbehind : Ws behind) :
      Derives d (.members (ps ++ [(key, v)]))
        (items ++ ',' ::
          (before ++ '"' :: (name ++ '"' :: (colon ++ ':' :: (gap ++ text ++ behind)))))

/-- **The JSON texts** and their values. -/
def JsonText (text : List Char) (v : Json) : Prop :=
  ∃ before body behind, Ws before ∧ Ws behind ∧ text = before ++ body ++ behind ∧
    Derives maxDepth (.value v) body

end BtclibNode.Settings
