/-
# Amounts as text

`_parse_fixed_point`, and what reads and writes amounts through it.  Python's `int` raises a
`ValueError` on more digits than it is set to read, zeros in front counted.
-/
import BtclibNode.Lib.Decimal
import BtclibNode.Rpc.JsonRpc

namespace BtclibNode.FixedPoint

open Decimal

def fixedPointDigits : ℕ := 18
def fixedPointBound : ℕ := 10 ^ fixedPointDigits - 1
def btcDecimals : ℕ := 8
def coin : ℕ := 100000000
def maxMoney : ℤ := 21000000 * coin

/-- `sys.int_info.default_max_str_digits`. -/
def maxStrDigits : ℕ := 4300

/-! ## The pattern -/

/-- The groups of a match of `_FIXED_POINT`; an optional group that takes no part is `none`. -/
structure Match where
  int : List Char
  frac : Option (List Char)
  exp : Option (List Char)
  deriving DecidableEq

/-- `[0-9]+`, as many as there are. -/
def digitRun (text : List Char) : Option (List Char × List Char) :=
  match text.takeWhile Char.isDigit with
  | [] => none
  | digits => some (digits, text.dropWhile Char.isDigit)

/-- `(?P<int>0|[1-9][0-9]*)`. -/
def matchInt : List Char → Option (List Char × List Char)
  | '0' :: text => some (['0'], text)
  | text => digitRun text

/-- `(?:\.(?P<frac>[0-9]+))?`; without it nothing that starts with a point matches. -/
def matchFrac : List Char → Option (Option (List Char) × List Char)
  | '.' :: text => (digitRun text).map fun p => (some p.1, p.2)
  | text => some (none, text)

/-- `[+-]?[0-9]+`. -/
def matchSigned : List Char → Option (List Char × List Char)
  | '+' :: text => (digitRun text).map fun p => ('+' :: p.1, p.2)
  | '-' :: text => (digitRun text).map fun p => ('-' :: p.1, p.2)
  | text => digitRun text

/-- `(?:[eE](?P<exp>[+-]?[0-9]+))?`. -/
def matchExp : List Char → Option (Option (List Char) × List Char)
  | 'e' :: text => (matchSigned text).map fun p => (some p.1, p.2)
  | 'E' :: text => (matchSigned text).map fun p => (some p.1, p.2)
  | text => some (none, text)

/-- The pattern behind its sign. -/
def matchUnsigned (text : List Char) : Option Match := do
  let (int, text) ← matchInt text
  let (frac, text) ← matchFrac text
  let (exp, text) ← matchExp text
  if text = [] then some ⟨int, frac, exp⟩ else none

/-- `-?`. -/
def dropMinus : List Char → List Char
  | '-' :: text => text
  | text => text

/-- `_FIXED_POINT.fullmatch`. -/
def fullmatch (text : List Char) : Option Match := matchUnsigned (dropMinus text)

/-! ## The parser -/

/-- `int` of a row of digits; `none` is its `ValueError`. -/
def readInt (digits : List Char) : Option ℕ :=
  if maxStrDigits < digits.length then none else some (value digits)

/-- `("" if match["int"] == "0" else match["int"]) + fraction`. -/
def Match.digits (m : Match) : List Char :=
  (if m.int = ['0'] then [] else m.int) ++ m.frac.getD []

def Match.mantissa (m : Match) : List Char := rstrip m.digits

def Match.exponentText (m : Match) : List Char := m.exp.getD ['0']

/-- `exponent_text.lstrip("+-").lstrip("0")`. -/
def Match.exponentDigits (m : Match) : List Char :=
  lstrip (m.exponentText.dropWhile fun c => c = '+' ∨ c = '-')

/-- `digits or "0"`. -/
def orZero (digits : List Char) : List Char := if digits = [] then ['0'] else digits

/-- The power of ten that the mantissa is multiplied with. -/
def Match.exponent (m : Match) (power decimals : ℕ) : ℤ :=
  (if m.exponentText.head? = some '-' then -1 else 1) * (power : ℤ) -
    (m.frac.getD []).length + m.digits.length - m.mantissa.length + decimals

/-- `_parse_fixed_point`; the outer `none` is a `ValueError` of `int`. -/
def parseFixedPoint (text : List Char) (decimals : ℕ) : Option (Option ℤ) :=
  match fullmatch text with
  | none => some none
  | some m =>
    if fixedPointDigits < max (lstrip m.mantissa).length m.exponentDigits.length then some none
    else do
      let power ← readInt (orZero m.exponentDigits)
      let exponent := m.exponent power decimals
      if ¬ (0 ≤ exponent ∧ exponent < fixedPointDigits) then some none
      else do
        let mantissa ← readInt (orZero m.mantissa)
        let amount := mantissa * 10 ^ exponent.toNat
        if fixedPointBound < amount then some none
        else some (some (if text.head? = some '-' then -(amount : ℤ) else amount))

/-! ## Amounts of a call and of an answer -/

/-- `str` of a JSON number or string; `repr` is that of the float a literal is read as. -/
def amountText (repr : String → String) : Json → Option (List Char)
  | .int n => some ((if n < 0 then ['-'] else []) ++ Nat.toDigits 10 n.natAbs)
  | .float literal => some (repr literal).toList
  | .str s => some s.toList
  | _ => none

/-- `_amount_param`; the outer `none` is a `ValueError`. -/
def amountParam (repr : String → String) (params : List Json) (position : ℕ) (default : ℤ) :
    Option (Except RpcError ℤ) :=
  match params[position]? with
  | none => some (.ok default)
  | some .null => some (.ok default)
  | some value =>
    match amountText repr value with
    | none => some (.error ⟨RPCErrorCode.typeError, "Amount is not a number or string"⟩)
    | some text =>
      match parseFixedPoint text btcDecimals with
      | none => none
      | some none => some (.error ⟨RPCErrorCode.typeError, "Invalid amount"⟩)
      | some (some amount) =>
        if 0 ≤ amount ∧ amount ≤ maxMoney then some (.ok amount)
        else some (.error ⟨RPCErrorCode.typeError, "Amount out of range"⟩)

/-- `btc_amount`. -/
def btcAmount (sats : ℤ) : String :=
  .ofList ((if sats < 0 then ['-'] else []) ++ Nat.toDigits 10 (sats.natAbs / coin) ++
    '.' :: padded 8 (sats.natAbs % coin))

example : parseFixedPoint "-1.50e-3".toList 8 = some (some (-150000)) := by decide +kernel

example : btcAmount (-150000) = "-0.00150000" := by decide +kernel

end BtclibNode.FixedPoint
