/-
# JSON

The JSON of `settings.json`, as UniValue reads and writes it: the lexer of a number, the filter of
a string's octets, the tokens, the state machine with its explicit stack, and the writer.  The
text is one character to the octet; what is left of it stands for the position in it.
-/
import Mathlib.Data.Nat.Notation
import Mathlib.Tactic.Common

namespace BtclibNode.Settings

/-- `Json`.  A number is the text it was written in. -/
inductive Json where
  | null
  | bool (value : Bool)
  | number (text : List Char)
  | string (text : List Char)
  | array (values : List Json)
  | object (pairs : List (List Char × Json))

/-- `type_name`. -/
def typeName : Json → String
  | .null => "null"
  | .bool _ => "bool"
  | .number _ => "number"
  | .string _ => "string"
  | .array _ => "array"
  | .object _ => "object"

/-- Why no value comes: `_InvalidJsonError`, an `IndexError`, or a loop that has not ended. -/
inductive Fault where
  | invalidJson
  | index
  | running
  deriving DecidableEq

/-! ## Numbers -/

/-- `_is_digit`. -/
def isDigit (text : List Char) : Bool := text.head?.any Char.isDigit

/-- `_digits`. -/
def digits (text : List Char) : List Char := text.dropWhile Char.isDigit

/-- The fraction of a number, where there is one. -/
def fraction (text : List Char) : Except Fault (List Char) :=
  if text.take 1 = ['.'] then
    if isDigit (text.drop 1) then .ok (digits (text.drop 1)) else .error .invalidJson
  else .ok text

/-- The sign of an exponent. -/
def exponentSign (text : List Char) : List Char :=
  if text.take 1 = ['+'] ∨ text.take 1 = ['-'] then text.drop 1 else text

/-- The exponent of a number, where there is one. -/
def exponent (text : List Char) : Except Fault (List Char) :=
  if text.take 1 = ['e'] ∨ text.take 1 = ['E'] then
    if isDigit (exponentSign (text.drop 1)) then .ok (digits (exponentSign (text.drop 1)))
    else .error .invalidJson
  else .ok text

/-- A number whose digits end where `rest` begins. -/
def numberFrom (text rest : List Char) : Except Fault (List Char × List Char) := do
  let rest ← fraction rest
  let rest ← exponent rest
  .ok (text.take (text.length - rest.length), rest)

/-- `_number`: the text of the number and what follows it. -/
def number (text : List Char) : Except Fault (List Char × List Char) :=
  let body := if text.take 1 = ['-'] then text.drop 1 else text
  if body.take 1 = ['0'] ∧ isDigit (body.drop 1) then .error .invalidJson
  else if text.take 1 = ['-'] ∧ text.drop 1 ≠ [] ∧ isDigit (text.drop 1) = false then
    .error .invalidJson
  else numberFrom text (digits (text.drop 1))

/-! ## Strings -/

/-- `_LEADS`: the leading octets are below the first, with a payload mask and the bits to come. -/
def leads : List (ℕ × ℕ × ℕ) := [(0xE0, 0x1F, 6), (0xF0, 0x0F, 12), (0xF8, 0x07, 18)]

/-- A first half of a surrogate pair. -/
def FirstHalf (code : ℕ) : Prop := 0xD800 ≤ code ∧ code < 0xDC00

instance (code : ℕ) : Decidable (FirstHalf code) := inferInstanceAs (Decidable (_ ∧ _))

/-- A second half. -/
def SecondHalf (code : ℕ) : Prop := 0xDC00 ≤ code ∧ code < 0xE000

instance (code : ℕ) : Decidable (SecondHalf code) := inferInstanceAs (Decidable (_ ∧ _))

/-- The character of two halves. -/
def pairChar (first second : ℕ) : Char :=
  Char.ofNat (0x10000 ||| ((first - 0xD800) <<< 10) ||| (second - 0xDC00))

/-- `_Chars`: what a string has so far, with the half and the sequence that are not complete. -/
structure Chars where
  chars : List Char
  firstHalf : ℕ
  codepoint : ℕ
  state : ℕ

namespace Chars

/-- `_Chars()`. -/
def start : Chars := ⟨[], 0, 0, 0⟩

/-- `code_point`. -/
def codePoint (s : Chars) (code : ℕ) : Except Fault Chars :=
  if s.state ≠ 0 then .error .invalidJson
  else if FirstHalf code then
    if s.firstHalf ≠ 0 then .error .invalidJson else .ok { s with firstHalf := code }
  else if SecondHalf code then
    if s.firstHalf = 0 then .error .invalidJson
    else .ok { s with chars := s.chars ++ [pairChar s.firstHalf code], firstHalf := 0 }
  else if s.firstHalf ≠ 0 ∨ 0x10FFFF < code then .error .invalidJson
  else .ok { s with chars := s.chars ++ [Char.ofNat code] }

/-- `byte`. -/
def byte (s : Chars) (ch : ℕ) : Except Fault Chars :=
  if s.state ≠ 0 then
    if ch &&& 0xC0 ≠ 0x80 then .error .invalidJson
    else
      let state := s.state - 6
      let codepoint := s.codepoint ||| ((ch &&& 0x3F) <<< state)
      let s := { s with state := state, codepoint := codepoint }
      if state = 0 then s.codePoint codepoint else .ok s
  else if ch < 0x80 then .ok { s with chars := s.chars ++ [Char.ofNat ch] }
  else
    match leads.find? fun lead => decide (0xC0 ≤ ch ∧ ch < lead.1) with
    | some (_, mask, state) => .ok { s with codepoint := (ch &&& mask) <<< state, state := state }
    | none => .error .invalidJson

/-- `finalize`, and the string. -/
def finalize (s : Chars) : Except Fault (List Char) :=
  if s.state ≠ 0 ∨ s.firstHalf ≠ 0 then .error .invalidJson else .ok s.chars

end Chars

/-- `_ESCAPED`. -/
def escaped : Char → Option Char
  | '"' => some '"'
  | '\\' => some '\\'
  | '/' => some '/'
  | 'b' => some '\x08'
  | 'f' => some '\x0c'
  | 'n' => some '\n'
  | 'r' => some '\r'
  | 't' => some '\t'
  | _ => none

/-- The value of a digit of `_HEX4`. -/
def hexDigit (c : Char) : Option ℕ :=
  if c.isDigit then some (c.toNat - 48)
  else if 'a' ≤ c ∧ c ≤ 'f' then some (c.toNat - 87)
  else if 'A' ≤ c ∧ c ≤ 'F' then some (c.toNat - 55)
  else none

/-- Four digits of `_HEX4`. -/
def hex4 (a b c d : Char) : Option ℕ := do
  let a ← hexDigit a
  let b ← hexDigit b
  let c ← hexDigit c
  let d ← hexDigit d
  some (((a * 16 + b) * 16 + c) * 16 + d)

/-- The loop of `_string`: the string and what follows its closing quote. -/
def string (chars : Chars) : List Char → Except Fault (List Char × List Char)
  | [] => .error .invalidJson
  | char :: rest =>
    if char < ' ' then .error .invalidJson
    else if char = '"' then do
      let value ← chars.finalize
      .ok (value, rest)
    else if char = '\\' then
      match rest with
      | 'u' :: a :: b :: c :: d :: rest =>
        match hex4 a b c d with
        | some code => do
          let chars ← chars.codePoint code
          string chars rest
        | none => .error .invalidJson
      | escape :: rest =>
        match escaped escape with
        | some ch => do
          let chars ← chars.byte ch.toNat
          string chars rest
        | none => .error .invalidJson
      | [] => .error .invalidJson
    else do
      let chars ← chars.byte char.toNat
      string chars rest

/-! ## Tokens -/

/-- `_WHITESPACE`. -/
def isSpace (c : Char) : Bool := c = ' ' || c = '\t' || c = '\n' || c = '\r'

/-- What `_token` returns: the end, one of `marks`, a string, or another scalar. -/
inductive Token where
  | ending
  | mark (char : Char)
  | string (value : List Char)
  | scalar (value : Json)

/-- The characters that are tokens of their own. -/
def marks : List Char := ['{', '}', '[', ']', ':', ',']

/-- The words that are scalars. -/
def words : List (List Char × Json) :=
  [("null".toList, .null), ("true".toList, .bool true), ("false".toList, .bool false)]

/-- `_token`, after the whitespace. -/
def tokenAt (text : List Char) : Except Fault (Token × List Char) :=
  match text with
  | [] => .ok (.ending, [])
  | char :: rest =>
    if char ∈ marks then .ok (.mark char, rest)
    else if char = '"' then do
      let (value, rest) ← string .start rest
      .ok (.string value, rest)
    else if char = '-' ∨ char.isDigit then do
      let (text, rest) ← number text
      .ok (.scalar (.number text), rest)
    else
      match words.find? fun word => word.1.isPrefixOf text with
      | some (word, scalar) => .ok (.scalar scalar, text.drop word.length)
      | none => .error .invalidJson

/-- `_token`. -/
def token (text : List Char) : Except Fault (Token × List Char) :=
  tokenAt (text.dropWhile isSpace)

/-! ## The state machine -/

/-- What the next token may be. -/
inductive Expect where
  | value
  | element
  | name
  | nameOrEnd
  | colon
  | after
  deriving DecidableEq

/-- `_Open`: an array or object being read. -/
structure Open where
  isObject : Bool
  values : List Json
  pairs : List (List Char × Json)
  name : List Char

namespace Open

/-- `_Open(is_object=…)`. -/
def new (isObject : Bool) : Open := ⟨isObject, [], [], []⟩

/-- `add`. -/
def add (self : Open) (value : Json) : Open :=
  if self.isObject then { self with pairs := self.pairs ++ [(self.name, value)] }
  else { self with values := self.values ++ [value] }

/-- `close`. -/
def close (self : Open) : Json :=
  if self.isObject then .object self.pairs else .array self.values

end Open

/-- `_MAX_DEPTH`: the most arrays and objects open at once. -/
def maxDepth : ℕ := 512

/-- `stack[-1].add(value)`, the last of the stack first. -/
def addTop (value : Json) : List Open → Except Fault (List Open × Expect)
  | [] => .error .index
  | top :: below => .ok (top.add value :: below, .after)

/-- A closer: `stack.pop()`, and what it closed is added to the one below. -/
def closeTop : List Open → Except Fault (List Open × Expect)
  | [] => .error .index
  | top :: below => addTop top.close below

/-- An opener. -/
def openTop (isObject : Bool) (stack : List Open) : Except Fault (List Open × Expect) :=
  let stack := Open.new isObject :: stack
  if maxDepth + 1 < stack.length then .error .invalidJson
  else .ok (stack, if isObject then .nameOrEnd else .element)

/-- A token where a value may stand. -/
def onValue (stack : List Open) (expect : Expect) : Token → Except Fault (List Open × Expect)
  | .mark ']' => if expect ≠ .element then .error .invalidJson else closeTop stack
  | .mark '{' => openTop true stack
  | .mark '[' => openTop false stack
  | .mark _ => .error .invalidJson
  | .string value => addTop (.string value) stack
  | .scalar value => addTop value stack
  | .ending => .error .invalidJson

/-- A token where a name may stand. -/
def onName (stack : List Open) (expect : Expect) : Token → Except Fault (List Open × Expect)
  | .string value =>
    match stack with
    | [] => .error .index
    | top :: below => .ok ({ top with name := value } :: below, .colon)
  | .mark '}' => if expect = .name then .error .invalidJson else closeTop stack
  | _ => .error .invalidJson

/-- A token after a value of an array or object. -/
def onAfter (stack : List Open) : Token → Except Fault (List Open × Expect)
  | .mark char =>
    match stack with
    | [] => .error .index
    | top :: _ =>
      if char = ',' then .ok (stack, if top.isObject then .name else .value)
      else if char ≠ (if top.isObject then '}' else ']') then .error .invalidJson
      else closeTop stack
  | _ => .error .invalidJson

/-- A token where the colon of a member stands. -/
def onColon (stack : List Open) : Token → Except Fault (List Open × Expect)
  | .mark char => if char ≠ ':' then .error .invalidJson else .ok (stack, .value)
  | _ => .error .invalidJson

/-- A token in the middle of the text. -/
def onToken (stack : List Open) (expect : Expect) (token : Token) :
    Except Fault (List Open × Expect) :=
  match expect with
  | .colon => onColon stack token
  | .name | .nameOrEnd => onName stack expect token
  | .after => onAfter stack token
  | .value | .element => onValue stack expect token

/-- The root's value, where the text ends after it. -/
def finish (stack : List Open) : Token → Except Fault Json
  | .ending =>
    match stack with
    | [] => .error .index
    | root :: _ =>
      match root.values with
      | [] => .error .index
      | value :: _ => .ok value
  | _ => .error .invalidJson

/-- The loop of `_parse`. -/
def loop : ℕ → List Open → Expect → List Char → Except Fault Json
  | 0, _, _, _ => .error .running
  | fuel + 1, stack, expect, text => do
    let (token, rest) ← token text
    if expect = .after ∧ stack.length = 1 then finish stack token
    else
      let (stack, expect) ← onToken stack expect token
      loop fuel stack expect rest

/-- `_parse`. -/
def parse (text : List Char) : Except Fault Json :=
  loop (text.length + 1) [Open.new false] .value text

/-! ## The writer -/

/-- `_ESCAPES` and every other character as it is. -/
def escapeChar (c : Char) : List Char :=
  if c = '"' then ['\\', '"']
  else if c = '\\' then ['\\', '\\']
  else if c = '\x08' then ['\\', 'b']
  else if c = '\t' then ['\\', 't']
  else if c = '\n' then ['\\', 'n']
  else if c = '\x0c' then ['\\', 'f']
  else if c = '\r' then ['\\', 'r']
  else if c.toNat < 32 ∨ c.toNat = 127 then
    ['\\', 'u', '0', '0', Nat.digitChar (c.toNat / 16), Nat.digitChar (c.toNat % 16)]
  else [c]

/-- `_escape`. -/
def escape (text : List Char) : List Char := text.flatMap escapeChar

/-- A string or a name between its quotes. -/
def quoted (text : List Char) : List Char := '"' :: escape text ++ ['"']

/-- The end of a line, where there are lines. -/
def newline (indent : ℕ) : List Char := if indent = 0 then [] else ['\n']

/-- The blank after a colon. -/
def space (indent : ℕ) : List Char := if indent = 0 then [] else [' ']

/-- What follows an item: a comma where it is not the last. -/
def comma {α : Type} (items : List α) : List Char := if items.isEmpty then [] else [',']

/-- What stands before an item. -/
def margin (indent level : ℕ) : List Char := List.replicate (indent * level) ' '

mutual

/-- `_write`. -/
def write (indent level : ℕ) : Json → List Char
  | .null => "null".toList
  | .bool value => if value then "true".toList else "false".toList
  | .number text => text
  | .string text => quoted text
  | .array values =>
    '[' :: newline indent ++ writeValues indent level values ++ margin indent (level - 1) ++ [']']
  | .object pairs =>
    '{' :: newline indent ++ writePairs indent level pairs ++ margin indent (level - 1) ++ ['}']

/-- The items of an array. -/
def writeValues (indent level : ℕ) : List Json → List Char
  | [] => []
  | value :: values =>
    margin indent level ++ write indent (level + 1) value ++ comma values ++ newline indent ++
      writeValues indent level values

/-- The items of an object. -/
def writePairs (indent level : ℕ) : List (List Char × Json) → List Char
  | [] => []
  | (key, value) :: pairs =>
    margin indent level ++ quoted key ++ ':' :: space indent ++
      write indent (level + 1) value ++ comma pairs ++ newline indent ++
      writePairs indent level pairs

end

/-- `write_json`. -/
def writeJson (indent : ℕ) (value : Json) : List Char := write indent 1 value

end BtclibNode.Settings
