/-
# The settings file

`settings.json` as it is read at every start and written back: the octets of the file, the
refusals, and the answer in key order without the warning.
-/
import Mathlib.Data.Char
import Mathlib.Data.List.Lex
import BtclibNode.Settings.Json

namespace BtclibNode.Settings

/-- What opening the file finds: nothing, a directory, a file that cannot be opened, a status that
cannot be read, or the octets of a file. -/
inductive Found where
  | absent
  | directory
  | refused
  | denied
  | file (octets : List UInt8)

/-- What reading raises: a `ValueError` with its message, or an `OSError`. -/
inductive ReadError where
  | valueError (message : String)
  | osError

/-- `decode("latin-1")`. -/
def latin1 (octets : List UInt8) : List Char := octets.map fun b => Char.ofNat b.toNat

/-- `_WARNING_KEY`. -/
def warningKey : List Char := "_warning_".toList

/-- The warning, with `CLIENT_NAME` in it. -/
def warning : List Char :=
  ("This file is automatically generated and updated by btclib-node. " ++
    "Please do not edit this file while the node is running, as any changes " ++
    "might be ignored or overwritten.").toList

/-- The pairs of the file, each key once. -/
def collect (quote : List Char → String) (path : String) :
    List (List Char × Json) → List (List Char × Json) →
      Except ReadError (List (List Char × Json))
  | values, [] => .ok values
  | values, (key, item) :: pairs =>
    if key ∈ values.map Prod.fst then
      .error (.valueError s!"Found duplicate key {quote key} in settings file {path}")
    else collect quote path (values ++ [(key, item)]) pairs

/-- `sorted(values.items())`, for keys that differ. -/
def sortItems (values : List (List Char × Json)) : List (List Char × Json) :=
  values.mergeSort fun a b => decide (a.1 ≤ b.1)

/-- The settings in the octets of a file. -/
def readOctets (quote : List Char → String) (path : String) (octets : List UInt8) :
    Except ReadError (List (List Char × Json)) :=
  match parse (latin1 octets) with
  | .error _ =>
    .error (.valueError (s!"Settings file {path} does not contain valid JSON. This may be " ++
      "caused by a crash, power loss, full disk, or storage error, and can " ++
      "be fixed by removing the file, which will reset settings to default values."))
  | .ok (.object pairs) => do
    let values ← collect quote path [] pairs
    .ok (sortItems (values.filter (·.1 ≠ warningKey)))
  | .ok value =>
    .error (.valueError
      s!"Found non-object value of type {typeName value} in settings file {path}")

/-- `read_settings`. -/
def readSettings (quote : List Char → String) (path : String) :
    Found → Except ReadError (List (List Char × Json))
  | .absent => .ok []
  | .directory => readOctets quote path []
  | .refused => .error (.valueError s!"{path}. Please check permissions.")
  | .denied => .error .osError
  | .file octets => readOctets quote path octets

/-- The line ends of the platforms. -/
inductive LineEnd where
  | lf
  | crlf

/-- `os.linesep`. -/
def LineEnd.text : LineEnd → List Char
  | .lf => ['\n']
  | .crlf => ['\r', '\n']

/-- The octets of a character in UTF-8. -/
def utf8 (c : Char) : List UInt8 :=
  let n := c.toNat
  if n < 0x80 then [n.toUInt8]
  else if n < 0x800 then [(0xC0 + n / 64).toUInt8, (0x80 + n % 64).toUInt8]
  else if n < 0x10000 then
    [(0xE0 + n / 4096).toUInt8, (0x80 + n / 64 % 64).toUInt8, (0x80 + n % 64).toUInt8]
  else
    [(0xF0 + n / 262144).toUInt8, (0x80 + n / 4096 % 64).toUInt8, (0x80 + n / 64 % 64).toUInt8,
      (0x80 + n % 64).toUInt8]

/-- What a character is in a file written in text mode. -/
def written (lineEnd : LineEnd) (c : Char) : List UInt8 :=
  if c = '\n' then lineEnd.text.flatMap utf8 else utf8 c

/-- The octets of the document: the settings under the warning. -/
def document (lineEnd : LineEnd) (values : List (List Char × Json)) : List UInt8 :=
  (writeJson 4 (.object ((warningKey, .string warning) :: values)) ++ ['\n']).flatMap
    (written lineEnd)

/-- Which of the steps of a write succeed. -/
structure Steps where
  opens : Bool
  writes : Bool
  renames : Bool

/-- `write_settings`: the octets at `path` after it. -/
def writeSettings (lineEnd : LineEnd) (path : String) (steps : Steps)
    (values : List (List Char × Json)) : Except String (List UInt8) :=
  if !steps.opens then .error s!"Error: Unable to open settings file {path}.tmp for writing"
  else if !steps.writes then .error s!"Error: Unable to write settings file {path}.tmp"
  else if !steps.renames then
    .error s!"Failed renaming settings file {path}.tmp to {path}\n"
  else .ok (document lineEnd values)

end BtclibNode.Settings
