/-
# Options

The arguments of the command line, the names and values of options, and what a refusal may quote.
A string is its code points, a lone surrogate among them where a file holds an octet that is no
UTF-8.
-/
import Mathlib
import BtclibNode.Lib.ExceptBind

namespace BtclibNode.Cli

/-- A string, as its code points. -/
abbrev Str := List ℕ

/-- The code points of a literal. -/
def str (s : String) : Str := s.toList.map Char.toNat

/-- The code point of a character. -/
def ord (c : Char) : ℕ := c.toNat

/-! ## The table of options -/

/-- What of an `_Option` is read here. -/
structure Opt where
  networkOnly : Bool
  disallowNegation : Bool
  sensitive : Bool

/-- The names whose option says nothing of the three. -/
def plainNames : List String :=
  ["?", "acceptnonstdtxn", "acceptstalefeeestimates", "alertnotify", "allowignoredconf",
    "assumevalid", "bantime", "blocknotify", "blocksdir", "chain", "conf", "datacarrier",
    "datacarriersize", "debug", "debugexclude", "discover", "dnsseed", "dustrelayfee",
    "externalip", "fixedseeds", "forcednsseed", "h", "help", "help-debug",
    "inboundrelaypercent", "includeconf", "incrementalrelayfee", "listen", "logratelimit",
    "minimumchainwork", "minrelaytxfee", "maxconnections", "maxreceivebuffer",
    "maxsendbuffer", "maxtipage", "mempoolexpiry", "peerblockfilters", "permitbaremultisig",
    "persistmempool", "persistmempoolv1", "prune", "regtest", "reindex-chainstate",
    "rpcallowip", "rpccookiefile", "rpccookieperms", "rpcmaxconnections", "rpcservertimeout",
    "rpcwhitelist", "rpcwhitelistdefault", "seednode", "server", "settings", "shutdownnotify",
    "signet", "startupnotify", "testactivationheight", "testnet", "testnet4", "v1transport",
    "v2transport", "whitebind", "whitelist", "whitelistforcerelay", "whitelistrelay"]

/-- The options that are a chain's alone. -/
def networkOnlyNames : List String := ["addnode", "bind", "connect", "port", "rpcbind", "rpcport"]

/-- The sensitive options, in the order of the table. -/
def sensitiveNames : List Str := [str "rpcauth", str "rpcpassword", str "rpcuser"]

/-- `_OPTIONS.get(name)`. -/
def option? (name : Str) : Option Opt :=
  if name ∈ sensitiveNames then some ⟨false, false, true⟩
  else if name ∈ networkOnlyNames.map str then some ⟨true, false, false⟩
  else if name = str "datadir" then some ⟨false, true, false⟩
  else if name ∈ plainNames.map str then some ⟨false, false, false⟩
  else none

/-- `_OPTIONS[name].sensitive`, for a name that is known. -/
def sensitive (name : Str) : Bool := name ∈ sensitiveNames

/-! ## What is kept of a run -/

/-- The warnings for the log, the sections named, and what is written to stderr. -/
structure Log where
  warnings : List Str
  sections : List (Str × Str × ℕ)
  stderr : List Str

/-- What may raise `ValueError` with a message. -/
abbrev M (α : Type) : Type := EStateM Str Log α

/-- `warnings.append`. -/
def warn (text : Str) : M Unit :=
  modify fun log => { log with warnings := log.warnings ++ [text] }

/-- `sections.append`. -/
def addSection (name filepath : Str) (lineno : ℕ) : M Unit :=
  modify fun log => { log with sections := log.sections ++ [(name, filepath, lineno)] }

/-- `sys.stderr.write`. -/
def writeStderr (text : Str) : M Unit :=
  modify fun log => { log with stderr := log.stderr ++ [text] }

/-! ## Strings -/

/-- `strip`, of the characters given. -/
def strip (chars : List ℕ) (s : Str) : Str :=
  ((s.dropWhile (· ∈ chars)).reverse.dropWhile (· ∈ chars)).reverse

/-- `rstrip`. -/
def rstrip (chars : List ℕ) (s : Str) : Str := (s.reverse.dropWhile (· ∈ chars)).reverse

/-- What stands before the first `c`, and behind it. -/
def before (c : ℕ) (s : Str) : Str := s.takeWhile (· ≠ c)

def behind (c : ℕ) (s : Str) : Str := (s.dropWhile (· ≠ c)).drop 1

/-- `line.find(name) + len(name)`, where `name in line`. -/
def findEnd (name : Str) : Str → Option ℕ
  | [] => if name.isPrefixOf [] then some name.length else none
  | c :: line =>
    if name.isPrefixOf (c :: line) then some name.length else (findEnd name line).map (· + 1)

/-- A number in decimal. -/
def decimal (n : ℕ) : Str := (Nat.toDigits 10 n).map Char.toNat

/-! ## Names and values -/

/-- `_KeyInfo`. -/
structure KeyInfo where
  name : Str
  sectionName : Str
  negated : Bool

/-- `_interpret_key`. -/
def interpretKey (key : Str) : KeyInfo :=
  let sectionName := if ord '.' ∈ key then before (ord '.') key else []
  let name := if ord '.' ∈ key then behind (ord '.') key else key
  let negated := (str "no").isPrefixOf name
  ⟨if negated then name.drop 2 else name, sectionName, negated⟩

/-- A setting's value once read. -/
inductive Value where
  | text (s : Str)
  | bool (b : Bool)
  deriving DecidableEq

/-- `_TRIMMED`. -/
def trimmedChars : List ℕ := [ord ' ', 0x0C, ord '\n', ord '\r', ord '\t', 0x0B]

/-- The digits a text starts with. -/
def leadingDigits (s : Str) : Str := s.takeWhile fun c => 48 ≤ c && c ≤ 57

/-- The most digits `int` reads. -/
def maxStrDigits : ℕ := 4300

/-- `int(match.group())`, between the ends of an `int64_t`; no digits are none. -/
def leadingInteger (s : Str) : Except Str ℤ :=
  let negative := s.take 1 = [ord '-']
  let digits := leadingDigits (if negative then s.drop 1 else s)
  if digits = [] then .ok 0
  else if maxStrDigits < digits.length then
    .error (str "Exceeds the limit (4300 digits) for integer string conversion: value has " ++
      decimal digits.length ++
      str " digits; use sys.set_int_max_str_digits() to increase the limit")
  else
    let n : ℤ := digits.foldl (fun n c => n * 10 + (c - 48)) 0
    .ok (max (-(2 ^ 63)) (min (2 ^ 63 - 1) (if negative then -n else n)))

/-- `_atoi64`. -/
def atoi64 (text : Str) : Except Str ℤ :=
  let trimmed := strip trimmedChars text
  if trimmed.take 1 = [ord '+'] then
    if (trimmed.drop 1).take 1 = [ord '-'] then .ok 0 else leadingInteger (trimmed.drop 1)
  else leadingInteger trimmed

/-- `_interpret_bool`. -/
def interpretBool (value : Str) : Except Str Bool :=
  if value = [] then .ok true else (atoi64 value).map fun n => decide (n ≠ 0)

/-- What is shown of a double negative. -/
def shownDouble (option : Opt) (value : Str) : Str := if option.sensitive then str "****" else value

/-- `_interpret_value`. -/
def interpretValue (info : KeyInfo) (value : Option Str) (option : Opt) : M Value :=
  if info.negated = false then pure (.text (value.getD []))
  else if option.disallowNegation then
    throw (str "Negating of -" ++ info.name ++ str " is meaningless and therefore forbidden")
  else
    match value with
    | none => pure (.bool false)
    | some value =>
      match interpretBool value with
      | .error message => throw message
      | .ok true => pure (.bool false)
      | .ok false => do
        warn (str "Parsed potentially confusing double-negative -" ++ info.name ++ str "=" ++
          shownDouble option value)
        pure (.bool true)

/-- How many values a negation discards. -/
def negatedCount (values : List Value) : ℕ :=
  values.length - (values.reverse.takeWhile (· ≠ .bool false)).length

/-! ## What a refusal may quote -/

/-- `_MAX_QUOTED_NAME`. -/
def maxQuotedName : ℕ := 16

/-- The first end of a sensitive option's name. -/
def firstEnd (line : Str) : Option ℕ := (sensitiveNames.filterMap fun name => findEnd name line).min?

/-- `_name_of`. -/
def nameOf (line : Str) : Str :=
  rstrip [ord ' ', ord '\t'] (before (ord '=')
    (match firstEnd line with
    | some n => line.take n
    | none => line))

/-- `_quoted_line`. -/
def quotedLine (line : Str) : Str :=
  let name := nameOf line
  if name.length ≤ maxQuotedName then name
  else str "<" ++ decimal name.length ++ str " characters>"

/-! ## The command line -/

/-- The options read, each with its values in order. -/
abbrev Table := List (Str × List Value)

/-- `options.setdefault(name, []).append(value)`. -/
def appendValue (name : Str) (value : Value) : Table → Table
  | [] => [(name, [value])]
  | (key, values) :: table =>
    if key = name then (key, values ++ [value]) :: table
    else (key, values) :: appendValue name value table

/-- `table.get(name, [])`. -/
def valuesOf (name : Str) (table : Table) : List Value :=
  ((table.find? fun entry => entry.1 = name).map Prod.snd).getD []

/-- `_PARSE_ERROR`. -/
def parseError : Str := str "Error parsing command line arguments: "

/-- The refusal of an argument that names no option, or a section. -/
def invalidParameter (arg : Str) : Str := parseError ++ str "Invalid parameter " ++ quotedLine arg

/-- What `=` sets, where there is one. -/
def valueOf (arg : Str) : Option Str := if ord '=' ∈ arg then some (behind (ord '=') arg) else none

/-- The key of an argument, without its dashes. -/
def keyOf (arg : Str) : Str :=
  let key := before (ord '=') arg
  if (str "--").isPrefixOf key then key.drop 2 else key.drop 1

/-- A `ValueError` under the words `ParseArgs` puts first. -/
def asParseError {α : Type} (x : M α) : M α := fun log =>
  match x log with
  | .ok a log => .ok a log
  | .error e log => .error (parseError ++ e) log

/-- The loop of `_parse_parameters`. -/
def parseLoop : List Str → Table → M Table
  | [], options => pure options
  | arg :: argv, options =>
    if arg = str "-" then pure options
    else if (before (ord '=') arg).take 1 ≠ str "-" then pure options
    else
      let info := interpretKey (keyOf arg)
      match option? info.name with
      | none => throw (invalidParameter arg)
      | some option =>
        if info.sectionName ≠ [] then throw (invalidParameter arg)
        else do
          let value ← asParseError (interpretValue info (valueOf arg) option)
          parseLoop argv (appendValue info.name value options)

/-- A character in a JSON string, `ensure_ascii=False`. -/
def dumpChar (c : ℕ) : Str :=
  if c = ord '"' then str "\\\""
  else if c = ord '\\' then str "\\\\"
  else if c = ord '\n' then str "\\n"
  else if c = ord '\r' then str "\\r"
  else if c = ord '\t' then str "\\t"
  else if c = 0x0C then str "\\f"
  else if c = 0x08 then str "\\b"
  else if c < 0x20 then
    str "\\u00" ++ [(Nat.digitChar (c / 16)).toNat, (Nat.digitChar (c % 16)).toNat]
  else [c]

/-- `json.dumps(text, ensure_ascii=False)`. -/
def jsonDumps (text : Str) : Str := [ord '"'] ++ text.flatMap dumpChar ++ [ord '"']

/-- `_setting_to_write_str`. -/
def settingToWriteStr : Value → Str
  | .bool b => if b then str "true" else str "false"
  | .text s => jsonDumps s

/-- `_parse_parameters`: the options, and the first argument that does not start with a dash. -/
def parseParameters (argv : List Str) : M (Table × Option Str) := do
  let options ← parseLoop argv []
  let includes := valuesOf (str "includeconf") options
  match includes.drop (negatedCount includes) with
  | [] => pure (options, argv.find? fun arg => arg.take 1 ≠ str "-")
  | first :: _ =>
    throw (parseError ++ str "-includeconf cannot be used from commandline; -includeconf=" ++
      settingToWriteStr first)

end BtclibNode.Cli
