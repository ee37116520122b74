/-
# Configuration files

The lines of a configuration file, the tree of the files a root file includes, and the lines that
log what was read.
-/
import Mathlib.Data.List.Sort
import BtclibNode.Cli.Options
import BtclibNode.Settings.Json

namespace BtclibNode.Cli

/-! ## The lines of a file -/

/-- The whitespace a line and its parts are stripped of. -/
def blanks : List ℕ := [ord ' ', ord '\t', ord '\r', ord '\n']

/-- A line without its comment and the whitespace around it. -/
def lineOf (raw : Str) : Str := strip blanks (before (ord '#') raw)

/-- Whether a line is `[section]`. -/
def isHeading (line : Str) : Bool :=
  line.head? = some (ord '[') && line.getLast? = some (ord ']')

/-- The section a heading names. -/
def heading (line : Str) : Str := (line.drop 1).dropLast

/-- The refusal of a line that is no `key=value`. -/
def refuseLine (lineno : ℕ) (line : Str) : Option Str :=
  if line.take 1 = str "-" then
    some (str "parse error on line " ++ decimal lineno ++ str ": " ++ quotedLine line ++
      str ", options in configuration file must be specified without leading -")
  else if ord '=' ∉ line then
    some (str "parse error on line " ++ decimal lineno ++ str ": " ++ quotedLine line ++
      if (str "no").isPrefixOf line ∧ (nameOf line).length ≤ maxQuotedName then
        str ", if you intended to specify a negated option, use " ++ quotedLine line ++
          str "=1 instead"
      else [])
  else none

/-- The refusal of a `#` on a line with a password. -/
def ambiguous (lineno : ℕ) : Str :=
  str "parse error on line " ++ decimal lineno ++
    str ", using # in rpcpassword can be ambiguous and should be avoided"

/-- Where the last `.` of a name stands. -/
def lastDot (name : Str) : Option ℕ :=
  if ord '.' ∈ name then some (name.length - 1 - (name.reverse.takeWhile (· ≠ ord '.')).length)
  else none

/-- The section that a key names itself. -/
def addSectionOf (sectionPrefix name filepath : Str) (lineno : ℕ) : M Unit :=
  match lastDot name with
  | some dot =>
    if sectionPrefix.length ≤ dot then addSection (name.take dot) filepath lineno else pure ()
  | none => pure ()

/-- A line that is not a heading: its name and value, and its number. -/
def configLine (filepath sectionPrefix raw : Str) (lineno : ℕ) : M (Str × Str × ℕ) :=
  match refuseLine lineno (lineOf raw) with
  | some message => throw message
  | none =>
    let name := sectionPrefix ++ strip blanks (before (ord '=') (lineOf raw))
    if ord '#' ∈ raw ∧ findEnd (str "rpcpassword") name ≠ none then throw (ambiguous lineno)
    else do
      addSectionOf sectionPrefix name filepath lineno
      pure (name, strip blanks (behind (ord '=') (lineOf raw)), lineno)

/-- The loop of `_config_options`. -/
def configLines (filepath : Str) : List Str → ℕ → Str → M (List (Str × Str × ℕ))
  | [], _, _ => pure []
  | raw :: lines, lineno, sectionPrefix =>
    if lineOf raw = [] then configLines filepath lines (lineno + 1) sectionPrefix
    else if isHeading (lineOf raw) then do
      addSection (heading (lineOf raw)) filepath lineno
      configLines filepath lines (lineno + 1) (heading (lineOf raw) ++ str ".")
    else do
      let option ← configLine filepath sectionPrefix raw lineno
      let options ← configLines filepath lines (lineno + 1) sectionPrefix
      pure (option :: options)

/-- `_config_options`. -/
def configOptions (text filepath : Str) : M (List (Str × Str × ℕ)) :=
  configLines filepath (text.splitOn (ord '\n')) 1 []

/-! ## A file -/

/-- The sections read, each with its options. -/
abbrev Tree := List (Str × Table)

/-- `tree.setdefault(section, {})`, changed. -/
def modifySection (sectionName : Str) (f : Table → Table) : Tree → Tree
  | [] => [(sectionName, f [])]
  | (key, table) :: tree =>
    if key = sectionName then (key, f table) :: tree
    else (key, table) :: modifySection sectionName f tree

/-- `tree.get(section, {})`. -/
def sectionOf (sectionName : Str) (tree : Tree) : Table :=
  ((tree.find? fun entry => entry.1 = sectionName).map Prod.snd).getD []

/-- The warning of a key that names no option. -/
def unknownKey (filepath : Str) (lineno : ℕ) (name : Str) : Str :=
  filepath ++ str ":" ++ decimal lineno ++ str " Ignoring unknown configuration value " ++
    quotedLine name

/-- A key and its value, in the tree. -/
def configValue (filepath : Str) (config : Tree) (name value : Str) (lineno : ℕ) : M Tree :=
  let info := interpretKey name
  if info.name = str "conf" then
    throw (str "conf cannot be set in the configuration file; use includeconf= " ++
      str "if you want to include additional config files")
  else
    match option? info.name with
    | none => do
      warn (unknownKey filepath lineno name)
      pure config
    | some option => do
      let setting ← interpretValue info (some value) option
      if info.name = str "datadir" then do
        writeStderr (str "warning: -datadir cannot be set in a configuration file, " ++
          str "since the file itself has to be found first\n")
        pure config
      else pure (modifySection info.sectionName (appendValue info.name setting) config)

/-- The loop of `_parse_conf_text`. -/
def configValues (filepath : Str) : List (Str × Str × ℕ) → Tree → M Tree
  | [], config => pure config
  | (name, value, lineno) :: options, config => do
    let config ← configValue filepath config name value lineno
    configValues filepath options config

/-- `_parse_conf_text`. -/
def parseConfText (text filepath : Str) : M Tree := do
  let options ← configOptions text filepath
  configValues filepath options []

/-- What a path holds: a directory, what cannot be read, or a text. -/
inductive Entry where
  | directory
  | unreadable
  | text (text : Str)

/-- `_read_conf_file`. -/
def readConfFile (entry : Entry) (path : Str) (required : Bool) (included : Option Str)
    (filepath : Str) : M Tree :=
  match entry with
  | .directory =>
    throw ((if included = none then str "Config" else str "Included config") ++
      str " file \"" ++ path ++ str "\" is a directory.")
  | .unreadable =>
    match included with
    | some name => throw (str "Failed to include configuration file " ++ name)
    | none =>
      if required then
        throw (str "specified config file \"" ++ path ++ str "\" could not be opened.")
      else pure []
  | .text text => parseConfText text filepath

/-! ## The chain -/

/-- Where values come from. -/
inductive Source where
  | commandLine
  | defaultSection
  deriving DecidableEq

/-- `_sources`, with no network and no settings file. -/
def sources (commandLine : Table) (tree : Tree) (name : Str) : List (List Value × Source) :=
  [(valuesOf name commandLine, .commandLine), (valuesOf name (sectionOf [] tree), .defaultSection)]
    |>.filter fun source => source.1 ≠ []

/-- `_use_default_section`, with no network. -/
def useDefaultSection (name : Str) : Bool := !(option? name).any (·.networkOnly)

/-- What the highest level that is not skipped says. -/
def decide? (ignoreDefault chainType : Bool) : List (List Value × Source) → Option Value
  | [] => none
  | (values, source) :: rest =>
    let lastNegated := values.getLast? = some (.bool false)
    if ignoreDefault ∧ source = .defaultSection ∧ ¬ lastNegated then
      decide? ignoreDefault chainType rest
    else if chainType ∧ lastNegated then decide? ignoreDefault chainType rest
    else
      let live := values.drop (negatedCount values)
      if live = [] then some (.bool false)
      else if source ≠ .commandLine ∧ chainType = false then live.head?
      else live.getLast?

/-- `_get_setting`. -/
def getSetting (commandLine : Table) (tree : Tree) (name : Str) (chainType : Bool) :
    Option Value :=
  decide? (!chainType && !useDefaultSection name) chainType (sources commandLine tree name)

/-- `_setting_to_str`. -/
def settingToStr : Value → Str
  | .bool b => if b then str "1" else str "0"
  | .text s => s

/-- `get_net`. -/
def getNet (commandLine : Table) (tree : Tree) (name : Str) : M Bool :=
  match getSetting commandLine tree name true with
  | none => pure false
  | some (.bool b) => pure b
  | some (.text s) =>
    match interpretBool s with
    | .ok b => pure b
    | .error message => throw message

/-- `_CHAIN_ALIASES`. -/
def chainAliases : List (Str × Str) :=
  [(str "main", str "mainnet"), (str "test", str "testnet"), (str "signet", str "signet"),
    (str "regtest", str "regtest"), (str "testnet4", str "testnet4")]

/-- `_CHAIN_SECTION`. -/
def chainSections : List (Str × Str) :=
  [(str "mainnet", str "main"), (str "testnet", str "test"), (str "signet", str "signet"),
    (str "regtest", str "regtest"), (str "testnet4", str "testnet4")]

/-- `_UNKNOWN_CHAIN`. -/
def unknownChain : Str := [0]

/-- `_chain_arg`. -/
def chainArg (commandLine : Table) (tree : Tree) : M Str := do
  let regtest ← getNet commandLine tree (str "regtest")
  let signet ← getNet commandLine tree (str "signet")
  let testnet ← getNet commandLine tree (str "testnet")
  let testnet4 ← getNet commandLine tree (str "testnet4")
  let chain := (getSetting commandLine tree (str "chain") false).map settingToStr
  if 1 < [chain.isSome, testnet, signet, regtest, testnet4].count true then
    throw (str "Invalid combination of -regtest, -signet, -testnet, -testnet4 " ++
      str "and -chain. Can use at most one.")
  else
    pure (match chain with
      | some chain => (chainAliases.lookup chain).getD (unknownChain ++ chain)
      | none =>
        if regtest then str "regtest"
        else if signet then str "signet"
        else if testnet then str "testnet"
        else if testnet4 then str "testnet4"
        else str "mainnet")

/-- `_chain_section`. -/
def chainSection (commandLine : Table) (tree : Tree) : M Str := do
  let chain ← chainArg commandLine tree
  pure (if chain.take 1 = unknownChain then chain.drop 1 else (chainSections.lookup chain).getD [])

/-! ## The tree of the files -/

/-- `dest.setdefault(key, []).extend(values)`. -/
def extendValues (name : Str) (values : List Value) : Table → Table
  | [] => [(name, values)]
  | (key, old) :: table =>
    if key = name then (key, old ++ values) :: table
    else (key, old) :: extendValues name values table

/-- The sections of an included file after those of the tree. -/
def mergeTree (included tree : Tree) : Tree :=
  included.foldl (fun tree entry => modifySection entry.1
    (fun dest => entry.2.foldl (fun dest key => extendValues key.1 key.2 dest) dest) tree) tree

/-- `add_includes`: the names past `skip`, and how many values there are. -/
def addIncludes (tree : Tree) (network : Str) (skip : ℕ) : List Str × ℕ :=
  let values := valuesOf (str "includeconf") (sectionOf network tree)
  ((values.drop (max skip (negatedCount values))).map settingToStr, values.length)

/-- The included files, read and merged in turn. -/
def readIncludes (files : Str → Entry) (resolve : Str → Str) : List Str → Tree → M Tree
  | [], tree => pure tree
  | name :: names, tree => do
    let included ← readConfFile (files (resolve name)) (resolve name) true (some name) name
    readIncludes files resolve names (mergeTree included tree)

/-- The warnings over what an included file includes. -/
def warnIncludes : List Str → M Unit
  | [] => pure ()
  | name :: names => do
    writeStderr (str "warning: -includeconf cannot be used from included files; " ++
      str "ignoring -includeconf=" ++ name ++ str "\n")
    warnIncludes names

/-- `_load_conf_tree`, with the files by path and the path of an included name. -/
def loadConfTree (files : Str → Entry) (resolve : Str → Str) (confPath : Str)
    (confExplicit useIncludes : Bool) (commandLine : Table) : M Tree := do
  let tree ← readConfFile (files confPath) confPath confExplicit none confPath
  if useIncludes = false then pure tree
  else do
    let chain ← chainSection commandLine tree
    let ofChain := addIncludes tree chain 0
    let ofDefault := addIncludes tree [] 0
    let tree ← readIncludes files resolve (ofChain.1 ++ ofDefault.1) tree
    let finalChain ← chainSection commandLine tree
    warnIncludes ((addIncludes tree chain ofChain.2).1 ++ (addIncludes tree [] ofDefault.2).1 ++
      if finalChain ≠ chain then (addIncludes tree finalChain 0).1 else [])
    pure tree

/-! ## The lines that log what was read -/

/-- The order of strings. -/
def strLe : Str → Str → Bool
  | [], _ => true
  | _ :: _, [] => false
  | a :: s, b :: t => decide (a < b) || (decide (a = b) && strLe s t)

/-- `sorted(….items())`, for keys that differ. -/
def sortItems {α : Type} (items : List (Str × α)) : List (Str × α) :=
  items.insertionSort fun a b => strLe a.1 b.1 = true

/-- A value of an option of the command line or of a file, as it is logged. -/
def shownValue (name : Str) (value : Value) : Str :=
  if sensitive name then str "****" else settingToWriteStr value

/-- The lines of a section. -/
def logSection (kind : Str) (table : Table) : List Str :=
  (sortItems table).flatMap fun entry =>
    entry.2.map fun value => kind ++ entry.1 ++ str "=" ++ shownValue entry.1 value

/-- The settings, in key order. -/
abbrev RwSettings := List (Str × Settings.Json)

/-- The line of a setting. -/
def logSetting (entry : Str × Settings.Json) : Str :=
  str "Setting file arg: " ++ quotedLine entry.1 ++ str " = " ++
    match option? (interpretKey entry.1).name with
    | none => str "****"
    | some option =>
      if option.sensitive then str "****"
      else (Settings.writeJson 0 entry.2).map Char.toNat

/-- `_log_args`. -/
def logArgs (commandLine : Table) (roConfig : Tree) (rwSettings : RwSettings) : List Str :=
  ((sortItems roConfig).flatMap fun entry =>
    logSection (str "Config file arg: " ++
      if entry.1 = [] then [] else str "[" ++ quotedLine entry.1 ++ str "] ") entry.2) ++
  rwSettings.map logSetting ++ logSection (str "Command-line arg: ") commandLine

end BtclibNode.Cli
