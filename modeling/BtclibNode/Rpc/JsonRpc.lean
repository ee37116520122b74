/-
# The JSON-RPC envelope

A request body as it is decoded, an object's pairs kept as the text gives them;
what `JsonRpcRequest.parse` reads off a request object, in the order it reads it
and keeping what it had read where it raises; and what a reply is made of.
-/
import Mathlib.Data.Int.Notation
import BtclibNode.Lib.StateExcept
import BtclibNode.Rpc.LineReader

namespace BtclibNode

open StateExcept

/-! ## Values -/

/-- A decoded JSON value.  An object is a `JsonObject`, with every pair of the text; a number
that is not an integer is kept as it is written. -/
inductive Json where
  | null
  | bool (b : Bool)
  | int (n : ℤ)
  | float (literal : String)
  | str (s : String)
  | arr (members : List Json)
  | obj (pairs : List (String × Json))

/-- `JsonObject.get`: a key's first value, and null where it has none. -/
def getField (pairs : List (String × Json)) (key : String) : Json := (pairs.lookup key).getD .null

/-- `json_type_name`. -/
def Json.typeName : Json → String
  | .null => "null"
  | .bool _ => "bool"
  | .int _ | .float _ => "number"
  | .str _ => "string"
  | .arr _ => "array"
  | .obj _ => "object"

/-- The method an entry of a batch names, where it is an object that names one. -/
def Json.method? : Json → Option String
  | .obj pairs =>
    match getField pairs "method" with
    | .str method => some method
    | _ => none
  | _ => none

/-! ## Errors -/

namespace RPCErrorCode

def invalidRequest : ℤ := -32600
def methodNotFound : ℤ := -32601
def internalError : ℤ := -32603
def parseError : ℤ := -32700
def miscError : ℤ := -1
def invalidParameter : ℤ := -8
def inWarmup : ℤ := -28
def typeError : ℤ := -3
def clientNotConnected : ℤ := -9

end RPCErrorCode

/-- `RpcError`. -/
structure RpcError where
  code : ℤ
  message : String
  deriving DecidableEq

/-- `error_status`. -/
def errorStatus (code : ℤ) : String :=
  if code = RPCErrorCode.invalidRequest then "400 Bad Request"
  else if code = RPCErrorCode.methodNotFound then "404 Not Found"
  else "500 Internal Server Error"

/-- `HttpReply`. -/
structure HttpReply where
  status : String
  body : Option Json

/-! ## Requests -/

/-- The parameters of a request, by position or by name. -/
inductive RpcParams where
  | list (values : List Json)
  | dict (pairs : List (String × Json))

/-- `JsonRpcRequest`. -/
structure JsonRpcRequest where
  id : Json
  hasId : Bool
  v2 : Bool
  method : String
  params : RpcParams

namespace JsonRpcRequest

/-- `JsonRpcRequest.__init__`. -/
def init : JsonRpcRequest := ⟨.null, true, false, "", .list []⟩

/-- The version a request names, as `parse` reads it. -/
def parseVersion (version : Json) : EStateM RpcError JsonRpcRequest Unit :=
  match version with
  | .null => pure ()
  | .str "2.0" => modify fun r => { r with v2 := true }
  | .str "1.0" => pure ()
  | .str _ => throw ⟨RPCErrorCode.invalidRequest, "JSON-RPC version not supported"⟩
  | _ => throw ⟨RPCErrorCode.invalidRequest, "jsonrpc field must be a string"⟩

/-- The parameters of a request, as `parse` reads them. -/
def parseParams (params : Json) : EStateM RpcError JsonRpcRequest Unit :=
  match params with
  | .null => modify fun r => { r with params := .list [] }
  | .arr values => modify fun r => { r with params := .list values }
  | .obj pairs => modify fun r => { r with params := .dict pairs }
  | _ => throw ⟨RPCErrorCode.invalidRequest, "Params must be an array or object"⟩

/-- `parse`. -/
def parse (request : Json) : EStateM RpcError JsonRpcRequest Unit :=
  match request with
  | .obj pairs => do
    modify fun r => { r with
      hasId := (pairs.lookup "id").isSome
      id := getField pairs "id"
      v2 := false }
    parseVersion (getField pairs "jsonrpc")
    match getField pairs "method" with
    | .null => throw ⟨RPCErrorCode.invalidRequest, "Missing method"⟩
    | .str method =>
      modify fun r => { r with method }
      parseParams (getField pairs "params")
    | _ => throw ⟨RPCErrorCode.invalidRequest, "Method must be a string"⟩
  | _ => throw ⟨RPCErrorCode.invalidRequest, "Invalid Request object"⟩

/-- `is_notification`. -/
def isNotification (r : JsonRpcRequest) : Bool := r.v2 && !r.hasId

/-- `reply`: a result, or the error there was instead. -/
def reply (r : JsonRpcRequest) : Except RpcError Json → List (String × Json)
  | .ok result =>
    (if r.v2 then [("jsonrpc", .str "2.0")] else []) ++ [("result", result)] ++
      (if r.v2 then [] else [("error", .null)]) ++ if r.hasId then [("id", r.id)] else []
  | .error e =>
    (if r.v2 then [("jsonrpc", .str "2.0")] else [("result", .null)]) ++
      [("error", .obj [("code", .int e.code), ("message", .str e.message)])] ++
      if r.hasId then [("id", r.id)] else []

/-- **A request that `parse` accepts is an object, and its method is the one read off it.** -/
theorem parse_sat (r : JsonRpcRequest) (request : Json) :
    Sat (parse request) r (fun _ t => request.method? = some t.method) fun _ _ => True := by
  unfold parse
  split
  · next pairs =>
    rw [sat_bind, sat_modify, sat_bind]
    -- the version is read before the method is, and does not touch it
    have hversion : ∀ s, Sat (parseVersion (getField pairs "jsonrpc")) s
        (fun _ _ => True) fun _ _ => True := by
      intro s
      unfold parseVersion
      split <;> trivial
    refine (hversion _).mono ?_ fun _ _ _ => trivial
    intro _ s _
    split
    · trivial
    · next method hmethod =>
      have hm : (Json.obj pairs).method? = some method := by
        simp [Json.method?, hmethod]
      rw [sat_bind, sat_modify]
      unfold parseParams
      split <;> first | exact hm | trivial
    · trivial
  · trivial

end JsonRpcRequest

/-- `error_reply`. -/
def errorReply (code : ℤ) (message : String) : HttpReply :=
  ⟨errorStatus code, some (.obj (JsonRpcRequest.init.reply (.error ⟨code, message⟩)))⟩

/-! ## Named arguments -/

/-- `d.pop(key)` of pairs that are a `dict`. -/
def popField (args : List (String × Json)) (key : String) : List (String × Json) :=
  args.filter fun pair => pair.1 ≠ key

/-- The loop of `_take_position` over the names that are options. -/
def takeOptions (namedOnly : List String) : List String → List (String × Json) →
    List (String × Json) × List (String × Json)
  | [], args => ([], args)
  | name :: names, args =>
    match args.lookup name with
    | some value =>
      if name ∈ namedOnly then
        let (options, rest) := takeOptions namedOnly names (popField args name)
        ((name, value) :: options, rest)
      else takeOptions namedOnly names args
    | none => takeOptions namedOnly names args

/-- `_take_position`: what the position is given, under its names, and the arguments left. -/
def takePosition (args : List (String × Json)) (pattern : String) (namedOnly : List String) :
    Except RpcError (Option (String × List Json) × List (String × Json)) :=
  let names := pattern.splitToList (· = '|')
  let (options, rest) := takeOptions namedOnly names args
  let own := names.filter fun name => name ∉ namedOnly
  match own.find? fun name => (rest.lookup name).isSome, options with
  | none, [] => return (none, rest)
  | none, _ :: _ => return (some ("|".intercalate own, [.obj options]), rest)
  | some name, (option, _) :: _ => throw ⟨RPCErrorCode.invalidParameter,
      "Parameter " ++ name ++ " conflicts with parameter " ++ option⟩
  | some name, [] =>
    return (some ("|".intercalate own, [getField rest name]), popField rest name)

/-- Where `transform_named_arguments` stands between two positions. -/
structure NamedArguments where
  args : List (String × Json)
  out : List Json
  hole : ℕ
  initialHoleSize : ℕ
  initialParam : Option String

/-- The loop of `transform_named_arguments` over the positions. -/
def fillPositions (namedOnly : List String) :
    List String → NamedArguments → Except RpcError NamedArguments
  | [], s => return s
  | pattern :: patterns, s => do
    let (taken, args) ← takePosition s.args pattern namedOnly
    match taken with
    | none =>
      fillPositions namedOnly patterns { s with
        args
        hole := s.hole + 1
        initialHoleSize := if s.out = [] then s.hole + 1 else s.initialHoleSize }
    | some (label, values) =>
      fillPositions namedOnly patterns { s with
        args
        out := s.out ++ List.replicate s.hole .null ++ values
        hole := 0
        initialParam := s.initialParam.or (some label) }

/-- The pairs as a `dict`, a key named twice refused. -/
def collectNamed : List (String × Json) → List (String × Json) →
    Except RpcError (List (String × Json))
  | [], args => return args
  | (key, value) :: pairs, args =>
    if (args.lookup key).isSome then
      throw ⟨RPCErrorCode.invalidParameter, "Parameter " ++ key ++ " specified multiple times"⟩
    else collectNamed pairs (args ++ [(key, value)])

/-- `transform_named_arguments`. -/
def transformNamedArguments (params : List (String × Json)) (argNames namedOnly : List String) :
    Except RpcError (List Json) := do
  let args ← collectNamed params []
  let s ← fillPositions namedOnly argNames ⟨args, [], 0, 0, none⟩
  let rest := popField s.args "args"
  let out ← match getField s.args "args", s.initialParam with
    | .arr positional, some initial =>
      if s.initialHoleSize < positional.length then
        throw ⟨RPCErrorCode.invalidParameter, "Parameter " ++ initial ++
          " specified twice both as positional and named argument"⟩
      else pure (positional ++ s.out.drop positional.length)
    | .arr positional, none => pure (positional ++ s.out.drop positional.length)
    | _, _ => pure s.out
  match rest.getLast? with
  | some (unknown, _) =>
    throw ⟨RPCErrorCode.invalidParameter, "Unknown named parameter " ++ unknown⟩
  | none => return out

end BtclibNode
