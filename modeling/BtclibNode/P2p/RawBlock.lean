/-
# Blocks served as the octets they are stored in

`p2p/raw_block.py`: a walk over the octets of a block that checks their form and can
leave the witnesses out.  It jumps by lengths it has not checked, so that what it
returns counts only where its last position is the end of the octets.
-/
import Mathlib
import BtclibNode.Lib.CompactSize

namespace BtclibNode.RawBlock

open Octets

abbrev Bytes := List UInt8

/-- The constants of btclib: each limit is above the largest single octet of a
CompactSize, and below what one can carry. -/
structure BlockLimits where
  maxBlockWeight : ℕ
  minSerializableTransactionWeight : ℕ
  maxWitnessStackItems : ℕ
  maxSize : ℕ
  octet_le_transactions : 0xFC ≤ maxBlockWeight / minSerializableTransactionWeight
  octet_le_items : 0xFC ≤ maxWitnessStackItems
  octet_le_size : 0xFC ≤ maxSize
  transactions_lt : maxBlockWeight / minSerializableTransactionWeight < 2 ^ 64
  items_lt : maxWitnessStackItems < 2 ^ 64
  size_lt : maxSize < 2 ^ 64

def headerSize : ℕ := 80
def outpointSize : ℕ := 36
def sequenceSize : ℕ := 4
def valueSize : ℕ := 8
def uint32Size : ℕ := 4
def segwitMarker : Bytes := [0x00, 0x01]
def markerSize : ℕ := 2
def unknownFlag : ℕ := 2
def oneOctetLimit : ℕ := 0xFD

/-- `_MAX_TRANSACTIONS`. -/
def BlockLimits.maxTransactions (lim : BlockLimits) : ℕ :=
  lim.maxBlockWeight / lim.minSerializableTransactionWeight

/-- What the walk raises. -/
inductive WalkError where
  | indexError
  | keyError
  | btclibValueError (message : String)
  deriving DecidableEq, Repr

/-! ## The walk -/

/-- `raw[i]`. -/
def octetAt (raw : Bytes) (i : ℕ) : Except WalkError UInt8 :=
  match raw[i]? with
  | some octet => .ok octet
  | none => .error .indexError

/-- `_wide`. -/
def wide (raw : Bytes) (i limit : ℕ) : Except WalkError (ℕ × ℕ) := do
  let first ← octetAt raw i
  match CompactSize.wide first with
  | none => .error .keyError
  | some (size, minimum) =>
    let stop := i + 1 + size
    if raw.length < stop then .error (.btclibValueError "not enough binary data for var_int")
    else
      let value := LittleEndian.decode (slice raw (i + 1) stop)
      if value < minimum then
        .error (.btclibValueError ("non-canonical var_int: " ++ toString value))
      else if limit < value then
        .error (.btclibValueError ("var_int too big: " ++ toString value))
      else .ok (value, stop)

/-- `_count`. -/
def count (raw : Bytes) (i limit : ℕ) : Except WalkError (ℕ × ℕ) := do
  let first ← octetAt raw i
  if first.toNat < oneOctetLimit then .ok (first.toNat, i + 1) else wide raw i limit

/-- What stands between two positions of the walk and is as long as a count says. -/
def skip (limit before behind : ℕ) (raw : Bytes) (i : ℕ) : Except WalkError ℕ := do
  let (length, i) ← count raw (i + before) limit
  .ok (i + length + behind)

/-- `_skip_inputs`. -/
def skipInputs (lim : BlockLimits) (raw : Bytes) (i inputs : ℕ) : Except WalkError ℕ :=
  walk (skip lim.maxSize outpointSize sequenceSize raw) inputs i

/-- `_skip_outputs`. -/
def skipOutputs (lim : BlockLimits) (raw : Bytes) (i outputs : ℕ) : Except WalkError ℕ :=
  walk (skip lim.maxSize valueSize 0 raw) outputs i

/-- The inner loop of `_skip_witnesses`. -/
def skipItems (lim : BlockLimits) (raw : Bytes) (i items : ℕ) : Except WalkError ℕ :=
  walk (skip lim.maxSize 0 0 raw) items i

/-- A turn of the outer loop of `_skip_witnesses`. -/
def skipWitness (lim : BlockLimits) (raw : Bytes) (w : ℕ × Bool) :
    Except WalkError (ℕ × Bool) := do
  let (items, i) ← count raw w.1 lim.maxWitnessStackItems
  let carried := w.2 || decide (0 < items)
  let i ← skipItems lim raw i items
  .ok (i, carried)

/-- `_skip_witnesses`. -/
def skipWitnesses (lim : BlockLimits) (raw : Bytes) (i inputs : ℕ) :
    Except WalkError (ℕ × Bool) :=
  walk (skipWitness lim raw) inputs (i, false)

/-- `_is_segwit`. -/
def isSegwit (raw : Bytes) (i : ℕ) : Except WalkError Bool :=
  let marker := slice raw i (i + markerSize)
  if marker.length = markerSize ∧ marker[0]? = some 0 ∧
      (marker[1]?).any (fun flag => decide (unknownFlag ≤ flag.toNat)) then
    .error (.btclibValueError "unknown transaction optional data")
  else .ok (decide (marker = segwitMarker))

/-- The variables of the loop of `_scan`. -/
structure Scan where
  i : ℕ
  run : ℕ
  parts : List Bytes

/-- A turn of the loop of `_scan`, over one transaction. -/
def scanTransaction (lim : BlockLimits) (strip : Bool) (raw : Bytes) (w : Scan) :
    Except WalkError Scan := do
  let start := w.i
  let i := start + uint32Size
  let segwit ← isSegwit raw i
  let body := if segwit then i + markerSize else i
  let (inputs, i) ← count raw body lim.maxSize
  let i ← skipInputs lim raw i inputs
  let (outputs, i) ← count raw i lim.maxSize
  let i ← skipOutputs lim raw i outputs
  if segwit then
    let witnesses := i
    let (i, carried) ← skipWitnesses lim raw i inputs
    if !carried then .error (.btclibValueError "superfluous witness record")
    else if strip then
      -- the lock time begins the next run
      .ok ⟨i + uint32Size, i,
        w.parts ++ [slice raw w.run (start + uint32Size), slice raw body witnesses]⟩
    else .ok { w with i := i + uint32Size }
  else .ok { w with i := i + uint32Size }

/-- The body of the `try` of `_scan`. -/
def scanBlock (lim : BlockLimits) (strip : Bool) (raw : Bytes) : Except WalkError Scan := do
  let (transactions, i) ← count raw headerSize lim.maxTransactions
  walk (scanTransaction lim strip raw) transactions ⟨i, 0, []⟩

/-- `_scan`. -/
def scan (lim : BlockLimits) (strip : Bool) (raw : Bytes) : Except WalkError Bytes :=
  let size := raw.length
  if size < headerSize then
    .error (.btclibValueError ("invalid decoded length: " ++ toString size ++ " instead of " ++
      toString headerSize))
  else
    match scanBlock lim strip raw with
    | .error .indexError => .error (.btclibValueError "not enough binary data for the block")
    | .error e => .error e
    | .ok w =>
      if w.i ≠ size then
        .error (.btclibValueError (toString w.i ++ " octets in the block, not " ++ toString size))
      else if !strip then .ok raw
      else .ok (w.parts ++ [raw.drop w.run]).flatten

/-- `assert_well_formed`. -/
def assertWellFormed (lim : BlockLimits) (raw : Bytes) : Except WalkError Unit :=
  (scan lim false raw).map fun _ => ()

/-- `strip_witnesses`. -/
def stripWitnesses (lim : BlockLimits) (raw : Bytes) : Except WalkError Bytes :=
  scan lim true raw

/-! ## The form of a block -/

/-- A string behind its length. -/
def counted (s : Bytes) : Bytes := CompactSize.encode s.length ++ s

/-- An input: its outpoint, its script and its sequence. -/
structure RawInput where
  outpoint : Bytes
  script : Bytes
  sequence : Bytes
  length_outpoint : outpoint.length = 36
  length_sequence : sequence.length = 4

def RawInput.serialize (x : RawInput) : Bytes := x.outpoint ++ counted x.script ++ x.sequence

/-- An output: its value and its script. -/
structure RawOutput where
  value : Bytes
  script : Bytes
  length_value : value.length = 8

def RawOutput.serialize (x : RawOutput) : Bytes := x.value ++ counted x.script

/-- The inputs and the outputs of a transaction. -/
def serializeBody (ins : List RawInput) (outs : List RawOutput) : Bytes :=
  CompactSize.encode ins.length ++ (ins.flatMap RawInput.serialize ++
    (CompactSize.encode outs.length ++ outs.flatMap RawOutput.serialize))

/-- Inputs and outputs within the bounds of the walk. -/
structure BoundedBody (lim : BlockLimits) (ins : List RawInput) (outs : List RawOutput) :
    Prop where
  inputs : ins.length ≤ lim.maxSize
  scripts : ∀ x ∈ ins, x.script.length ≤ lim.maxSize
  outputs : outs.length ≤ lim.maxSize
  outputScripts : ∀ x ∈ outs, x.script.length ≤ lim.maxSize

/-- The witness of an input: a count of items, and the items. -/
def serializeWitness (items : List Bytes) : Bytes :=
  CompactSize.encode items.length ++ items.flatMap counted

/-- A transaction, with a witness for each input. -/
structure RawTx where
  version : Bytes
  inputs : List RawInput
  outputs : List RawOutput
  witnesses : List (List Bytes)
  lockTime : Bytes
  length_version : version.length = 4
  length_witnesses : witnesses.length = inputs.length
  length_lockTime : lockTime.length = 4

namespace RawTx

/-- Whether a witness holds an item. -/
def segwit (tx : RawTx) : Bool := tx.witnesses.any fun items => decide (0 < items.length)

def body (tx : RawTx) : Bytes := serializeBody tx.inputs tx.outputs

/-- The transaction without marker, flag and witnesses. -/
def stripped (tx : RawTx) : Bytes := tx.version ++ tx.body ++ tx.lockTime

/-- The transaction in the form of BIP144, or in the legacy one where no witness holds
an item. -/
def serialize (tx : RawTx) : Bytes :=
  if tx.segwit then
    tx.version ++ (segwitMarker ++ (tx.body ++
      (tx.witnesses.flatMap serializeWitness ++ tx.lockTime)))
  else tx.version ++ (tx.body ++ tx.lockTime)

/-- The bounds of the walk. -/
structure Bounded (lim : BlockLimits) (tx : RawTx) : Prop where
  body : BoundedBody lim tx.inputs tx.outputs
  witnesses : ∀ items ∈ tx.witnesses, items.length ≤ lim.maxWitnessStackItems ∧
    ∀ item ∈ items, item.length ≤ lim.maxSize

/-- A transaction the walk reads: no input and an output would be a marker and a flag. -/
structure Readable (lim : BlockLimits) (tx : RawTx) : Prop extends Bounded lim tx where
  outputs_of_no_input : tx.inputs = [] → tx.outputs = []

end RawTx

/-- A header, a count and that many transactions. -/
structure SerializedBlock (lim : BlockLimits) where
  header : Bytes
  transactions : List RawTx
  length_header : header.length = 80
  length_transactions : transactions.length ≤ lim.maxTransactions

namespace SerializedBlock

variable {lim : BlockLimits}

def serialize (block : SerializedBlock lim) : Bytes :=
  block.header ++ (CompactSize.encode block.transactions.length ++
    block.transactions.flatMap RawTx.serialize)

/-- The block without marker, flag and witnesses. -/
def stripped (block : SerializedBlock lim) : Bytes :=
  block.header ++ (CompactSize.encode block.transactions.length ++
    block.transactions.flatMap RawTx.stripped)

end SerializedBlock

end BtclibNode.RawBlock
