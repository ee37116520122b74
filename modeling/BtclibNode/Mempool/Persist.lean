/-
# `mempool.dat`

`mempool_persist.py`: the mempool written to a file and read back, piece by piece and
de-obfuscated as it is read.  What is taken of btclib is a parameter: the codecs of a
transaction, of a `var_int` and of a key, and `obfuscate`.
-/
import Mathlib
import BtclibNode.Lib.Dict
import BtclibNode.Lib.LittleEndian
import BtclibNode.Lib.StreamProgram
import BtclibNode.Rpc.LineReader

namespace BtclibNode

/-- What reading or writing a `mempool.dat` raises. -/
inductive DumpError
  | structError
  | eofError (message : String)
  | valueError (message : String)
  | btclib (message : String)
  deriving DecidableEq, Repr

/-- A txid, in the octets it is displayed in. -/
@[ext]
structure Txid where
  octets : Bytes
  length_eq : octets.length = 32
  deriving DecidableEq

namespace Txid

instance : Ord Txid := ⟨fun a b => compare a.octets b.octets⟩

instance : Std.TransOrd Txid where
  eq_swap := Std.OrientedOrd.eq_swap (α := Bytes)
  isLE_trans := Std.TransOrd.isLE_trans (α := Bytes)

instance : Std.LawfulEqOrd Txid where
  compare_self := Std.ReflOrd.compare_self (α := Bytes)
  eq_of_compare h := Txid.ext (Std.LawfulEqOrd.eq_of_compare (α := Bytes) h)

/-- `txid[::-1]`, the internal octets. -/
def internal (t : Txid) : Bytes := t.octets.reverse

end Txid

/-- `sys.maxsize`, more than any object holds. -/
def sysMaxsize : ℕ := 2 ^ 63 - 1

/-- What is used of btclib; `serialize` keeps the witness. -/
structure Btclib where
  Tx : Type
  serialize : Tx → Bytes
  parse : StreamProgram DumpError Tx
  varIntSerialize : ℕ → Except DumpError Bytes
  varIntParse : StreamProgram DumpError ℕ
  ValidKey : Bytes → Prop
  serializeKey : Bytes → Bytes
  parseKey : StreamProgram DumpError Bytes
  obfuscate : Bytes → Bytes → ℕ → Bytes

/-- A parser reads back what was written, whatever follows it. -/
def Inverts {α : Type} (parse : StreamProgram DumpError α) (octets : Bytes) (a : α) : Prop :=
  ∀ last rest, ∃ last', parse.runPlain sysMaxsize ⟨last, octets ++ rest⟩ = some (a, ⟨last', rest⟩)

/-- What is relied on of btclib: the codecs invert each other, `obfuscate` is an exclusive
or keyed by the position, and a key is read without a step back. -/
structure Btclib.Lawful (b : Btclib) : Prop where
  tx : ∀ tx, Inverts b.parse (b.serialize tx) tx
  varInt : ∀ n octets, b.varIntSerialize n = .ok octets → Inverts b.varIntParse octets n
  varInt_returns : ∀ n < 2 ^ 64, ∃ octets, b.varIntSerialize n = .ok octets
  key : ∀ key, b.ValidKey key → Inverts b.parseKey (b.serializeKey key) key
  noSeek : b.parseKey.NoSeek
  obfuscate : ∀ key, b.ValidKey key → ∃ pad : ℕ → UInt8, ∀ data offset,
    b.obfuscate data key offset = data.mapIdx fun i c => c ^^^ pad (offset + i)

/-! ## Writing -/

/-- `_U64.pack`. -/
def packU64 (n : ℕ) : Except DumpError Bytes :=
  if n < 2 ^ 64 then .ok (LittleEndian.encode 8 n) else .error .structError

/-- `_I64.pack`. -/
def packI64 (n : Int64) : Bytes := LittleEndian.encode 8 n.toBitVec.toNat

/-- `sorted` over strings of octets. -/
def sortOctets {α : Type} (key : α → Bytes) (l : List α) : List α :=
  l.mergeSort fun a b => (compare (key a) (key b)).isLE

namespace Btclib

variable (b : Btclib)

/-- `serialize_mempool`. -/
def serializeMempool (entries : List (b.Tx × Int64 × Int64)) (deltas : Dict Txid Int64)
    (unbroadcast : List Txid) (key : Option Bytes) : Except DumpError Bytes := do
  let count ← packU64 entries.length
  let body := entries.map fun (tx, time, delta) => b.serialize tx ++ packI64 time ++ packI64 delta
  let deltaCount ← b.varIntSerialize deltas.keys.length
  let written := (sortOctets Txid.internal deltas.keys).map fun txid =>
    txid.internal ++ packI64 ((deltas.get? txid).getD 0)
  let held := sortOctets id (unbroadcast.map Txid.internal)
  let heldCount ← b.varIntSerialize held.length
  let payload := count ++ body.flatten ++ deltaCount ++ written.flatten ++ heldCount ++ held.flatten
  match key with
  | none => return (← packU64 1) ++ payload
  | some key =>
    let head := (← packU64 2) ++ b.serializeKey key
    return head ++ b.obfuscate payload key head.length

/-! ## Reading -/

/-- `_CHUNK`. -/
def chunk : ℕ := 2 ^ 16

/-- A file that is read: what is left of it, and how many octets each read gives at most. -/
structure ReadFile where
  content : Bytes
  gives : ℕ → ℕ
  calls : ℕ

/-- A read: not empty before the end, and no more than asked for. -/
def ReadFile.read (f : ReadFile) (size : ℕ) : Bytes × ReadFile :=
  let given := min size (max 1 (f.gives f.calls))
  (f.content.take given, { f with content := f.content.drop given, calls := f.calls + 1 })

/-- `BytesIO(data)`. -/
def ReadFile.ofBytes (data : Bytes) : ReadFile := ⟨data, fun _ => data.length, 0⟩

/-- `_Stream`. -/
structure Stream where
  file : ReadFile
  position : ℕ
  last : Bytes
  givenBack : Bytes
  key : Option Bytes

/-- `_Stream.__init__`. -/
def Stream.init (file : ReadFile) : Stream := ⟨file, 0, [], [], none⟩

/-- The `while` loop of `read`: `left` more octets are read after `pieces`. -/
def fill (left : ℕ) (pieces : Bytes) (s : Stream) : Bytes × Stream :=
  if left = 0 then (pieces, s)
  else
    match _h : s.file.read (min left chunk) with
    | ([], file) => (pieces, { s with file := file })
    | (c :: cs, file) =>
      let piece := match s.key with
        | none => c :: cs
        | some key => b.obfuscate (c :: cs) key s.position
      fill (left - piece.length) (pieces ++ piece)
        { s with file := file, position := s.position + piece.length }
termination_by s.file.content.length
decreasing_by
  unfold ReadFile.read at _h
  obtain ⟨htake, rfl⟩ := Prod.mk.inj _h
  have hpos := congrArg List.length htake
  rw [List.length_take, List.length_cons] at hpos
  show (s.file.content.drop _).length < s.file.content.length
  rw [List.length_drop]
  omega

/-- `_Stream.read`. -/
def streamRead (size : ℤ) : EStateM DumpError Stream Bytes := do
  let s ← get
  let left := StreamProgram.amount sysMaxsize size
  let first := s.givenBack.take left
  let (data, s) := b.fill (left - first.length) first { s with givenBack := s.givenBack.drop left }
  set { s with last := data }
  return data

/-- `_Stream.seek` from the current position. -/
def streamSeek (offset : ℤ) : EStateM DumpError Stream Unit := do
  let s ← get
  if StreamProgram.StepsBack s.last offset then
    let kept := s.last.length - offset.natAbs
    set { s with givenBack := s.last.drop kept ++ s.givenBack, last := s.last.take kept }
  else
    throw (.valueError "only a step back into the last read")

/-- A `_Stream` as what a parser of btclib reads from. -/
def stream : StreamProgram.Device DumpError Stream := ⟨b.streamRead, streamSeek⟩

/-- `_Reader._read`. -/
def readExact (size : ℕ) : EStateM DumpError Stream Bytes := do
  let data ← b.streamRead size
  if data.length ≠ size then throw (.eofError "end of file") else return data

/-- `_U64.unpack` of a field read. -/
def readU64 : EStateM DumpError Stream ℕ := LittleEndian.decode <$> b.readExact 8

/-- `_I64.unpack` of a field read. -/
def readI64 : EStateM DumpError Stream Int64 :=
  (fun data => Int64.ofBitVec (.ofNat 64 (LittleEndian.decode data))) <$> b.readExact 8

/-- A txid read, its octets turned round; 32 of them are asked for. -/
def readTxid : EStateM DumpError Stream Txid := do
  let data ← b.readExact 32
  if h : data.length = 32 then return ⟨data.reverse, by rw [List.length_reverse, h]⟩
  else throw (.eofError "end of file")

/-- What `_Reader.__init__` sets: a version not known, or the key and the count. -/
def readHead : EStateM DumpError Stream (Option (Option Bytes × ℕ)) := do
  let version ← b.readU64
  if version = 1 then
    let count ← b.readU64
    return some (none, count)
  else if version = 2 then
    let key ← b.parseKey.run b.stream
    modify fun s => { s with key := some key }
    let count ← b.readU64
    return some (some key, count)
  else return none

/-- `_Reader.entry`. -/
def readEntry : EStateM DumpError Stream (b.Tx × Int64 × Int64) := do
  let tx ← b.parse.run b.stream
  let time ← b.readI64
  let delta ← b.readI64
  return (tx, time, delta)

/-- A list comprehension over `range(count)`. -/
def times {α : Type} (x : EStateM DumpError Stream α) : ℕ → EStateM DumpError Stream (List α)
  | 0 => return []
  | count + 1 => do
    let a ← x
    let rest ← times x count
    return a :: rest

/-- The loop of `_Reader.deltas`. -/
def readDeltas : ℕ → Dict Txid Int64 → EStateM DumpError Stream (Dict Txid Int64)
  | 0, deltas => return deltas
  | count + 1, deltas => do
    let txid ← b.readTxid
    let delta ← b.readI64
    readDeltas count (deltas.set txid delta)

/-- `MempoolFile`. -/
structure MempoolFile where
  key : Option Bytes
  entries : List (b.Tx × Int64 × Int64)
  deltas : Dict Txid Int64
  unbroadcast : List Txid

/-- What `read_mempool_file` does with its reader. -/
def readMempool : EStateM DumpError Stream b.MempoolFile := do
  match ← b.readHead with
  | none => throw (.btclib "unknown version")
  | some (key, count) =>
    let entries ← times b.readEntry count
    let deltaCount ← b.varIntParse.run b.stream
    let deltas ← b.readDeltas deltaCount .empty
    let heldCount ← b.varIntParse.run b.stream
    let unbroadcast ← times b.readTxid heldCount
    return { key, entries, deltas, unbroadcast }

/-- The same, over a `_Stream` of the file. -/
def readFrom (file : ReadFile) : Except DumpError b.MempoolFile :=
  match b.readMempool (.init file) with
  | .ok file _ => .ok file
  | .error e _ => .error e

/-- `read_mempool_file`. -/
def readMempoolFile (data : Bytes) : Except DumpError b.MempoolFile :=
  b.readFrom (.ofBytes data)

end Btclib

end BtclibNode
