/-
# The transport of a connection

`p2p/transport.py`: octets become messages and back.  `V1Transport` frames a message by a
header of 24 octets; `Message` of btclib, which parses a frame and computes its checksum,
is a parameter.
-/
import Mathlib
import BtclibNode.Lib.LittleEndian
import BtclibNode.Lib.StateExcept
import BtclibNode.Rpc.LineReader

namespace BtclibNode

/-- What a transport raises; `unending` stands for a call that does not return. -/
inductive TransportError
  | wrongNetworkMagic (magic : Bytes)
  | btclibValue (message : String)
  | incompleteMessage (wanted : ℕ)
  | rejectedMessage (size : ℕ)
  | v2Transport (message : String)
  | v1PeerRefused (message : String)
  | value (message : String)
  | unicodeEncode
  | overflow
  | assertion
  | attribute
  | unending
  deriving DecidableEq, Repr

/-- `NetMessage`: a message taken off the wire, with the octets it took on it. -/
structure NetMessage where
  command : String
  payload : Bytes
  size : ℕ
  deriving DecidableEq, Repr

/-- `SerializedMessage`: a message to send. -/
structure SerializedMessage where
  command : String
  payload : Bytes
  deriving DecidableEq, Repr

/-- `BytesToSend`. -/
structure BytesToSend where
  toSend : Bytes
  more : Bool
  command : String

/-- `MAX_PROTOCOL_MESSAGE_LENGTH` of btclib. -/
def maxProtocolMessageLength : ℕ := 4000000

/-- What is used of btclib's `Message`: `Message.parse`, and the checksum of a message that
its constructor does not refuse. -/
structure MessageCodec where
  parse : Bytes → Except String (String × Bytes)
  checksum : Bytes → String → Bytes → Except String Bytes

/-- `HEADER_SIZE`. -/
def headerSize : ℕ := 24

def magicSize : ℕ := 4

def commandSize : ℕ := 12

def lengthAt : ℕ := magicSize + commandSize

def lengthSize : ℕ := 4

/-- `command.encode("ascii")`. -/
def encodeAscii (command : String) : Except TransportError Bytes :=
  if command.toList.all fun c => c.toNat < 128 then
    .ok (ascii command)
  else .error .unicodeEncode

/-- `data.ljust(size, b"\x00")`. -/
def ljust (data : Bytes) (size : ℕ) : Bytes := data ++ List.replicate (size - data.length) 0

/-- `n.to_bytes(size, "little")`. -/
def toBytes (n size : ℕ) : Except TransportError Bytes :=
  if n < 256 ^ size then .ok (LittleEndian.encode size n) else .error .overflow

/-- `Transport`: what a connection calls to read and to write. -/
structure Transport (σ : Type) where
  receivedMessageComplete : σ → Bool
  receivedBytes : Bytes → EStateM TransportError σ Bytes
  getReceivedMessage : EStateM TransportError σ NetMessage
  setMessageToSend : SerializedMessage → EStateM TransportError σ Bool
  getBytesToSend : σ → (haveNextMessage : Bool) → Except TransportError BytesToSend
  markBytesSent : ℕ → σ → σ

/-- `V1Transport`. -/
structure V1Transport where
  magic : Bytes
  buffer : Bytes
  length : Option ℕ
  headerToSend : Bytes
  messageToSend : SerializedMessage
  sendingHeader : Bool
  bytesSent : ℕ

namespace V1Transport

/-- `V1Transport.__init__`. -/
def init (magic : Bytes) : V1Transport where
  magic := magic
  buffer := []
  length := none
  headerToSend := []
  messageToSend := ⟨"", []⟩
  sendingHeader := false
  bytesSent := 0

/-! ## Receiving -/

/-- The octets of the message being received, as far as they are known. -/
def total (t : V1Transport) : ℕ :=
  match t.length with
  | none => headerSize
  | some length => headerSize + length

/-- `_wanted`. -/
def wanted (t : V1Transport) : ℕ := t.total - t.buffer.length

/-- `received_message_complete`. -/
def receivedMessageComplete (t : V1Transport) : Bool := t.length.isSome && t.wanted = 0

/-- `_read_header`. -/
def readHeader : EStateM TransportError V1Transport Unit := do
  let t ← get
  let magic := t.buffer.take magicSize
  if magic ≠ t.magic then throw (.wrongNetworkMagic magic)
  else
    let length := LittleEndian.decode ((t.buffer.drop lengthAt).take lengthSize)
    if maxProtocolMessageLength < length then
      throw (.btclibValue (s!"invalid payload length: {length}" ++
        s!" instead of at most {maxProtocolMessageLength} bytes"))
    else set { t with length := some length }

/-- `received_bytes`. -/
def receivedBytes (msgBytes : Bytes) : EStateM TransportError V1Transport Bytes := do
  let t ← get
  let taken := min t.wanted msgBytes.length
  let buffer := t.buffer ++ msgBytes.take taken
  set { t with buffer := buffer }
  if t.length = none ∧ buffer.length = headerSize then readHeader
  return msgBytes.drop taken

/-- `get_received_message`. -/
def getReceivedMessage (c : MessageCodec) : EStateM TransportError V1Transport NetMessage := do
  let t ← get
  if t.receivedMessageComplete then
    set { t with buffer := [], length := none }
    match c.parse t.buffer with
    | .error _ => throw (.rejectedMessage t.buffer.length)
    | .ok (command, payload) => return ⟨command, payload, t.buffer.length⟩
  else throw (.incompleteMessage t.wanted)

/-! ## Sending -/

/-- The header of a message. -/
def header (c : MessageCodec) (magic : Bytes) (msg : SerializedMessage) :
    Except TransportError Bytes :=
  match c.checksum magic msg.command msg.payload with
  | .error message => .error (.btclibValue message)
  | .ok checksum => do
    let command ← encodeAscii msg.command
    let length ← toBytes msg.payload.length lengthSize
    return magic ++ ljust command commandSize ++ length ++ checksum

/-- `set_message_to_send`. -/
def setMessageToSend (c : MessageCodec) (msg : SerializedMessage) :
    EStateM TransportError V1Transport Bool := do
  let t ← get
  if t.sendingHeader ∨ t.bytesSent < t.messageToSend.payload.length then return false
  else
    match header c t.magic msg with
    | .error e => throw e
    | .ok header =>
      set { t with
        headerToSend := header, messageToSend := msg, sendingHeader := true, bytesSent := 0 }
      return true

/-- `get_bytes_to_send`. -/
def getBytesToSend (t : V1Transport) (haveNextMessage : Bool) : BytesToSend :=
  if t.sendingHeader then
    ⟨t.headerToSend.drop t.bytesSent, haveNextMessage || !t.messageToSend.payload.isEmpty,
      t.messageToSend.command⟩
  else ⟨t.messageToSend.payload.drop t.bytesSent, haveNextMessage, t.messageToSend.command⟩

/-- `mark_bytes_sent`. -/
def markBytesSent (bytesSent : ℕ) (t : V1Transport) : V1Transport :=
  let sent := t.bytesSent + bytesSent
  if t.sendingHeader ∧ sent = t.headerToSend.length then
    { t with sendingHeader := false, bytesSent := 0 }
  else if ¬ t.sendingHeader ∧ sent = t.messageToSend.payload.length then
    { t with messageToSend := ⟨t.messageToSend.command, []⟩, bytesSent := 0 }
  else { t with bytesSent := sent }

/-- `V1Transport` as a `Transport`. -/
def transport (c : MessageCodec) : Transport V1Transport where
  receivedMessageComplete := receivedMessageComplete
  receivedBytes := receivedBytes
  getReceivedMessage := getReceivedMessage c
  setMessageToSend := setMessageToSend c
  getBytesToSend t haveNextMessage := .ok (t.getBytesToSend haveNextMessage)
  markBytesSent := markBytesSent

end V1Transport

end BtclibNode
