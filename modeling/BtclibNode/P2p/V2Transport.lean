/-
# The v2 transport

`p2p/v2transport.py`: BIP324 as a state machine of a receiving and a sending half.  The
cipher, the key schedule and the message ids are btclib's and are a parameter.
-/
import BtclibNode.P2p.Transport

namespace BtclibNode

/-- `EXPANSION`: the length, the header and the tag of a packet. -/
def expansion : ℕ := 20

/-- `LENGTH_LEN`. -/
def lengthLen : ℕ := 3

/-- `GARBAGE_TERMINATOR_LEN`. -/
def garbageTerminatorLen : ℕ := 16

/-- `MAX_GARBAGE_LEN`. -/
def maxGarbageLen : ℕ := 4095

/-- `_KEY_LEN`. -/
def keyLen : ℕ := 64

/-- `_V1_PREFIX_LEN`. -/
def v1PrefixLen : ℕ := 16

/-- `_V1_HEADER_LEN`. -/
def v1HeaderLen : ℕ := 24

/-- `_V1_VERSION_COMMAND`. -/
def v1VersionCommand : Bytes := [118, 101, 114, 115, 105, 111, 110, 0, 0, 0, 0, 0]

/-- `_MAX_CONTENTS_LEN`. -/
def maxContentsLen : ℕ := 1 + 12 + maxProtocolMessageLength

/-- `data.hex()`. -/
def hex (data : Bytes) : String :=
  String.ofList (data.flatMap fun c => [(c.toNat / 16).digitChar, (c.toNat % 16).digitChar])

/-- A `Cipher` of btclib: its constants and the states of its two halves. -/
structure Cipher (Sending Receiving : Type) where
  sendGarbageTerminator : Bytes
  recvGarbageTerminator : Bytes
  sessionId : Bytes
  sending : Sending
  receiving : Receiving

/-- What is used of btclib's `bip324`. -/
structure Bip324 where
  Sending : Type
  Receiving : Type
  establish : (prvKey : ℕ) → (ellOurs ellTheirs : Bytes) → (initiating : Bool) →
    (magic : Bytes) → Cipher Sending Receiving
  encrypt : Sending → (contents aad : Bytes) → Except String (Bytes × Sending)
  decryptLength : Receiving → Bytes → ℕ × Receiving
  decrypt : Receiving → (data aad : Bytes) → Except String ((Bytes × Bool) × Receiving)
  contentsFromMessage : (command : String) → (payload : Bytes) → Except String Bytes
  messageFromContents : Bytes → Except String (String × Bytes)

/-- `RecvState`. -/
inductive RecvState
  | keyMaybeV1
  | key
  | garbGarbterm
  | version
  | app
  | appReady
  | v1
  deriving DecidableEq, Repr

/-- `SendState`. -/
inductive SendState
  | maybeV1
  | awaitingKey
  | ready
  | v1
  deriving DecidableEq, Repr

/-- `V2Transport`; `cipher` is there once the peer's key is in. -/
structure V2Transport (b : Bip324) where
  magic : Bytes
  initiating : Bool
  v1 : Option V1Transport
  prvKey : Option ℕ
  ellOurs : Bytes
  cipher : Option (Cipher b.Sending b.Receiving)
  recvLen : ℕ
  recvBuffer : Bytes
  recvAad : Bytes
  recvDecodeBuffer : Bytes
  recvState : RecvState
  sendBuffer : Bytes
  sendPos : ℕ
  sendGarbage : Bytes
  sendType : String
  sendState : SendState
  sentV1HeaderWorth : Bool

namespace V2Transport

variable {b : Bip324}

/-- `_start_sending_handshake`. -/
def startSendingHandshake (t : V2Transport b) : V2Transport b :=
  { t with sendBuffer := t.ellOurs ++ t.sendGarbage }

/-- What `V2Transport.__init__` sets, the key and the garbage being drawn. -/
def start (b : Bip324) (magic : Bytes) (v1Fallback : Option V1Transport) (initiating : Bool)
    (prvKey : ℕ) (ellOurs garbage : Bytes) : V2Transport b :=
  let t : V2Transport b :=
    { magic := magic
      initiating := initiating
      v1 := v1Fallback
      prvKey := some prvKey
      ellOurs := ellOurs
      cipher := none
      recvLen := 0
      recvBuffer := []
      recvAad := []
      recvDecodeBuffer := []
      recvState := if initiating then .key else .keyMaybeV1
      sendBuffer := []
      sendPos := 0
      sendGarbage := garbage
      sendType := ""
      sendState := if initiating then .awaitingKey else .maybeV1
      sentV1HeaderWorth := false }
  if initiating then t.startSendingHandshake else t

/-- `V2Transport.__init__`. -/
def init (b : Bip324) (magic : Bytes) (v1Fallback : Option V1Transport) (initiating : Bool)
    (prvKey : ℕ) (ellOurs garbage : Bytes) : Except TransportError (V2Transport b) :=
  if maxGarbageLen < garbage.length then
    .error (.value s!"garbage too long: {garbage.length} bytes")
  else .ok (start b magic v1Fallback initiating prvKey ellOurs garbage)

/-- A call of `_v1`. -/
def onV1 {α : Type} (x : EStateM TransportError V1Transport α) :
    EStateM TransportError (V2Transport b) α := fun t =>
  match t.v1 with
  | none => .error .attribute t
  | some v1 =>
    match x v1 with
    | .ok a v1 => .ok a { t with v1 := some v1 }
    | .error e v1 => .error e { t with v1 := some v1 }

/-! ## Receiving -/

/-- `received_message_complete`. -/
def receivedMessageComplete (t : V2Transport b) : Bool :=
  if t.recvState = .v1 then t.v1.any V1Transport.receivedMessageComplete
  else t.recvState = .appReady

/-- `_max_bytes_to_process`. -/
def maxBytesToProcess (t : V2Transport b) : ℕ :=
  match t.recvState with
  | .keyMaybeV1 => v1PrefixLen - t.recvBuffer.length
  | .key => keyLen - t.recvBuffer.length
  | .garbGarbterm => 1
  | _ =>
    if t.recvBuffer.length < lengthLen then lengthLen - t.recvBuffer.length
    else expansion + t.recvLen - t.recvBuffer.length

/-- `_process_maybe_v1_bytes`; whether the v1 fallback has taken over. -/
def processMaybeV1Bytes : EStateM TransportError (V2Transport b) Bool := do
  let t ← get
  let v1Prefix := t.magic ++ v1VersionCommand
  if ¬ t.recvBuffer <+: v1Prefix then
    set { t with recvState := .key, sendState := .awaitingKey }.startSendingHandshake
    return false
  else if t.recvBuffer.length = v1PrefixLen then
    if t.v1.isNone then throw (.v1PeerRefused "V1 peer refused")
    else
      let _ ← onV1 (V1Transport.receivedBytes t.recvBuffer)
      modify fun t => { t with
        recvState := .v1, sendState := .v1, recvBuffer := [], sendBuffer := [] }
      return true
  else return false

/-- `_process_key_bytes`. -/
def processKeyBytes : EStateM TransportError (V2Transport b) Unit := do
  let t ← get
  let offset := t.magic.length
  if ¬ t.initiating ∧ offset + v1VersionCommand.length ≤ t.recvBuffer.length ∧
      (t.recvBuffer.drop offset).take v1VersionCommand.length = v1VersionCommand then
    throw (.v2Transport s!"V1 peer with wrong MessageStart {hex (t.recvBuffer.take offset)}")
  else if t.recvBuffer.length < keyLen then return ()
  else
    match t.prvKey with
    | none => throw .assertion
    | some prvKey =>
      let cipher := b.establish prvKey t.ellOurs t.recvBuffer t.initiating t.magic
      let t := { t with
        cipher := some cipher, prvKey := none, recvState := .garbGarbterm, recvBuffer := []
        sendState := .ready, sendBuffer := t.sendBuffer ++ cipher.sendGarbageTerminator }
      set t
      match b.encrypt cipher.sending [] t.sendGarbage with
      | .error message => throw (.btclibValue message)
      | .ok (packet, sending) =>
        set { t with
          cipher := some { cipher with sending := sending }
          sendBuffer := t.sendBuffer ++ packet, sendGarbage := [] }

/-- `_process_garbage_bytes`. -/
def processGarbageBytes : EStateM TransportError (V2Transport b) Unit := do
  let t ← get
  if t.recvBuffer.length < garbageTerminatorLen then return ()
  else
    match t.cipher with
    | none => throw .attribute
    | some cipher =>
      let garbage := t.recvBuffer.take (t.recvBuffer.length - garbageTerminatorLen)
      let terminator := t.recvBuffer.drop (t.recvBuffer.length - garbageTerminatorLen)
      if terminator = cipher.recvGarbageTerminator then
        set { t with recvAad := garbage, recvBuffer := [], recvState := .version }
      else if t.recvBuffer.length = maxGarbageLen + garbageTerminatorLen then
        throw (.v2Transport "missing garbage terminator")
      else return ()

/-- `_process_packet_bytes`. -/
def processPacketBytes : EStateM TransportError (V2Transport b) Unit := do
  let t ← get
  if t.recvBuffer.length = lengthLen then
    match t.cipher with
    | none => throw .attribute
    | some cipher =>
      let (recvLen, receiving) := b.decryptLength cipher.receiving t.recvBuffer
      set { t with recvLen := recvLen, cipher := some { cipher with receiving := receiving } }
      if maxContentsLen < recvLen then
        throw (.v2Transport s!"packet too large ({recvLen} bytes)")
      else return ()
  else if lengthLen < t.recvBuffer.length ∧ t.recvBuffer.length = t.recvLen + expansion then
    match t.cipher with
    | none => throw .attribute
    | some cipher =>
      match b.decrypt cipher.receiving (t.recvBuffer.drop lengthLen) t.recvAad with
      | .error _ => throw (.v2Transport s!"packet decryption failure ({t.recvLen} bytes)")
      | .ok ((contents, ignore), receiving) =>
        let t := { t with
          cipher := some { cipher with receiving := receiving }, recvAad := [], recvBuffer := [] }
        if ignore then set t
        else if t.recvState = .version then set { t with recvState := .app }
        else set { t with recvState := .appReady, recvDecodeBuffer := contents }
  else return ()

/-- What is done with the octets just taken; whether the loop of `received_bytes` ends. -/
def processBytes (state : RecvState) : EStateM TransportError (V2Transport b) Bool :=
  match state with
  | .keyMaybeV1 => processMaybeV1Bytes
  | .key => do processKeyBytes; return false
  | .garbGarbterm => do processGarbageBytes; return false
  | _ => do processPacketBytes; return false

/-- The loop of `received_bytes`. -/
def receiveLoop : ℕ → Bytes → EStateM TransportError (V2Transport b) Bytes
  | 0, _ => throw .unending
  | fuel + 1, msgBytes => do
    let t ← get
    if msgBytes = [] ∨ t.recvState = .appReady then return msgBytes
    else
      let size := min msgBytes.length t.maxBytesToProcess
      set { t with recvBuffer := t.recvBuffer ++ msgBytes.take size }
      if ← processBytes t.recvState then return msgBytes.drop size
      else receiveLoop fuel (msgBytes.drop size)

/-- `received_bytes`; every turn of its loop is to take an octet. -/
def receivedBytes (msgBytes : Bytes) : EStateM TransportError (V2Transport b) Bytes := do
  let t ← get
  if t.recvState = .v1 then onV1 (V1Transport.receivedBytes msgBytes)
  else receiveLoop (msgBytes.length + 1) msgBytes

/-- `get_received_message`. -/
def getReceivedMessage (c : MessageCodec) :
    EStateM TransportError (V2Transport b) NetMessage := do
  let t ← get
  if t.recvState = .v1 then onV1 (V1Transport.getReceivedMessage c)
  else if t.recvState ≠ .appReady then throw (.incompleteMessage 0)
  else
    let contents := t.recvDecodeBuffer
    let size := contents.length + expansion
    set { t with recvDecodeBuffer := [], recvState := .app }
    match b.messageFromContents contents with
    | .error _ => throw (.rejectedMessage size)
    | .ok (command, payload) => return ⟨command, payload, size⟩

/-! ## Sending -/

/-- `set_message_to_send`. -/
def setMessageToSend (c : MessageCodec) (msg : SerializedMessage) :
    EStateM TransportError (V2Transport b) Bool := do
  let t ← get
  if t.sendState = .v1 then onV1 (V1Transport.setMessageToSend c msg)
  else if ¬ (t.sendState = .ready ∧ t.sendBuffer = []) then return false
  else
    match t.cipher with
    | none => throw .attribute
    | some cipher =>
      match b.contentsFromMessage msg.command msg.payload with
      | .error message => throw (.btclibValue message)
      | .ok contents =>
        match b.encrypt cipher.sending contents [] with
        | .error message => throw (.btclibValue message)
        | .ok (packet, sending) =>
          set { t with
            cipher := some { cipher with sending := sending }
            sendBuffer := packet, sendType := msg.command }
          return true

/-- `get_bytes_to_send`. -/
def getBytesToSend (t : V2Transport b) (haveNextMessage : Bool) :
    Except TransportError BytesToSend :=
  if t.sendState = .v1 then
    match t.v1 with
    | none => .error .attribute
    | some v1 => .ok (v1.getBytesToSend haveNextMessage)
  else
    .ok ⟨t.sendBuffer.drop t.sendPos, haveNextMessage && t.sendState = .ready, t.sendType⟩

/-- `mark_bytes_sent`. -/
def markBytesSent (bytesSent : ℕ) (t : V2Transport b) : V2Transport b :=
  if t.sendState = .v1 then { t with v1 := t.v1.map (V1Transport.markBytesSent bytesSent) }
  else
    let sendPos := t.sendPos + bytesSent
    let sentV1HeaderWorth := t.sentV1HeaderWorth || v1HeaderLen ≤ sendPos
    if sendPos = t.sendBuffer.length then
      { t with sendPos := 0, sendBuffer := [], sentV1HeaderWorth := sentV1HeaderWorth }
    else { t with sendPos := sendPos, sentV1HeaderWorth := sentV1HeaderWorth }

/-- `V2Transport` as a `Transport`. -/
def transport (b : Bip324) (c : MessageCodec) : Transport (V2Transport b) where
  receivedMessageComplete := receivedMessageComplete
  receivedBytes := receivedBytes
  getReceivedMessage := getReceivedMessage c
  setMessageToSend := setMessageToSend c
  getBytesToSend := getBytesToSend
  markBytesSent := markBytesSent

end V2Transport

end BtclibNode
