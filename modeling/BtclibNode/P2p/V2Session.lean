/-
# A session of two v2 transports

An initiator and a responder, each with messages to send, and the octets on the wire
between them.  Setting a message, asking for octets, writing some, marking some, delivering
some and taking a message are steps of a session, in any order.
-/
import Mathlib.Logic.Function.Basic
import BtclibNode.P2p.TransportProgress
import BtclibNode.P2p.TransportRun

namespace BtclibNode

/-- The ends of a session. -/
inductive Role
  | initiator
  | responder
  deriving DecidableEq, Repr

/-- The other end. -/
def Role.peer : Role → Role
  | initiator => responder
  | responder => initiator

@[simp] theorem Role.peer_peer (r : Role) : r.peer.peer = r := by cases r <;> rfl

theorem Role.peer_ne (r : Role) : r.peer ≠ r := by cases r <;> decide

theorem Role.eq_or_eq_peer (r who : Role) : r = who ∨ r = who.peer := by
  cases r <;> cases who <;> decide

/-- What the two ends draw, the network, and which of them have a v1 fallback. -/
structure Handshake where
  magic : Bytes
  allowV1 : Role → Bool
  prvKey : Role → ℕ
  ell : Role → Bytes
  garbage : Role → Bytes

namespace Handshake

variable (h : Handshake) (b : Bip324)

/-- The cipher of an end. -/
def cipher (r : Role) : Cipher b.Sending b.Receiving :=
  b.establish (h.prvKey r) (h.ell r) (h.ell r.peer) (r = .initiator) h.magic

/-- The transport of an end. -/
def transport (r : Role) : V2Transport b :=
  .start b h.magic (if h.allowV1 r then some (.init h.magic) else none) (r = .initiator)
    (h.prvKey r) (h.ell r) (h.garbage r)

/-- The terminator of the garbage that an end sends. -/
def terminator (r : Role) : Bytes := (h.cipher b r).sendGarbageTerminator

end Handshake

/-- A message that btclib puts in a packet and has back from it. -/
def Bip324.Valid (b : Bip324) (m : SerializedMessage) : Prop :=
  ∃ contents, b.contentsFromMessage m.command m.payload = .ok contents ∧
    contents.length ≤ maxContentsLen ∧
    b.messageFromContents contents = .ok (m.command, m.payload)

/-- A cipher decrypts in order what its peer encrypted: `InStep` says that the receiving half
has decrypted what the sending half encrypted. -/
structure Bip324.InOrder (b : Bip324) (InStep : b.Sending → b.Receiving → Prop) : Prop where
  packet : ∀ s r, InStep s r → ∀ contents aad, contents.length ≤ maxContentsLen →
    ∃ packet s' r' r'', b.encrypt s contents aad = .ok (packet, s') ∧
      packet.length = contents.length + expansion ∧
      b.decryptLength r (packet.take lengthLen) = (contents.length, r') ∧
      b.decrypt r' (packet.drop lengthLen) aad = .ok ((contents, false), r'') ∧ InStep s' r''

/-- What is assumed of a handshake: the ciphers of the two ends belong together, no garbage
holds its terminator early, and the key of the initiator is not taken for v1. -/
structure Handshake.Fair (h : Handshake) (b : Bip324)
    (InStep : b.Sending → b.Receiving → Prop) : Prop where
  magic : h.magic.length = magicSize
  ell : ∀ r, (h.ell r).length = keyLen
  garbage : ∀ r, (h.garbage r).length ≤ maxGarbageLen
  terminator : ∀ r, (h.terminator b r).length = garbageTerminatorLen
  recvTerminator : ∀ r, (h.cipher b r.peer).recvGarbageTerminator = h.terminator b r
  inStep : ∀ r, InStep (h.cipher b r).sending (h.cipher b r.peer).receiving
  notEarly : ∀ r, ∀ n < (h.garbage r).length,
    ((h.garbage r ++ h.terminator b r).drop n).take garbageTerminatorLen ≠ h.terminator b r
  notV1 : ((h.ell .initiator).drop h.magic.length).take v1VersionCommand.length ≠ v1VersionCommand

/-! ## The session -/

/-- An end: what it sends with, and the messages it has taken. -/
structure Party (b : Bip324) where
  sender : Sender (V2Transport b)
  taken : List NetMessage

/-- A session; the wire of an end holds what was written to the other. -/
abbrev Session (b : Bip324) := Role → Party b

/-- A step of a session. -/
inductive SessionAction
  | send (who : Role) (a : SendAction)
  | deliver (who : Role) (size : ℕ)
  | take (who : Role)
  deriving DecidableEq, Repr

namespace Session

variable {b : Bip324}

/-- A session before any message is set. -/
def start (b : Bip324) (h : Handshake) (messages : Role → List SerializedMessage) : Session b :=
  fun r => ⟨.start (h.transport b r) (messages r), []⟩

/-- A step.  Octets on the wire are delivered from the front, and those that are not taken
stay there; a message is taken where a whole one waits. -/
def step (c : MessageCodec) (s : Session b) : SessionAction → Except TransportError (Session b)
  | .send who a =>
    match (s who).sender.act (V2Transport.transport b c) a with
    | .error e => .error e
    | .ok sender => .ok (Function.update s who { s who with sender := sender })
  | .deliver who size =>
    let mine := s who
    let theirs := s who.peer
    match V2Transport.receivedBytes (theirs.sender.wire.take size) mine.sender.transport with
    | .error e _ => .error e
    | .ok rest t =>
      .ok (Function.update
        (Function.update s who { mine with sender := { mine.sender with transport := t } })
        who.peer
        { theirs with sender := { theirs.sender with
            wire := rest ++ theirs.sender.wire.drop size } })
  | .take who =>
    let mine := s who
    if mine.sender.transport.receivedMessageComplete then
      match V2Transport.getReceivedMessage c mine.sender.transport with
      | .error e _ => .error e
      | .ok message t =>
        .ok (Function.update s who
          { sender := { mine.sender with transport := t }, taken := mine.taken ++ [message] })
    else .ok s

/-- The steps one after another. -/
def run (c : MessageCodec) : List SessionAction → Session b → Except TransportError (Session b)
  | [], s => .ok s
  | a :: actions, s => (s.step c a).bind (run c actions)

end Session

/-! ## The packets of a session -/

section Packets

variable {b : Bip324}

/-- The contents of the packet of a message. -/
def Bip324.contentsOf (b : Bip324) (m : SerializedMessage) : Bytes :=
  match b.contentsFromMessage m.command m.payload with
  | .ok contents => contents
  | .error _ => []

/-- A message as it is taken off the wire. -/
def Bip324.netMessage (b : Bip324) (m : SerializedMessage) : NetMessage :=
  ⟨m.command, m.payload, (b.contentsOf m).length + expansion⟩

/-- The packets of messages: their contents, and nothing else authenticated. -/
def Bip324.packets (b : Bip324) (messages : List SerializedMessage) : List (Bytes × Bytes) :=
  messages.map fun m => (b.contentsOf m, [])

theorem Bip324.Valid.contentsOf {m : SerializedMessage} (hm : b.Valid m) :
    b.contentsFromMessage m.command m.payload = .ok (b.contentsOf m) ∧
      (b.contentsOf m).length ≤ maxContentsLen ∧
      b.messageFromContents (b.contentsOf m) = .ok (m.command, m.payload) := by
  obtain ⟨contents, hcontents, hle, hback⟩ := hm
  have heq : b.contentsOf m = contents := by
    unfold Bip324.contentsOf
    rw [hcontents]
  rw [heq]
  exact ⟨hcontents, hle, hback⟩

/-- Packets encrypted one after another: the octets, and the sending half they leave. -/
def Encrypts (b : Bip324) : b.Sending → List (Bytes × Bytes) → Bytes → b.Sending → Prop
  | s, [], octets, s' => octets = [] ∧ s' = s
  | s, (contents, aad) :: more, octets, s' => ∃ packet s₁ rest,
      b.encrypt s contents aad = .ok (packet, s₁) ∧ Encrypts b s₁ more rest s' ∧
      octets = packet ++ rest

theorem Encrypts.append {s s' s'' : b.Sending} {l : List (Bytes × Bytes)}
    {octets packet contents aad : Bytes} (h : Encrypts b s l octets s')
    (hpacket : b.encrypt s' contents aad = .ok (packet, s'')) :
    Encrypts b s (l ++ [(contents, aad)]) (octets ++ packet) s'' := by
  induction l generalizing s octets with
  | nil =>
    obtain ⟨rfl, rfl⟩ := h
    exact ⟨packet, s'', [], hpacket, ⟨rfl, rfl⟩, (List.append_nil packet).symm⟩
  | cons first more ih =>
    obtain ⟨packet', s₁, rest, hfirst, hmore, rfl⟩ := h
    exact ⟨packet', s₁, rest ++ packet, hfirst, ih hmore, List.append_assoc _ _ _⟩

end Packets

end BtclibNode
