/-
# Transports deliver exactly what was sent

A session of two v2 transports, a v2 responder that falls back to v1, and the progress of
each call.
-/
import BtclibNode.P2p.V1Fallback
import BtclibNode.P2p.V2SessionDelivery

namespace BtclibNode

open StateExcept

/-- **Transports deliver what was sent.**  Two v2 transports raise nothing, have taken a
prefix of the messages set at every moment and, once every octet is delivered, all of them; a
v2 responder with a fallback receives of a v1 peer that starts with `version` what a v1
transport would, however the octets are cut; and each call on some octets takes one of them or
raises, where no message waits. -/
theorem transports_deliver {b : Bip324} {InStep : b.Sending → b.Receiving → Prop}
    (hb : b.InOrder InStep) {h : Handshake} (hf : h.Fair b InStep) (c : MessageCodec)
    {messages : Role → List SerializedMessage} (hvalid : ∀ r, ∀ m ∈ messages r, b.Valid m) :
    (∀ actions, ∃ s, Session.run c actions (.start b h messages) = .ok s ∧
      ∀ r, (s r).sender.sent ++ (s r).sender.queue = messages r ∧
        (s r.peer).taken <+: (s r).sender.sent.map b.netMessage ∧
        ((s r).outgoing.octets = [] → ∃ s', s.step c (.take r.peer) = .ok s' ∧
          (s' r.peer).taken = (s r).sender.sent.map b.netMessage)) ∧
    (∀ queue actions sender,
      Sender.run (V1Transport.transport c) actions (.start (.init h.magic) queue) = .ok sender →
      (∀ msg ∈ queue.head?, msg.command = "version") →
      ∀ prvKey ellOurs garbage, ∀ pieces pieces' : List Bytes,
        pieces.flatten <+: sender.wire → pieces'.flatten = pieces.flatten →
        Parse.Related (fun _ _ => True)
          ((V2Transport.transport b c).reads pieces
            (.start b h.magic (some (.init h.magic)) false prvKey ellOurs garbage))
          ((V1Transport.transport c).reads pieces' (.init h.magic))) ∧
    (∀ t, (V1Transport.transport c).Reached (.init h.magic) t →
      t.receivedMessageComplete = false → ∀ msgBytes ≠ [],
        Sat (V1Transport.receivedBytes msgBytes) t (fun rest _ => rest.length < msgBytes.length)
          fun e _ => e ≠ .unending) ∧
    ∀ r t, (V2Transport.transport b c).Reached (h.transport b r) t →
      t.receivedMessageComplete = false → ∀ msgBytes ≠ [],
        Sat (V2Transport.receivedBytes msgBytes) t (fun rest _ => rest.length < msgBytes.length)
          fun e _ => e ≠ .unending := by
  refine ⟨?_, ?_, ?_, ?_⟩
  · intro actions
    obtain ⟨s, hrun, hs⟩ := Session.sound_run (c := c) hf hb actions (Session.sound_start hf hvalid)
    refine ⟨s, hrun, ?_⟩
    intro r
    refine ⟨?_, (hs.flow r).exists_delivered, ?_⟩
    · exact Session.messagesOf_run hrun r
    · intro hnone
      have hall := hs.taken_all (c := c) hf hb r.peer
      rw [Role.peer_peer] at hall
      exact hall hnone
  · intro queue actions sender hrun hversion prvKey ellOurs garbage pieces pieces' hwire hsame
    have hstart := V2Transport.fallsBack_start b h.magic prvKey ellOurs garbage
    have hdata := V1Transport.take_wire_prefix hrun hversion hf.magic hwire
    have hrelated := V2Transport.related_reads (c := c) pieces hstart fun _ => hdata
    rw [V1Transport.reads_eq pieces' (V1Transport.idle_init _), hsame,
      ← V1Transport.reads_eq pieces (V1Transport.idle_init _)]
    exact hrelated.mono fun _ _ _ => trivial
  · intro t hreached hunfinished msgBytes hsome
    apply (V1Transport.sat_receivedBytes (V1Transport.bounded_of_reached hreached) msgBytes).mono
    · exact fun _ _ htakes => htakes.2 hunfinished hsome
    · exact fun _ _ hraised => hraised
  · intro r t hreached hunfinished msgBytes hsome
    apply (V2Transport.sat_receivedBytes (V2Transport.bounded_of_reached
      (Session.bounded_transport h b r) hreached) msgBytes).mono
    · exact fun _ _ htakes => htakes.2 hunfinished hsome
    · exact fun _ _ hraised => hraised

/-! ### One session -/

namespace PlainSession

/-- What follows the length of a packet: its number, its contents and a tag. -/
def sealed (n : ℕ) (contents : Bytes) : Bytes :=
  LittleEndian.encode 1 n ++ (contents ++ List.replicate 16 0)

/-- The packet of that number is opened. -/
def opened (n : ℕ) (data : Bytes) : Except String ((Bytes × Bool) × ℕ) :=
  if data.take 1 = LittleEndian.encode 1 n then
    .ok (((data.drop 1).take (data.length - 17), false), n + 1)
  else .error "not this packet"

theorem length_sealed (n : ℕ) (contents : Bytes) :
    (sealed n contents).length = contents.length + 17 := by
  unfold sealed
  rw [List.length_append, List.length_append, List.length_replicate, LittleEndian.length_encode]
  omega

theorem opened_sealed (n : ℕ) (contents : Bytes) :
    opened n (sealed n contents) = .ok ((contents, false), n + 1) := by
  have hnumber : (sealed n contents).take 1 = LittleEndian.encode 1 n :=
    List.take_left' (LittleEndian.length_encode 1 n)
  have hrest : (sealed n contents).drop 1 = contents ++ List.replicate 16 0 :=
    List.drop_left' (LittleEndian.length_encode 1 n)
  unfold opened
  rw [if_pos hnumber, hrest, length_sealed, Nat.add_sub_cancel, List.take_left' rfl]

/-- A `bip324` that numbers its packets and leaves their contents in the clear, and knows the
message id of `ping`. -/
def bip324 : Bip324 where
  Sending := ℕ
  Receiving := ℕ
  establish _ _ _ initiating _ :=
    { sendGarbageTerminator := List.replicate 16 (if initiating then 1 else 2)
      recvGarbageTerminator := List.replicate 16 (if initiating then 2 else 1)
      sessionId := []
      sending := 0
      receiving := 0 }
  encrypt n contents _ :=
    .ok (LittleEndian.encode 3 contents.length ++ sealed n contents, n + 1)
  decryptLength n data := (LittleEndian.decode data, n)
  decrypt n data _ := opened n data
  contentsFromMessage command payload :=
    if command = "ping" then .ok (18 :: payload) else .error "unknown command"
  messageFromContents
    | 18 :: payload => .ok ("ping", payload)
    | _ => .error "unknown message id"

theorem packet_parts (n : ℕ) {contents : Bytes} (hle : contents.length ≤ maxContentsLen) :
    (LittleEndian.encode 3 contents.length ++ sealed n contents).length =
        contents.length + expansion ∧
      LittleEndian.decode ((LittleEndian.encode 3 contents.length ++ sealed n contents).take 3) =
        contents.length ∧
      opened n ((LittleEndian.encode 3 contents.length ++ sealed n contents).drop 3) =
        .ok ((contents, false), n + 1) := by
  have hlen : contents.length < 256 ^ 3 := Nat.lt_of_le_of_lt hle (by decide)
  have hsize := LittleEndian.length_encode 3 contents.length
  refine ⟨?_, ?_, ?_⟩
  · rw [List.length_append, length_sealed, hsize]
    unfold expansion
    omega
  · rw [List.take_left' hsize, LittleEndian.decode_encode hlen]
  · rw [List.drop_left' hsize]
    exact opened_sealed n contents

theorem inOrder : bip324.InOrder (fun (s r : ℕ) => s = r) := by
  constructor
  intro n r heq contents aad hle
  cases heq
  obtain ⟨hlen, hlength, hopened⟩ := packet_parts n hle
  exact ⟨_, _, n, _, rfl, hlen, congrArg (fun m => (m, n)) hlength, hopened, rfl⟩

/-- An initiator with an octet of garbage and a responder with a v1 fallback and none. -/
def handshake : Handshake where
  magic := [249, 190, 180, 217]
  allowV1 r := r = .responder
  prvKey _ := 1
  ell _ := List.replicate 64 7
  garbage r := if r = .initiator then [3] else []

theorem fair : handshake.Fair bip324 (fun (s r : ℕ) => s = r) where
  magic := rfl
  ell _ := rfl
  garbage r := by cases r <;> decide
  terminator r := by cases r <;> rfl
  recvTerminator r := by cases r <;> rfl
  inStep _ := rfl
  notEarly r := by cases r <;> decide
  notV1 := by decide

/-- A `ping` of the initiator. -/
def messages : Role → List SerializedMessage
  | .initiator => [⟨"ping", [1, 2, 3, 4, 5, 6, 7, 8]⟩]
  | .responder => []

theorem valid : ∀ r, ∀ m ∈ messages r, bip324.Valid m := by
  rintro (_ | _) m hm
  · rw [List.mem_singleton.mp hm]
    exact ⟨[18, 1, 2, 3, 4, 5, 6, 7, 8], rfl, by decide, rfl⟩
  · cases hm

/-- A `Message` of an empty payload. -/
def codec : MessageCodec where
  parse data := .ok (String.ofList (((data.drop 4).take 12).takeWhile (· ≠ 0) |>.map
    fun octet => Char.ofNat octet.toNat), data.drop 24)
  checksum _ _ _ := .ok [0x5d, 0xf6, 0xe0, 0xe2]

end PlainSession

open PlainSession in
/-- A session of one `ping`. -/
theorem transports_deliver_ping :
    ∃ s, Session.run codec [.deliver .responder 70, .send .initiator .set, .take .responder]
        (.start bip324 handshake messages) = .ok s ∧
      (s .responder).taken <+: (s .initiator).sender.sent.map bip324.netMessage := by
  obtain ⟨s, hrun, hs⟩ := (transports_deliver inOrder fair codec valid).1
    [.deliver .responder 70, .send .initiator .set, .take .responder]
  exact ⟨s, hrun, (hs .initiator).2.1⟩

open PlainSession in
/-- **A v1 peer that starts with another message than `version`** is not taken for one: its
`verack` is the front of a key. -/
theorem fallback_misses_verack :
    ∃ sender, Sender.run (V1Transport.transport codec) [.set, .get false, .write 24]
        (.start (.init handshake.magic) [⟨"verack", []⟩]) = .ok sender ∧
      ((V1Transport.transport codec).reads [sender.wire] (.init handshake.magic)).received =
        [.message ⟨"verack", [], 24⟩] ∧
      ((V2Transport.transport bip324 codec).reads [sender.wire]
        (.start bip324 handshake.magic (some (.init handshake.magic)) false 1
          (handshake.ell .responder) [])).received = [] := by
  refine ⟨_, rfl, ?_, ?_⟩
  · decide
  · decide

end BtclibNode
