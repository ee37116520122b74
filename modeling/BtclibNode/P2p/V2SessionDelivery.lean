/-
# A session of two v2 transports delivers what was sent

Every step of a session keeps it sound, so every run returns.  A sound session has taken a
prefix of the messages set, and all of them once every octet put out is delivered.
-/
import Mathlib
import BtclibNode.P2p.V2SessionPackets

namespace BtclibNode

open StateExcept V2Transport

/-- The end with other octets on their way. -/
def Party.withWire {b : Bip324} (p : Party b) (wire : Bytes) : Party b :=
  { p with sender := { p.sender with wire := wire } }

/-- The end with another sender. -/
def Party.withSender {b : Bip324} (p : Party b) (sender : Sender (V2Transport b)) : Party b :=
  { p with sender := sender }

namespace Session

section Steps

variable {h : Handshake} {b : Bip324} {InStep : b.Sending → b.Receiving → Prop}
  {c : MessageCodec} {s s' : Session b} {who : Role}

/-- A session whose two ends are sound is, whatever it was before. -/
theorem sound_update {mine theirs : Party b} (hmine : mine.transport.Bounded)
    (htheirs : theirs.transport.Bounded) (hown : Own h b who mine)
    (hown' : Own h b who.peer theirs)
    (hflow : Flow h b InStep who mine.outgoing theirs.transport theirs.taken)
    (hflow' : Flow h b InStep who.peer theirs.outgoing mine.transport mine.taken) :
    Sound h b InStep (Function.update (Function.update s who mine) who.peer theirs) := by
  have hwho : Function.update (Function.update s who mine) who.peer theirs who = mine := by
    rw [Function.update_of_ne who.peer_ne.symm, Function.update_self]
  have hpeer : Function.update (Function.update s who mine) who.peer theirs who.peer = theirs :=
    Function.update_self _ _ _
  refine ⟨?_, ?_, ?_⟩
  · intro r
    rcases r.eq_or_eq_peer who with rfl | rfl
    · rw [hwho]
      exact hmine
    · rw [hpeer]
      exact htheirs
  · intro r
    rcases r.eq_or_eq_peer who with rfl | rfl
    · rw [hwho]
      exact hown
    · rw [hpeer]
      exact hown'
  · intro r
    rcases r.eq_or_eq_peer who with rfl | rfl
    · rw [hwho, hpeer]
      exact hflow
    · rw [Role.peer_peer, hwho, hpeer]
      exact hflow'

/-- The same where one end alone moved. -/
theorem Sound.update (hs : Sound h b InStep s) {mine : Party b}
    (hmine : mine.transport.Bounded) (hown : Own h b who mine)
    (hflow : Flow h b InStep who mine.outgoing (s who.peer).transport (s who.peer).taken)
    (hflow' : Flow h b InStep who.peer (s who.peer).outgoing mine.transport mine.taken) :
    Sound h b InStep (Function.update s who mine) := by
  have hsame := sound_update (s := s) hmine (hs.bounded who.peer) hown (hs.own who.peer) hflow hflow'
  rw [← Function.update_of_ne who.peer_ne mine s, Function.update_eq_self] at hsame
  exact hsame

theorem Sound.flow_peer (hs : Sound h b InStep s) (who : Role) :
    Flow h b InStep who.peer (s who.peer).outgoing (s who).transport (s who).taken := by
  have hflow := hs.flow who.peer
  rw [Role.peer_peer] at hflow
  exact hflow

/-! ### Delivering -/

/-- What is in the middle of a call before it has taken an octet. -/
theorem Sound.receives (hs : Sound h b InStep s) (who : Role) :
    Receives h b InStep who (s who) (s who.peer) (s who.peer).outgoing.octets
      (s who).transport :=
  ⟨hs.own who, hs.flow_peer who, hs.flow who⟩

theorem step_deliver {size : ℕ} {rest : Bytes} {t : V2Transport b}
    (hrun : receivedBytes ((s who.peer).sender.wire.take size) (s who).transport = .ok rest t) :
    s.step c (.deliver who size) =
      .ok (Function.update (Function.update s who ((s who).withTransport t)) who.peer
        ((s who.peer).withWire (rest ++ (s who.peer).sender.wire.drop size))) := by
  unfold step
  dsimp only
  rw [show receivedBytes _ (s who).sender.transport = _ from hrun]
  rfl

/-- **Delivering octets keeps a session sound.** -/
theorem Sound.deliver (hs : Sound h b InStep s) (hf : h.Fair b InStep) (hb : b.InOrder InStep)
    (who : Role) (size : ℕ) :
    ∃ s', s.step c (.deliver who size) = .ok s' ∧ Sound h b InStep s' := by
  have hrec := hs.receives who
  generalize hx : (s who.peer).sender.wire.take size = x
  have hoctets : (s who.peer).outgoing.octets = x ++ ((s who.peer).sender.wire.drop size ++
      (s who.peer).transport.held.drop (s who.peer).sender.unmarked) := by
    rw [← List.append_assoc, ← hx, List.take_append_drop]
    rfl
  rw [hoctets] at hrec
  have hvalid : ∀ m ∈ (s who.peer).sender.sent, b.Valid m := fun m hm =>
    (hs.own who.peer).valid m (List.mem_append_left _ hm)
  obtain ⟨rest, t, hrun, hbounded, hrec'⟩ :=
    (receives_receivedBytes hf hb hvalid (hs.bounded who) hrec).exists_ok
  subst hx
  refine ⟨_, step_deliver hrun, ?_⟩
  have htheirs := hs.own who.peer
  have hmine : ((s who).withTransport t).transport.Bounded := hbounded
  have hbounded' : ((s who.peer).withWire
      (rest ++ (s who.peer).sender.wire.drop size)).transport.Bounded := hs.bounded who.peer
  refine sound_update hmine hbounded' hrec'.own ?_ hrec'.back ?_
  · exact ⟨htheirs.magic, htheirs.initiating, htheirs.ell,
      ⟨htheirs.level.1, htheirs.level.2, htheirs.level.3⟩, htheirs.valid, htheirs.pos, htheirs.phase⟩
  · have hflow := hrec'.flow
    rw [← List.append_assoc] at hflow
    exact hflow

/-! ### Taking -/

theorem getReceivedMessage_ready {t : V2Transport b} (hready : t.recvState = .appReady)
    {command : String} {payload : Bytes}
    (hback : b.messageFromContents t.recvDecodeBuffer = .ok (command, payload)) :
    V2Transport.getReceivedMessage c t =
      .ok ⟨command, payload, t.recvDecodeBuffer.length + expansion⟩
        { t with recvDecodeBuffer := [], recvState := .app } := by
  apply Sat.eq_ok
  unfold V2Transport.getReceivedMessage
  rw [sat_bind, sat_get, if_neg (by rw [hready]; exact RecvState.noConfusion),
    if_neg (not_not.mpr hready), sat_bind, sat_set]
  rw [hback]
  exact ⟨rfl, rfl⟩

/-- **Taking a message keeps a session sound.** -/
theorem Sound.take (hs : Sound h b InStep s) (who : Role) :
    ∃ s', s.step c (.take who) = .ok s' ∧ Sound h b InStep s' ∧ s' who.peer = s who.peer ∧
      (s' who).transport.recvState ≠ .appReady := by
  have hnotV1 : (s who).sender.transport.recvState ≠ .v1 := (hs.receives who).recvState_ne_v1
  unfold step
  dsimp only
  by_cases hcomplete : (s who).sender.transport.receivedMessageComplete = true
  · rw [if_pos hcomplete]
    have hflow := hs.flow_peer who
    have hready : (s who).transport.recvState = .appReady := by
      unfold V2Transport.receivedMessageComplete at hcomplete
      rw [if_neg hnotV1] at hcomplete
      exact of_decide_eq_true hcomplete
    unfold Flow at hflow
    rw [hready] at hflow
    obtain ⟨haad, hempty, delivered, m, inflight, hsent, htaken, hdecoded, hread⟩ := hflow
    have hvalid : b.Valid m := by
      apply (hs.own who.peer).valid m (List.mem_append_left _ _)
      rw [show (s who.peer).sender.sent = _ from hsent]
      exact List.mem_append_right _ List.mem_cons_self
    have hback : b.messageFromContents (s who).transport.recvDecodeBuffer =
        .ok (m.command, m.payload) := by
      rw [hdecoded]
      exact hvalid.contentsOf.2.2
    rw [show V2Transport.getReceivedMessage c (s who).sender.transport = _ from
      getReceivedMessage_ready hready hback]
    refine ⟨_, rfl, ?_, Function.update_of_ne who.peer_ne _ _,
      by rw [Function.update_self]; exact RecvState.noConfusion⟩
    have hown := hs.own who
    obtain ⟨hsend, -, cipher, hcipher, hterminator⟩ := hown.phase.of_cipher
      (by rw [hready]; exact RecvState.noConfusion) (by rw [hready]; exact RecvState.noConfusion)
    refine hs.update ⟨(hs.bounded who).1, .inl ?_⟩
      ⟨hown.magic, hown.initiating, hown.ell, ⟨hown.level.1, hown.level.2, hown.level.3⟩,
        hown.valid, hown.pos, phase_of_cipher hsend (.inr (.inl rfl)) hcipher hterminator⟩
      (hs.flow who) ?_
    · show (s who).transport.recvBuffer.length < lengthLen
      rw [hempty]
      decide
    · refine ⟨haad, delivered ++ [m], inflight, ?_, ?_, hread⟩
      · rw [hsent, List.append_assoc]
        rfl
      · rw [List.map_append, ← htaken, hdecoded]
        rfl
  · rw [if_neg hcomplete]
    refine ⟨s, rfl, hs, rfl, ?_⟩
    intro hready
    apply hcomplete
    unfold V2Transport.receivedMessageComplete
    rw [if_neg hnotV1]
    exact decide_eq_true hready

/-! ### Sending -/

/-- What packets leave of a sending half, a receiving half comes in step with. -/
theorem inStep_of_encrypts (hb : b.InOrder InStep) {front sending : b.Sending}
    {receiving : b.Receiving} {packets : List (Bytes × Bytes)} {octets : Bytes}
    (hin : InStep front receiving) (hencrypts : Encrypts b front packets octets sending)
    (hle : ∀ packet ∈ packets, packet.1.length ≤ maxContentsLen) :
    ∃ receiving', InStep sending receiving' := by
  induction packets generalizing front receiving octets with
  | nil =>
    obtain ⟨-, rfl⟩ := hencrypts
    exact ⟨receiving, hin⟩
  | cons first more ih =>
    obtain ⟨contents, aad⟩ := first
    obtain ⟨packet, s₁, rest, hencrypt, hmore, -⟩ := hencrypts
    obtain ⟨-, -, r'', -, -, hnext⟩ :=
      inOrder_of_encrypt hb hin (hle (contents, aad) List.mem_cons_self) hencrypt
    exact ih hnext hmore fun packet hpacket => hle packet (List.mem_cons_of_mem _ hpacket)

section Out

variable {out out' : Outgoing b} {r : Role} {t : V2Transport b} {taken : List NetMessage}

theorem Decrypting.exists_inStep {front : b.Sending} (hd : Decrypting b InStep t front) :
    ∃ receiving, InStep front receiving := by
  obtain ⟨cipher, -, hin⟩ := hd
  by_cases hlow : t.recvBuffer.length < lengthLen
  · rw [if_pos hlow] at hin
    exact ⟨_, hin⟩
  · rw [if_neg hlow] at hin
    obtain ⟨receiving, hin, -⟩ := hin
    exact ⟨receiving, hin⟩

/-- The packets an end has put out, of which its peer has processed none, some or all. -/
theorem Flow.exists_encrypts (hflow : Flow h b InStep r out t taken) (hf : h.Fair b InStep)
    (hready : out.state = .ready) :
    ∃ front packets octets sending receiving, out.sending = some sending ∧
      Encrypts b front packets octets sending ∧ InStep front receiving ∧
      ∀ packet ∈ packets, packet = ([], h.garbage r) ∨ packet ∈ b.packets out.sent := by
  have hafter : ∀ after, AfterGarbage h b r out after →
      ∃ front packets octets sending receiving, out.sending = some sending ∧
      Encrypts b front packets octets sending ∧ InStep front receiving ∧
      ∀ packet ∈ packets, packet = ([], h.garbage r) ∨ packet ∈ b.packets out.sent := by
    intro after hafter
    unfold AfterGarbage at hafter
    rw [hready] at hafter
    obtain ⟨octets, sending, hsending, hencrypts, -⟩ := hafter
    exact ⟨_, _, octets, sending, _, hsending, hencrypts, hf.inStep r,
      fun packet hpacket => List.mem_cons.mp hpacket⟩
  have hread : ∀ packets, Reading b InStep out t packets →
      (∀ packet ∈ packets, packet = ([], h.garbage r) ∨ packet ∈ b.packets out.sent) →
      ∃ front packets octets sending receiving, out.sending = some sending ∧
      Encrypts b front packets octets sending ∧ InStep front receiving ∧
      ∀ packet ∈ packets, packet = ([], h.garbage r) ∨ packet ∈ b.packets out.sent := by
    rintro packets ⟨-, front, sending, hsending, hencrypts, hdecrypting⟩ hmem
    obtain ⟨receiving, hin⟩ := hdecrypting.exists_inStep
    exact ⟨front, packets, _, sending, receiving, hsending, hencrypts, hin, hmem⟩
  unfold Flow at hflow
  cases hrecv : t.recvState with
  | keyMaybeV1 | key =>
    rw [hrecv] at hflow
    have hfrom := hflow.2
    unfold FromKey at hfrom
    rw [hready] at hfrom
    obtain ⟨after, hold, -⟩ := hfrom
    exact hafter after hold
  | garbGarbterm =>
    rw [hrecv] at hflow
    obtain ⟨-, -, -, ⟨after, hold, -⟩, -⟩ := hflow
    exact hafter after hold
  | version =>
    rw [hrecv] at hflow
    exact hread _ hflow.2.2 fun packet hpacket => List.mem_cons.mp hpacket
  | app =>
    rw [hrecv] at hflow
    obtain ⟨-, delivered, inflight, hsent, -, hreading⟩ := hflow
    apply hread _ hreading
    intro packet hpacket
    right
    rw [hsent]
    unfold Bip324.packets at hpacket ⊢
    rw [List.map_append]
    exact List.mem_append_right _ hpacket
  | appReady =>
    rw [hrecv] at hflow
    obtain ⟨-, -, delivered, m, inflight, hsent, -, -, hreading⟩ := hflow
    apply hread _ hreading
    intro packet hpacket
    right
    rw [hsent]
    unfold Bip324.packets at hpacket ⊢
    rw [List.map_append, List.map_cons]
    exact List.mem_append_right _ (List.mem_cons_of_mem _ hpacket)
  | v1 =>
    rw [hrecv] at hflow
    exact hflow.elim

/-- **One more packet is put out.** -/
theorem Flow.encrypt (hflow : Flow h b InStep r out t taken) {m : SerializedMessage}
    {sending sending' : b.Sending} {packet : Bytes} (hready : out.state = .ready)
    (hready' : out'.state = .ready) (hsending : out.sending = some sending)
    (hsending' : out'.sending = some sending') (hsent : out'.sent = out.sent ++ [m])
    (hoctets : out'.octets = out.octets ++ packet)
    (hpacket : b.encrypt sending (b.contentsOf m) [] = .ok (packet, sending')) :
    Flow h b InStep r out' t taken := by
  have hpackets : b.packets out'.sent = b.packets out.sent ++ [(b.contentsOf m, [])] := by
    unfold Bip324.packets
    rw [hsent, List.map_append]
    rfl
  have hafter : ∀ after, AfterGarbage h b r out after →
      AfterGarbage h b r out' (after ++ packet) := by
    intro after hafter
    unfold AfterGarbage at hafter ⊢
    rw [hready] at hafter
    rw [hready']
    obtain ⟨octets, sending₀, hsending₀, hencrypts, rfl⟩ := hafter
    obtain rfl : sending₀ = sending := Option.some.inj (hsending₀.symm.trans hsending)
    refine ⟨octets ++ packet, sending', hsending', ?_, List.append_assoc _ _ _⟩
    rw [hpackets]
    exact hencrypts.append hpacket
  have hread : ∀ packets, Reading b InStep out t packets →
      Reading b InStep out' t (packets ++ [(b.contentsOf m, [])]) := by
    rintro packets ⟨-, front, sending₀, hsending₀, hencrypts, hdecrypting⟩
    obtain rfl : sending₀ = sending := Option.some.inj (hsending₀.symm.trans hsending)
    refine ⟨hready', front, sending', hsending', ?_, hdecrypting⟩
    rw [hoctets, ← List.append_assoc]
    exact hencrypts.append hpacket
  unfold Flow at hflow ⊢
  cases hrecv : t.recvState with
  | keyMaybeV1 | key =>
    rw [hrecv] at hflow
    refine ⟨hflow.1, ?_⟩
    have hfrom := hflow.2
    unfold FromKey at hfrom
    rw [hready] at hfrom
    obtain ⟨after, hold, hstream⟩ := hfrom
    apply fromKey_of_after (by rw [hready']; exact SendState.noConfusion) (hafter after hold)
    rw [hoctets, ← List.append_assoc, hstream, List.append_assoc, List.append_assoc]
  | garbGarbterm =>
    rw [hrecv] at hflow
    obtain ⟨htaken, -, hlt, ⟨after, hold, hstream⟩, hcipher⟩ := hflow
    refine ⟨htaken, by rw [hready']; exact SendState.noConfusion, hlt,
      ⟨_, hafter after hold, ?_⟩, hcipher⟩
    rw [hoctets, ← List.append_assoc, hstream, List.append_assoc]
  | version =>
    rw [hrecv] at hflow
    refine ⟨hflow.1, hflow.2.1, ?_⟩
    rw [hpackets]
    exact hread _ hflow.2.2
  | app =>
    rw [hrecv] at hflow
    obtain ⟨haad, delivered, inflight, hall, htaken, hreading⟩ := hflow
    refine ⟨haad, delivered, inflight ++ [m], ?_, htaken, ?_⟩
    · rw [hsent, hall, List.append_assoc]
    · have hmore := hread _ hreading
      unfold Bip324.packets at hmore ⊢
      rw [List.map_append]
      exact hmore
  | appReady =>
    rw [hrecv] at hflow
    obtain ⟨haad, hempty, delivered, first, inflight, hall, htaken, hdecoded, hreading⟩ := hflow
    refine ⟨haad, hempty, delivered, first, inflight ++ [m], ?_, htaken, hdecoded, ?_⟩
    · rw [hsent, hall, List.append_assoc, List.cons_append]
    · have hmore := hread _ hreading
      unfold Bip324.packets at hmore ⊢
      rw [List.map_append]
      exact hmore
  | v1 =>
    rw [hrecv] at hflow
    exact hflow.elim

/-- Two transports that differ in their sending half. -/
structure SameReceiving (t t' : V2Transport b) : Prop where
  recvLen : t'.recvLen = t.recvLen
  recvBuffer : t'.recvBuffer = t.recvBuffer
  recvAad : t'.recvAad = t.recvAad
  recvDecodeBuffer : t'.recvDecodeBuffer = t.recvDecodeBuffer
  recvState : t'.recvState = t.recvState
  receiving : t'.cipher.map Cipher.receiving = t.cipher.map Cipher.receiving

theorem SameReceiving.exists_cipher {t' : V2Transport b} (hsame : SameReceiving t t')
    {cipher : Cipher b.Sending b.Receiving} (hcipher : t.cipher = some cipher) :
    ∃ cipher', t'.cipher = some cipher' ∧ cipher'.receiving = cipher.receiving := by
  have hreceiving := hsame.receiving
  rw [hcipher] at hreceiving
  obtain ⟨cipher', hcipher', heq⟩ := Option.map_eq_some_iff.mp hreceiving
  exact ⟨cipher', hcipher', heq⟩

theorem SameReceiving.reading {t' : V2Transport b} (hsame : SameReceiving t t')
    {packets : List (Bytes × Bytes)} (hread : Reading b InStep out t packets) :
    Reading b InStep out t' packets := by
  obtain ⟨hready, front, sending, hsending, hencrypts, cipher, hcipher, hin⟩ := hread
  obtain ⟨cipher', hcipher', heq⟩ := hsame.exists_cipher hcipher
  refine ⟨hready, front, sending, hsending, ?_, cipher', hcipher', ?_⟩
  · rw [hsame.recvBuffer]
    exact hencrypts
  · rw [hsame.recvBuffer, hsame.recvLen, heq]
    exact hin

/-- What an end sends does not change what it is to receive. -/
theorem SameReceiving.flow {t' : V2Transport b} (hsame : SameReceiving t t')
    (hflow : Flow h b InStep r out t taken) : Flow h b InStep r out t' taken := by
  unfold Flow at hflow ⊢
  rw [hsame.recvState, hsame.recvBuffer, hsame.recvAad, hsame.recvDecodeBuffer]
  cases hrecv : t.recvState with
  | keyMaybeV1 | key | v1 =>
    rw [hrecv] at hflow
    exact hflow
  | garbGarbterm =>
    rw [hrecv] at hflow
    obtain ⟨htaken, hput, hlt, hstream, cipher, hcipher, hreceiving⟩ := hflow
    obtain ⟨cipher', hcipher', heq⟩ := hsame.exists_cipher hcipher
    exact ⟨htaken, hput, hlt, hstream, cipher', hcipher', heq.trans hreceiving⟩
  | version =>
    rw [hrecv] at hflow
    exact ⟨hflow.1, hflow.2.1, hsame.reading hflow.2.2⟩
  | app =>
    rw [hrecv] at hflow
    obtain ⟨haad, delivered, inflight, hall, htaken, hreading⟩ := hflow
    exact ⟨haad, delivered, inflight, hall, htaken, hsame.reading hreading⟩
  | appReady =>
    rw [hrecv] at hflow
    obtain ⟨haad, hempty, delivered, m, inflight, hall, htaken, hdecoded, hreading⟩ := hflow
    exact ⟨haad, hempty, delivered, m, inflight, hall, htaken, hdecoded, hsame.reading hreading⟩

end Out

/-- An end whose sender moved. -/
theorem step_send {a : SendAction} {sender : Sender (V2Transport b)}
    (hact : (s who).sender.act (V2Transport.transport b c) a = .ok sender) :
    s.step c (.send who a) = .ok (Function.update s who ((s who).withSender sender)) := by
  unfold step
  dsimp only
  rw [hact]
  rfl

/-- What moves octets on their way and puts out none. -/
theorem Sound.update_sender (hs : Sound h b InStep s) {sender : Sender (V2Transport b)}
    (hbounded : sender.transport.Bounded)
    (hown : Own h b who ((s who).withSender sender))
    (hsame : SameReceiving (s who).transport sender.transport)
    (hout : ((s who).withSender sender).outgoing = (s who).outgoing) :
    Sound h b InStep (Function.update s who ((s who).withSender sender)) := by
  refine hs.update hbounded hown ?_ (hsame.flow (hs.flow_peer who))
  rw [hout]
  exact hs.flow who

theorem Own.not_v1 {p : Party b} (hown : Own h b who p) : p.transport.sendState ≠ .v1 := by
  intro hv1
  have hphase := hown.phase
  unfold Phase at hphase
  rw [hv1] at hphase
  exact hphase

/-- Octets asked for are those held. -/
theorem getBytesToSend_held {t : V2Transport b} (hv1 : t.sendState ≠ .v1) (haveNextMessage : Bool) :
    ∃ out, t.getBytesToSend haveNextMessage = .ok out ∧ out.toSend = t.held := by
  unfold getBytesToSend
  rw [if_neg hv1]
  exact ⟨_, rfl, rfl⟩

/-- A sender whose transport is the same, with the octets it put out moved. -/
theorem Sound.same_transport (hs : Sound h b InStep s) {sender : Sender (V2Transport b)}
    (hsame : sender.transport = (s who).sender.transport)
    (hsent : sender.sent = (s who).sender.sent)
    (hall : sender.sent ++ sender.queue = (s who).sender.sent ++ (s who).sender.queue)
    (hlevel : sender.Level (s who).transport.held (s who).transport.held ∧
      sender.emitted (s who).transport.held = (s who).sender.emitted (s who).transport.held) :
    Sound h b InStep (Function.update s who ((s who).withSender sender)) := by
  obtain ⟨transport, queue, sent, offered, unmarked, wire⟩ := sender
  obtain rfl : transport = (s who).sender.transport := hsame
  obtain rfl : sent = (s who).sender.sent := hsent
  have hown := hs.own who
  have hbounded : (Sender.mk (s who).sender.transport queue (s who).sender.sent offered unmarked
      wire).transport.Bounded := hs.bounded who
  apply hs.update_sender hbounded
  · refine ⟨hown.magic, hown.initiating, hown.ell, hlevel.1, ?_, hown.pos, hown.phase⟩
    intro m hm
    apply hown.valid
    rw [← hall]
    exact hm
  · exact ⟨rfl, rfl, rfl, rfl, rfl, rfl⟩
  · show (⟨_, _, _, _ ⟩ : Outgoing b) = ⟨_, _, _, (s who).sender.emitted (s who).transport.held⟩
    rw [← hlevel.2]
    rfl

theorem Sound.get (hs : Sound h b InStep s) (who : Role) (haveNextMessage : Bool) :
    ∃ s', s.step c (.send who (.get haveNextMessage)) = .ok s' ∧ Sound h b InStep s' := by
  obtain ⟨out, hget, hheld⟩ := getBytesToSend_held (hs.own who).not_v1 haveNextMessage
  have hget' : (V2Transport.transport b c).getBytesToSend (s who).sender.transport
      haveNextMessage = .ok out := hget
  have hreturns : ∃ sender, (s who).sender.act (V2Transport.transport b c)
      (.get haveNextMessage) = .ok sender := by
    unfold Sender.act
    dsimp only
    by_cases hzero : (s who).sender.unmarked = 0
    · rw [if_pos hzero, hget']
      exact ⟨_, rfl⟩
    · rw [if_neg hzero]
      exact ⟨_, rfl⟩
  obtain ⟨sender, hact⟩ := hreturns
  obtain ⟨hlevel, hemitted, hsame, hsent⟩ := (hs.own who).level.get hget' hheld hact
  exact ⟨_, step_send hact,
    hs.same_transport hsame hsent (Sender.sent_append_queue_act hact) ⟨hlevel, hemitted⟩⟩

theorem Sound.write (hs : Sound h b InStep s) (who : Role) (size : ℕ) :
    ∃ s', s.step c (.send who (.write size)) = .ok s' ∧ Sound h b InStep s' :=
  ⟨_, step_send rfl, hs.same_transport rfl rfl rfl
    ((hs.own who).level.write (T := V2Transport.transport b c) rfl)⟩

/-- Marked octets are held no more, and nothing else of a transport changes. -/
theorem markBytesSent_held {t : V2Transport b} {n : ℕ} (hv1 : t.sendState ≠ .v1)
    (hpos : t.sendPos < t.sendBuffer.length ∨ t.sendPos = 0 ∧ t.sendBuffer = [])
    (hn : n ≤ t.held.length) :
    (t.markBytesSent n).held = t.held.drop n ∧
      ((t.markBytesSent n).sendPos < (t.markBytesSent n).sendBuffer.length ∨
        (t.markBytesSent n).sendPos = 0 ∧ (t.markBytesSent n).sendBuffer = []) := by
  have hle : t.sendPos + n ≤ t.sendBuffer.length := by
    unfold held at hn
    rw [List.length_drop] at hn
    rcases hpos with hlt | ⟨hzero, hempty⟩
    · omega
    · rw [hempty, List.length_nil] at hn
      omega
  unfold markBytesSent
  dsimp only
  rw [if_neg hv1]
  by_cases hall : t.sendPos + n = t.sendBuffer.length
  · rw [if_pos hall]
    unfold held
    refine ⟨?_, .inr ⟨rfl, rfl⟩⟩
    rw [List.drop_drop, hall, List.drop_length, List.drop_nil]
  · rw [if_neg hall]
    unfold held
    refine ⟨?_, .inl (Nat.lt_of_le_of_ne hle hall)⟩
    rw [List.drop_drop]

theorem markBytesSent_keeps {t : V2Transport b} {n : ℕ} (hv1 : t.sendState ≠ .v1) :
    SameReceiving t (t.markBytesSent n) ∧ (t.markBytesSent n).magic = t.magic ∧
      (t.markBytesSent n).initiating = t.initiating ∧
      (t.markBytesSent n).ellOurs = t.ellOurs ∧ (t.markBytesSent n).cipher = t.cipher ∧
      (t.markBytesSent n).sendState = t.sendState ∧ (t.markBytesSent n).prvKey = t.prvKey ∧
      (t.markBytesSent n).sendGarbage = t.sendGarbage ∧
      (t.sendBuffer = [] → (t.markBytesSent n).sendBuffer = []) := by
  unfold markBytesSent
  dsimp only
  rw [if_neg hv1]
  split_ifs
  · exact ⟨⟨rfl, rfl, rfl, rfl, rfl, rfl⟩, rfl, rfl, rfl, rfl, rfl, rfl, rfl, fun _ => rfl⟩
  · exact ⟨⟨rfl, rfl, rfl, rfl, rfl, rfl⟩, rfl, rfl, rfl, rfl, rfl, rfl, rfl, fun h => h⟩

theorem Phase.of_same {t t' : V2Transport b} {sent : List SerializedMessage}
    (hphase : Phase h b who t sent) (hrecv : t'.recvState = t.recvState)
    (hsend : t'.sendState = t.sendState) (hprv : t'.prvKey = t.prvKey)
    (hgarbage : t'.sendGarbage = t.sendGarbage) (hcipher : t'.cipher = t.cipher)
    (hempty : t.sendBuffer = [] → t'.sendBuffer = []) : Phase h b who t' sent := by
  unfold Phase at hphase ⊢
  rw [hsend, hrecv, hprv, hgarbage, hcipher]
  cases hstate : t.sendState with
  | maybeV1 =>
    rw [hstate] at hphase
    exact ⟨hphase.1, hempty hphase.2.1, hphase.2.2⟩
  | awaitingKey | ready | v1 =>
    rw [hstate] at hphase
    exact hphase

theorem Sound.mark (hs : Sound h b InStep s) (who : Role) (size : ℕ) :
    ∃ s', s.step c (.send who (.mark size)) = .ok s' ∧ Sound h b InStep s' := by
  have hown := hs.own who
  generalize hn : min size (s who).sender.unmarked = n
  have hle : n ≤ (s who).transport.held.length := by
    have hunmarked := hown.level.unmarked
    omega
  obtain ⟨hheld, hpos⟩ := markBytesSent_held hown.not_v1 hown.pos hle
  obtain ⟨hreceiving, hmagic, hinitiating, hell, hcipher, hstate, hprv, hgarbage, hempty⟩ :=
    markBytesSent_keeps (n := n) hown.not_v1
  obtain ⟨hlevel, hemitted⟩ := hown.level.mark (T := V2Transport.transport b c) rfl hn hheld
    (.inl hheld) List.prefix_rfl
  have hact : (s who).sender.act (V2Transport.transport b c) (.mark size) =
      .ok { (s who).sender with
        transport := (s who).sender.transport.markBytesSent n
        unmarked := (s who).sender.unmarked - n } := by
    rw [← hn]
    rfl
  refine ⟨_, step_send hact, hs.update_sender
    (bounded_markBytesSent (hs.bounded who) n) ?_ hreceiving ?_⟩
  · refine ⟨hmagic.trans hown.magic, hinitiating.trans hown.initiating, hell.trans hown.ell, ?_,
      hown.valid, hpos, ?_⟩
    · rw [← hn]
      rw [← hn] at hlevel
      exact hlevel
    · exact hown.phase.of_same hreceiving.recvState hstate hprv hgarbage hcipher hempty
  · show (⟨((s who).transport.markBytesSent n).sendState,
      ((s who).transport.markBytesSent n).cipher.map Cipher.sending, _, _⟩ : Outgoing b) =
        ⟨_, _, _, (s who).sender.emitted (s who).transport.held⟩
    rw [hstate, hcipher, ← hemitted, ← hn]
    rfl

theorem setMessageToSend_busy {t : V2Transport b} (hv1 : t.sendState ≠ .v1)
    (hbusy : ¬ (t.sendState = .ready ∧ t.sendBuffer = [])) (m : SerializedMessage) :
    V2Transport.setMessageToSend c m t = .ok false t := by
  apply Sat.eq_ok
  unfold V2Transport.setMessageToSend
  rw [sat_bind, sat_get, if_neg hv1, if_pos hbusy]
  exact ⟨rfl, rfl⟩

theorem setMessageToSend_ready {t : V2Transport b} (hready : t.sendState = .ready)
    (hempty : t.sendBuffer = []) {cipher : Cipher b.Sending b.Receiving}
    (hcipher : t.cipher = some cipher) {m : SerializedMessage} {contents packet : Bytes}
    {sending : b.Sending} (hcontents : b.contentsFromMessage m.command m.payload = .ok contents)
    (hpacket : b.encrypt cipher.sending contents [] = .ok (packet, sending)) :
    V2Transport.setMessageToSend c m t =
      .ok true { t with
        cipher := some { cipher with sending := sending }
        sendBuffer := packet, sendType := m.command } := by
  have hv1 : t.sendState ≠ .v1 := by
    rw [hready]
    exact SendState.noConfusion
  apply Sat.eq_ok
  unfold V2Transport.setMessageToSend
  rw [sat_bind, sat_get, if_neg hv1, if_neg (not_not.mpr ⟨hready, hempty⟩), hcipher]
  dsimp only
  rw [hcontents]
  dsimp only
  rw [hpacket]
  exact ⟨rfl, rfl⟩

/-- **Setting a message keeps a session sound.** -/
theorem Sound.set (hs : Sound h b InStep s) (hf : h.Fair b InStep) (hb : b.InOrder InStep)
    (who : Role) : ∃ s', s.step c (.send who .set) = .ok s' ∧ Sound h b InStep s' := by
  have hown := hs.own who
  cases hqueue : (s who).sender.queue with
  | nil =>
    have hact : (s who).sender.act (V2Transport.transport b c) .set = .ok (s who).sender := by
      unfold Sender.act
      dsimp only
      rw [hqueue]
    refine ⟨_, step_send hact, ?_⟩
    rw [show (s who).withSender (s who).sender = s who from rfl, Function.update_eq_self]
    exact hs
  | cons m queue =>
    have hvalid : b.Valid m := by
      apply hown.valid
      rw [hqueue]
      exact List.mem_append_right _ List.mem_cons_self
    by_cases hbusy : ¬ ((s who).transport.sendState = .ready ∧ (s who).transport.sendBuffer = [])
    · -- the message before it is not out yet
      have hset := setMessageToSend_busy (c := c) hown.not_v1 hbusy m
      have hact : (s who).sender.act (V2Transport.transport b c) .set = .ok (s who).sender := by
        unfold Sender.act
        dsimp only
        rw [hqueue]
        dsimp only
        rw [show (V2Transport.transport b c).setMessageToSend m (s who).sender.transport = _
          from hset, ← hqueue]
        rfl
      refine ⟨_, step_send hact, ?_⟩
      rw [show (s who).withSender (s who).sender = s who from rfl, Function.update_eq_self]
      exact hs
    · obtain ⟨hready, hempty⟩ := not_not.mp hbusy
      have hflow := hs.flow who
      obtain ⟨front, packets, octets, sending, receiving, hsending, hencrypts, hin, hmem⟩ :=
        hflow.exists_encrypts hf hready
      have hle : ∀ packet ∈ packets, packet.1.length ≤ maxContentsLen := by
        intro packet hpacket
        rcases hmem packet hpacket with rfl | hsent
        · exact Nat.zero_le _
        · exact length_packets_le (fun m' hm' => hown.valid m' (List.mem_append_left _ hm'))
            packet hsent
      obtain ⟨receiving', hin'⟩ := inStep_of_encrypts hb hin hencrypts hle
      obtain ⟨packet, sending', -, -, hpacket, hlen, -⟩ := hb.packet sending receiving' hin'
        (b.contentsOf m) [] hvalid.contentsOf.2.1
      obtain ⟨cipher, hcipher, rfl⟩ := Option.map_eq_some_iff.mp hsending
      have hset := setMessageToSend_ready (c := c) hready hempty hcipher hvalid.contentsOf.1 hpacket
      generalize ht : ({ (s who).transport with
        cipher := some { cipher with sending := sending' }
        sendBuffer := packet, sendType := m.command } : V2Transport b) = t at hset
      have hact : (s who).sender.act (V2Transport.transport b c) .set = .ok { (s who).sender with
          transport := t, queue := queue, sent := (s who).sender.sent ++ [m] } := by
        unfold Sender.act
        dsimp only
        rw [hqueue]
        dsimp only
        rw [show (V2Transport.transport b c).setMessageToSend m (s who).sender.transport = _
          from hset]
      have hpos : (s who).transport.sendPos = 0 := by
        rcases hown.pos with hlt | hzero
        · rw [hempty] at hlt
          exact absurd hlt (Nat.not_lt_zero _)
        · exact hzero.1
      have hheld : (s who).transport.held = [] := by
        unfold held
        rw [hempty, List.drop_nil]
      have hheld' : t.held = packet := by
        unfold held
        rw [← ht]
        show packet.drop (s who).transport.sendPos = packet
        rw [hpos, List.drop_zero]
      obtain ⟨hoffered, hunmarked⟩ := hown.of_held_nil hheld
      have hsame : SameReceiving (s who).transport t := by
        rw [← ht]
        exact ⟨rfl, rfl, rfl, rfl, rfl, by rw [hcipher]; rfl⟩
      have hphase := hown.phase
      unfold Phase at hphase
      rw [hready] at hphase
      obtain ⟨hrecv, hrecv', hrecv'', cipher', hcipher', hterminator⟩ := hphase
      obtain rfl : cipher' = cipher := Option.some.inj (hcipher'.symm.trans hcipher)
      refine ⟨_, step_send hact, hs.update ?_ ?_ ?_ (hsame.flow (hs.flow_peer who))⟩
      · rw [← ht]
        exact hs.bounded who
      · refine ⟨?_, ?_, ?_, ⟨?_, ?_, List.prefix_rfl⟩, ?_, .inl ?_, ?_⟩
        · exact (congrArg V2Transport.magic ht).symm.trans hown.magic
        · exact (congrArg V2Transport.initiating ht).symm.trans hown.initiating
        · exact (congrArg V2Transport.ellOurs ht).symm.trans hown.ell
        · show (s who).sender.offered <+: _
          rw [hoffered]
          exact List.nil_prefix
        · show (s who).sender.unmarked ≤ _
          rw [hunmarked]
          exact Nat.zero_le _
        · show ∀ m' ∈ (s who).sender.sent ++ [m] ++ queue, b.Valid m'
          rw [List.append_assoc, List.singleton_append, ← hqueue]
          exact hown.valid
        · show t.sendPos < t.sendBuffer.length
          rw [← ht]
          show (s who).transport.sendPos < packet.length
          rw [hpos, hlen]
          exact Nat.add_pos_right _ (by decide)
        · show Phase h b who t _
          rw [← ht]
          unfold Phase
          rw [show ({ (s who).transport with
            cipher := some { cipher' with sending := sending' }
            sendBuffer := packet, sendType := m.command } : V2Transport b).sendState = _ from hready]
          exact ⟨hrecv, hrecv', hrecv'', _, rfl, hterminator⟩
      · apply hflow.encrypt hready ?_ hsending ?_ rfl ?_ hpacket
        · exact (congrArg V2Transport.sendState ht).symm.trans hready
        · show t.cipher.map Cipher.sending = some sending'
          rw [← ht]
          rfl
        · show (s who).sender.wire ++ t.held.drop (s who).sender.unmarked =
            (s who).sender.wire ++ (s who).transport.held.drop (s who).sender.unmarked ++ packet
          rw [hunmarked, hheld, hheld', List.drop_zero, List.drop_nil, List.append_nil]

/-- **Every step of a sound session returns, and keeps it sound.** -/
theorem Sound.step (hs : Sound h b InStep s) (hf : h.Fair b InStep) (hb : b.InOrder InStep)
    (a : SessionAction) : ∃ s', s.step c a = .ok s' ∧ Sound h b InStep s' := by
  cases a with
  | send who a =>
    cases a with
    | set => exact hs.set hf hb who
    | get haveNextMessage => exact hs.get who haveNextMessage
    | write size => exact hs.write who size
    | mark size => exact hs.mark who size
  | deliver who size => exact hs.deliver hf hb who size
  | take who =>
    obtain ⟨s', hstep, hs', -⟩ := hs.take who
    exact ⟨s', hstep, hs'⟩

/-! ### Runs -/

theorem bounded_transport (h : Handshake) (b : Bip324) (r : Role) : (h.transport b r).Bounded := by
  apply bounded_start
  intro v1 hv1
  by_cases hallow : h.allowV1 r = true
  · rw [if_pos hallow] at hv1
    rw [← Option.some.inj hv1]
    exact V1Transport.bounded_init h.magic
  · rw [if_neg hallow] at hv1
    cases hv1

/-- **A session is sound before any message is set.** -/
theorem sound_start (hf : h.Fair b InStep) {messages : Role → List SerializedMessage}
    (hvalid : ∀ r, ∀ m ∈ messages r, b.Valid m) : Sound h b InStep (.start b h messages) := by
  have hlevel : ∀ r held, Sender.Level (.start (h.transport b r) (messages r)) held held :=
    fun r held => ⟨List.nil_prefix, Nat.zero_le _, List.prefix_rfl⟩
  refine ⟨bounded_transport h b, ?_, ?_⟩
  · intro r
    cases r with
    | initiator =>
      refine ⟨rfl, rfl, rfl, hlevel _ _, hvalid .initiator, .inl ?_, rfl, rfl, rfl, rfl⟩
      show 0 < (h.ell .initiator ++ h.garbage .initiator).length
      rw [List.length_append, hf.ell]
      exact Nat.add_pos_left (by decide) _
    | responder =>
      exact ⟨rfl, rfl, rfl, hlevel _ _, hvalid .responder, .inr ⟨rfl, rfl⟩, rfl, rfl, rfl, rfl, rfl,
        rfl⟩
  · intro r
    cases r with
    | initiator =>
      refine ⟨rfl, [], rfl, ?_⟩
      show [] ++ ([] ++ ((h.ell .initiator ++ h.garbage .initiator).drop 0).drop 0) = _
      rw [List.append_nil]
      rfl
    | responder => exact ⟨rfl, rfl⟩

/-- **Every run of a session returns**, and the session is sound. -/
theorem sound_run (hf : h.Fair b InStep) (hb : b.InOrder InStep) (actions : List SessionAction)
    (hs : Sound h b InStep s) : ∃ s', run c actions s = .ok s' ∧ Sound h b InStep s' := by
  induction actions generalizing s with
  | nil => exact ⟨s, rfl, hs⟩
  | cons a actions ih =>
    obtain ⟨s₁, hfirst, hs₁⟩ := hs.step (c := c) hf hb a
    obtain ⟨s', hrest, hs'⟩ := ih hs₁
    refine ⟨s', ?_, hs'⟩
    rw [run, hfirst]
    exact hrest

/-- What every step keeps of each end, every run keeps. -/
theorem run_invariant {P : Session b → Prop}
    (hstep : ∀ s a s', P s → s.step c a = .ok s' → P s') {actions : List SessionAction}
    (hs : P s) (hrun : run c actions s = .ok s') : P s' := by
  induction actions generalizing s with
  | nil => exact Except.ok.inj hrun ▸ hs
  | cons a actions ih =>
    rw [run] at hrun
    cases hfirst : s.step c a with
    | error e =>
      rw [hfirst] at hrun
      cases hrun
    | ok s₁ =>
      rw [hfirst] at hrun
      exact ih (hstep s a s₁ hs hfirst) hrun

/-- The messages of an end, set or to be set. -/
def messagesOf (s : Session b) (r : Role) : List SerializedMessage :=
  (s r).sender.sent ++ (s r).sender.queue

theorem messagesOf_update {p : Party b}
    (hsame : p.sender.sent ++ p.sender.queue = messagesOf s who) (r : Role) :
    messagesOf (Function.update s who p) r = messagesOf s r := by
  unfold messagesOf
  by_cases hr : r = who
  · rw [hr, Function.update_self]
    exact hsame
  · rw [Function.update_of_ne hr]

/-- **No step loses a message or changes their order.** -/
theorem messagesOf_step {a : SessionAction} (hstep : s.step c a = .ok s') (r : Role) :
    messagesOf s' r = messagesOf s r := by
  cases a with
  | send who a =>
    unfold step at hstep
    dsimp only at hstep
    cases hact : (s who).sender.act (V2Transport.transport b c) a with
    | error e =>
      rw [hact] at hstep
      cases hstep
    | ok sender =>
      rw [hact] at hstep
      rw [← Except.ok.inj hstep]
      exact messagesOf_update (Sender.sent_append_queue_act hact) r
  | deliver who size =>
    unfold step at hstep
    dsimp only at hstep
    cases hreceived : receivedBytes ((s who.peer).sender.wire.take size)
        (s who).sender.transport with
    | error e t =>
      rw [hreceived] at hstep
      cases hstep
    | ok rest t =>
      rw [hreceived] at hstep
      rw [← Except.ok.inj hstep]
      apply (messagesOf_update _ r).trans
      · apply messagesOf_update
        rfl
      · unfold messagesOf
        rw [Function.update_of_ne who.peer_ne]
  | take who =>
    unfold step at hstep
    dsimp only at hstep
    by_cases hcomplete : (s who).sender.transport.receivedMessageComplete = true
    · rw [if_pos hcomplete] at hstep
      cases hmessage : V2Transport.getReceivedMessage c (s who).sender.transport with
      | error e t =>
        rw [hmessage] at hstep
        cases hstep
      | ok message t =>
        rw [hmessage] at hstep
        rw [← Except.ok.inj hstep]
        apply messagesOf_update
        rfl
    · rw [if_neg hcomplete] at hstep
      rw [← Except.ok.inj hstep]

theorem messagesOf_run {actions : List SessionAction} (hrun : run c actions s = .ok s') (r : Role) :
    messagesOf s' r = messagesOf s r :=
  run_invariant (P := fun s' => messagesOf s' r = messagesOf s r)
    (fun _ _ _ hs hstep => (messagesOf_step hstep r).trans hs) rfl hrun

/-! ### What a sound session has delivered -/

/-- The messages taken, and those to be taken. -/
theorem Flow.exists_delivered {out : Outgoing b} {r : Role} {t : V2Transport b}
    {taken : List NetMessage} (hflow : Flow h b InStep r out t taken) :
    taken <+: out.sent.map b.netMessage := by
  unfold Flow at hflow
  cases hrecv : t.recvState with
  | keyMaybeV1 | key | garbGarbterm | version =>
    rw [hrecv] at hflow
    rw [hflow.1]
    exact List.nil_prefix
  | app =>
    rw [hrecv] at hflow
    obtain ⟨-, delivered, inflight, hall, htaken, -⟩ := hflow
    rw [htaken, hall, List.map_append]
    exact List.prefix_append _ _
  | appReady =>
    rw [hrecv] at hflow
    obtain ⟨-, -, delivered, m, inflight, hall, htaken, -⟩ := hflow
    rw [htaken, hall, List.map_append]
    exact List.prefix_append _ _
  | v1 =>
    rw [hrecv] at hflow
    exact hflow.elim

/-- A packet is more than a transport that waits for it holds. -/
theorem Reading.eq_nil {out : Outgoing b} {t : V2Transport b} {packets : List (Bytes × Bytes)}
    (hread : Reading b InStep out t packets) (hb : b.InOrder InStep) (hnone : out.octets = [])
    (hbounded : t.recvBuffer.length < lengthLen ∨ t.recvBuffer.length < t.recvLen + expansion)
    (hle : ∀ packet ∈ packets, packet.1.length ≤ maxContentsLen) : packets = [] := by
  obtain ⟨-, front, sending, -, hencrypts, cipher, -, hin⟩ := hread
  cases packets with
  | nil => rfl
  | cons first more =>
    obtain ⟨contents, aad⟩ := first
    obtain ⟨packet, s₁, rest, hencrypt, -, hcut⟩ := hencrypts
    have hle' : contents.length ≤ maxContentsLen := hle (contents, aad) List.mem_cons_self
    have hlonger : lengthLen < expansion := by decide
    rw [hnone, List.append_nil] at hcut
    have hcount := congrArg List.length hcut
    rw [List.length_append] at hcount
    by_cases hlow : t.recvBuffer.length < lengthLen
    · rw [if_pos hlow] at hin
      obtain ⟨hlen, -⟩ := inOrder_of_encrypt hb hin hle' hencrypt
      omega
    · rw [if_neg hlow] at hin
      obtain ⟨receiving, hin, hknown⟩ := hin
      obtain ⟨hlen, r', -, hlength, -⟩ := inOrder_of_encrypt hb hin hle' hencrypt
      have hfront : packet.take lengthLen = t.recvBuffer.take lengthLen := by
        rw [hcut, List.take_append_of_le_length (by omega)]
      rw [hfront, hknown] at hlength
      have hrecvLen : t.recvLen = contents.length := congrArg Prod.fst hlength
      omega

theorem Own.sent_of_not_ready {p : Party b} (hown : Own h b who p)
    (hnot : p.transport.sendState ≠ .ready) : p.sender.sent = [] := by
  have hphase := hown.phase
  unfold Phase at hphase
  cases hstate : p.transport.sendState with
  | maybeV1 =>
    rw [hstate] at hphase
    exact hphase.2.2.2.2.2
  | awaitingKey =>
    rw [hstate] at hphase
    exact hphase.2.2.2
  | ready => exact (hnot hstate).elim
  | v1 => exact (hown.not_v1 hstate).elim

/-- Where nothing is on its way, all that was set is taken or waits. -/
theorem Flow.taken_eq {out : Outgoing b} {r : Role} {t : V2Transport b}
    {taken : List NetMessage} (hflow : Flow h b InStep r out t taken) (hf : h.Fair b InStep)
    (hb : b.InOrder InStep) (hnone : out.octets = []) (ht : t.Bounded)
    (hwait : t.recvState ≠ .appReady) (hvalid : ∀ m ∈ out.sent, b.Valid m)
    (hnot : out.state ≠ .ready → out.sent = []) : taken = out.sent.map b.netMessage := by
  have hunset : taken = [] → out.state ≠ .ready → taken = out.sent.map b.netMessage := by
    intro htaken hready
    rw [hnot hready, htaken]
    rfl
  have hbounded := ht.2
  unfold Flow at hflow
  cases hrecv : t.recvState with
  | keyMaybeV1 | key =>
    rw [hrecv] at hflow hbounded
    apply hunset hflow.1
    intro hready
    have hfrom := hflow.2
    unfold FromKey at hfrom
    rw [hready, hnone, List.append_nil] at hfrom
    obtain ⟨after, -, hstream⟩ := hfrom
    have hlt : t.recvBuffer.length < keyLen := Nat.lt_of_lt_of_le hbounded (by decide)
    have hcount := congrArg List.length hstream
    rw [List.length_append, hf.ell] at hcount
    omega
  | garbGarbterm =>
    rw [hrecv] at hflow
    obtain ⟨htaken, -, hlt, ⟨after, hafter, hstream⟩, -⟩ := hflow
    apply hunset htaken
    intro hready
    unfold AfterGarbage at hafter
    rw [hready] at hafter
    obtain ⟨octets, sending, -, -, rfl⟩ := hafter
    rw [hnone, List.append_nil] at hstream
    have hcount := congrArg List.length hstream
    rw [List.length_append, List.length_append, hf.terminator] at hcount
    omega
  | version =>
    rw [hrecv] at hflow hbounded
    have hnil := hflow.2.2.eq_nil hb hnone hbounded (by
      rintro packet (_ | ⟨_, hpacket⟩)
      · exact Nat.zero_le _
      · exact length_packets_le hvalid packet hpacket)
    cases hnil
  | app =>
    rw [hrecv] at hflow hbounded
    obtain ⟨-, delivered, inflight, hall, htaken, hread⟩ := hflow
    have hnil := hread.eq_nil hb hnone hbounded (length_packets_le fun m hm => hvalid m (by
      rw [hall]
      exact List.mem_append_right _ hm))
    rw [hall, List.map_eq_nil_iff.mp hnil, List.append_nil]
    exact htaken
  | appReady => exact (hwait hrecv).elim
  | v1 =>
    rw [hrecv] at hflow
    exact hflow.elim

/-- **Once every octet is delivered, all that was set is taken**, the last message after the
next call for one. -/
theorem Sound.taken_all (hs : Sound h b InStep s) (hf : h.Fair b InStep) (hb : b.InOrder InStep)
    (who : Role) (hnone : (s who.peer).outgoing.octets = []) :
    ∃ s', s.step c (.take who) = .ok s' ∧
      (s' who).taken = (s who.peer).sender.sent.map b.netMessage := by
  obtain ⟨s', hstep, hs', hpeer, hwait⟩ := hs.take (c := c) who
  refine ⟨s', hstep, ?_⟩
  have hflow := hs'.flow_peer who
  rw [hpeer] at hflow
  exact hflow.taken_eq hf hb hnone (hs'.bounded who) hwait
    (fun m hm => (hs.own who.peer).valid m (List.mem_append_left _ hm))
    (hs.own who.peer).sent_of_not_ready

end Steps

end Session

end BtclibNode
