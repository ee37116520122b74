/-
# What a session of two v2 transports delivers

The octets an end has put out and the other has not processed are, in every state, what is
left of its key, its garbage and its packets.  Each step keeps that, whatever it cuts.
-/
import BtclibNode.P2p.V2Session

namespace BtclibNode

open StateExcept V2Transport

/-- What an end has put out: how far it is, its sending half, the messages set, and the
octets not yet delivered. -/
structure Outgoing (b : Bip324) where
  state : SendState
  sending : Option b.Sending
  sent : List SerializedMessage
  octets : Bytes

/-- The same with other octets on their way. -/
def Outgoing.withOctets {b : Bip324} (out : Outgoing b) (octets : Bytes) : Outgoing b :=
  ⟨out.state, out.sending, out.sent, octets⟩

/-- The octets a transport holds. -/
def V2Transport.held {b : Bip324} (t : V2Transport b) : Bytes := t.sendBuffer.drop t.sendPos

namespace Party

variable {b : Bip324}

def transport (p : Party b) : V2Transport b := p.sender.transport

/-- The end with another transport. -/
def withTransport (p : Party b) (t : V2Transport b) : Party b :=
  { p with sender := { p.sender with transport := t } }

/-- What an end has put out. -/
def outgoing (p : Party b) : Outgoing b where
  state := p.transport.sendState
  sending := p.transport.cipher.map Cipher.sending
  sent := p.sender.sent
  octets := p.sender.emitted p.transport.held

end Party

namespace Session

/-! ## The invariant -/

section Invariant

variable (h : Handshake) (b : Bip324) (InStep : b.Sending → b.Receiving → Prop) (r : Role)

/-- How far an end is, by what it may send. -/
def Phase (t : V2Transport b) (sent : List SerializedMessage) : Prop :=
  match t.sendState with
  | .maybeV1 => t.recvState = .keyMaybeV1 ∧ t.sendBuffer = [] ∧ r = .responder ∧
      t.prvKey = some (h.prvKey r) ∧ t.sendGarbage = h.garbage r ∧ sent = []
  | .awaitingKey => t.recvState = .key ∧ t.prvKey = some (h.prvKey r) ∧
      t.sendGarbage = h.garbage r ∧ sent = []
  | .ready => t.recvState ≠ .keyMaybeV1 ∧ t.recvState ≠ .key ∧ t.recvState ≠ .v1 ∧
      ∃ cipher, t.cipher = some cipher ∧
        cipher.recvGarbageTerminator = (h.cipher b r).recvGarbageTerminator
  | .v1 => False

/-- What holds of one end. -/
structure Own (p : Party b) : Prop where
  magic : p.transport.magic = h.magic
  initiating : p.transport.initiating = decide (r = .initiator)
  ell : p.transport.ellOurs = h.ell r
  level : p.sender.Level p.transport.held p.transport.held
  valid : ∀ m ∈ p.sender.sent ++ p.sender.queue, b.Valid m
  pos : p.transport.sendPos < p.transport.sendBuffer.length ∨
    p.transport.sendPos = 0 ∧ p.transport.sendBuffer = []
  phase : Phase h b r p.transport p.sender.sent

/-- What an end sends after its garbage. -/
def AfterGarbage (out : Outgoing b) (after : Bytes) : Prop :=
  match out.state with
  | .ready => ∃ octets sending, out.sending = some sending ∧
      Encrypts b (h.cipher b r).sending (([], h.garbage r) :: b.packets out.sent) octets sending ∧
      after = h.terminator b r ++ octets
  | _ => after = []

/-- All that an end sends. -/
def FromKey (out : Outgoing b) (stream : Bytes) : Prop :=
  match out.state with
  | .maybeV1 => stream = []
  | _ => ∃ after, AfterGarbage h b r out after ∧ stream = h.ell r ++ (h.garbage r ++ after)

/-- The receiving half is in step with `front`, or has decrypted the next length. -/
def Decrypting (t : V2Transport b) (front : b.Sending) : Prop :=
  ∃ cipher, t.cipher = some cipher ∧
    if t.recvBuffer.length < lengthLen then InStep front cipher.receiving
    else ∃ receiving, InStep front receiving ∧
      b.decryptLength receiving (t.recvBuffer.take lengthLen) = (t.recvLen, cipher.receiving)

/-- Packets are read: what is left of the stream is their octets. -/
def Reading (out : Outgoing b) (t : V2Transport b) (packets : List (Bytes × Bytes)) : Prop :=
  out.state = .ready ∧ ∃ front sending, out.sending = some sending ∧
    Encrypts b front packets (t.recvBuffer ++ out.octets) sending ∧ Decrypting b InStep t front

/-- What `r` has put out and its peer has not processed, by what the peer is to receive. -/
def Flow (out : Outgoing b) (t : V2Transport b) (taken : List NetMessage) : Prop :=
  match t.recvState with
  | .keyMaybeV1 | .key => taken = [] ∧ FromKey h b r out (t.recvBuffer ++ out.octets)
  | .garbGarbterm => taken = [] ∧ out.state ≠ .maybeV1 ∧
      t.recvBuffer.length < (h.garbage r).length + garbageTerminatorLen ∧
      (∃ after, AfterGarbage h b r out after ∧
        t.recvBuffer ++ out.octets = h.garbage r ++ after) ∧
      ∃ cipher, t.cipher = some cipher ∧ cipher.receiving = (h.cipher b r.peer).receiving
  | .version => taken = [] ∧ t.recvAad = h.garbage r ∧
      Reading b InStep out t (([], h.garbage r) :: b.packets out.sent)
  | .app => t.recvAad = [] ∧ ∃ delivered inflight, out.sent = delivered ++ inflight ∧
      taken = delivered.map b.netMessage ∧ Reading b InStep out t (b.packets inflight)
  | .appReady => t.recvAad = [] ∧ t.recvBuffer = [] ∧ ∃ delivered m inflight,
      out.sent = delivered ++ m :: inflight ∧ taken = delivered.map b.netMessage ∧
      t.recvDecodeBuffer = b.contentsOf m ∧ Reading b InStep out t (b.packets inflight)
  | .v1 => False

/-- **The invariant of a session.** -/
structure Sound (s : Session b) : Prop where
  bounded : ∀ r, (s r).transport.Bounded
  own : ∀ r, Own h b r (s r)
  flow : ∀ r, Flow h b InStep r (s r).outgoing (s r.peer).transport (s r.peer).taken

end Invariant

/-- An end in the middle of a call: `octets` of what its peer has put out are not yet in its
buffer. -/
structure Receives (h : Handshake) (b : Bip324) (InStep : b.Sending → b.Receiving → Prop)
    (who : Role) (p peer : Party b) (octets : Bytes) (t : V2Transport b) : Prop where
  own : Own h b who (p.withTransport t)
  flow : Flow h b InStep who.peer (peer.outgoing.withOctets octets) t p.taken
  back : Flow h b InStep who (p.withTransport t).outgoing peer.transport peer.taken

section Rules

variable {h : Handshake} {b : Bip324} {InStep : b.Sending → b.Receiving → Prop} {who : Role}
  {p peer : Party b} {t : V2Transport b} {x y : Bytes}

/-! ### How far an end is -/

section Phase

variable {sent : List SerializedMessage} (hphase : Phase h b who t sent)
include hphase

theorem Phase.of_keyMaybeV1 (hstate : t.recvState = .keyMaybeV1) :
    t.sendState = .maybeV1 ∧ t.sendBuffer = [] ∧ who = .responder ∧
      t.prvKey = some (h.prvKey who) ∧ t.sendGarbage = h.garbage who ∧ sent = [] := by
  unfold Phase at hphase
  cases hsend : t.sendState with
  | maybeV1 =>
    rw [hsend] at hphase
    exact ⟨rfl, hphase.2⟩
  | awaitingKey =>
    rw [hsend, hstate] at hphase
    cases hphase.1
  | ready =>
    rw [hsend] at hphase
    exact absurd hstate hphase.1
  | v1 =>
    rw [hsend] at hphase
    exact hphase.elim

theorem Phase.of_key (hstate : t.recvState = .key) :
    t.sendState = .awaitingKey ∧ t.prvKey = some (h.prvKey who) ∧
      t.sendGarbage = h.garbage who ∧ sent = [] := by
  unfold Phase at hphase
  cases hsend : t.sendState with
  | maybeV1 =>
    rw [hsend, hstate] at hphase
    cases hphase.1
  | awaitingKey =>
    rw [hsend] at hphase
    exact ⟨rfl, hphase.2⟩
  | ready =>
    rw [hsend] at hphase
    exact absurd hstate hphase.2.1
  | v1 =>
    rw [hsend] at hphase
    exact hphase.elim

theorem Phase.of_cipher (hmaybe : t.recvState ≠ .keyMaybeV1) (hkey : t.recvState ≠ .key) :
    t.sendState = .ready ∧ t.recvState ≠ .v1 ∧ ∃ cipher, t.cipher = some cipher ∧
      cipher.recvGarbageTerminator = (h.cipher b who).recvGarbageTerminator := by
  unfold Phase at hphase
  cases hsend : t.sendState with
  | maybeV1 =>
    rw [hsend] at hphase
    exact absurd hphase.1 hmaybe
  | awaitingKey =>
    rw [hsend] at hphase
    exact absurd hphase.1 hkey
  | ready =>
    rw [hsend] at hphase
    exact ⟨rfl, hphase.2.2⟩
  | v1 =>
    rw [hsend] at hphase
    exact hphase.elim

end Phase

theorem prefix_of_append_eq {u v w z : Bytes} (heq : u ++ v = w ++ z)
    (hle : u.length ≤ w.length) : u <+: w :=
  List.prefix_of_prefix_length_le ⟨v, heq⟩ (List.prefix_append w z) hle

/-! ### The key -/

/-- Before its garbage an end has put out a key. -/
theorem FromKey.exists_after {out : Outgoing b} {stream : Bytes} {r : Role}
    (hfrom : FromKey h b r out stream) (hsome : stream ≠ []) :
    out.state ≠ .maybeV1 ∧
      ∃ after, AfterGarbage h b r out after ∧ stream = h.ell r ++ (h.garbage r ++ after) := by
  unfold FromKey at hfrom
  cases hstate : out.state with
  | maybeV1 =>
    rw [hstate] at hfrom
    exact absurd hfrom hsome
  | awaitingKey | ready | v1 =>
    rw [hstate] at hfrom
    exact ⟨SendState.noConfusion, hfrom⟩

theorem fromKey_of_after {out : Outgoing b} {stream after : Bytes} {r : Role}
    (hstate : out.state ≠ .maybeV1) (hafter : AfterGarbage h b r out after)
    (hstream : stream = h.ell r ++ (h.garbage r ++ after)) : FromKey h b r out stream := by
  unfold FromKey
  cases hcase : out.state with
  | maybeV1 => exact absurd hcase hstate
  | awaitingKey | ready | v1 => exact ⟨after, hafter, hstream⟩

/-- What the first octets of an end do for its peer: its peer is still before its packets. -/
theorem Flow.start_handshake {out out' : Outgoing b} {taken : List NetMessage} {r : Role}
    (hflow : Flow h b InStep r out t taken) (hstate : out.state = .maybeV1)
    (hstate' : out'.state = .awaitingKey)
    (hoctets : out'.octets = out.octets ++ (h.ell r ++ h.garbage r)) :
    Flow h b InStep r out' t taken := by
  unfold Flow at hflow ⊢
  have hfrom : ∀ buffer, FromKey h b r out (buffer ++ out.octets) →
      FromKey h b r out' (buffer ++ out'.octets) := by
    intro buffer hfrom
    unfold FromKey at hfrom
    rw [hstate] at hfrom
    dsimp only at hfrom
    have hafter : AfterGarbage h b r out' [] := by
      unfold AfterGarbage
      rw [hstate']
    refine fromKey_of_after ?_ hafter ?_
    · rw [hstate']
      exact SendState.noConfusion
    · rw [hoctets, ← List.append_assoc, hfrom, List.nil_append, List.append_nil]
  cases hrecv : t.recvState with
  | keyMaybeV1 | key =>
    rw [hrecv] at hflow
    exact ⟨hflow.1, hfrom _ hflow.2⟩
  | garbGarbterm =>
    rw [hrecv] at hflow
    exact absurd hstate hflow.2.1
  | version =>
    rw [hrecv] at hflow
    have hready := hflow.2.2.1
    rw [hstate] at hready
    cases hready
  | app =>
    rw [hrecv] at hflow
    obtain ⟨-, delivered, inflight, -, -, hready, -⟩ := hflow
    rw [hstate] at hready
    cases hready
  | appReady =>
    rw [hrecv] at hflow
    obtain ⟨-, -, delivered, m, inflight, -, -, -, hready, -⟩ := hflow
    rw [hstate] at hready
    cases hready
  | v1 =>
    rw [hrecv] at hflow
    exact hflow.elim

/-- What is in the buffer of an end that waits for a key is the front of that key. -/
theorem Receives.key_prefix (hrec : Receives h b InStep who p peer (x ++ y) t)
    (hstate : t.recvState = .keyMaybeV1 ∨ t.recvState = .key) (hx : x ≠ [])
    (hf : h.Fair b InStep) (hle : (t.recvBuffer ++ x).length ≤ keyLen) :
    t.recvBuffer ++ x <+: h.ell who.peer := by
  have hfrom : FromKey h b who.peer (peer.outgoing.withOctets (x ++ y))
      (t.recvBuffer ++ (x ++ y)) := by
    have hflow := hrec.flow
    unfold Flow at hflow
    rcases hstate with hstate | hstate <;> rw [hstate] at hflow <;> exact hflow.2
  obtain ⟨-, after, -, hstream⟩ := hfrom.exists_after
    (List.append_ne_nil_of_right_ne_nil _ (List.append_ne_nil_of_left_ne_nil hx _))
  rw [← List.append_assoc] at hstream
  apply prefix_of_append_eq hstream
  rw [hf.ell]
  exact hle

/-- A key holds no `version` command where v1 does. -/
theorem not_version_of_front (hf : h.Fair b InStep) {buffer : Bytes}
    (hfront : buffer <+: h.ell .initiator)
    (hle : h.magic.length + v1VersionCommand.length ≤ buffer.length) :
    (buffer.drop h.magic.length).take v1VersionCommand.length ≠ v1VersionCommand := by
  obtain ⟨rest, hrest⟩ := hfront
  have hnotV1 := hf.notV1
  rw [← hrest, List.drop_append_of_le_length (by omega), List.take_append_of_le_length
    (by rw [List.length_drop]; omega)] at hnotV1
  exact hnotV1

/-- Octets in the buffer change nothing else of an end. -/
theorem Own.buffered (hown : Own h b who (p.withTransport t)) (x : Bytes) :
    Own h b who (p.withTransport (t.buffered x)) :=
  ⟨hown.magic, hown.initiating, hown.ell, ⟨hown.level.1, hown.level.2, hown.level.3⟩, hown.valid,
    hown.pos, hown.phase⟩

/-- Two transports that differ in their receiving half. -/
structure SameSending (t t' : V2Transport b) : Prop where
  magic : t'.magic = t.magic
  initiating : t'.initiating = t.initiating
  ellOurs : t'.ellOurs = t.ellOurs
  sendBuffer : t'.sendBuffer = t.sendBuffer
  sendPos : t'.sendPos = t.sendPos
  sendState : t'.sendState = t.sendState
  sending : t'.cipher.map Cipher.sending = t.cipher.map Cipher.sending

section SameSending

variable {t' : V2Transport b} (hsame : SameSending t t')
include hsame

theorem SameSending.held : t'.held = t.held := by
  unfold V2Transport.held
  rw [hsame.sendBuffer, hsame.sendPos]

theorem SameSending.outgoing (p : Party b) :
    (p.withTransport t').outgoing = (p.withTransport t).outgoing := by
  unfold Party.outgoing
  show (⟨t'.sendState, t'.cipher.map Cipher.sending, p.sender.sent,
    p.sender.wire ++ t'.held.drop p.sender.unmarked⟩ : Outgoing b) = _
  rw [hsame.sendState, hsame.sending, hsame.held]
  rfl

theorem SameSending.own (hown : Own h b who (p.withTransport t))
    (hphase : Phase h b who t' p.sender.sent) : Own h b who (p.withTransport t') := by
  have hlevel : p.sender.offered <+: t.held.drop p.sender.unmarked ∧
      p.sender.unmarked ≤ t.held.length := ⟨hown.level.1, hown.level.2⟩
  rw [← hsame.held] at hlevel
  refine ⟨hsame.magic.trans hown.magic, hsame.initiating.trans hown.initiating,
    hsame.ellOurs.trans hown.ell, ⟨hlevel.1, hlevel.2, List.prefix_rfl⟩, hown.valid, ?_, hphase⟩
  show t'.sendPos < t'.sendBuffer.length ∨ t'.sendPos = 0 ∧ t'.sendBuffer = []
  rw [hsame.sendPos, hsame.sendBuffer]
  exact hown.pos

/-- A receiving half that has gone on, past the handshake. -/
theorem SameSending.receives (hrec : Receives h b InStep who p peer x t)
    (hphase : Phase h b who t' p.sender.sent)
    (hflow : Flow h b InStep who.peer (peer.outgoing.withOctets y) t' p.taken) :
    Receives h b InStep who p peer y t' := by
  refine ⟨hsame.own hrec.own hphase, hflow, ?_⟩
  rw [hsame.outgoing]
  exact hrec.back

end SameSending

/-- An end past the handshake, by its cipher. -/
theorem phase_of_cipher {sent : List SerializedMessage} (hsend : t.sendState = .ready)
    (hrecv : t.recvState = .version ∨ t.recvState = .app ∨ t.recvState = .appReady)
    {cipher : Cipher b.Sending b.Receiving} (hcipher : t.cipher = some cipher)
    (hterminator : cipher.recvGarbageTerminator = (h.cipher b who).recvGarbageTerminator) :
    Phase h b who t sent := by
  have hpast : t.recvState ≠ .keyMaybeV1 ∧ t.recvState ≠ .key ∧ t.recvState ≠ .v1 := by
    rcases hrecv with hrecv | hrecv | hrecv <;> rw [hrecv] <;> decide
  unfold Phase
  rw [hsend]
  exact ⟨hpast.1, hpast.2.1, hpast.2.2, cipher, hcipher, hterminator⟩

/-- Octets of a key move to the buffer. -/
theorem Flow.buffered_key {out : Outgoing b} {taken : List NetMessage} {r : Role}
    (hflow : Flow h b InStep r (out.withOctets (x ++ y)) t taken)
    (hstate : t.recvState = .keyMaybeV1 ∨ t.recvState = .key) {t' : V2Transport b}
    (hstate' : t'.recvState = .keyMaybeV1 ∨ t'.recvState = .key)
    (hbuffer : t'.recvBuffer = t.recvBuffer ++ x) :
    Flow h b InStep r (out.withOctets y) t' taken := by
  have hkey : taken = [] ∧
      FromKey h b r (out.withOctets (x ++ y)) (t.recvBuffer ++ (x ++ y)) := by
    unfold Flow at hflow
    rcases hstate with hstate | hstate <;> rw [hstate] at hflow <;> exact hflow
  have hkey' : taken = [] ∧ FromKey h b r (out.withOctets y) (t'.recvBuffer ++ y) := by
    rw [hbuffer, List.append_assoc]
    exact hkey
  unfold Flow
  rcases hstate' with hstate' | hstate' <;> rw [hstate'] <;> exact hkey'

/-- An end that holds nothing has nothing offered or to be marked. -/
theorem Own.of_held_nil (hown : Own h b who p) (hheld : p.transport.held = []) :
    p.sender.offered = [] ∧ p.sender.unmarked = 0 := by
  have hle := hown.level.offered_le
  rw [hheld, List.length_nil] at hle
  exact ⟨List.eq_nil_of_length_eq_zero (by omega), by omega⟩

/-- **The octets that tell v1 from v2.** -/
theorem turn_processMaybeV1Bytes (hf : h.Fair b InStep)
    (hrec : Receives h b InStep who p peer (x ++ y) t) (hstate : t.recvState = .keyMaybeV1)
    (hx : x ≠ []) (hle : (t.recvBuffer ++ x).length ≤ v1PrefixLen) :
    Sat processMaybeV1Bytes (t.buffered x)
      (fun taken t' => taken = false ∧ Receives h b InStep who p peer y t') fun _ _ => False := by
  have hkey := hrec.key_prefix (.inl hstate) hx hf (Nat.le_trans hle (by decide))
  obtain ⟨hsend, hbuffer, rfl, hprv, hgarbage, hsent⟩ := hrec.own.phase.of_keyMaybeV1 hstate
  have hmagic : t.magic = h.magic := hrec.own.magic
  have hell : t.ellOurs = h.ell .responder := hrec.own.ell
  unfold processMaybeV1Bytes
  rw [sat_bind, sat_get]
  dsimp only
  by_cases hfront : ¬ (t.buffered x).recvBuffer <+: (t.buffered x).magic ++ v1VersionCommand
  · -- a key, and the handshake starts
    rw [if_pos hfront]
    have hpos : t.sendPos = 0 := by
      rcases hrec.own.pos with hlt | hzero
      · rw [hbuffer, List.length_nil] at hlt
        exact absurd hlt (Nat.not_lt_zero _)
      · exact hzero.1
    have hheld : t.held = [] := by
      unfold held
      rw [show t.sendBuffer = [] from hbuffer, List.drop_nil]
    obtain ⟨hoffered, hunmarked⟩ := hrec.own.of_held_nil hheld
    have hoffered' : p.sender.offered = [] := hoffered
    have hunmarked' : p.sender.unmarked = 0 := hunmarked
    refine ⟨rfl, ?_, ?_, ?_⟩
    · refine ⟨hmagic, hrec.own.initiating, hell, ⟨?_, ?_, List.prefix_rfl⟩, hrec.own.valid,
        .inl ?_, rfl, hprv, hgarbage, hsent⟩
      · show p.sender.offered <+: _
        rw [hoffered']
        exact List.nil_prefix
      · show p.sender.unmarked ≤ _
        rw [hunmarked']
        exact Nat.zero_le _
      · show t.sendPos < (t.ellOurs ++ t.sendGarbage).length
        rw [hpos, hell, List.length_append, hf.ell]
        exact Nat.lt_add_right _ (by decide)
    · exact hrec.flow.buffered_key (.inl hstate) (.inr rfl) rfl
    · apply hrec.back.start_handshake hsend rfl
      show p.sender.wire ++ ((t.ellOurs ++ t.sendGarbage).drop t.sendPos).drop p.sender.unmarked =
        p.sender.wire ++ t.held.drop p.sender.unmarked ++ _
      rw [hheld, hunmarked', hpos, hell, show t.sendGarbage = _ from hgarbage, List.drop_nil,
        List.append_nil]
      rfl
  · rw [if_neg hfront]
    have hfront' : t.recvBuffer ++ x <+: t.magic ++ v1VersionCommand := not_not.mp hfront
    by_cases hwhole : (t.buffered x).recvBuffer.length = v1PrefixLen
    · -- the key would be taken for v1
      have hwhole' : (t.recvBuffer ++ x).length = v1PrefixLen := hwhole
      have hlen : (t.magic ++ v1VersionCommand).length = v1PrefixLen := by
        rw [List.length_append, hmagic, hf.magic]
        rfl
      have heq := hfront'.eq_of_length (hwhole'.trans hlen.symm)
      have hle' : h.magic.length + v1VersionCommand.length ≤ (t.recvBuffer ++ x).length := by
        rw [hwhole', hf.magic]
        decide
      refine absurd ?_ (not_version_of_front hf hkey hle')
      rw [heq, hmagic, List.drop_left' rfl, List.take_length]
    · rw [if_neg hwhole]
      exact ⟨rfl, hrec.own.buffered x, hrec.flow.buffered_key (.inl hstate) (.inl hstate) rfl,
        hrec.back⟩

/-! ### The garbage -/

/-- What the rest of the handshake of an end does for its peer. -/
theorem Flow.ready {out out' : Outgoing b} {taken : List NetMessage} {r : Role}
    (hflow : Flow h b InStep r out t taken) (hstate : out.state = .awaitingKey)
    (hstate' : out'.state = .ready) (hsent : out'.sent = []) {packet : Bytes}
    {sending : b.Sending} (hsending : out'.sending = some sending)
    (hpacket : b.encrypt (h.cipher b r).sending [] (h.garbage r) = .ok (packet, sending))
    (hoctets : out'.octets = out.octets ++ (h.terminator b r ++ packet)) :
    Flow h b InStep r out' t taken := by
  have hafter : ∀ after, AfterGarbage h b r out after →
      after = [] ∧ AfterGarbage h b r out' (h.terminator b r ++ packet) := by
    intro after hafter
    unfold AfterGarbage at hafter ⊢
    rw [hstate] at hafter
    rw [hstate']
    refine ⟨hafter, packet, sending, hsending, ?_, rfl⟩
    rw [hsent]
    exact ⟨packet, sending, [], hpacket, ⟨rfl, rfl⟩, (List.append_nil packet).symm⟩
  have hnotMaybe : out'.state ≠ .maybeV1 := by
    rw [hstate']
    exact SendState.noConfusion
  have hfrom : ∀ buffer, FromKey h b r out (buffer ++ out.octets) →
      FromKey h b r out' (buffer ++ out'.octets) := by
    intro buffer hfrom
    unfold FromKey at hfrom
    rw [hstate] at hfrom
    obtain ⟨after, hold, hstream⟩ := hfrom
    obtain ⟨rfl, hnew⟩ := hafter after hold
    apply fromKey_of_after hnotMaybe hnew
    rw [hoctets, ← List.append_assoc, hstream, List.append_nil, List.append_assoc]
  unfold Flow at hflow ⊢
  cases hrecv : t.recvState with
  | keyMaybeV1 | key =>
    rw [hrecv] at hflow
    exact ⟨hflow.1, hfrom _ hflow.2⟩
  | garbGarbterm =>
    rw [hrecv] at hflow
    obtain ⟨htaken, -, hlt, ⟨after, hold, hstream⟩, hcipher⟩ := hflow
    obtain ⟨rfl, hnew⟩ := hafter after hold
    refine ⟨htaken, hnotMaybe, hlt, ⟨_, hnew, ?_⟩, hcipher⟩
    rw [hoctets, ← List.append_assoc, hstream, List.append_nil]
  | version =>
    rw [hrecv] at hflow
    have hready := hflow.2.2.1
    rw [hstate] at hready
    cases hready
  | app =>
    rw [hrecv] at hflow
    obtain ⟨-, delivered, inflight, -, -, hready, -⟩ := hflow
    rw [hstate] at hready
    cases hready
  | appReady =>
    rw [hrecv] at hflow
    obtain ⟨-, -, delivered, m, inflight, -, -, -, hready, -⟩ := hflow
    rw [hstate] at hready
    cases hready
  | v1 =>
    rw [hrecv] at hflow
    exact hflow.elim

/-- **The octets of a key.** -/
theorem turn_processKeyBytes (hf : h.Fair b InStep) (hb : b.InOrder InStep)
    (hrec : Receives h b InStep who p peer (x ++ y) t) (hstate : t.recvState = .key)
    (hx : x ≠ []) (hle : (t.recvBuffer ++ x).length ≤ keyLen) :
    Sat processKeyBytes (t.buffered x)
      (fun _ t' => Receives h b InStep who p peer y t') fun _ _ => False := by
  have hkey := hrec.key_prefix (.inr hstate) hx hf hle
  obtain ⟨hsend, hprv, hgarbage, hsent⟩ := hrec.own.phase.of_key hstate
  have hmagic : t.magic = h.magic := hrec.own.magic
  have hinitiating : t.initiating = decide (who = .initiator) := hrec.own.initiating
  have hell : t.ellOurs = h.ell who := hrec.own.ell
  have hpos : t.sendPos ≤ t.sendBuffer.length := by
    rcases hrec.own.pos with hlt | hzero
    · exact Nat.le_of_lt hlt
    · exact Nat.le_trans (Nat.le_of_eq hzero.1) (Nat.zero_le _)
  unfold processKeyBytes
  rw [sat_bind, sat_get]
  dsimp only
  rw [if_neg]
  · by_cases hshort : (t.buffered x).recvBuffer.length < keyLen
    · rw [if_pos hshort]
      exact ⟨hrec.own.buffered x, hrec.flow.buffered_key (.inr hstate) (.inr hstate) rfl,
        hrec.back⟩
    · rw [if_neg hshort]
      have hwhole : t.recvBuffer ++ x = h.ell who.peer := by
        apply hkey.eq_of_length
        rw [hf.ell]
        exact Nat.le_antisymm hle (Nat.le_of_not_lt hshort)
      have hcipher : b.establish (h.prvKey who) t.ellOurs (t.recvBuffer ++ x) t.initiating
          t.magic = h.cipher b who := by
        rw [hell, hwhole, hinitiating, hmagic]
        rfl
      obtain ⟨packet, sending, -, -, hpacket, -⟩ := hb.packet (h.cipher b who).sending _
        (hf.inStep who) [] (h.garbage who) (Nat.zero_le _)
      have hpacket' : b.encrypt (h.cipher b who).sending [] t.sendGarbage = .ok (packet, sending) := by
        rw [show t.sendGarbage = _ from hgarbage]
        exact hpacket
      rw [show (t.buffered x).prvKey = _ from hprv]
      dsimp only
      rw [show b.establish (h.prvKey who) (t.buffered x).ellOurs (t.buffered x).recvBuffer
        (t.buffered x).initiating (t.buffered x).magic = h.cipher b who from hcipher]
      rw [show b.encrypt (h.cipher b who).sending [] (t.buffered x).sendGarbage = _ from hpacket']
      have hgrow : (t.sendBuffer ++ h.terminator b who ++ packet).drop t.sendPos =
          t.held ++ (h.terminator b who ++ packet) := by
        unfold held
        rw [List.append_assoc, List.drop_append_of_le_length hpos]
      obtain ⟨hlevel, hemitted⟩ := hrec.own.level.grow (h.terminator b who ++ packet)
      have hflow := hrec.flow
      unfold Flow at hflow
      rw [hstate] at hflow
      obtain ⟨htaken, hfrom⟩ := hflow
      obtain ⟨hput, after, hafter, hstream⟩ := hfrom.exists_after
        (List.append_ne_nil_of_right_ne_nil _ (List.append_ne_nil_of_left_ne_nil hx _))
      refine ⟨⟨hmagic, hinitiating, hell, ?_, hrec.own.valid, ?_, ?_⟩, ?_, ?_⟩
      · show Sender.Level _ ((t.sendBuffer ++ h.terminator b who ++ packet).drop t.sendPos)
          ((t.sendBuffer ++ h.terminator b who ++ packet).drop t.sendPos)
        rw [hgrow]
        exact ⟨hlevel.1, hlevel.2, hlevel.3⟩
      · left
        show t.sendPos < (t.sendBuffer ++ h.terminator b who ++ packet).length
        rw [List.length_append, List.length_append, hf.terminator]
        have hterm : 0 < garbageTerminatorLen := by decide
        omega
      · exact ⟨RecvState.noConfusion, RecvState.noConfusion, RecvState.noConfusion, _, rfl, rfl⟩
      · refine ⟨htaken, hput, ?_, ⟨after, hafter, ?_⟩, _, rfl, ?_⟩
        · exact Nat.add_pos_right _ (by decide)
        · have hstream' : t.recvBuffer ++ (x ++ y) = h.ell who.peer ++
            (h.garbage who.peer ++ after) := hstream
          rw [← List.append_assoc, hwhole] at hstream'
          exact List.append_cancel_left hstream'
        · rw [Role.peer_peer]
      · refine hrec.back.ready hsend rfl hsent rfl hpacket ?_
        show p.sender.wire ++ ((t.sendBuffer ++ h.terminator b who ++ packet).drop t.sendPos).drop
          p.sender.unmarked = _
        rw [hgrow]
        exact hemitted
  · rintro ⟨hresponder, hlong, hversion⟩
    have hwho : who = .responder := by
      cases who with
      | initiator => exact absurd hinitiating hresponder
      | responder => rfl
    subst hwho
    have hlong' : h.magic.length + v1VersionCommand.length ≤ (t.recvBuffer ++ x).length := by
      rw [← hmagic]
      exact hlong
    apply not_version_of_front hf hkey hlong'
    rw [← hmagic]
    exact hversion

/-- Up to its terminator, what an end sends after its key is its garbage and its
terminator. -/
theorem AfterGarbage.prefix_terminator {out : Outgoing b} {r : Role} {buffer after : Bytes}
    (hafter : AfterGarbage h b r out after) (hf : h.Fair b InStep)
    (hstream : buffer ++ y = h.garbage r ++ after)
    (hle : buffer.length ≤ (h.garbage r).length + garbageTerminatorLen) :
    buffer <+: h.garbage r ++ h.terminator b r ∧
      (buffer.length = (h.garbage r).length + garbageTerminatorLen →
        out.state = .ready ∧ buffer = h.garbage r ++ h.terminator b r ∧
          after = h.terminator b r ++ y) := by
  have hlen : (h.garbage r ++ h.terminator b r).length =
      (h.garbage r).length + garbageTerminatorLen := by
    rw [List.length_append, hf.terminator]
  have hcount := congrArg List.length hstream
  rw [List.length_append, List.length_append] at hcount
  have hterm : 0 < garbageTerminatorLen := by decide
  unfold AfterGarbage at hafter
  have hshort : after = [] → buffer <+: h.garbage r ++ h.terminator b r ∧
      (buffer.length = (h.garbage r).length + garbageTerminatorLen →
        out.state = .ready ∧ buffer = h.garbage r ++ h.terminator b r ∧
          after = h.terminator b r ++ y) := by
    rintro rfl
    rw [List.append_nil] at hstream
    rw [List.length_nil] at hcount
    refine ⟨List.IsPrefix.trans ⟨y, hstream⟩ (List.prefix_append _ _), ?_⟩
    intro hfull
    omega
  cases hstate : out.state with
  | ready =>
    rw [hstate] at hafter
    obtain ⟨octets, sending, -, -, rfl⟩ := hafter
    rw [← List.append_assoc] at hstream
    have hfront := prefix_of_append_eq hstream (by rw [hlen]; exact hle)
    refine ⟨hfront, fun hfull => ?_⟩
    have hwhole := hfront.eq_of_length (by rw [hlen]; exact hfull)
    rw [hwhole] at hstream
    exact ⟨rfl, hwhole, by rw [List.append_cancel_left hstream]⟩
  | maybeV1 | awaitingKey | v1 =>
    rw [hstate] at hafter hshort
    exact hshort hafter

/-- Short of its end, the garbage does not end with the terminator. -/
theorem not_terminator_of_lt (hf : h.Fair b InStep) {r : Role} {buffer : Bytes}
    (hfront : buffer <+: h.garbage r ++ h.terminator b r)
    (hlt : buffer.length < (h.garbage r).length + garbageTerminatorLen)
    (hle : garbageTerminatorLen ≤ buffer.length) :
    buffer.drop (buffer.length - garbageTerminatorLen) ≠ h.terminator b r := by
  obtain ⟨rest, hrest⟩ := hfront
  have hearly := hf.notEarly r (buffer.length - garbageTerminatorLen) (by omega)
  rw [← hrest, List.drop_append_of_le_length (by omega), List.take_left'
    (by rw [List.length_drop]; omega)] at hearly
  exact hearly

/-- **The octets of the garbage**, one at a time. -/
theorem turn_processGarbageBytes (hf : h.Fair b InStep)
    (hrec : Receives h b InStep who p peer (x ++ y) t) (hstate : t.recvState = .garbGarbterm)
    (hx : x.length = 1) :
    Sat processGarbageBytes (t.buffered x)
      (fun _ t' => Receives h b InStep who p peer y t') fun _ _ => False := by
  obtain ⟨hsend, -, cipher, hcipher, hterminator⟩ := hrec.own.phase.of_cipher
    (by rw [show (p.withTransport t).transport.recvState = _ from hstate]
        exact RecvState.noConfusion)
    (by rw [show (p.withTransport t).transport.recvState = _ from hstate]
        exact RecvState.noConfusion)
  have hflow := hrec.flow
  unfold Flow at hflow
  rw [hstate] at hflow
  obtain ⟨htaken, hput, hlt, ⟨after, hafter, hstream⟩, cipher', hcipher', hreceiving⟩ := hflow
  have heq : cipher' = cipher := Option.some.inj (hcipher'.symm.trans hcipher)
  subst heq
  have hrecv : cipher'.recvGarbageTerminator = h.terminator b who.peer := by
    rw [hterminator, ← hf.recvTerminator, Role.peer_peer]
  have hstream' : t.recvBuffer ++ x ++ y = h.garbage who.peer ++ after := by
    rw [List.append_assoc]
    exact hstream
  have hle : (t.recvBuffer ++ x).length ≤
      (h.garbage who.peer).length + garbageTerminatorLen := by
    rw [List.length_append]
    omega
  obtain ⟨hfront, hfull⟩ := hafter.prefix_terminator hf hstream' hle
  have hstay : (t.recvBuffer ++ x).length <
      (h.garbage who.peer).length + garbageTerminatorLen →
        Receives h b InStep who p peer y (t.buffered x) := by
    intro hlt'
    refine ⟨hrec.own.buffered x, ?_, hrec.back⟩
    unfold Flow
    rw [show (t.buffered x).recvState = _ from hstate]
    exact ⟨htaken, hput, hlt', ⟨after, hafter, hstream'⟩, cipher', hcipher, hreceiving⟩
  unfold processGarbageBytes
  rw [sat_bind, sat_get]
  by_cases hshort : (t.buffered x).recvBuffer.length < garbageTerminatorLen
  · rw [if_pos hshort]
    exact hstay (Nat.lt_of_lt_of_le hshort (Nat.le_add_left _ _))
  · rw [if_neg hshort, show (t.buffered x).cipher = _ from hcipher]
    dsimp only
    rw [recvBuffer_buffered]
    by_cases hend : (t.recvBuffer ++ x).length =
        (h.garbage who.peer).length + garbageTerminatorLen
    · -- the terminator is whole
      obtain ⟨hready, hwhole, rfl⟩ := hfull hend
      have hcut : (t.recvBuffer ++ x).length - garbageTerminatorLen =
          (h.garbage who.peer).length := by omega
      rw [hcut, hwhole, List.drop_left' rfl, List.take_left' rfl, if_pos hrecv.symm]
      have hsame : SameSending t { t.buffered x with
          cipher := some cipher', recvAad := h.garbage who.peer, recvBuffer := []
          recvState := .version } :=
        ⟨rfl, rfl, rfl, rfl, rfl, rfl, by rw [show t.cipher = _ from hcipher]⟩
      refine hsame.receives hrec (phase_of_cipher hsend (.inl rfl) rfl hterminator)
        ⟨htaken, rfl, ?_⟩
      unfold AfterGarbage at hafter
      rw [hready] at hafter
      obtain ⟨octets, sending, hsending, hencrypts, hoctets⟩ := hafter
      refine ⟨hready, (h.cipher b who.peer).sending, sending, hsending, ?_, cipher', rfl, ?_⟩
      · rw [show octets = y from (List.append_cancel_left hoctets).symm] at hencrypts
        exact hencrypts
      · show if ([] : Bytes).length < lengthLen then InStep _ cipher'.receiving else _
        rw [if_pos (by decide), hreceiving]
        exact hf.inStep who.peer
    · have hlt' : (t.recvBuffer ++ x).length <
          (h.garbage who.peer).length + garbageTerminatorLen := Nat.lt_of_le_of_ne hle hend
      have hnot := not_terminator_of_lt hf hfront hlt' (Nat.le_of_not_lt hshort)
      rw [← hrecv] at hnot
      rw [if_neg hnot, if_neg]
      · exact hstay hlt'
      · intro hmax
        have hgarbage := hf.garbage who.peer
        have hmax' : (t.recvBuffer ++ x).length = maxGarbageLen + garbageTerminatorLen := hmax
        omega

end Rules

end Session

end BtclibNode
