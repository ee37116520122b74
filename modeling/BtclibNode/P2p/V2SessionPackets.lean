/-
# The packets of a session

A packet is read in pieces: its length is decrypted once, and it is decrypted once it is
whole.  With the turns of the handshake, every call of `received_bytes` keeps the session
sound.
-/
import BtclibNode.P2p.V2SessionRun

namespace BtclibNode

open StateExcept V2Transport

namespace Session

section Packets

variable {h : Handshake} {b : Bip324} {InStep : b.Sending → b.Receiving → Prop} {who : Role}
  {p peer : Party b} {t : V2Transport b} {x y : Bytes}

/-- What the octets of packets leave: the packet is still read, or it is decrypted. -/
def Decrypts (b : Bip324) (InStep : b.Sending → b.Receiving → Prop) (out : Outgoing b)
    (packets : List (Bytes × Bytes)) (t t' : V2Transport b) : Prop :=
  t'.recvState = t.recvState ∧ t'.recvAad = t.recvAad ∧ Reading b InStep out t' packets ∨
  ∃ contents aad more, packets = (contents, aad) :: more ∧ t'.recvAad = [] ∧
    t'.recvBuffer = [] ∧ Reading b InStep out t' more ∧
    (t.recvState = .version → t'.recvState = .app) ∧
    (t.recvState ≠ .version → t'.recvState = .appReady ∧ t'.recvDecodeBuffer = contents)

/-- What a receiving half in step makes of a packet. -/
theorem inOrder_of_encrypt (hb : b.InOrder InStep) {front s₁ : b.Sending} {receiving : b.Receiving}
    (hin : InStep front receiving) {contents aad packet : Bytes}
    (hle : contents.length ≤ maxContentsLen)
    (hencrypt : b.encrypt front contents aad = .ok (packet, s₁)) :
    packet.length = contents.length + expansion ∧ ∃ r' r'',
      b.decryptLength receiving (packet.take lengthLen) = (contents.length, r') ∧
      b.decrypt r' (packet.drop lengthLen) aad = .ok ((contents, false), r'') ∧ InStep s₁ r'' := by
  obtain ⟨packet', s', r', r'', hencrypt', hlen, hlength, hdecrypt, hnext⟩ :=
    hb.packet front receiving hin contents aad hle
  rw [hencrypt] at hencrypt'
  cases hencrypt'
  exact ⟨hlen, r', r'', hlength, hdecrypt, hnext⟩

/-- A length that is whole is decrypted. -/
theorem processPacketBytes_length {cipher : Cipher b.Sending b.Receiving}
    (hcipher : t.cipher = some cipher) (hwhole : t.recvBuffer.length = lengthLen) {n : ℕ}
    {receiving : b.Receiving}
    (hlength : b.decryptLength cipher.receiving t.recvBuffer = (n, receiving))
    (hle : n ≤ maxContentsLen) :
    processPacketBytes t =
      .ok () { t with recvLen := n, cipher := some { cipher with receiving := receiving } } := by
  have hparts : (b.decryptLength cipher.receiving t.recvBuffer).1 = n ∧
      (b.decryptLength cipher.receiving t.recvBuffer).2 = receiving := by
    rw [hlength]
    exact ⟨rfl, rfl⟩
  obtain ⟨rfl, rfl⟩ := hparts
  apply Sat.eq_ok
  unfold processPacketBytes
  rw [sat_bind, sat_get, if_pos hwhole, hcipher]
  dsimp only
  rw [sat_bind]
  show Sat (if maxContentsLen < _ then _ else _) _ _ _
  rw [if_neg (Nat.not_lt.mpr hle)]
  exact ⟨rfl, rfl⟩

/-- Octets that are neither a whole length nor a whole packet wait. -/
theorem processPacketBytes_wait (hlength : t.recvBuffer.length ≠ lengthLen)
    (hpacket : ¬ (lengthLen < t.recvBuffer.length ∧ t.recvBuffer.length = t.recvLen + expansion)) :
    processPacketBytes t = .ok () t := by
  apply Sat.eq_ok
  unfold processPacketBytes
  rw [sat_bind, sat_get, if_neg hlength, if_neg hpacket]
  exact ⟨rfl, rfl⟩

/-- The transport a decrypted packet leaves. -/
def decrypted (t : V2Transport b) (cipher : Cipher b.Sending b.Receiving) (contents : Bytes) :
    V2Transport b :=
  let t' := { t with cipher := some cipher, recvAad := [], recvBuffer := [] }
  if t.recvState = .version then { t' with recvState := .app }
  else { t' with recvState := .appReady, recvDecodeBuffer := contents }

/-- A packet that is whole is decrypted. -/
theorem processPacketBytes_packet {cipher : Cipher b.Sending b.Receiving}
    (hcipher : t.cipher = some cipher) (hlong : lengthLen < t.recvBuffer.length)
    (hwhole : t.recvBuffer.length = t.recvLen + expansion) {contents : Bytes}
    {receiving : b.Receiving}
    (hdecrypt : b.decrypt cipher.receiving (t.recvBuffer.drop lengthLen) t.recvAad =
      .ok ((contents, false), receiving)) :
    processPacketBytes t =
      .ok () (decrypted t { cipher with receiving := receiving } contents) := by
  apply Sat.eq_ok
  unfold processPacketBytes
  rw [sat_bind, sat_get, if_neg (Nat.ne_of_gt hlong), if_pos ⟨hlong, hwhole⟩, hcipher]
  dsimp only
  rw [hdecrypt]
  dsimp only
  unfold decrypted
  by_cases hversion : t.recvState = .version
  · rw [if_neg Bool.false_ne_true, if_pos hversion, if_pos hversion]
    exact ⟨rfl, rfl⟩
  · rw [if_neg Bool.false_ne_true, if_neg hversion, if_neg hversion]
    exact ⟨rfl, rfl⟩

theorem decrypting_of_short {cipher : Cipher b.Sending b.Receiving} {front : b.Sending}
    (hcipher : t.cipher = some cipher) (hshort : t.recvBuffer.length < lengthLen)
    (hin : InStep front cipher.receiving) : Decrypting b InStep t front := by
  refine ⟨cipher, hcipher, ?_⟩
  rw [if_pos hshort]
  exact hin

theorem decrypting_of_long {cipher : Cipher b.Sending b.Receiving} {front : b.Sending}
    (hcipher : t.cipher = some cipher) (hlong : lengthLen ≤ t.recvBuffer.length)
    {receiving : b.Receiving} (hin : InStep front receiving)
    (hlength : b.decryptLength receiving (t.recvBuffer.take lengthLen) =
      (t.recvLen, cipher.receiving)) : Decrypting b InStep t front := by
  refine ⟨cipher, hcipher, ?_⟩
  rw [if_neg (Nat.not_lt.mpr hlong)]
  exact ⟨receiving, hin, hlength⟩

section Decrypted

variable (t) (cipher : Cipher b.Sending b.Receiving) (contents : Bytes)

theorem decrypted_buffers : (decrypted t cipher contents).cipher = some cipher ∧
    (decrypted t cipher contents).recvAad = [] ∧
    (decrypted t cipher contents).recvBuffer = [] := by
  unfold decrypted
  dsimp only
  split_ifs <;> exact ⟨rfl, rfl, rfl⟩

theorem recvState_decrypted :
    (t.recvState = .version → (decrypted t cipher contents).recvState = .app) ∧
    (t.recvState ≠ .version → (decrypted t cipher contents).recvState = .appReady ∧
      (decrypted t cipher contents).recvDecodeBuffer = contents) := by
  unfold decrypted
  constructor
  · intro hversion
    rw [if_pos hversion]
  · intro hpast
    rw [if_neg hpast]
    exact ⟨rfl, rfl⟩

end Decrypted

theorem sameSending_decrypted {cipher : Cipher b.Sending b.Receiving} (contents : Bytes)
    (hsending : t.cipher.map Cipher.sending = some cipher.sending) :
    SameSending t (decrypted (t.buffered x) cipher contents) := by
  unfold decrypted
  dsimp only
  split_ifs <;> exact ⟨rfl, rfl, rfl, rfl, rfl, rfl, hsending.symm⟩

/-- **The octets of a packet**: its length is decrypted once, and it is once it is whole. -/
theorem processPacketBytes_reading (hb : b.InOrder InStep) {out : Outgoing b}
    {packets : List (Bytes × Bytes)}
    (hread : Reading b InStep (out.withOctets (x ++ y)) t packets)
    (hpackets : ∀ packet ∈ packets, packet.1.length ≤ maxContentsLen)
    (haad : ∀ packet ∈ packets.head?, packet.2 = t.recvAad) (hx : x ≠ [])
    (hmax : x.length ≤ (if t.recvBuffer.length < lengthLen then lengthLen - t.recvBuffer.length
      else expansion + t.recvLen - t.recvBuffer.length)) :
    ∃ t', processPacketBytes (t.buffered x) = .ok () t' ∧ SameSending t t' ∧
      t'.cipher.map Cipher.recvGarbageTerminator = t.cipher.map Cipher.recvGarbageTerminator ∧
      Decrypts b InStep (out.withOctets y) packets t t' := by
  obtain ⟨hready, front, sending, hsending, hencrypts, cipher, hcipher, hdecrypting⟩ := hread
  have hencrypts' : Encrypts b front packets (t.recvBuffer ++ x ++ y) sending := by
    rw [List.append_assoc]
    exact hencrypts
  have hxpos := List.length_pos_iff.mpr hx
  cases packets with
  | nil =>
    have hnil := congrArg List.length hencrypts'.1
    rw [List.length_append, List.length_append, List.length_nil] at hnil
    omega
  | cons first more =>
    obtain ⟨contents, aad⟩ := first
    have haad' : aad = t.recvAad := haad (contents, aad) rfl
    have hle : contents.length ≤ maxContentsLen := hpackets (contents, aad) List.mem_cons_self
    obtain ⟨packet, s₁, rest, hencrypt, hmore, hcut⟩ := hencrypts'
    have hlonger : lengthLen < expansion := by decide
    have hsum : (t.recvBuffer ++ x).length = t.recvBuffer.length + x.length :=
      List.length_append
    have hstays : ∀ t' : V2Transport b, t'.recvBuffer = t.recvBuffer ++ x →
        Decrypting b InStep t' front →
        Reading b InStep (out.withOctets y) t' ((contents, aad) :: more) := by
      intro t' hbuffer hdecrypting'
      refine ⟨hready, front, sending, hsending, ?_, hdecrypting'⟩
      rw [hbuffer]
      exact ⟨packet, s₁, rest, hencrypt, hmore, hcut⟩
    have htake : ∀ n ≤ (t.recvBuffer ++ x).length, n ≤ packet.length →
        (t.recvBuffer ++ x).take n = packet.take n := by
      intro n hn hn'
      have hmore : (t.recvBuffer ++ x ++ y).take n = (t.recvBuffer ++ x).take n :=
        List.take_append_of_le_length hn
      rw [← hmore, hcut, List.take_append_of_le_length hn']
    by_cases hlow : t.recvBuffer.length < lengthLen
    · -- the length is still read
      rw [if_pos hlow] at hdecrypting hmax
      obtain ⟨hlen, r', r'', hlength, -, -⟩ := inOrder_of_encrypt hb hdecrypting hle hencrypt
      by_cases hwhole : (t.recvBuffer ++ x).length = lengthLen
      · have hfront : packet.take lengthLen = t.recvBuffer ++ x := by
          rw [← htake lengthLen (by omega) (by omega), ← hwhole, List.take_length]
        rw [hfront] at hlength
        refine ⟨_, processPacketBytes_length (t := t.buffered x) hcipher hwhole hlength hle,
          ⟨rfl, rfl, rfl, rfl, rfl, rfl, ?_⟩, ?_, .inl ⟨rfl, rfl, ?_⟩⟩
        · rw [hcipher]
          rfl
        · rw [hcipher]
          rfl
        · apply hstays _ rfl
          apply decrypting_of_long rfl (Nat.le_of_eq hwhole.symm) hdecrypting
          show b.decryptLength cipher.receiving ((t.recvBuffer ++ x).take lengthLen) = _
          rw [← hwhole, List.take_length]
          exact hlength
      · refine ⟨_, processPacketBytes_wait (t := t.buffered x) hwhole ?_,
          ⟨rfl, rfl, rfl, rfl, rfl, rfl, rfl⟩, rfl, .inl ⟨rfl, rfl, ?_⟩⟩
        · rw [recvBuffer_buffered]
          omega
        · apply hstays _ rfl
          apply decrypting_of_short (t := t.buffered x) hcipher _ hdecrypting
          rw [recvBuffer_buffered]
          omega
    · -- the length is known
      rw [if_neg hlow] at hdecrypting hmax
      obtain ⟨receiving, hin, hknown⟩ := hdecrypting
      obtain ⟨hlen, r', r'', hlength, hdecrypt, hnext⟩ :=
        inOrder_of_encrypt hb hin hle hencrypt
      have hlow' : lengthLen ≤ t.recvBuffer.length := Nat.le_of_not_lt hlow
      have hfront : packet.take lengthLen = t.recvBuffer.take lengthLen := by
        rw [← htake lengthLen (by omega) (by omega), List.take_append_of_le_length hlow']
      rw [hfront, hknown] at hlength
      have hrecvLen : t.recvLen = contents.length := congrArg Prod.fst hlength
      have hr' : cipher.receiving = r' := congrArg Prod.snd hlength
      by_cases hwhole : (t.recvBuffer ++ x).length = t.recvLen + expansion
      · have hpacket : t.recvBuffer ++ x = packet := by
          have hsame : (t.recvBuffer ++ x).length = packet.length := by omega
          rw [← List.take_length (l := t.recvBuffer ++ x), htake _ (Nat.le_refl _) (by omega), hsame,
            List.take_length]
        have hrest : y = rest := by
          rw [hpacket] at hcut
          exact List.append_cancel_left hcut
        have hdecrypt' : b.decrypt cipher.receiving ((t.buffered x).recvBuffer.drop lengthLen)
            (t.buffered x).recvAad = .ok ((contents, false), r'') := by
          rw [recvBuffer_buffered, hpacket, hr', show (t.buffered x).recvAad = _ from haad'.symm]
          exact hdecrypt
        obtain ⟨hcipher', haad'', hempty⟩ := decrypted_buffers (t.buffered x)
          { cipher with receiving := r'' } contents
        obtain ⟨hversion, hpast⟩ := recvState_decrypted (t.buffered x)
          { cipher with receiving := r'' } contents
        refine ⟨_, processPacketBytes_packet (t := t.buffered x) hcipher
          (by rw [recvBuffer_buffered]; omega) hwhole hdecrypt', sameSending_decrypted contents ?_,
          ?_, .inr ⟨contents, aad, more, rfl, haad'', hempty, ?_, hversion, hpast⟩⟩
        · rw [hcipher]
          rfl
        · rw [hcipher', hcipher]
          rfl
        · refine ⟨hready, s₁, sending, hsending, ?_, decrypting_of_short hcipher' ?_ hnext⟩
          · rw [hempty, hrest]
            exact hmore
          · rw [hempty]
            decide
      · refine ⟨_, processPacketBytes_wait (t := t.buffered x) ?_ ?_,
          ⟨rfl, rfl, rfl, rfl, rfl, rfl, rfl⟩, rfl, .inl ⟨rfl, rfl, ?_⟩⟩
        · rw [recvBuffer_buffered]
          omega
        · exact fun hlong => hwhole hlong.2
        · apply hstays (t.buffered x) rfl
          apply decrypting_of_long (t := t.buffered x) hcipher _ hin
          · rw [recvBuffer_buffered, List.take_append_of_le_length hlow']
            exact hknown
          · rw [recvBuffer_buffered]
            omega

/-- The packets of valid messages are of a size that is decrypted. -/
theorem length_packets_le {messages : List SerializedMessage}
    (hvalid : ∀ m ∈ messages, b.Valid m) :
    ∀ packet ∈ b.packets messages, packet.1.length ≤ maxContentsLen := by
  intro packet hpacket
  obtain ⟨m, hm, rfl⟩ := List.mem_map.mp hpacket
  exact (hvalid m hm).contentsOf.2.1

theorem aad_packets {messages : List SerializedMessage} :
    ∀ packet ∈ (b.packets messages).head?, packet.2 = [] := by
  intro packet hpacket
  obtain ⟨m, -, rfl⟩ := List.mem_map.mp (List.mem_of_mem_head? hpacket)
  rfl

/-- A cipher that has gone on keeps how far an end is. -/
theorem Phase.of_sameSending {t' : V2Transport b} {sent sent' : List SerializedMessage}
    (hphase : Phase h b who t sent) (hsame : SameSending t t')
    (hrecv : t.recvState = .version ∨ t.recvState = .app)
    (hterminator : t'.cipher.map Cipher.recvGarbageTerminator =
      t.cipher.map Cipher.recvGarbageTerminator)
    (hrecv' : t'.recvState = .version ∨ t'.recvState = .app ∨ t'.recvState = .appReady) :
    Phase h b who t' sent' := by
  have hpast : t.recvState ≠ .keyMaybeV1 ∧ t.recvState ≠ .key := by
    rcases hrecv with hrecv | hrecv <;> rw [hrecv] <;> decide
  obtain ⟨hsend, -, cipher, hcipher, hours⟩ := hphase.of_cipher hpast.1 hpast.2
  rw [hcipher] at hterminator
  cases hcipher' : t'.cipher with
  | none =>
    rw [hcipher'] at hterminator
    cases hterminator
  | some cipher' =>
    rw [hcipher'] at hterminator
    exact phase_of_cipher (hsame.sendState.trans hsend) hrecv' hcipher'
      ((Option.some.inj hterminator).trans hours)

/-- **A turn over the octets of packets.** -/
theorem turn_processPacketBytes (hb : b.InOrder InStep)
    (hrec : Receives h b InStep who p peer (x ++ y) t)
    (hstate : t.recvState = .version ∨ t.recvState = .app)
    (hvalid : ∀ m ∈ peer.sender.sent, b.Valid m) (hx : x ≠ [])
    (hmax : x.length ≤ t.maxBytesToProcess) :
    Sat processPacketBytes (t.buffered x)
      (fun _ t' => Receives h b InStep who p peer y t') fun _ _ => False := by
  have hmax' : x.length ≤ (if t.recvBuffer.length < lengthLen
      then lengthLen - t.recvBuffer.length else expansion + t.recvLen - t.recvBuffer.length) := by
    unfold maxBytesToProcess at hmax
    rcases hstate with hstate | hstate <;> rw [hstate] at hmax <;> exact hmax
  have hflow := hrec.flow
  unfold Flow at hflow
  rcases hstate with hstate | hstate
  · -- the version packet, which authenticates the garbage
    rw [hstate] at hflow
    obtain ⟨htaken, haad, hread⟩ := hflow
    have hpackets : ∀ packet ∈ ([], h.garbage who.peer) :: b.packets peer.sender.sent,
        packet.1.length ≤ maxContentsLen := by
      rintro packet (_ | ⟨_, hpacket⟩)
      · exact Nat.zero_le _
      · exact length_packets_le hvalid packet hpacket
    have haad' : ∀ packet ∈ (([], h.garbage who.peer) :: b.packets peer.sender.sent).head?,
        packet.2 = t.recvAad := by
      rintro packet hpacket
      rw [haad, ← Option.some.inj hpacket]
    obtain ⟨t', hrun, hsame, hterminator, hdecrypts⟩ :=
      processPacketBytes_reading hb hread hpackets haad' hx hmax'
    rw [sat_of_ok hrun]
    rcases hdecrypts with ⟨hsame', haad'', hread'⟩ |
      ⟨contents, aad, more, heq, haad'', hempty, hread', hversion, -⟩
    · have hstate' := hsame'.trans hstate
      apply hsame.receives hrec
        (hrec.own.phase.of_sameSending hsame (.inl hstate) hterminator (.inl hstate'))
      unfold Flow
      rw [hstate']
      exact ⟨htaken, haad''.trans haad, hread'⟩
    · have hstate' := hversion hstate
      apply hsame.receives hrec
        (hrec.own.phase.of_sameSending hsame (.inl hstate) hterminator (.inr (.inl hstate')))
      unfold Flow
      rw [hstate']
      rw [← (List.cons.inj heq).2] at hread'
      exact ⟨haad'', [], peer.sender.sent, rfl, htaken, hread'⟩
  · rw [hstate] at hflow
    obtain ⟨haad, delivered, inflight, hsent, htaken, hread⟩ := hflow
    have hsent' : peer.sender.sent = delivered ++ inflight := hsent
    have hvalid' : ∀ m ∈ inflight, b.Valid m := by
      intro m hm
      apply hvalid
      rw [hsent']
      exact List.mem_append_right _ hm
    have haad' : ∀ packet ∈ (b.packets inflight).head?, packet.2 = t.recvAad := by
      rw [haad]
      exact aad_packets
    obtain ⟨t', hrun, hsame, hterminator, hdecrypts⟩ :=
      processPacketBytes_reading hb hread (length_packets_le hvalid') haad' hx hmax'
    rw [sat_of_ok hrun]
    rcases hdecrypts with ⟨hsame', haad'', hread'⟩ |
      ⟨contents, aad, more, heq, haad'', hempty, hread', -, hready⟩
    · have hstate' := hsame'.trans hstate
      apply hsame.receives hrec
        (hrec.own.phase.of_sameSending hsame (.inr hstate) hterminator (.inr (.inl hstate')))
      unfold Flow
      rw [hstate']
      exact ⟨haad''.trans haad, delivered, inflight, hsent, htaken, hread'⟩
    · obtain ⟨hstate', hdecoded⟩ := hready (by rw [hstate]; exact RecvState.noConfusion)
      obtain ⟨m, rest, rfl, hm, hmore⟩ := List.map_eq_cons_iff.mp heq
      rw [← hmore] at hread'
      apply hsame.receives hrec
        (hrec.own.phase.of_sameSending hsame (.inr hstate) hterminator (.inr (.inr hstate')))
      unfold Flow
      rw [hstate']
      refine ⟨haad'', hempty, delivered, m, rest, hsent, htaken, ?_, hread'⟩
      rw [hdecoded]
      exact (congrArg Prod.fst hm).symm

/-! ### The loop of `received_bytes` -/

/-- **A turn**: octets that can be processed in one go are, in every state. -/
theorem turn_processBytes (hf : h.Fair b InStep) (hb : b.InOrder InStep) (ht : t.Bounded)
    (hrec : Receives h b InStep who p peer (x ++ y) t)
    (hvalid : ∀ m ∈ peer.sender.sent, b.Valid m) (hready : t.recvState ≠ .appReady) (hx : x ≠ [])
    (hmax : x.length ≤ t.maxBytesToProcess) :
    Sat (processBytes t.recvState) (t.buffered x)
      (fun taken t' => taken = false ∧ Receives h b InStep who p peer y t')
      fun _ _ => False := by
  have hlast : ∀ call : EStateM TransportError (V2Transport b) Unit,
      Sat call (t.buffered x) (fun _ t' => Receives h b InStep who p peer y t')
        (fun _ _ => False) →
      Sat (do call; return false) (t.buffered x)
        (fun taken t' => taken = false ∧ Receives h b InStep who p peer y t')
        fun _ _ => False := by
    intro call hcall
    rw [sat_bind]
    apply hcall.mono
    · exact fun _ _ hrec' => ⟨rfl, hrec'⟩
    · exact fun _ _ hfalse => hfalse
  have hbounded := ht.2
  have hmax' := hmax
  unfold maxBytesToProcess at hmax'
  cases hstate : t.recvState with
  | keyMaybeV1 =>
    rw [hstate] at hbounded hmax'
    dsimp only at hbounded hmax'
    apply turn_processMaybeV1Bytes hf hrec hstate hx
    rw [List.length_append]
    omega
  | key =>
    rw [hstate] at hbounded hmax'
    dsimp only at hbounded hmax'
    apply hlast
    apply turn_processKeyBytes hf hb hrec hstate hx
    rw [List.length_append]
    omega
  | garbGarbterm =>
    rw [hstate] at hmax'
    apply hlast
    apply turn_processGarbageBytes hf hrec hstate
    exact Nat.le_antisymm hmax' (List.length_pos_iff.mpr hx)
  | version => exact hlast _ (turn_processPacketBytes hb hrec (.inl hstate) hvalid hx hmax)
  | app => exact hlast _ (turn_processPacketBytes hb hrec (.inr hstate) hvalid hx hmax)
  | appReady => exact (hready hstate).elim
  | v1 =>
    have hflow := hrec.flow
    unfold Flow at hflow
    rw [hstate] at hflow
    exact hflow.elim

/-- A session has no end in v1. -/
theorem Receives.recvState_ne_v1 (hrec : Receives h b InStep who p peer x t) :
    t.recvState ≠ .v1 := by
  intro hstate
  have hflow := hrec.flow
  unfold Flow at hflow
  rw [hstate] at hflow
  exact hflow

/-- The loop, by induction on its fuel: the octets it leaves are those not processed. -/
theorem receives_receiveLoop (hf : h.Fair b InStep) (hb : b.InOrder InStep)
    (hvalid : ∀ m ∈ peer.sender.sent, b.Valid m) (fuel : ℕ) (hfuel : x.length < fuel)
    (ht : t.Bounded) (hrec : Receives h b InStep who p peer (x ++ y) t) :
    Sat (receiveLoop fuel x) t
      (fun rest t' => t'.Bounded ∧ Receives h b InStep who p peer (rest ++ y) t')
      fun _ _ => False := by
  induction fuel generalizing t x with
  | zero => exact absurd hfuel (Nat.not_lt_zero _)
  | succ fuel ih =>
    by_cases hend : x = [] ∨ t.recvState = .appReady
    · rw [sat_of_ok (receiveLoop_of_end fuel hend)]
      exact ⟨ht, hrec⟩
    · obtain ⟨hsome, hready⟩ := not_or.mp hend
      have hpos := ht.maxBytesToProcess_pos hready hrec.recvState_ne_v1
      have hlen := List.length_pos_iff.mpr hsome
      generalize hsize : min x.length t.maxBytesToProcess = size
      have hfront : (x.take size).length = size := by
        rw [List.length_take]
        omega
      have hfront' : x.take size ≠ [] := by
        rw [← List.length_pos_iff]
        omega
      have hmax : (x.take size).length ≤ t.maxBytesToProcess := by omega
      have hcut : Receives h b InStep who p peer (x.take size ++ (x.drop size ++ y)) t := by
        rw [← List.append_assoc, List.take_append_drop]
        exact hrec
      rw [sat_receiveLoop_turn hsome hready hsize]
      have hturn := turn_processBytes hf hb ht hcut hvalid hready hfront' hmax
      have hbounded := sat_processBytes (t := t.buffered (x.take size)) ht.1
        (ht.filled hready hrec.recvState_ne_v1 hfront' hmax)
      apply (hturn.and hbounded).mono
      · rintro taken t' ⟨⟨rfl, hrec'⟩, hbounded', -⟩
        rw [if_neg Bool.false_ne_true]
        apply ih _ hbounded' hrec'
        rw [List.length_drop]
        omega
      · rintro e t' ⟨hfalse, -⟩
        exact hfalse

/-- **A call of `received_bytes`** raises nothing and leaves the octets it has not taken. -/
theorem receives_receivedBytes (hf : h.Fair b InStep) (hb : b.InOrder InStep)
    (hvalid : ∀ m ∈ peer.sender.sent, b.Valid m) (ht : t.Bounded)
    (hrec : Receives h b InStep who p peer (x ++ y) t) :
    Sat (receivedBytes x) t
      (fun rest t' => t'.Bounded ∧ Receives h b InStep who p peer (rest ++ y) t')
      fun _ _ => False := by
  unfold receivedBytes
  rw [sat_bind, sat_get, if_neg hrec.recvState_ne_v1]
  exact receives_receiveLoop hf hb hvalid _ (Nat.lt_succ_self _) ht hrec

end Packets

end Session

end BtclibNode
