/-
# A transport takes octets

Where no whole message waits, the octets that are still wanted are never none: each call
of `received_bytes` on some octets takes one, and returns or raises.
-/
import Mathlib
import BtclibNode.P2p.V2Transport

namespace BtclibNode

open StateExcept

/-! ## `V1Transport` -/

namespace V1Transport

/-- The buffer holds no more than the message being received, and a header is read once it
is whole. -/
def Bounded (t : V1Transport) : Prop :=
  t.buffer.length ≤ t.total ∧ (t.length = none → t.buffer.length < headerSize)

variable {t : V1Transport}

theorem total_of_none (h : t.length = none) : t.total = headerSize := by
  unfold total
  rw [h]

theorem bounded_init (magic : Bytes) : (init magic).Bounded :=
  ⟨Nat.zero_le _, fun _ => Nat.zero_lt_succ _⟩

/-- Octets are wanted until the message is whole. -/
theorem Bounded.wanted_pos (ht : t.Bounded) (hunfinished : t.receivedMessageComplete = false) :
    0 < t.wanted := by
  by_contra hnone
  have hwanted : t.wanted = 0 := by omega
  unfold receivedMessageComplete at hunfinished
  rw [hwanted, decide_eq_true rfl, Bool.and_true] at hunfinished
  have hlength : t.length = none := by
    cases h : t.length with
    | none => rfl
    | some length =>
      rw [h] at hunfinished
      cases hunfinished
  have hbuffer := ht.2 hlength
  unfold wanted at hwanted
  rw [total_of_none hlength] at hwanted
  omega

theorem sat_readHeader (hbuffer : t.buffer.length = headerSize) :
    Sat readHeader t (fun _ t' => t'.Bounded) fun e _ => e ≠ .unending := by
  unfold readHeader
  rw [sat_bind, sat_get]
  by_cases hmagic : t.buffer.take magicSize ≠ t.magic
  · rw [if_pos hmagic]
    exact TransportError.noConfusion
  · rw [if_neg hmagic]
    dsimp only
    split_ifs
    · exact TransportError.noConfusion
    · refine ⟨?_, fun hnone => by cases hnone⟩
      show t.buffer.length ≤ headerSize + _
      omega

/-- **A call takes an octet of what it is given**, where no message waits. -/
theorem sat_receivedBytes (ht : t.Bounded) (msgBytes : Bytes) :
    Sat (receivedBytes msgBytes) t
      (fun rest t' => t'.Bounded ∧ (t.receivedMessageComplete = false → msgBytes ≠ [] →
        rest.length < msgBytes.length))
      fun e _ => e ≠ .unending := by
  have htaken : (t.buffer ++ msgBytes.take (min t.wanted msgBytes.length)).length ≤ t.total := by
    rw [List.length_append, List.length_take]
    have hbuffer := ht.1
    unfold wanted
    omega
  have hrest : t.receivedMessageComplete = false → msgBytes ≠ [] →
      (msgBytes.drop (min t.wanted msgBytes.length)).length < msgBytes.length := by
    intro hunfinished hsome
    have hwanted := ht.wanted_pos hunfinished
    have hlen := List.length_pos_iff.mpr hsome
    rw [List.length_drop]
    omega
  generalize hbuffer : t.buffer ++ msgBytes.take (min t.wanted msgBytes.length) = buffer at htaken
  have hset : Sat (set { t with buffer := buffer } : EStateM TransportError V1Transport PUnit) t
      (fun _ t' => t' = { t with buffer := buffer }) fun _ _ => False := rfl
  unfold receivedBytes
  rw [sat_bind, sat_get]
  dsimp only
  rw [hbuffer, sat_bind]
  apply hset.mono
  · rintro - t' rfl
    by_cases hheader : t.length = none ∧ buffer.length = headerSize
    · rw [if_pos hheader, sat_bind]
      apply (sat_readHeader hheader.2).mono
      · exact fun _ _ hbounded => ⟨hbounded, hrest⟩
      · exact fun _ _ hraised => hraised
    · rw [if_neg hheader]
      refine ⟨⟨htaken, ?_⟩, hrest⟩
      intro hnone
      have hnone' : t.length = none := hnone
      have hne : buffer.length ≠ headerSize := fun heq => hheader ⟨hnone', heq⟩
      rw [total_of_none hnone'] at htaken
      show buffer.length < headerSize
      omega
  · exact fun _ _ hfalse => hfalse.elim

theorem sat_getReceivedMessage (c : MessageCodec) (ht : t.Bounded) :
    Sat (getReceivedMessage c) t (fun _ t' => t'.Bounded) fun _ t' => t'.Bounded := by
  unfold getReceivedMessage
  rw [sat_bind, sat_get]
  by_cases hcomplete : t.receivedMessageComplete = true
  · rw [if_pos hcomplete]
    have hfresh : V1Transport.Bounded { t with buffer := [], length := none } :=
      ⟨Nat.zero_le _, fun _ => Nat.zero_lt_succ _⟩
    rw [sat_bind, sat_set]
    cases c.parse t.buffer with
    | error message => exact hfresh
    | ok message => exact hfresh
  · rw [if_neg hcomplete]
    exact ht

theorem sat_setMessageToSend (c : MessageCodec) (ht : t.Bounded) (msg : SerializedMessage) :
    Sat (setMessageToSend c msg) t (fun _ t' => t'.Bounded) fun _ t' => t'.Bounded := by
  unfold setMessageToSend
  rw [sat_bind, sat_get]
  by_cases hbusy : t.sendingHeader ∨ t.bytesSent < t.messageToSend.payload.length
  · rw [if_pos hbusy]
    exact ht
  · rw [if_neg hbusy]
    cases header c t.magic msg with
    | error e => exact ht
    | ok header => exact ht

theorem bounded_markBytesSent (ht : t.Bounded) (bytesSent : ℕ) :
    (t.markBytesSent bytesSent).Bounded := by
  unfold markBytesSent
  dsimp only
  split_ifs <;> exact ht

end V1Transport

/-! ## `V2Transport` -/

namespace V2Transport

variable {b : Bip324}

/-- In each state the buffer is short of what moves the transport on. -/
def Bounded (t : V2Transport b) : Prop :=
  (∀ v1, t.v1 = some v1 → v1.Bounded) ∧
    match t.recvState with
    | .keyMaybeV1 => t.recvBuffer.length < v1PrefixLen
    | .key => t.recvBuffer.length < keyLen
    | .garbGarbterm => t.recvBuffer.length < maxGarbageLen + garbageTerminatorLen
    | .version | .app =>
      t.recvBuffer.length < lengthLen ∨ t.recvBuffer.length < t.recvLen + expansion
    | .appReady => t.recvBuffer = []
    | .v1 => True

/-- The buffer once octets are taken and before they are processed. -/
def Filled (t : V2Transport b) : Prop :=
  match t.recvState with
  | .keyMaybeV1 => t.recvBuffer.length ≤ v1PrefixLen
  | .key => t.recvBuffer.length ≤ keyLen
  | .garbGarbterm => t.recvBuffer.length ≤ maxGarbageLen + garbageTerminatorLen
  | .version | .app => t.recvBuffer.length ≤ lengthLen ∨
      lengthLen < t.recvBuffer.length ∧ t.recvBuffer.length ≤ t.recvLen + expansion
  | _ => False

variable {t : V2Transport b}

theorem Bounded.maxBytesToProcess_pos (ht : t.Bounded) (hready : t.recvState ≠ .appReady)
    (hv1 : t.recvState ≠ .v1) : 0 < t.maxBytesToProcess := by
  have hbuffer := ht.2
  unfold maxBytesToProcess
  cases hstate : t.recvState with
  | keyMaybeV1 => rw [hstate] at hbuffer; exact Nat.sub_pos_of_lt hbuffer
  | key => rw [hstate] at hbuffer; exact Nat.sub_pos_of_lt hbuffer
  | garbGarbterm => exact Nat.one_pos
  | version | app =>
    rw [hstate] at hbuffer
    dsimp only at hbuffer ⊢
    split_ifs
    · omega
    · omega
  | appReady => exact (hready hstate).elim
  | v1 => exact (hv1 hstate).elim

/-- The transport once octets are in its buffer. -/
def buffered (octets : Bytes) (t : V2Transport b) : V2Transport b :=
  { t with recvBuffer := t.recvBuffer ++ octets }

theorem recvBuffer_buffered (octets : Bytes) (t : V2Transport b) :
    (t.buffered octets).recvBuffer = t.recvBuffer ++ octets := rfl

/-- As many octets as can be processed in one go fit. -/
theorem Bounded.filled (ht : t.Bounded) (hready : t.recvState ≠ .appReady)
    (hv1 : t.recvState ≠ .v1) {octets : Bytes} (hsome : octets ≠ [])
    (hle : octets.length ≤ t.maxBytesToProcess) :
    (t.buffered octets).Filled := by
  have hbuffer := ht.2
  have hlen := List.length_pos_iff.mpr hsome
  unfold maxBytesToProcess at hle
  unfold Filled buffered
  dsimp only
  rw [List.length_append]
  cases hstate : t.recvState with
  | keyMaybeV1 => rw [hstate] at hbuffer hle; dsimp only at hbuffer hle ⊢; omega
  | key => rw [hstate] at hbuffer hle; dsimp only at hbuffer hle ⊢; omega
  | garbGarbterm => rw [hstate] at hbuffer hle; dsimp only at hbuffer hle ⊢; omega
  | version | app =>
    rw [hstate] at hbuffer hle
    dsimp only at hbuffer hle ⊢
    split_ifs at hle
    · omega
    · omega
  | appReady => exact (hready hstate).elim
  | v1 => exact (hv1 hstate).elim

/-- A call of the fallback changes the fallback alone. -/
theorem sat_onV1 {α : Type} {x : EStateM TransportError V1Transport α}
    {Q : α → V1Transport → Prop} {E : TransportError → V1Transport → Prop}
    (hx : ∀ v1, t.v1 = some v1 → Sat x v1 Q E) :
    Sat (onV1 x) t (fun a t' => ∃ v1, Q a v1 ∧ t' = { t with v1 := some v1 })
      fun e t' => (e = .attribute ∧ t' = t) ∨ ∃ v1, E e v1 ∧ t' = { t with v1 := some v1 } := by
  unfold Sat onV1
  cases hv1 : t.v1 with
  | none => exact .inl ⟨rfl, rfl⟩
  | some v1 =>
    have hsat := hx v1 hv1
    unfold Sat at hsat
    dsimp only
    cases hrun : x v1 with
    | ok a v1' =>
      rw [hrun] at hsat
      exact ⟨v1', hsat, rfl⟩
    | error e v1' =>
      rw [hrun] at hsat
      exact .inr ⟨v1', hsat, rfl⟩

/-- A bounded fallback in a transport that is short of its next move. -/
theorem Bounded.with_v1 (ht : t.Bounded) {v1 : V1Transport} (hv1 : v1.Bounded) :
    Bounded { t with v1 := some v1 } := by
  refine ⟨?_, ht.2⟩
  rintro v1' heq
  rw [← Option.some.inj heq]
  exact hv1

section Process

variable (hv1 : ∀ v1, t.v1 = some v1 → v1.Bounded) (hfilled : t.Filled)
include hv1 hfilled

theorem sat_processMaybeV1Bytes (hstate : t.recvState = .keyMaybeV1) :
    Sat processMaybeV1Bytes t
      (fun taken t' => t'.Bounded ∧ (taken = false → t'.recvState ≠ .v1))
      fun e _ => e ≠ .unending := by
  unfold Filled at hfilled
  rw [hstate] at hfilled
  dsimp only at hfilled
  unfold processMaybeV1Bytes
  rw [sat_bind, sat_get]
  by_cases hfront : ¬ t.recvBuffer <+: t.magic ++ v1VersionCommand
  · dsimp only
    rw [if_pos hfront]
    refine ⟨⟨hv1, ?_⟩, fun _ => RecvState.noConfusion⟩
    show t.recvBuffer.length < keyLen
    exact Nat.lt_of_le_of_lt hfilled (by decide)
  · dsimp only
    rw [if_neg hfront]
    by_cases hwhole : t.recvBuffer.length = v1PrefixLen
    · rw [if_pos hwhole]
      by_cases hrefused : t.v1.isNone
      · rw [if_pos hrefused]
        exact TransportError.noConfusion
      · rw [if_neg hrefused, sat_bind]
        have hfallback : ∀ v1, t.v1 = some v1 →
            Sat (V1Transport.receivedBytes t.recvBuffer) v1 (fun _ v1' => v1'.Bounded)
              fun e _ => e ≠ .unending := by
          intro v1 hsome
          apply (V1Transport.sat_receivedBytes (hv1 v1 hsome) t.recvBuffer).mono
          · exact fun _ _ hbounded => hbounded.1
          · exact fun _ _ hraised => hraised
        apply (sat_onV1 hfallback).mono
        · rintro rest t' ⟨v1, hbounded, rfl⟩
          refine ⟨⟨?_, trivial⟩, fun htaken => Bool.noConfusion htaken⟩
          rintro v1' heq
          rw [← Option.some.inj heq]
          exact hbounded
        · rintro e t' (⟨rfl, -⟩ | ⟨v1, hraised, -⟩)
          · exact TransportError.noConfusion
          · exact hraised
    · rw [if_neg hwhole]
      refine ⟨⟨hv1, ?_⟩, fun _ hstate' => by rw [hstate] at hstate'; cases hstate'⟩
      rw [hstate]
      exact Nat.lt_of_le_of_ne hfilled hwhole

omit hfilled in
theorem sat_processKeyBytes (hstate : t.recvState = .key) :
    Sat processKeyBytes t (fun _ t' => t'.Bounded ∧ t'.recvState ≠ .v1)
      fun e _ => e ≠ .unending := by
  have hkeep : t.recvState ≠ .v1 := by
    rw [hstate]
    exact RecvState.noConfusion
  unfold processKeyBytes
  rw [sat_bind, sat_get]
  dsimp only
  split_ifs with hversion hshort
  · exact TransportError.noConfusion
  · refine ⟨⟨hv1, ?_⟩, hkeep⟩
    rw [hstate]
    exact hshort
  · cases t.prvKey with
    | none => exact TransportError.noConfusion
    | some prvKey =>
      dsimp only
      rw [sat_bind, sat_set]
      cases b.encrypt _ _ _ with
      | error message => exact TransportError.noConfusion
      | ok packet =>
        refine ⟨⟨hv1, ?_⟩, RecvState.noConfusion⟩
        show 0 < maxGarbageLen + garbageTerminatorLen
        decide

theorem sat_processGarbageBytes (hstate : t.recvState = .garbGarbterm) :
    Sat processGarbageBytes t (fun _ t' => t'.Bounded ∧ t'.recvState ≠ .v1)
      fun e _ => e ≠ .unending := by
  have hkeep : t.recvState ≠ .v1 := by
    rw [hstate]
    exact RecvState.noConfusion
  unfold Filled at hfilled
  rw [hstate] at hfilled
  dsimp only at hfilled
  unfold processGarbageBytes
  rw [sat_bind, sat_get]
  by_cases hshort : t.recvBuffer.length < garbageTerminatorLen
  · rw [if_pos hshort]
    refine ⟨⟨hv1, ?_⟩, hkeep⟩
    rw [hstate]
    exact Nat.lt_of_lt_of_le hshort (by decide)
  · rw [if_neg hshort]
    cases t.cipher with
    | none => exact TransportError.noConfusion
    | some cipher =>
      dsimp only
      split_ifs with hterminator hmissing
      · exact ⟨⟨hv1, .inl (Nat.zero_lt_succ _)⟩, RecvState.noConfusion⟩
      · exact TransportError.noConfusion
      · refine ⟨⟨hv1, ?_⟩, hkeep⟩
        rw [hstate]
        exact Nat.lt_of_le_of_ne hfilled hmissing

theorem sat_processPacketBytes (hstate : t.recvState = .version ∨ t.recvState = .app) :
    Sat processPacketBytes t (fun _ t' => t'.Bounded ∧ t'.recvState ≠ .v1)
      fun e _ => e ≠ .unending := by
  have hkeep : t.recvState ≠ .v1 := by
    rcases hstate with hstate | hstate <;> rw [hstate] <;> exact RecvState.noConfusion
  have hshort : ∀ t' : V2Transport b, t'.v1 = t.v1 → t'.recvState = t.recvState →
      (t'.recvBuffer.length < lengthLen ∨ t'.recvBuffer.length < t'.recvLen + expansion) →
      t'.Bounded ∧ t'.recvState ≠ .v1 := by
    intro t' hsame hsame' hlen
    rw [← hsame'] at hstate hkeep
    refine ⟨⟨fun v1 h => hv1 v1 (hsame ▸ h), ?_⟩, hkeep⟩
    rcases hstate with hstate | hstate <;> rw [hstate] <;> exact hlen
  have hfits : t.recvBuffer.length ≤ lengthLen ∨
      lengthLen < t.recvBuffer.length ∧ t.recvBuffer.length ≤ t.recvLen + expansion := by
    unfold Filled at hfilled
    rcases hstate with hstate | hstate <;> rw [hstate] at hfilled <;> exact hfilled
  unfold processPacketBytes
  rw [sat_bind, sat_get]
  by_cases hlength : t.recvBuffer.length = lengthLen
  · rw [if_pos hlength]
    cases t.cipher with
    | none => exact TransportError.noConfusion
    | some cipher =>
      dsimp only
      rw [sat_bind]
      show Sat (if maxContentsLen < _ then _ else _) _ _ _
      split_ifs
      · exact TransportError.noConfusion
      · rw [sat_pure]
        refine hshort _ ?_ ?_ (.inr ?_)
        · rfl
        · rfl
        · show t.recvBuffer.length < _ + expansion
          rw [hlength]
          exact Nat.lt_add_left _ (by decide)
  · rw [if_neg hlength]
    split_ifs with hwhole
    · cases t.cipher with
      | none => exact TransportError.noConfusion
      | some cipher =>
        dsimp only
        cases b.decrypt cipher.receiving (t.recvBuffer.drop lengthLen) t.recvAad with
        | error message => exact TransportError.noConfusion
        | ok plain =>
          dsimp only
          split_ifs
          · exact hshort _ rfl rfl (.inl (Nat.zero_lt_succ _))
          · exact ⟨⟨hv1, .inl (Nat.zero_lt_succ _)⟩, RecvState.noConfusion⟩
          · exact ⟨⟨hv1, rfl⟩, RecvState.noConfusion⟩
    · rw [sat_pure]
      apply hshort t rfl rfl
      rcases hfits with hle | ⟨hlt, hle⟩
      · exact .inl (Nat.lt_of_le_of_ne hle hlength)
      · exact .inr (Nat.lt_of_le_of_ne hle fun heq => hwhole ⟨hlt, heq⟩)

theorem sat_processBytes :
    Sat (processBytes t.recvState) t
      (fun taken t' => t'.Bounded ∧ (taken = false → t'.recvState ≠ .v1))
      fun e _ => e ≠ .unending := by
  have hlast : ∀ x : EStateM TransportError (V2Transport b) Unit,
      Sat x t (fun _ t' => t'.Bounded ∧ t'.recvState ≠ .v1) (fun e _ => e ≠ .unending) →
      Sat (do x; return false) t (fun taken t' => t'.Bounded ∧ (taken = false → t'.recvState ≠ .v1))
        fun e _ => e ≠ .unending := by
    intro x hx
    rw [sat_bind]
    apply hx.mono
    · exact fun _ _ hbounded => ⟨hbounded.1, fun _ => hbounded.2⟩
    · exact fun _ _ hraised => hraised
  cases hstate : t.recvState with
  | keyMaybeV1 => exact sat_processMaybeV1Bytes hv1 hfilled hstate
  | key => exact hlast _ (sat_processKeyBytes hv1 hstate)
  | garbGarbterm => exact hlast _ (sat_processGarbageBytes hv1 hfilled hstate)
  | version => exact hlast _ (sat_processPacketBytes hv1 hfilled (.inl hstate))
  | app => exact hlast _ (sat_processPacketBytes hv1 hfilled (.inr hstate))
  | appReady | v1 =>
    unfold Filled at hfilled
    rw [hstate] at hfilled
    exact hfilled.elim

end Process

theorem receiveLoop_of_end (fuel : ℕ) {msgBytes : Bytes}
    (hend : msgBytes = [] ∨ t.recvState = .appReady) :
    receiveLoop (fuel + 1) msgBytes t = .ok msgBytes t := by
  unfold receiveLoop
  show (if msgBytes = [] ∨ t.recvState = .appReady then _ else _ :
    EStateM TransportError (V2Transport b) Bytes) t = _
  rw [if_pos hend]
  rfl

/-- A turn of the loop. -/
theorem sat_receiveLoop_turn {fuel : ℕ} {msgBytes : Bytes} {Q : Bytes → V2Transport b → Prop}
    {E : TransportError → V2Transport b → Prop} (hsome : msgBytes ≠ [])
    (hready : t.recvState ≠ .appReady) {size : ℕ}
    (hsize : min msgBytes.length t.maxBytesToProcess = size) :
    Sat (receiveLoop (fuel + 1) msgBytes) t Q E ↔
      Sat (processBytes t.recvState) (t.buffered (msgBytes.take size)) (fun taken t' =>
        Sat (if taken then pure (msgBytes.drop size) else receiveLoop fuel (msgBytes.drop size))
          t' Q E) E := by
  rw [receiveLoop, sat_bind, sat_get, if_neg (not_or.mpr ⟨hsome, hready⟩)]
  dsimp only
  rw [hsize, sat_bind]
  show Sat (processBytes t.recvState >>= _) (t.buffered (msgBytes.take size)) _ _ ↔ _
  rw [sat_bind]

/-- The loop, by induction on its fuel: a turn takes an octet. -/
theorem sat_receiveLoop (fuel : ℕ) (msgBytes : Bytes) (hfuel : msgBytes.length < fuel)
    (ht : t.Bounded) (hv1 : t.recvState ≠ .v1) :
    Sat (receiveLoop fuel msgBytes) t
      (fun rest t' => t'.Bounded ∧ rest.length ≤ msgBytes.length ∧
        (t.recvState ≠ .appReady → msgBytes ≠ [] → rest.length < msgBytes.length))
      fun e _ => e ≠ .unending := by
  induction fuel generalizing t msgBytes with
  | zero => exact absurd hfuel (Nat.not_lt_zero _)
  | succ fuel ih =>
    by_cases hend : msgBytes = [] ∨ t.recvState = .appReady
    · rw [sat_of_ok (receiveLoop_of_end fuel hend)]
      refine ⟨ht, Nat.le_refl _, ?_⟩
      intro hready hsome
      exact (hend.elim hsome hready).elim
    · obtain ⟨hsome, hready⟩ := not_or.mp hend
      have hpos := ht.maxBytesToProcess_pos hready hv1
      have hlen := List.length_pos_iff.mpr hsome
      generalize hsize : min msgBytes.length t.maxBytesToProcess = size
      have htaken : (msgBytes.take size).length = size := by
        rw [List.length_take]
        omega
      have hrest : (msgBytes.drop size).length < msgBytes.length := by
        rw [List.length_drop]
        omega
      have hfilled : (t.buffered (msgBytes.take size)).Filled := by
        apply ht.filled hready hv1
        · rw [← List.length_pos_iff]
          omega
        · omega
      rw [sat_receiveLoop_turn hsome hready hsize]
      have hprocess := sat_processBytes (t := t.buffered (msgBytes.take size)) ht.1 hfilled
      apply hprocess.mono
      · rintro taken t' ⟨hbounded, hv1'⟩
        cases taken with
        | true =>
          rw [if_pos rfl]
          exact ⟨hbounded, Nat.le_of_lt hrest, fun _ _ => hrest⟩
        | false =>
          rw [if_neg Bool.false_ne_true]
          apply (ih (msgBytes.drop size) (by omega) hbounded (hv1' rfl)).mono
          · rintro rest t'' ⟨hbounded', hle, -⟩
            exact ⟨hbounded', by omega, fun _ _ => by omega⟩
          · exact fun _ _ hraised => hraised
      · exact fun _ _ hraised => hraised

/-- **A call takes an octet of what it is given**, where no message waits. -/
theorem sat_receivedBytes (ht : t.Bounded) (msgBytes : Bytes) :
    Sat (receivedBytes msgBytes) t
      (fun rest t' => t'.Bounded ∧ (t.receivedMessageComplete = false → msgBytes ≠ [] →
        rest.length < msgBytes.length))
      fun e _ => e ≠ .unending := by
  unfold receivedBytes
  rw [sat_bind, sat_get]
  by_cases hv1 : t.recvState = .v1
  · rw [if_pos hv1]
    have hfallback : ∀ v1, t.v1 = some v1 → Sat (V1Transport.receivedBytes msgBytes) v1
        (fun rest v1' => v1'.Bounded ∧ (t.receivedMessageComplete = false → msgBytes ≠ [] →
          rest.length < msgBytes.length)) fun e _ => e ≠ .unending := by
      intro v1 hsome
      have hcomplete : t.receivedMessageComplete = v1.receivedMessageComplete := by
        unfold receivedMessageComplete
        rw [if_pos hv1, hsome]
        rfl
      rw [hcomplete]
      exact V1Transport.sat_receivedBytes (ht.1 v1 hsome) msgBytes
    apply (sat_onV1 hfallback).mono
    · rintro rest t' ⟨v1, ⟨hbounded, htakes⟩, rfl⟩
      exact ⟨ht.with_v1 hbounded, htakes⟩
    · rintro e t' (⟨rfl, -⟩ | ⟨v1, hraised, -⟩)
      · exact TransportError.noConfusion
      · exact hraised
  · rw [if_neg hv1]
    apply (sat_receiveLoop _ msgBytes (Nat.lt_succ_self _) ht hv1).mono
    · rintro rest t' ⟨hbounded, -, htakes⟩
      refine ⟨hbounded, ?_⟩
      intro hunfinished
      apply htakes
      unfold receivedMessageComplete at hunfinished
      rw [if_neg hv1] at hunfinished
      exact of_decide_eq_false hunfinished
    · exact fun _ _ hraised => hraised

/-- A call of the fallback that keeps it bounded keeps the transport bounded. -/
theorem sat_onV1_bounded {α : Type} {x : EStateM TransportError V1Transport α} (ht : t.Bounded)
    (hx : ∀ v1 : V1Transport, v1.Bounded →
      Sat x v1 (fun _ v1' => v1'.Bounded) fun _ v1' => v1'.Bounded) :
    Sat (onV1 x) t (fun _ t' => t'.Bounded) fun _ t' => t'.Bounded := by
  apply (sat_onV1 fun v1 hsome => hx v1 (ht.1 v1 hsome)).mono
  · rintro a t' ⟨v1, hbounded, rfl⟩
    exact ht.with_v1 hbounded
  · rintro e t' (⟨-, rfl⟩ | ⟨v1, hbounded, rfl⟩)
    · exact ht
    · exact ht.with_v1 hbounded

theorem sat_getReceivedMessage (c : MessageCodec) (ht : t.Bounded) :
    Sat (getReceivedMessage c) t (fun _ t' => t'.Bounded) fun _ t' => t'.Bounded := by
  unfold getReceivedMessage
  rw [sat_bind, sat_get]
  split_ifs with hv1 hready
  · exact sat_onV1_bounded ht fun v1 hbounded => V1Transport.sat_getReceivedMessage c hbounded
  · exact ht
  · have hbuffer := ht.2
    rw [not_not.mp hready] at hbuffer
    have happ : Bounded { t with recvDecodeBuffer := [], recvState := .app } := by
      refine ⟨ht.1, .inl ?_⟩
      show t.recvBuffer.length < lengthLen
      rw [hbuffer]
      exact Nat.zero_lt_succ _
    rw [sat_bind, sat_set]
    cases b.messageFromContents t.recvDecodeBuffer with
    | error message => exact happ
    | ok message => exact happ

theorem sat_setMessageToSend (c : MessageCodec) (ht : t.Bounded) (msg : SerializedMessage) :
    Sat (setMessageToSend c msg) t (fun _ t' => t'.Bounded) fun _ t' => t'.Bounded := by
  unfold setMessageToSend
  rw [sat_bind, sat_get]
  by_cases hv1 : t.sendState = .v1
  · rw [if_pos hv1]
    exact sat_onV1_bounded ht fun v1 hbounded => V1Transport.sat_setMessageToSend c hbounded msg
  · rw [if_neg hv1]
    by_cases hbusy : ¬ (t.sendState = .ready ∧ t.sendBuffer = [])
    · rw [if_pos hbusy]
      exact ht
    · rw [if_neg hbusy]
      cases t.cipher with
      | none => exact ht
      | some cipher =>
        cases b.contentsFromMessage msg.command msg.payload with
        | error message => exact ht
        | ok contents =>
          dsimp only
          cases b.encrypt cipher.sending contents [] with
          | error message => exact ht
          | ok packet => exact ht

theorem bounded_markBytesSent (ht : t.Bounded) (bytesSent : ℕ) :
    (t.markBytesSent bytesSent).Bounded := by
  unfold markBytesSent
  dsimp only
  split_ifs
  · refine ⟨?_, ht.2⟩
    intro v1 hsome
    obtain ⟨v1', hv1', rfl⟩ := Option.map_eq_some_iff.mp hsome
    exact V1Transport.bounded_markBytesSent (ht.1 v1' hv1') bytesSent
  · exact ht
  · exact ht

theorem bounded_start (b : Bip324) (magic : Bytes) {v1 : Option V1Transport}
    (hv1 : ∀ v, v1 = some v → v.Bounded) (initiating : Bool) (prvKey : ℕ)
    (ellOurs garbage : Bytes) : (start b magic v1 initiating prvKey ellOurs garbage).Bounded := by
  cases initiating with
  | true => exact ⟨hv1, Nat.zero_lt_succ _⟩
  | false => exact ⟨hv1, Nat.zero_lt_succ _⟩

end V2Transport

/-! ## Every transport reached -/

/-- The transports that calls reach, none of them on one that raised for its octets. -/
inductive Transport.Reached {σ : Type} (T : Transport σ) (start : σ) : σ → Prop
  | start : Reached T start start
  | received {t t' : σ} {msgBytes rest : Bytes} (h : Reached T start t)
    (hcall : T.receivedBytes msgBytes t = .ok rest t') : Reached T start t'
  | taken {t : σ} (h : Reached T start t) : Reached T start (finalState T.getReceivedMessage t)
  | set {t : σ} (h : Reached T start t) (msg : SerializedMessage) :
    Reached T start (finalState (T.setMessageToSend msg) t)
  | marked {t : σ} (h : Reached T start t) (bytesSent : ℕ) :
    Reached T start (T.markBytesSent bytesSent t)

theorem V1Transport.bounded_of_reached {c : MessageCodec} {magic : Bytes} {t : V1Transport}
    (h : (transport c).Reached (.init magic) t) : t.Bounded := by
  induction h with
  | start => exact bounded_init magic
  | received h hcall ih => exact ((sat_receivedBytes ih _).of_ok hcall).1
  | taken h ih => exact (sat_getReceivedMessage c ih).finalState
  | set h msg ih => exact (sat_setMessageToSend c ih msg).finalState
  | marked h bytesSent ih => exact bounded_markBytesSent ih bytesSent

theorem V2Transport.bounded_of_reached {b : Bip324} {c : MessageCodec} {start t : V2Transport b}
    (hstart : start.Bounded) (h : (transport b c).Reached start t) : t.Bounded := by
  induction h with
  | start => exact hstart
  | received h hcall ih => exact ((sat_receivedBytes ih _).of_ok hcall).1
  | taken h ih => exact (sat_getReceivedMessage c ih).finalState
  | set h msg ih => exact (sat_setMessageToSend c ih msg).finalState
  | marked h bytesSent ih => exact bounded_markBytesSent ih bytesSent

end BtclibNode
