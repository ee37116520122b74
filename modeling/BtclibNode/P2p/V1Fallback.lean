/-
# The fallback to v1

A v1 transport receives the same whatever pieces its octets come in, and a responder that
falls back to it receives what it would: the sixteen octets that tell v1 from v2 are handed
on whole.
-/
import BtclibNode.P2p.TransportProgress
import BtclibNode.P2p.TransportRun

namespace BtclibNode

open StateExcept

namespace V1Transport

variable {c : MessageCodec} {t : V1Transport}

/-! ## Octet by octet -/

/-- No whole message waits, and some octets are wanted. -/
def Idle (t : V1Transport) : Prop := t.Bounded ∧ t.receivedMessageComplete = false

theorem idle_init (magic : Bytes) : (init magic).Idle := ⟨bounded_init magic, rfl⟩

/-- What is done once all the octets wanted are there. -/
def finish (octets rest : Bytes) (t : V1Transport) :
    EStateM.Result TransportError V1Transport Bytes :=
  if t.length = none then
    match readHeader { t with buffer := t.buffer ++ octets } with
    | .ok _ t => .ok rest t
    | .error e t => .error e t
  else .ok rest { t with buffer := t.buffer ++ octets }

theorem receivedBytes_eq_ok {octets : Bytes} {taken : ℕ}
    (htaken : min t.wanted octets.length = taken)
    (hheader : ¬ (t.length = none ∧ (t.buffer ++ octets.take taken).length = headerSize)) :
    receivedBytes octets t =
      .ok (octets.drop taken) { t with buffer := t.buffer ++ octets.take taken } := by
  subst htaken
  unfold receivedBytes
  show (if _ then _ else _ : EStateM TransportError V1Transport Bytes) _ = _
  rw [if_neg hheader]
  rfl

theorem receivedBytes_eq_header {octets : Bytes} {taken : ℕ}
    (htaken : min t.wanted octets.length = taken)
    (hheader : t.length = none ∧ (t.buffer ++ octets.take taken).length = headerSize) :
    receivedBytes octets t = finish (octets.take taken) (octets.drop taken) t := by
  subst htaken
  unfold receivedBytes finish
  show (if _ then _ else _ : EStateM TransportError V1Transport Bytes) _ = _
  rw [if_pos hheader, if_pos hheader.1]
  show EStateM.bind readHeader _ _ = _
  unfold EStateM.bind
  cases readHeader { t with buffer := t.buffer ++ octets.take (min t.wanted octets.length) } with
  | ok _ _ => rfl
  | error _ _ => rfl

/-- Fewer octets than are wanted. -/
theorem receivedBytes_of_lt {octets : Bytes} (hlt : octets.length < t.wanted) :
    receivedBytes octets t = .ok [] { t with buffer := t.buffer ++ octets } := by
  have htaken : min t.wanted octets.length = octets.length := Nat.min_eq_right (Nat.le_of_lt hlt)
  rw [receivedBytes_eq_ok htaken, List.take_length, List.drop_length]
  rintro ⟨hnone, hheader⟩
  unfold wanted at hlt
  rw [total_of_none hnone] at hlt
  rw [List.take_length, List.length_append] at hheader
  omega

/-- As many octets as are wanted, or more. -/
theorem receivedBytes_of_le {octets : Bytes} (ht : t.Bounded) (hle : t.wanted ≤ octets.length) :
    receivedBytes octets t = finish (octets.take t.wanted) (octets.drop t.wanted) t := by
  have htaken : min t.wanted octets.length = t.wanted := Nat.min_eq_left hle
  by_cases hnone : t.length = none
  · rw [receivedBytes_eq_header htaken]
    refine ⟨hnone, ?_⟩
    have hbuffer := ht.2 hnone
    rw [List.length_append, List.length_take, Nat.min_eq_left hle]
    unfold wanted
    rw [total_of_none hnone]
    omega
  · rw [receivedBytes_eq_ok htaken fun hheader => hnone hheader.1]
    unfold finish
    rw [if_neg hnone]

/-- What is wanted once fewer octets than were wanted are there. -/
theorem wanted_buffered (t : V1Transport) (octets : Bytes) :
    wanted { t with buffer := t.buffer ++ octets } = t.wanted - octets.length := by
  show t.total - (t.buffer ++ octets).length = t.total - t.buffer.length - octets.length
  rw [List.length_append]
  omega

theorem Idle.buffered {octets : Bytes} (ht : t.Idle) (hlt : octets.length < t.wanted) :
    Idle { t with buffer := t.buffer ++ octets } := by
  have hbuffer := ht.1
  refine ⟨⟨?_, ?_⟩, ?_⟩
  · show (t.buffer ++ octets).length ≤ t.total
    unfold wanted at hlt
    rw [List.length_append]
    omega
  · intro hnone
    have hnone' : t.length = none := hnone
    show (t.buffer ++ octets).length < headerSize
    unfold wanted at hlt
    rw [total_of_none hnone'] at hlt
    rw [List.length_append]
    omega
  · unfold receivedMessageComplete
    rw [wanted_buffered, decide_eq_false (by omega), Bool.and_false]

/-- Octets taken one at a time end where they do when they are taken at once. -/
theorem finish_buffered (t : V1Transport) (x y rest : Bytes) :
    finish y rest { t with buffer := t.buffer ++ x } = finish (x ++ y) rest t := by
  unfold finish
  dsimp only
  rw [List.append_assoc]

/-- What is left over plays no part. -/
theorem finish_rest (octets rest : Bytes) (t : V1Transport) :
    finish octets rest t =
      match finish octets [] t with
      | .ok _ t => .ok rest t
      | .error e t => .error e t := by
  unfold finish
  split_ifs
  · cases readHeader { t with buffer := t.buffer ++ octets } with
    | ok _ _ => rfl
    | error _ _ => rfl
  · rfl

/-- A call takes the first octet as if it came alone. -/
theorem receivedBytes_cons {first : UInt8} {octets : Bytes} (ht : t.Idle)
    (hwanted : t.wanted ≠ 1) :
    receivedBytes [first] t = .ok [] { t with buffer := t.buffer ++ [first] } ∧
      receivedBytes (first :: octets) t =
        receivedBytes octets { t with buffer := t.buffer ++ [first] } := by
  have hpos := ht.1.wanted_pos ht.2
  have hlt : [first].length < t.wanted := by
    rw [List.length_singleton]
    omega
  refine ⟨receivedBytes_of_lt hlt, ?_⟩
  have hidle := ht.buffered hlt
  have hwanted' := wanted_buffered t [first]
  rw [List.length_singleton] at hwanted'
  by_cases hle : t.wanted ≤ (first :: octets).length
  · have hle' : wanted { t with buffer := t.buffer ++ [first] } ≤ octets.length := by
      rw [List.length_cons] at hle
      omega
    rw [receivedBytes_of_le ht.1 hle, receivedBytes_of_le hidle.1 hle', finish_buffered, hwanted']
    obtain ⟨w, hw⟩ : ∃ w, t.wanted = w + 1 := ⟨t.wanted - 1, by omega⟩
    rw [hw]
    rfl
  · rw [List.length_cons] at hle
    rw [receivedBytes_of_lt (by rw [List.length_cons]; omega), receivedBytes_of_lt (by omega),
      List.append_assoc]
    rfl

theorem getReceivedMessage_of_complete (h : t.receivedMessageComplete = true) :
    getReceivedMessage c t =
      match c.parse t.buffer with
      | .error _ => .error (.rejectedMessage t.buffer.length)
          { t with buffer := [], length := none }
      | .ok (command, payload) => .ok ⟨command, payload, t.buffer.length⟩
          { t with buffer := [], length := none } := by
  unfold getReceivedMessage
  show (if t.receivedMessageComplete then _ else _ :
    EStateM TransportError V1Transport NetMessage) t = _
  rw [if_pos h]
  show (match c.parse t.buffer with | .error _ => _ | .ok (_, _) => _ :
    EStateM TransportError V1Transport NetMessage) _ = _
  cases c.parse t.buffer with
  | error message => rfl
  | ok message => rfl

/-- A transport is idle once what waits is fetched. -/
theorem idle_of_fetch (ht : t.Bounded) {t' : V1Transport}
    (h : ((transport c).fetch t).outcome = .ok t') : t'.Idle := by
  unfold Transport.fetch transport at h
  dsimp only at h
  by_cases hcomplete : t.receivedMessageComplete = true
  · rw [if_pos hcomplete] at h
    have hfresh : Idle { t with buffer := [], length := none } :=
      ⟨⟨Nat.zero_le _, fun _ => Nat.zero_lt_succ _⟩, rfl⟩
    rw [getReceivedMessage_of_complete hcomplete] at h
    cases hparse : c.parse t.buffer with
    | error message =>
      rw [hparse] at h
      cases h
      exact hfresh
    | ok message =>
      rw [hparse] at h
      cases h
      exact hfresh
  · rw [if_neg hcomplete] at h
    cases h
    exact ⟨ht, Bool.eq_false_iff.mpr hcomplete⟩

theorem idle_of_parseMessages {fuel : ℕ} {data : Bytes} (ht : t.Idle) {t' : V1Transport}
    (h : ((transport c).parseMessages fuel data t).outcome = .ok t') : t'.Idle := by
  induction fuel generalizing data t t' with
  | zero =>
    cases data with
    | nil => cases h; exact ht
    | cons first octets => cases h
  | succ fuel ih =>
    cases data with
    | nil => cases h; exact ht
    | cons first octets =>
      rw [Transport.parseMessages_cons] at h
      cases hcall : (transport c).receivedBytes (first :: octets) t with
      | error e t₁ =>
        rw [hcall] at h
        cases h
      | ok remaining t₁ =>
        rw [hcall] at h
        have hbounded := ((sat_receivedBytes ht.1 (first :: octets)).of_ok hcall).1
        refine Parse.outcome_andThen ?_ h
        intro t₂ ht₂ t₃ ht₃
        exact ih (idle_of_fetch hbounded ht₂) ht₃

/-- **What is received does not depend on the pieces**: it is what the octets give one by
one. -/
theorem parseMessages_eq_reads {fuel : ℕ} {data : Bytes} (ht : t.Idle)
    (hfuel : data.length ≤ fuel) :
    (transport c).parseMessages fuel data t =
      (transport c).reads (data.map fun octet => [octet]) t := by
  induction data generalizing fuel t with
  | nil =>
    rw [Transport.parseMessages_nil]
    rfl
  | cons first octets ih =>
    rw [List.length_cons] at hfuel
    obtain ⟨fuel, rfl⟩ : ∃ n, fuel = n + 1 := ⟨fuel - 1, by omega⟩
    rw [List.map_cons, Transport.reads, List.length_singleton]
    have hcs : octets.length ≤ fuel := by omega
    by_cases hwanted : t.wanted = 1
    · -- the octet completes what is wanted
      have hone : (transport c).receivedBytes [first] t = finish [first] [] t := by
        have hle : t.wanted ≤ [first].length := by rw [hwanted]; exact Nat.le_refl 1
        show receivedBytes [first] t = _
        rw [receivedBytes_of_le ht.1 hle, hwanted]
        rfl
      have hall : (transport c).receivedBytes (first :: octets) t = finish [first] octets t := by
        have hle : t.wanted ≤ (first :: octets).length := by
          rw [hwanted]
          exact Nat.le_add_left 1 _
        show receivedBytes (first :: octets) t = _
        rw [receivedBytes_of_le ht.1 hle, hwanted]
        rfl
      rw [Transport.parseMessages_cons, Transport.parseMessages_cons, hone, hall,
        finish_rest [first] octets t]
      cases hfinish : finish [first] [] t with
      | error e t₁ => rfl
      | ok remaining t₁ =>
        obtain ⟨hbounded, htakes⟩ := (sat_receivedBytes ht.1 [first]).of_ok (hone.trans hfinish)
        have hnil : remaining = [] :=
          List.eq_nil_of_length_eq_zero (Nat.lt_one_iff.mp (htakes ht.2 (List.cons_ne_nil _ _)))
        dsimp only
        rw [hnil, Parse.andThen_assoc]
        apply Parse.andThen_congr
        intro t₂ ht₂
        rw [Transport.parseMessages_nil, Parse.andThen_ok]
        exact ih (idle_of_fetch hbounded ht₂) hcs
    · obtain ⟨hone, hall⟩ : receivedBytes [first] t = _ ∧ receivedBytes (first :: octets) t = _ :=
        receivedBytes_cons ht hwanted
      have hlt : [first].length < t.wanted := by
        have hpos := ht.1.wanted_pos ht.2
        rw [List.length_singleton]
        omega
      have hidle := ht.buffered hlt
      generalize { t with buffer := t.buffer ++ [first] } = t₁ at hone hall hidle
      have hone' : (transport c).receivedBytes [first] t = .ok [] t₁ := hone
      have hall' : (transport c).receivedBytes (first :: octets) t =
        (transport c).receivedBytes octets t₁ := hall
      have hfetch : (transport c).fetch t₁ = ⟨[], .ok t₁⟩ := by
        unfold Transport.fetch
        exact if_neg (Bool.eq_false_iff.mp hidle.2)
      have hstep : (transport c).parseMessages 1 [first] t = ⟨[], .ok t₁⟩ := by
        rw [Transport.parseMessages_cons, hone']
        dsimp only
        rw [hfetch]
        rfl
      rw [hstep, Parse.andThen_ok, ← ih hidle (Nat.le_succ_of_le hcs)]
      cases octets with
      | nil =>
        rw [Transport.parseMessages_nil, Transport.parseMessages_cons, hone']
        dsimp only
        rw [hfetch, Parse.andThen_ok, Transport.parseMessages_nil]
      | cons second octets =>
        rw [Transport.parseMessages_cons, Transport.parseMessages_cons, hall']

theorem idle_of_reads {pieces : List Bytes} (ht : t.Idle) {t' : V1Transport}
    (h : ((transport c).reads pieces t).outcome = .ok t') : t'.Idle := by
  induction pieces generalizing t t' with
  | nil => cases h; exact ht
  | cons data more ih =>
    refine Parse.outcome_andThen (P := Idle) ?_ h
    intro t₁ ht₁ t₂ ht₂
    exact ih (idle_of_parseMessages ht ht₁) ht₂

theorem reads_eq (pieces : List Bytes) (ht : t.Idle) :
    (transport c).reads pieces t =
      (transport c).reads (pieces.flatten.map fun octet => [octet]) t := by
  induction pieces generalizing t with
  | nil => rfl
  | cons data more ih =>
    rw [List.flatten_cons, List.map_append, Transport.reads_append, Transport.reads,
      parseMessages_eq_reads ht (Nat.le_refl _)]
    apply Parse.andThen_congr
    intro t₁ ht₁
    exact ih (idle_of_reads ht ht₁)

/-- The same octets in other pieces. -/
theorem parseMessages_append {fuel : ℕ} {x y : Bytes} (ht : t.Idle)
    (hfuel : (x ++ y).length ≤ fuel) :
    (transport c).parseMessages fuel (x ++ y) t =
      ((transport c).parseMessages fuel x t).andThen ((transport c).parseMessages fuel y) := by
  rw [List.length_append] at hfuel
  have hfirst : (transport c).parseMessages fuel x t = _ := parseMessages_eq_reads ht (by omega)
  rw [parseMessages_eq_reads ht (by rw [List.length_append]; exact hfuel), List.map_append,
    Transport.reads_append, ← hfirst]
  apply Parse.andThen_congr
  intro t₁ ht₁
  rw [parseMessages_eq_reads (idle_of_parseMessages ht ht₁) (by omega)]

/-! ## The sending end -/

/-- The octets offered. -/
def current (t : V1Transport) : Bytes :=
  if t.sendingHeader then t.headerToSend.drop t.bytesSent
  else t.messageToSend.payload.drop t.bytesSent

/-- The octets held. -/
def unsent (t : V1Transport) : Bytes :=
  if t.sendingHeader then t.headerToSend.drop t.bytesSent ++ t.messageToSend.payload
  else t.messageToSend.payload.drop t.bytesSent

theorem toSend_getBytesToSend (t : V1Transport) (haveNextMessage : Bool) :
    (t.getBytesToSend haveNextMessage).toSend = t.current := by
  unfold getBytesToSend current
  split_ifs <;> rfl

theorem current_isPrefixOf (t : V1Transport) : t.current <+: t.unsent := by
  unfold current unsent
  split_ifs
  · exact List.prefix_append _ _
  · exact List.prefix_rfl

theorem current_of_header (h : t.sendingHeader = true) :
    t.current = t.headerToSend.drop t.bytesSent := if_pos h

theorem unsent_of_header (h : t.sendingHeader = true) :
    t.unsent = t.headerToSend.drop t.bytesSent ++ t.messageToSend.payload := if_pos h

theorem current_of_payload (h : t.sendingHeader = false) :
    t.current = t.messageToSend.payload.drop t.bytesSent := if_neg (Bool.eq_false_iff.mp h)

theorem unsent_of_payload (h : t.sendingHeader = false) :
    t.unsent = t.messageToSend.payload.drop t.bytesSent := if_neg (Bool.eq_false_iff.mp h)

/-- Marked octets leave what is held. -/
theorem unsent_markBytesSent {marked : ℕ} (hle : marked ≤ t.current.length) :
    (t.markBytesSent marked).unsent = t.unsent.drop marked ∧
      ((t.markBytesSent marked).current = t.current.drop marked ∨
        marked = t.current.length) := by
  cases h : t.sendingHeader with
  | true =>
    rw [current_of_header h, List.length_drop] at hle
    rw [current_of_header h, unsent_of_header h]
    by_cases hall : t.bytesSent + marked = t.headerToSend.length
    · -- the header is sent
      have hmark : t.markBytesSent marked = { t with sendingHeader := false, bytesSent := 0 } :=
        if_pos ⟨h, hall⟩
      have hlen : marked = (t.headerToSend.drop t.bytesSent).length := by
        rw [List.length_drop]
        omega
      refine ⟨?_, .inr hlen⟩
      rw [hmark, List.drop_left' hlen.symm]
      exact unsent_of_payload rfl
    · have hmark : t.markBytesSent marked = { t with bytesSent := t.bytesSent + marked } := by
        unfold markBytesSent
        dsimp only
        rw [if_neg fun hsent => hall hsent.2, if_neg fun hsent => hsent.1 h]
      rw [hmark, unsent_of_header (t := { t with bytesSent := t.bytesSent + marked }) h,
        current_of_header (t := { t with bytesSent := t.bytesSent + marked }) h]
      dsimp only
      rw [← List.drop_drop, List.drop_append_of_le_length (by rw [List.length_drop]; exact hle)]
      exact ⟨rfl, .inl rfl⟩
  | false =>
    rw [current_of_payload h, unsent_of_payload h]
    have hheader : ¬ (t.sendingHeader = true ∧ t.bytesSent + marked = t.headerToSend.length) :=
      fun hsent => Bool.eq_false_iff.mp h hsent.1
    by_cases hall : t.bytesSent + marked = t.messageToSend.payload.length
    · -- the payload is sent
      have hmark : t.markBytesSent marked =
          { t with messageToSend := ⟨t.messageToSend.command, []⟩, bytesSent := 0 } := by
        unfold markBytesSent
        dsimp only
        rw [if_neg hheader, if_pos ⟨Bool.eq_false_iff.mp h, hall⟩]
      rw [hmark, List.drop_drop, hall, List.drop_length]
      exact ⟨unsent_of_payload h, .inl (current_of_payload h)⟩
    · have hmark : t.markBytesSent marked = { t with bytesSent := t.bytesSent + marked } := by
        unfold markBytesSent
        dsimp only
        rw [if_neg hheader, if_neg fun hsent => hall hsent.2]
      rw [hmark, List.drop_drop]
      exact ⟨unsent_of_payload h, .inl (current_of_payload h)⟩

/-- A message on the wire. -/
def frame (c : MessageCodec) (magic : Bytes) (msg : SerializedMessage) : Bytes :=
  match header c magic msg with
  | .ok header => header ++ msg.payload
  | .error _ => []

/-- What a sending end holds and has written is the messages set. -/
structure Sending (c : MessageCodec) (magic : Bytes) (s : Sender V1Transport) : Prop where
  network : s.transport.magic = magic
  framed : ∀ msg ∈ s.sent, ∃ header, V1Transport.header c magic msg = .ok header
  level : s.Level s.transport.current s.transport.unsent
  emitted : s.emitted s.transport.unsent = (s.sent.map (frame c magic)).flatten

theorem sending_start (c : MessageCodec) (magic : Bytes) (queue : List SerializedMessage) :
    Sending c magic (.start (.init magic) queue) where
  network := rfl
  framed _ hmem := by cases hmem
  level := ⟨List.nil_prefix, Nat.zero_le _, List.nil_prefix⟩
  emitted := rfl

theorem setMessageToSend_eq (msg : SerializedMessage) (t : V1Transport) :
    setMessageToSend c msg t =
      if t.sendingHeader ∨ t.bytesSent < t.messageToSend.payload.length then .ok false t
      else match header c t.magic msg with
        | .error e => .error e t
        | .ok header => .ok true { t with
            headerToSend := header, messageToSend := msg, sendingHeader := true
            bytesSent := 0 } := by
  unfold setMessageToSend
  show (if _ then _ else _ : EStateM TransportError V1Transport Bool) t = _
  split_ifs
  · rfl
  · cases header c t.magic msg with
    | error e => rfl
    | ok header => rfl

theorem Sending.act {magic : Bytes} {s s' : Sender V1Transport} {a : SendAction}
    (hs : Sending c magic s) (h : s.act (transport c) a = .ok s') : Sending c magic s' := by
  cases a with
  | set =>
    unfold Sender.act at h
    dsimp only at h
    cases hqueue : s.queue with
    | nil =>
      rw [hqueue] at h
      rw [← Except.ok.inj h]
      exact hs
    | cons msg queue =>
      rw [hqueue] at h
      dsimp only at h
      have hset : (transport c).setMessageToSend msg s.transport =
        setMessageToSend c msg s.transport := rfl
      rw [hset, setMessageToSend_eq, hs.network] at h
      by_cases hbusy : s.transport.sendingHeader ∨
          s.transport.bytesSent < s.transport.messageToSend.payload.length
      · rw [if_pos hbusy] at h
        rw [← Except.ok.inj h]
        exact ⟨hs.network, hs.framed, ⟨hs.level.1, hs.level.2, hs.level.3⟩, hs.emitted⟩
      · rw [if_neg hbusy] at h
        cases hheader : header c magic msg with
        | error e =>
          rw [hheader] at h
          cases h
        | ok header =>
          rw [hheader] at h
          rw [← Except.ok.inj h]
          -- the last message is sent, so that nothing is held
          rw [not_or, Bool.not_eq_true] at hbusy
          have hcurrent : s.transport.current = [] := by
            rw [current_of_payload hbusy.1]
            exact List.drop_of_length_le (Nat.le_of_not_lt hbusy.2)
          have hunsent : s.transport.unsent = [] := by
            rw [unsent_of_payload hbusy.1]
            exact List.drop_of_length_le (Nat.le_of_not_lt hbusy.2)
          have hle := hs.level.offered_le
          rw [hcurrent, List.length_nil] at hle
          have hoffered : s.offered = [] := List.eq_nil_of_length_eq_zero (by omega)
          have hzero : s.unmarked = 0 := by omega
          have hwire : s.wire = (s.sent.map (frame c magic)).flatten := by
            have hemitted := hs.emitted
            unfold Sender.emitted at hemitted
            rwa [hunsent, List.drop_nil, List.append_nil] at hemitted
          refine ⟨rfl, ?_, ⟨?_, ?_, current_isPrefixOf _⟩, ?_⟩
          · intro msg' hmem
            rcases List.mem_append.mp hmem with hmem | hmem
            · exact hs.framed msg' hmem
            · rw [List.mem_singleton.mp hmem]
              exact ⟨header, hheader⟩
          · show s.offered <+: _
            rw [hoffered]
            exact List.nil_prefix
          · show s.unmarked ≤ _
            rw [hzero]
            exact Nat.zero_le _
          · show s.wire ++ List.drop s.unmarked (header ++ msg.payload) = _
            rw [hzero, List.drop_zero, hwire]
            show _ = ((s.sent ++ [msg]).map (frame c magic)).flatten
            rw [List.map_append, List.flatten_append, List.map_singleton, List.flatten_singleton]
            unfold frame
            rw [hheader]
  | get haveNextMessage =>
    have hcurrent := toSend_getBytesToSend s.transport haveNextMessage
    obtain ⟨hlevel, hemitted, htransport, hsent⟩ := hs.level.get rfl hcurrent h
    rw [← htransport] at hlevel
    exact ⟨htransport ▸ hs.network, hsent ▸ hs.framed, hlevel, by
      rw [htransport, hsent, hemitted, hs.emitted]⟩
  | write size =>
    obtain ⟨hlevel, hemitted⟩ := hs.level.write h
    rw [← Except.ok.inj h] at hlevel hemitted ⊢
    exact ⟨hs.network, hs.framed, hlevel, hemitted.trans hs.emitted⟩
  | mark size =>
    have hle : min size s.unmarked ≤ s.transport.current.length :=
      Nat.le_trans (Nat.min_le_right _ _) hs.level.unmarked
    obtain ⟨hunsent, hcurrent⟩ := unsent_markBytesSent hle
    obtain ⟨hlevel, hemitted⟩ := hs.level.mark h rfl hunsent hcurrent (current_isPrefixOf _)
    rw [← Except.ok.inj h] at hlevel hemitted ⊢
    refine ⟨?_, hs.framed, hlevel, hemitted.trans hs.emitted⟩
    rw [← hs.network]
    show (markBytesSent _ s.transport).magic = _
    unfold markBytesSent
    dsimp only
    split_ifs <;> rfl

/-- The header of a `version` message starts with what tells v1 from v2. -/
theorem v1Prefix_prefix_header {magic header : Bytes} {msg : SerializedMessage}
    (h : V1Transport.header c magic msg = .ok header) (hversion : msg.command = "version") :
    magic ++ v1VersionCommand <+: header := by
  have hcommand : encodeAscii "version" = .ok (ascii "version") := by decide
  have hpadded : ljust (ascii "version") commandSize = v1VersionCommand := by decide
  unfold V1Transport.header at h
  rw [hversion, hcommand] at h
  cases hchecksum : c.checksum magic "version" msg.payload with
  | error message =>
    rw [hchecksum] at h
    cases h
  | ok checksum =>
    rw [hchecksum] at h
    cases hlength : toBytes msg.payload.length lengthSize with
    | error e =>
      rw [hlength] at h
      cases h
    | ok length =>
      rw [hlength] at h
      rw [← Except.ok.inj h]
      show _ <+: magic ++ ljust (ascii "version") commandSize ++ length ++ checksum
      rw [hpadded, List.append_assoc (magic ++ v1VersionCommand)]
      exact List.prefix_append _ _

/-- What a v1 sending end that starts with a `version` has written starts as v1 does. -/
theorem take_wire_prefix {magic : Bytes} {queue : List SerializedMessage}
    {actions : List SendAction} {s : Sender V1Transport}
    (hrun : Sender.run (transport c) actions (.start (.init magic) queue) = .ok s)
    (hversion : ∀ msg ∈ queue.head?, msg.command = "version")
    (hmagic : magic.length = magicSize) {octets : Bytes} (hoctets : octets <+: s.wire) :
    octets.take v1PrefixLen <+: magic ++ v1VersionCommand := by
  have hlen : (magic ++ v1VersionCommand).length = v1PrefixLen := by
    rw [List.length_append, hmagic]
    rfl
  obtain ⟨hs, hqueue⟩ := Sender.run_invariant
    (P := fun s => Sending c magic s ∧ s.sent ++ s.queue = queue)
    (fun s a s' hs hact => ⟨hs.1.act hact, (Sender.sent_append_queue_act hact).trans hs.2⟩)
    ⟨sending_start c magic queue, rfl⟩ hrun
  have hframes : octets <+: (s.sent.map (frame c magic)).flatten := by
    rw [← hs.emitted]
    exact hoctets.trans (List.prefix_append _ _)
  cases hsent : s.sent with
  | nil =>
    rw [hsent] at hframes
    rw [List.prefix_nil.mp hframes]
    exact List.nil_prefix
  | cons msg sent =>
    rw [hsent] at hqueue hframes
    have hcommand : msg.command = "version" := by
      apply hversion
      rw [← hqueue]
      rfl
    obtain ⟨header, hheader⟩ := hs.framed msg (by rw [hsent]; exact List.mem_cons_self)
    obtain ⟨rest, hrest⟩ := v1Prefix_prefix_header hheader hcommand
    rw [List.map_cons, List.flatten_cons] at hframes
    have hframe : frame c magic msg = magic ++ v1VersionCommand ++ (rest ++ msg.payload) := by
      unfold frame
      rw [hheader, ← List.append_assoc, hrest]
    rw [hframe, List.append_assoc] at hframes
    obtain ⟨tail, htail⟩ := hframes
    have htake := congrArg (List.take v1PrefixLen) htail
    rw [List.take_left' hlen, List.take_append] at htake
    exact ⟨_, htake⟩

end V1Transport

/-! ## The responder -/

namespace V2Transport

variable {b : Bip324} {c : MessageCodec} {t : V2Transport b} {v : V1Transport}

/-- A responder stands for its fallback: it has read less than tells v1 from v2, all of it
v1, or it has fallen back. -/
inductive FallsBack (magic : Bytes) : V2Transport b → V1Transport → Prop
  | undecided {t : V2Transport b} (hstate : t.recvState = .keyMaybeV1) (hmagic : t.magic = magic)
    (hv1 : t.v1 = some (.init magic)) (hfront : t.recvBuffer <+: magic ++ v1VersionCommand)
    (hlt : t.recvBuffer.length < v1PrefixLen) :
    FallsBack magic t { V1Transport.init magic with buffer := t.recvBuffer }
  | v1 {t : V2Transport b} {v : V1Transport} (hstate : t.recvState = .v1) (hv1 : t.v1 = some v) :
    FallsBack magic t v

/-- What a fallen-back transport does is what the fallback does. -/
theorem onV1_ok {α : Type} {x : EStateM TransportError V1Transport α} {a : α} {v' : V1Transport}
    (hv1 : t.v1 = some v) (hx : x v = .ok a v') : onV1 x t = .ok a { t with v1 := some v' } := by
  unfold onV1
  rw [hv1]
  dsimp only
  rw [hx]

theorem onV1_error {α : Type} {x : EStateM TransportError V1Transport α} {e : TransportError}
    {v' : V1Transport} (hv1 : t.v1 = some v) (hx : x v = .error e v') :
    onV1 x t = .error e { t with v1 := some v' } := by
  unfold onV1
  rw [hv1]
  dsimp only
  rw [hx]

section Fallen

variable (hstate : t.recvState = .v1)
include hstate

theorem receivedBytes_of_v1 (msgBytes : Bytes) :
    receivedBytes msgBytes t = onV1 (V1Transport.receivedBytes msgBytes) t := by
  unfold receivedBytes
  show (if t.recvState = .v1 then _ else _ : EStateM TransportError (V2Transport b) Bytes) t = _
  rw [if_pos hstate]

theorem getReceivedMessage_of_v1 :
    getReceivedMessage c t = onV1 (V1Transport.getReceivedMessage c) t := by
  unfold getReceivedMessage
  show (if t.recvState = .v1 then _ else _ :
    EStateM TransportError (V2Transport b) NetMessage) t = _
  rw [if_pos hstate]

theorem receivedMessageComplete_of_v1 (hv1 : t.v1 = some v) :
    t.receivedMessageComplete = v.receivedMessageComplete := by
  unfold receivedMessageComplete
  rw [if_pos hstate, hv1]
  rfl

/-- A transport that has fallen back fetches what the fallback would. -/
theorem related_fetch_v1 (hv1 : t.v1 = some v) :
    Parse.Related (fun t v => t.recvState = .v1 ∧ t.v1 = some v)
      ((transport b c).fetch t) ((V1Transport.transport c).fetch v) := by
  have hcomplete := receivedMessageComplete_of_v1 hstate hv1
  have hget : (transport b c).getReceivedMessage t = onV1 (V1Transport.getReceivedMessage c) t :=
    getReceivedMessage_of_v1 hstate
  cases hv : v.receivedMessageComplete with
  | false =>
    rw [Transport.fetch_of_partial _ (hcomplete.trans hv), Transport.fetch_of_partial _ hv]
    exact ⟨rfl, hstate, hv1⟩
  | true =>
    rw [Transport.fetch_of_complete _ (hcomplete.trans hv), Transport.fetch_of_complete _ hv, hget]
    cases hrun : V1Transport.getReceivedMessage c v with
    | ok message v' =>
      have hrun' : (V1Transport.transport c).getReceivedMessage v = .ok message v' := hrun
      rw [onV1_ok hv1 hrun, hrun']
      exact ⟨rfl, hstate, rfl⟩
    | error e v' =>
      have hrun' : (V1Transport.transport c).getReceivedMessage v = .error e v' := hrun
      rw [onV1_error hv1 hrun, hrun']
      cases e with
      | rejectedMessage size => exact ⟨rfl, hstate, rfl⟩
      | _ => exact ⟨rfl, rfl⟩

/-- What a transport that has fallen back parses is what the fallback would. -/
theorem related_parseMessages_v1 (hv1 : t.v1 = some v) (fuel : ℕ) (data : Bytes) :
    Parse.Related (fun t v => t.recvState = .v1 ∧ t.v1 = some v)
      ((transport b c).parseMessages fuel data t)
      ((V1Transport.transport c).parseMessages fuel data v) := by
  induction fuel generalizing t v data with
  | zero =>
    cases data with
    | nil => exact ⟨rfl, hstate, hv1⟩
    | cons first octets => exact ⟨rfl, rfl⟩
  | succ fuel ih =>
    cases data with
    | nil => exact ⟨rfl, hstate, hv1⟩
    | cons first octets =>
      have hreceived : (transport b c).receivedBytes (first :: octets) t =
        onV1 (V1Transport.receivedBytes (first :: octets)) t :=
          receivedBytes_of_v1 hstate (first :: octets)
      rw [Transport.parseMessages_cons, Transport.parseMessages_cons, hreceived]
      cases hrun : V1Transport.receivedBytes (first :: octets) v with
      | error e v' =>
        have hrun' : (V1Transport.transport c).receivedBytes (first :: octets) v = .error e v' :=
          hrun
        rw [onV1_error hv1 hrun, hrun']
        exact ⟨rfl, rfl⟩
      | ok remaining v' =>
        have hrun' : (V1Transport.transport c).receivedBytes (first :: octets) v =
          .ok remaining v' := hrun
        rw [onV1_ok hv1 hrun, hrun']
        apply (related_fetch_v1 (t := { t with v1 := some v' }) hstate rfl).andThen
        rintro t₁ v₁ ⟨hstate₁, hv1₁⟩
        exact ih hstate₁ hv1₁ remaining

end Fallen

/-! ### Before the fallback -/

/-- What tells v1 from v2. -/
theorem length_v1Prefix {magic : Bytes} (hmagic : magic.length = magicSize) :
    (magic ++ v1VersionCommand).length = v1PrefixLen := by
  rw [List.length_append, hmagic]
  rfl

section Undecided

variable {magic : Bytes} (hmagic : t.magic = magic)
include hmagic

/-- Octets that may still be v1 are kept. -/
theorem processMaybeV1Bytes_undecided (hfront : t.recvBuffer <+: magic ++ v1VersionCommand)
    (hlt : t.recvBuffer.length < v1PrefixLen) : processMaybeV1Bytes t = .ok false t := by
  unfold processMaybeV1Bytes
  show (if _ then _ else _ : EStateM TransportError (V2Transport b) Bool) t = _
  rw [hmagic, if_neg (not_not_intro hfront), if_neg (Nat.ne_of_lt hlt)]
  rfl

variable (hv1 : t.v1 = some (.init magic))
include hv1

/-- The sixteen octets of v1 go to the fallback. -/
theorem processMaybeV1Bytes_v1 (hfront : t.recvBuffer <+: magic ++ v1VersionCommand)
    (hlen : t.recvBuffer.length = v1PrefixLen) :
    processMaybeV1Bytes t = .ok true { t with
      v1 := some { V1Transport.init magic with buffer := t.recvBuffer }
      recvState := .v1, sendState := .v1, recvBuffer := [], sendBuffer := [] } := by
  have hfront' : t.recvBuffer <+: t.magic ++ v1VersionCommand := by
    rw [hmagic]
    exact hfront
  have hlt : t.recvBuffer.length < (V1Transport.init magic).wanted := by
    rw [hlen]
    show v1PrefixLen < headerSize - 0
    decide
  have hcall := onV1_ok hv1 (V1Transport.receivedBytes_of_lt hlt)
  have hsome : ¬ (t.v1.isNone = true) := by
    rw [hv1]
    exact Bool.false_ne_true
  unfold processMaybeV1Bytes
  show (if _ then _ else _ : EStateM TransportError (V2Transport b) Bool) t = _
  rw [if_neg (not_not_intro hfront'), if_pos hlen, if_neg hsome]
  show EStateM.bind (onV1 (V1Transport.receivedBytes t.recvBuffer)) _ t = _
  unfold EStateM.bind
  rw [hcall]
  rfl

variable (hstate : t.recvState = .keyMaybeV1)
include hstate

omit hv1 in
/-- Less than tells v1 from v2. -/
theorem receivedBytes_undecided {octets : Bytes} (hsome : octets ≠ [])
    (hfront : t.recvBuffer ++ octets <+: magic ++ v1VersionCommand)
    (hlt : (t.recvBuffer ++ octets).length < v1PrefixLen) :
    receivedBytes octets t = .ok [] (t.buffered octets) := by
  have hready : t.recvState ≠ .appReady := by
    rw [hstate]
    exact RecvState.noConfusion
  have hv1 : t.recvState ≠ .v1 := by
    rw [hstate]
    exact RecvState.noConfusion
  unfold receivedBytes
  show (if t.recvState = .v1 then _ else _ : EStateM TransportError (V2Transport b) Bytes) t = _
  rw [if_neg hv1]
  have hpos := List.length_pos_iff.mpr hsome
  have hsize : min octets.length t.maxBytesToProcess = octets.length := by
    unfold maxBytesToProcess
    rw [hstate]
    rw [List.length_append] at hlt
    dsimp only
    omega
  apply Sat.eq_ok
  rw [sat_receiveLoop_turn hsome hready hsize, List.take_length, List.drop_length, hstate]
  show Sat processMaybeV1Bytes _ _ _
  have hprocess := processMaybeV1Bytes_undecided (t := t.buffered octets) hmagic hfront hlt
  rw [sat_of_ok hprocess, if_neg Bool.false_ne_true]
  obtain ⟨n, hn⟩ : ∃ n, octets.length = n + 1 := ⟨octets.length - 1, by omega⟩
  rw [hn, sat_of_ok (receiveLoop_of_end n (.inl rfl))]
  exact ⟨rfl, rfl⟩

/-- All that tells v1 from v2. -/
theorem receivedBytes_fallback {octets : Bytes} (rest : Bytes) (hsome : octets ≠ [])
    (hfront : t.recvBuffer ++ octets <+: magic ++ v1VersionCommand)
    (hlen : (t.recvBuffer ++ octets).length = v1PrefixLen) :
    receivedBytes (octets ++ rest) t = .ok rest { t with
      v1 := some { V1Transport.init magic with buffer := t.recvBuffer ++ octets }
      recvState := .v1, sendState := .v1, recvBuffer := [], sendBuffer := [] } := by
  have hready : t.recvState ≠ .appReady := by
    rw [hstate]
    exact RecvState.noConfusion
  have hstate' : t.recvState ≠ .v1 := by
    rw [hstate]
    exact RecvState.noConfusion
  have hsize : min (octets ++ rest).length t.maxBytesToProcess = octets.length := by
    unfold maxBytesToProcess
    rw [hstate, List.length_append]
    rw [List.length_append] at hlen
    dsimp only
    omega
  unfold receivedBytes
  show (if t.recvState = .v1 then _ else _ : EStateM TransportError (V2Transport b) Bytes) t = _
  rw [if_neg hstate']
  apply Sat.eq_ok
  rw [sat_receiveLoop_turn (List.append_ne_nil_of_left_ne_nil hsome rest) hready hsize,
    List.take_left' rfl, List.drop_left' rfl, hstate]
  show Sat processMaybeV1Bytes _ _ _
  have hprocess := processMaybeV1Bytes_v1 (t := t.buffered octets) hmagic hv1 hfront hlen
  rw [sat_of_ok hprocess, if_pos rfl]
  exact ⟨rfl, rfl⟩

end Undecided

/-- What a responder parses, and what it still waits for where it is undecided. -/
theorem related_parseMessages {magic : Bytes} {data : Bytes} {fuel : ℕ}
    (h : FallsBack magic t v) (hfuel : data.length ≤ fuel)
    (hdata : t.recvState = .keyMaybeV1 →
      (t.recvBuffer ++ data).take v1PrefixLen <+: magic ++ v1VersionCommand) :
    Parse.Related (fun t' v' => FallsBack magic t' v' ∧ (t'.recvState = .keyMaybeV1 →
        t.recvState = .keyMaybeV1 ∧ t'.recvBuffer = t.recvBuffer ++ data))
      ((transport b c).parseMessages fuel data t)
      ((V1Transport.transport c).parseMessages fuel data v) := by
  cases h with
  | v1 hstate hv1 =>
    apply (related_parseMessages_v1 hstate hv1 fuel data).mono
    rintro t' v' ⟨hstate', hv1'⟩
    refine ⟨.v1 hstate' hv1', ?_⟩
    intro hundecided
    rw [hstate'] at hundecided
    cases hundecided
  | undecided hstate hmagic' hv1 hfront hlt =>
    have hdata := hdata hstate
    cases data with
    | nil =>
      rw [Transport.parseMessages_nil, Transport.parseMessages_nil]
      refine ⟨rfl, .undecided hstate hmagic' hv1 hfront hlt, fun _ => ⟨hstate, ?_⟩⟩
      rw [List.append_nil]
    | cons first octets =>
      have hwanted : V1Transport.wanted { V1Transport.init magic with buffer := t.recvBuffer } =
        headerSize - t.recvBuffer.length := rfl
      have hheader : t.recvBuffer.length < headerSize := Nat.lt_trans hlt (by decide)
      have hidle : V1Transport.Idle { V1Transport.init magic with buffer := t.recvBuffer } :=
        (V1Transport.idle_init magic).buffered hheader
      rw [List.length_cons] at hfuel
      obtain ⟨n, rfl⟩ : ∃ n, fuel = n + 1 := ⟨fuel - 1, by omega⟩
      by_cases hshort : (t.recvBuffer ++ first :: octets).length < v1PrefixLen
      · -- still undecided
        rw [List.take_of_length_le (Nat.le_of_lt hshort)] at hdata
        have hcall : (transport b c).receivedBytes (first :: octets) t =
            .ok [] (t.buffered (first :: octets)) :=
          receivedBytes_undecided hmagic' hstate (List.cons_ne_nil _ _) hdata hshort
        have hcall' : (V1Transport.transport c).receivedBytes (first :: octets)
            { V1Transport.init magic with buffer := t.recvBuffer } =
              .ok [] { V1Transport.init magic with buffer := t.recvBuffer ++ first :: octets } := by
          apply V1Transport.receivedBytes_of_lt
          rw [hwanted]
          rw [List.length_append] at hshort
          have hless : v1PrefixLen < headerSize := by decide
          omega
        have hunfinished : (transport b c).receivedMessageComplete (t.buffered (first :: octets)) =
            false := by
          show (if t.recvState = .v1 then _ else decide (t.recvState = .appReady)) = false
          rw [hstate]
          rfl
        rw [Transport.parseMessages_cons, Transport.parseMessages_cons, hcall, hcall']
        dsimp only
        rw [Transport.fetch_of_partial _ hunfinished, Transport.fetch_of_partial _ rfl,
          Parse.andThen_ok, Parse.andThen_ok, Transport.parseMessages_nil,
          Transport.parseMessages_nil]
        exact ⟨rfl, .undecided hstate hmagic' hv1 hdata hshort, fun _ => ⟨hstate, rfl⟩⟩
      · -- the sixteenth octet is among them
        generalize hk : v1PrefixLen - t.recvBuffer.length = k
        have hcut : first :: octets = (first :: octets).take k ++ (first :: octets).drop k :=
          (List.take_append_drop k _).symm
        rw [List.take_append, hk, List.take_of_length_le (Nat.le_of_lt hlt)] at hdata
        have hlen : (t.recvBuffer ++ (first :: octets).take k).length = v1PrefixLen := by
          rw [List.length_append] at hshort
          rw [List.length_append, List.length_take]
          omega
        have hsome : (first :: octets).take k ≠ [] := by
          rw [← List.length_pos_iff]
          rw [List.length_append] at hlen
          omega
        generalize hrest : (first :: octets).drop k = rest at hcut
        have hrestLen : rest.length ≤ n := by
          rw [← hrest, List.length_drop, List.length_cons]
          omega
        have hcall : (transport b c).receivedBytes (first :: octets) t = .ok rest { t with
            v1 := some { V1Transport.init magic with
              buffer := t.recvBuffer ++ (first :: octets).take k }
            recvState := .v1, sendState := .v1, recvBuffer := [], sendBuffer := [] } := by
          conv_lhs => rw [hcut]
          exact receivedBytes_fallback hmagic' hv1 hstate rest hsome hdata hlen
        generalize hx : (first :: octets).take k = x at hcut hdata hlen hsome hcall
        -- the fallback, fed those sixteen octets
        have hless : v1PrefixLen < headerSize := by decide
        have hlt' : x.length <
            V1Transport.wanted { V1Transport.init magic with buffer := t.recvBuffer } := by
          rw [List.length_append] at hlen
          rw [hwanted]
          omega
        have hfed : (V1Transport.transport c).parseMessages (n + 1) x
            { V1Transport.init magic with buffer := t.recvBuffer } =
              ⟨[], .ok { V1Transport.init magic with buffer := t.recvBuffer ++ x }⟩ := by
          have hcall' : (V1Transport.transport c).receivedBytes x
              { V1Transport.init magic with buffer := t.recvBuffer } =
                .ok [] { V1Transport.init magic with buffer := t.recvBuffer ++ x } :=
            V1Transport.receivedBytes_of_lt hlt'
          cases x with
          | nil => exact absurd rfl hsome
          | cons c' cs' =>
            rw [Transport.parseMessages_cons, hcall']
            dsimp only
            rw [Transport.fetch_of_partial _ rfl, Parse.andThen_ok, Transport.parseMessages_nil]
        have hidle' : V1Transport.Idle { V1Transport.init magic with buffer := t.recvBuffer ++ x } :=
          hidle.buffered hlt'
        have hright : (V1Transport.transport c).parseMessages (n + 1) (first :: octets)
            { V1Transport.init magic with buffer := t.recvBuffer } =
              (V1Transport.transport c).parseMessages n rest
                { V1Transport.init magic with buffer := t.recvBuffer ++ x } := by
          have hall : (x ++ rest).length ≤ n + 1 := by
            rw [← hcut]
            exact hfuel
          rw [hcut, V1Transport.parseMessages_append hidle hall, hfed, Parse.andThen_ok,
            V1Transport.parseMessages_eq_reads hidle' (Nat.le_succ_of_le hrestLen),
            V1Transport.parseMessages_eq_reads hidle' hrestLen]
        rw [hright, Transport.parseMessages_cons, hcall]
        dsimp only
        rw [Transport.fetch_of_partial _ rfl, Parse.andThen_ok]
        apply (related_parseMessages_v1 rfl rfl n rest).mono
        rintro t' v' ⟨hstate', hv1'⟩
        refine ⟨.v1 hstate' hv1', ?_⟩
        intro hundecided
        rw [hstate'] at hundecided
        cases hundecided

/-- **A responder that falls back receives what a v1 transport would**, whatever the pieces
either is given. -/
theorem related_reads {magic : Bytes} (pieces : List Bytes) (h : FallsBack magic t v) (hdata : t.recvState = .keyMaybeV1 →
      (t.recvBuffer ++ pieces.flatten).take v1PrefixLen <+: magic ++ v1VersionCommand) :
    Parse.Related (FallsBack magic) ((transport b c).reads pieces t)
      ((V1Transport.transport c).reads pieces v) := by
  induction pieces generalizing t v with
  | nil => exact ⟨rfl, h⟩
  | cons data more ih =>
    rw [List.flatten_cons, ← List.append_assoc] at hdata
    rw [Transport.reads, Transport.reads]
    have hfirst := related_parseMessages (c := c) h (Nat.le_refl data.length)
      fun hundecided => by
        have hall := hdata hundecided
        rw [List.take_append] at hall
        exact (List.prefix_append _ _).trans hall
    apply hfirst.andThen
    rintro t' v' ⟨h', hundecided⟩
    apply ih h'
    intro hstate'
    obtain ⟨hstate, hbuffer⟩ := hundecided hstate'
    rw [hbuffer]
    exact hdata hstate

/-- A responder that has received nothing stands for its fallback. -/
theorem fallsBack_start (b : Bip324) (magic : Bytes) (prvKey : ℕ) (ellOurs garbage : Bytes) :
    FallsBack magic (start b magic (some (.init magic)) false prvKey ellOurs garbage)
      (.init magic) :=
  .undecided rfl rfl rfl List.nil_prefix (Nat.zero_lt_succ _)

end V2Transport

end BtclibNode
