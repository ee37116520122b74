/-
# The two ends of a transport

How a connection drives its transport: `parse_messages` hands it what the socket read, and
the sending end sets a message, asks for octets, writes some of them and reports them sent,
in any order.
-/
import BtclibNode.P2p.Transport

namespace BtclibNode

/-! ## Reading -/

/-- What a connection has off its transport: a message, or one that was rejected. -/
inductive Received
  | message (message : NetMessage)
  | rejected (size : ℕ)
  deriving DecidableEq, Repr

/-- What was received, and the transport it left or what was raised. -/
structure Parse (σ : Type) where
  received : List Received
  outcome : Except TransportError σ

namespace Parse

variable {σ : Type}

/-- One more, received before. -/
def cons (first : Received) (p : Parse σ) : Parse σ := ⟨first :: p.received, p.outcome⟩

/-- What is received after `p`, unless it raised. -/
def andThen (p : Parse σ) (f : σ → Parse σ) : Parse σ :=
  match p.outcome with
  | .error e => ⟨p.received, .error e⟩
  | .ok t => ⟨p.received ++ (f t).received, (f t).outcome⟩

theorem andThen_error {received : List Received} {e : TransportError} (f : σ → Parse σ) :
    andThen ⟨received, .error e⟩ f = ⟨received, .error e⟩ := rfl

theorem andThen_ok {t : σ} (f : σ → Parse σ) : andThen ⟨[], .ok t⟩ f = f t := rfl

theorem andThen_pure (p : Parse σ) : p.andThen (fun t => ⟨[], .ok t⟩) = p := by
  obtain ⟨received, outcome⟩ := p
  cases outcome with
  | error e => rfl
  | ok t =>
    show (⟨received ++ [], .ok t⟩ : Parse σ) = _
    rw [List.append_nil]

theorem andThen_assoc (p : Parse σ) (f g : σ → Parse σ) :
    (p.andThen f).andThen g = p.andThen fun t => (f t).andThen g := by
  obtain ⟨received, outcome⟩ := p
  cases outcome with
  | error e => rfl
  | ok t =>
    show andThen ⟨received ++ (f t).received, (f t).outcome⟩ g = andThen ⟨received, .ok t⟩ _
    unfold andThen
    cases h : (f t).outcome with
    | error e =>
      dsimp only
      rw [h]
    | ok t' =>
      dsimp only
      rw [h, List.append_assoc]

theorem andThen_congr {p : Parse σ} {f g : σ → Parse σ}
    (h : ∀ t, p.outcome = .ok t → f t = g t) : p.andThen f = p.andThen g := by
  unfold andThen
  cases hp : p.outcome with
  | error e => rfl
  | ok t =>
    dsimp only
    rw [h t hp]

/-- What holds of the transports left holds after more is received. -/
theorem outcome_andThen {P : σ → Prop} {p : Parse σ} {f : σ → Parse σ}
    (h : ∀ t, p.outcome = .ok t → ∀ t', (f t).outcome = .ok t' → P t') {t' : σ}
    (ht' : (p.andThen f).outcome = .ok t') : P t' := by
  unfold andThen at ht'
  cases hp : p.outcome with
  | error e =>
    rw [hp] at ht'
    cases ht'
  | ok t =>
    rw [hp] at ht'
    exact h t hp t' ht'

/-- Two transports gave the same, and raised the same or are left related. -/
def Related {τ : Type} (R : σ → τ → Prop) (p : Parse σ) (q : Parse τ) : Prop :=
  p.received = q.received ∧
    match p.outcome, q.outcome with
    | .ok t, .ok u => R t u
    | .error e, .error e' => e = e'
    | _, _ => False

theorem Related.mono {τ : Type} {R R' : σ → τ → Prop} {p : Parse σ} {q : Parse τ}
    (h : Related R p q) (hR : ∀ t u, R t u → R' t u) : Related R' p q := by
  obtain ⟨received, outcome⟩ := p
  obtain ⟨received', outcome'⟩ := q
  refine ⟨h.1, ?_⟩
  have houtcome := h.2
  cases outcome with
  | error e => cases outcome' <;> exact houtcome
  | ok t =>
    cases outcome' with
    | error e' => exact houtcome
    | ok u => exact hR t u houtcome

theorem Related.andThen {τ : Type} {R R' : σ → τ → Prop} {p : Parse σ} {q : Parse τ}
    {f : σ → Parse σ} {g : τ → Parse τ} (h : Related R p q)
    (hnext : ∀ t u, R t u → Related R' (f t) (g u)) :
    Related R' (p.andThen f) (q.andThen g) := by
  obtain ⟨received, outcome⟩ := p
  obtain ⟨received', outcome'⟩ := q
  obtain ⟨hsame, houtcome⟩ := h
  have hsame' : received = received' := hsame
  subst hsame'
  cases outcome with
  | error e =>
    cases outcome' with
    | error e' => exact ⟨rfl, houtcome⟩
    | ok u => exact houtcome.elim
  | ok t =>
    cases outcome' with
    | error e' => exact houtcome.elim
    | ok u =>
      have hrest := hnext t u houtcome
      refine ⟨?_, hrest.2⟩
      show received ++ (f t).received = received ++ (g u).received
      rw [hrest.1]

end Parse

namespace Transport

variable {σ : Type} (T : Transport σ)

/-- `parse_messages`: the loop over what the socket read, for as many turns as it read
octets. -/
def parseMessages : ℕ → Bytes → σ → Parse σ
  | _, [], t => ⟨[], .ok t⟩
  | 0, _ :: _, _ => ⟨[], .error .unending⟩
  | fuel + 1, c :: cs, t =>
    match T.receivedBytes (c :: cs) t with
    | .error e _ => ⟨[], .error e⟩
    | .ok remaining t =>
      if T.receivedMessageComplete t then
        match T.getReceivedMessage t with
        | .ok message t => (parseMessages fuel remaining t).cons (.message message)
        | .error (.rejectedMessage size) t =>
          (parseMessages fuel remaining t).cons (.rejected size)
        | .error e _ => ⟨[], .error e⟩
      else parseMessages fuel remaining t

/-- The message that is whole is fetched. -/
def fetch (t : σ) : Parse σ :=
  if T.receivedMessageComplete t then
    match T.getReceivedMessage t with
    | .ok message t => ⟨[.message message], .ok t⟩
    | .error (.rejectedMessage size) t => ⟨[.rejected size], .ok t⟩
    | .error e _ => ⟨[], .error e⟩
  else ⟨[], .ok t⟩

/-- What the socket read, piece by piece. -/
def reads : List Bytes → σ → Parse σ
  | [], t => ⟨[], .ok t⟩
  | data :: more, t => (T.parseMessages data.length data t).andThen (reads more)

theorem fetch_of_partial {t : σ} (h : T.receivedMessageComplete t = false) :
    T.fetch t = ⟨[], .ok t⟩ := by
  unfold fetch
  rw [if_neg (Bool.eq_false_iff.mp h)]

theorem fetch_of_complete {t : σ} (h : T.receivedMessageComplete t = true) :
    T.fetch t = match T.getReceivedMessage t with
      | .ok message t => ⟨[.message message], .ok t⟩
      | .error (.rejectedMessage size) t => ⟨[.rejected size], .ok t⟩
      | .error e _ => ⟨[], .error e⟩ := by
  unfold fetch
  rw [if_pos h]

theorem parseMessages_nil (fuel : ℕ) (t : σ) : T.parseMessages fuel [] t = ⟨[], .ok t⟩ := by
  cases fuel <;> rfl

/-- A turn of the loop. -/
theorem parseMessages_cons (fuel : ℕ) (c : UInt8) (cs : Bytes) (t : σ) :
    T.parseMessages (fuel + 1) (c :: cs) t =
      match T.receivedBytes (c :: cs) t with
      | .error e _ => ⟨[], .error e⟩
      | .ok remaining t => (T.fetch t).andThen (T.parseMessages fuel remaining) := by
  rw [parseMessages]
  cases T.receivedBytes (c :: cs) t with
  | error e _ => rfl
  | ok remaining t =>
    dsimp only
    unfold fetch
    cases T.receivedMessageComplete t with
    | false => rfl
    | true =>
      rw [if_pos rfl, if_pos rfl]
      cases T.getReceivedMessage t with
      | ok message t => rfl
      | error e t => cases e <;> rfl

theorem reads_append (x y : List Bytes) (t : σ) :
    T.reads (x ++ y) t = (T.reads x t).andThen (T.reads y) := by
  induction x generalizing t with
  | nil => rfl
  | cons data more ih =>
    rw [List.cons_append, reads, reads, Parse.andThen_assoc]
    congr 1
    funext t'
    exact ih t'

end Transport

/-! ## Writing -/

/-- The sending end: the messages to be set and those that were, the octets offered and not
written, how many are written and not marked, and those written and not yet delivered. -/
structure Sender (σ : Type) where
  transport : σ
  queue : List SerializedMessage
  sent : List SerializedMessage
  offered : Bytes
  unmarked : ℕ
  wire : Bytes

/-- What the sending end does next. -/
inductive SendAction
  | set
  | get (haveNextMessage : Bool)
  | write (size : ℕ)
  | mark (size : ℕ)
  deriving DecidableEq, Repr

namespace Sender

variable {σ : Type}

/-- The sending end with nothing set. -/
def start (transport : σ) (queue : List SerializedMessage) : Sender σ :=
  ⟨transport, queue, [], [], 0, []⟩

/-- An action.  Octets are asked for once all that were written are marked; no more is
written than was offered, and no more marked than written. -/
def act (T : Transport σ) (s : Sender σ) : SendAction → Except TransportError (Sender σ)
  | .set =>
    match s.queue with
    | [] => .ok s
    | msg :: queue =>
      match T.setMessageToSend msg s.transport with
      | .ok true t => .ok { s with transport := t, queue := queue, sent := s.sent ++ [msg] }
      | .ok false t => .ok { s with transport := t }
      | .error e _ => .error e
  | .get haveNextMessage =>
    if s.unmarked = 0 then
      match T.getBytesToSend s.transport haveNextMessage with
      | .ok octets => .ok { s with offered := octets.toSend }
      | .error e => .error e
    else .ok s
  | .write size => .ok { s with
      wire := s.wire ++ s.offered.take size
      offered := s.offered.drop size
      unmarked := s.unmarked + (s.offered.take size).length }
  | .mark size => .ok { s with
      transport := T.markBytesSent (min size s.unmarked) s.transport
      unmarked := s.unmarked - min size s.unmarked }

/-- The actions one after another. -/
def run (T : Transport σ) : List SendAction → Sender σ → Except TransportError (Sender σ)
  | [], s => .ok s
  | a :: as, s => (s.act T a).bind (run T as)

/-- Messages are set in their order, and none is lost. -/
theorem sent_append_queue_act {T : Transport σ} {s s' : Sender σ} {a : SendAction}
    (h : s.act T a = .ok s') : s'.sent ++ s'.queue = s.sent ++ s.queue := by
  cases a with
  | set =>
    unfold act at h
    dsimp only at h
    cases hqueue : s.queue with
    | nil =>
      rw [hqueue] at h
      rw [← Except.ok.inj h, hqueue]
    | cons msg queue =>
      rw [hqueue] at h
      dsimp only at h
      cases hset : T.setMessageToSend msg s.transport with
      | error e t =>
        rw [hset] at h
        cases h
      | ok taken t =>
        rw [hset] at h
        cases taken with
        | true =>
          rw [← Except.ok.inj h]
          exact List.append_assoc s.sent [msg] queue
        | false =>
          rw [← Except.ok.inj h]
  | get haveNextMessage =>
    unfold act at h
    dsimp only at h
    split_ifs at h
    · cases hget : T.getBytesToSend s.transport haveNextMessage with
      | error e =>
        rw [hget] at h
        cases h
      | ok out =>
        rw [hget] at h
        rw [← Except.ok.inj h]
    · rw [← Except.ok.inj h]
  | write size => rw [← Except.ok.inj h]
  | mark size => rw [← Except.ok.inj h]

/-- What every action keeps, every run keeps. -/
theorem run_invariant {T : Transport σ} {P : Sender σ → Prop}
    (hact : ∀ s a s', P s → s.act T a = .ok s' → P s') {s s' : Sender σ}
    {actions : List SendAction} (hs : P s) (h : run T actions s = .ok s') : P s' := by
  induction actions generalizing s with
  | nil => exact Except.ok.inj h ▸ hs
  | cons a actions ih =>
    rw [run] at h
    cases hfirst : s.act T a with
    | error e =>
      rw [hfirst] at h
      cases h
    | ok s₁ =>
      rw [hfirst] at h
      exact ih (hact s a s₁ hs hfirst) h

/-! ### What is put out

`current` stands for the octets the transport offers and `unsent` for all it still holds. -/

/-- What was offered and is neither written nor marked is in front of what is offered. -/
structure Level (s : Sender σ) (current unsent : Bytes) : Prop where
  offered : s.offered <+: current.drop s.unmarked
  unmarked : s.unmarked ≤ current.length
  current : current <+: unsent

/-- The octets put out: those on the wire and those to be written. -/
def emitted (s : Sender σ) (unsent : Bytes) : Bytes := s.wire ++ unsent.drop s.unmarked

variable {s : Sender σ} {current unsent : Bytes}

theorem Level.offered_le (h : s.Level current unsent) :
    s.unmarked + s.offered.length ≤ current.length := by
  have hle := h.offered.length_le
  have hunmarked := h.unmarked
  rw [List.length_drop] at hle
  omega

theorem Level.offered_prefix (h : s.Level current unsent) :
    s.offered <+: unsent.drop s.unmarked := by
  obtain ⟨rest, rfl⟩ := h.current
  rw [List.drop_append_of_le_length h.unmarked]
  exact h.offered.trans (List.prefix_append _ _)

theorem drop_length_take (l rest : Bytes) (size : ℕ) :
    (l ++ rest).drop (l.take size).length = l.drop size ++ rest := by
  rw [List.length_take, List.drop_append_of_le_length (Nat.min_le_right _ _)]
  by_cases hsize : size ≤ l.length
  · rw [Nat.min_eq_left hsize]
  · rw [Nat.min_eq_right (by omega), List.drop_length, List.drop_of_length_le (by omega)]

/-- Octets written move to the wire. -/
theorem Level.write (h : s.Level current unsent) {T : Transport σ} {s' : Sender σ} {size : ℕ}
    (hact : s.act T (.write size) = .ok s') :
    s'.Level current unsent ∧ s'.emitted unsent = s.emitted unsent := by
  obtain ⟨rest, hrest⟩ := h.offered
  obtain ⟨rest', hrest'⟩ := h.offered_prefix
  have hle := h.offered_le
  rw [← Except.ok.inj hact]
  refine ⟨⟨?_, ?_, h.current⟩, ?_⟩
  · show s.offered.drop size <+: current.drop (s.unmarked + (s.offered.take size).length)
    rw [← List.drop_drop, ← hrest, drop_length_take]
    exact List.prefix_append _ _
  · show s.unmarked + (s.offered.take size).length ≤ current.length
    rw [List.length_take]
    omega
  · show (s.wire ++ s.offered.take size) ++
      unsent.drop (s.unmarked + (s.offered.take size).length) = s.wire ++ unsent.drop s.unmarked
    rw [← List.drop_drop, ← hrest', drop_length_take, List.append_assoc, ← List.append_assoc _ _ rest',
      List.take_append_drop]

/-- Octets are offered once those written are marked. -/
theorem Level.get (h : s.Level current unsent) {T : Transport σ} {s' : Sender σ}
    {haveNextMessage : Bool} {out : BytesToSend}
    (hout : T.getBytesToSend s.transport haveNextMessage = .ok out) (hcurrent : out.toSend = current)
    (hact : s.act T (.get haveNextMessage) = .ok s') :
    s'.Level current unsent ∧ s'.emitted unsent = s.emitted unsent ∧
      s'.transport = s.transport ∧ s'.sent = s.sent := by
  unfold act at hact
  dsimp only at hact
  by_cases hzero : s.unmarked = 0
  · rw [if_pos hzero, hout] at hact
    rw [← Except.ok.inj hact]
    refine ⟨⟨?_, ?_, h.current⟩, rfl, rfl, rfl⟩
    · show out.toSend <+: current.drop s.unmarked
      rw [hzero, hcurrent]
      exact List.prefix_rfl
    · exact h.unmarked
  · rw [if_neg hzero] at hact
    rw [← Except.ok.inj hact]
    exact ⟨h, rfl, rfl, rfl⟩

/-- Marked octets leave what is held; where they were all that was offered, whatever the
transport offers next. -/
theorem Level.mark (h : s.Level current unsent) {T : Transport σ} {s' : Sender σ} {size : ℕ}
    (hact : s.act T (.mark size) = .ok s') {marked : ℕ} (hmarked : min size s.unmarked = marked)
    {current' unsent' : Bytes} (hunsent : unsent' = unsent.drop marked)
    (hcurrent : current' = current.drop marked ∨ marked = current.length)
    (hfront : current' <+: unsent') :
    s'.Level current' unsent' ∧ s'.emitted unsent' = s.emitted unsent := by
  have hle := h.offered_le
  subst hmarked
  rw [← Except.ok.inj hact]
  refine ⟨⟨?_, ?_, hfront⟩, ?_⟩
  · show s.offered <+: current'.drop (s.unmarked - min size s.unmarked)
    rcases hcurrent with rfl | hall
    · rw [List.drop_drop, show min size s.unmarked + (s.unmarked - min size s.unmarked) = s.unmarked
        by omega]
      exact h.offered
    · have hnil : s.offered = [] := List.eq_nil_of_length_eq_zero (by omega)
      rw [hnil]
      exact List.nil_prefix
  · show s.unmarked - min size s.unmarked ≤ current'.length
    rcases hcurrent with rfl | hall
    · rw [List.length_drop]
      omega
    · omega
  · show s.wire ++ unsent'.drop (s.unmarked - min size s.unmarked) = s.wire ++ unsent.drop s.unmarked
    rw [hunsent, List.drop_drop, show min size s.unmarked + (s.unmarked - min size s.unmarked) =
      s.unmarked by omega]

/-- More is held behind what is offered. -/
theorem Level.grow (h : s.Level current current) (more : Bytes) :
    s.Level (current ++ more) (current ++ more) ∧
      s.emitted (current ++ more) = s.emitted current ++ more := by
  refine ⟨⟨?_, ?_, List.prefix_rfl⟩, ?_⟩
  · rw [List.drop_append_of_le_length h.unmarked]
    exact h.offered.trans (List.prefix_append _ _)
  · rw [List.length_append]
    exact Nat.le_trans h.unmarked (Nat.le_add_right _ _)
  · unfold emitted
    rw [List.drop_append_of_le_length h.unmarked, List.append_assoc]

end Sender

end BtclibNode
