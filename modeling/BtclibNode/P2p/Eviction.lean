/-
# The inbound peer that makes room

`p2p/eviction.py`: each step sorts the candidates by a key of its own and protects some of
the last, and of the rest the youngest of the largest network group goes.
-/
import BtclibNode.Lib.SortedTail
import Mathlib.Data.Prod.Lex

namespace BtclibNode.Eviction

open SortedTail

/-- Core's `enum Network`. -/
inductive Network where
  | unroutable
  | ipv4
  | ipv6
  | onion
  | i2p
  | cjdns
  | internal
  | max
  deriving DecidableEq, Repr

/-- A ping time is any ordered value: seconds, and infinite until one is answered. -/
structure EvictionCandidate (P : Type) where
  id : ℤ
  connected : ℤ
  minPingTime : P
  lastBlockTime : ℤ
  lastTxTime : ℤ
  relevantServices : Bool
  relayTxs : Bool
  bloomFilter : Bool
  keyedNetGroup : ℕ
  preferEvict : Bool
  isLocal : Bool
  network : Network
  noban : Bool
  inbound : Bool
  deriving DecidableEq, Repr

section Keys

variable {P κ : Type} [LinearOrder κ]

/-- `_erase_last_k`. -/
def eraseLastK (key : EvictionCandidate P → κ) (k : ℕ) (predicate : EvictionCandidate P → Bool)
    (candidates : List (EvictionCandidate P)) : List (EvictionCandidate P) :=
  let sorted := sortOn key candidates
  front k sorted ++ (tail k sorted).filter fun c => !predicate c

/-- The default predicate. -/
def anyOne : EvictionCandidate P → Bool := fun _ => true

/-- `_reverse_connected`: the longest connected last. -/
def reverseConnected (c : EvictionCandidate P) : ℤ := -c.connected

/-- `_net_group_keyed`. -/
def netGroupKeyed (c : EvictionCandidate P) : ℕ := c.keyedNetGroup

/-- `_reverse_min_ping`: the lowest ping last. -/
def reverseMinPing (c : EvictionCandidate P) : Pᵒᵈ := OrderDual.toDual c.minPingTime

/-- `_block_time`. -/
def blockTime (c : EvictionCandidate P) : ℤ ×ₗ Bool ×ₗ ℤ :=
  toLex (c.lastBlockTime, toLex (c.relevantServices, -c.connected))

/-- `_tx_time`. -/
def txTime (c : EvictionCandidate P) : ℤ ×ₗ Bool ×ₗ Bool ×ₗ ℤ :=
  toLex (c.lastTxTime, toLex (c.relayTxs, toLex (!c.bloomFilter, -c.connected)))

/-- `_block_relay_only_time`. -/
def blockRelayOnlyTime (c : EvictionCandidate P) : Bool ×ₗ ℤ ×ₗ Bool ×ₗ ℤ :=
  toLex (!c.relayTxs, toLex (c.lastBlockTime, toLex (c.relevantServices, -c.connected)))

/-- `_Net`. -/
structure Net where
  isLocal : Bool
  id : Network
  count : ℕ
  deriving DecidableEq, Repr

namespace Net

/-- `holds`. -/
def holds (n : Net) (c : EvictionCandidate P) : Bool :=
  if n.isLocal then c.isLocal else decide (c.network = n.id)

/-- `network_time`: this network's peers last. -/
def networkTime (n : Net) (c : EvictionCandidate P) : Bool ×ₗ Bool ×ₗ ℤ :=
  toLex (n.isLocal && c.isLocal, toLex (decide (c.network = n.id), -c.connected))

end Net

end Keys

section Ratio

variable {P : Type}

/-- The variables of the loop over the networks. -/
structure Protecting (P : Type) where
  candidates : List (EvictionCandidate P)
  numProtected : ℕ
  protectedAtLeastOne : Bool

/-- The `for` over the networks: what becomes of them, and of its variables. -/
def protectNetworks (maxProtect perNetwork : ℕ) :
    List Net → Protecting P → List Net × Protecting P
  | [], s => ([], s)
  | n :: networks, s =>
    if n.count = 0 then
      let (networks, s) := protectNetworks maxProtect perNetwork networks s
      (n :: networks, s)
    else
      let remaining := eraseLastK n.networkTime perNetwork n.holds s.candidates
      let delta := s.candidates.length - remaining.length
      if delta ≠ 0 then
        let s : Protecting P := ⟨remaining, s.numProtected + delta, true⟩
        if maxProtect ≤ s.numProtected then (n :: networks, s)
        else
          let (networks, s) := protectNetworks maxProtect perNetwork networks s
          ({ n with count := n.count - delta } :: networks, s)
      else
        let (networks, s) :=
          protectNetworks maxProtect perNetwork networks { s with candidates := remaining }
        (n :: networks, s)

/-- The number of networks with a count. -/
def numNetworks (networks : List Net) : ℕ := networks.countP fun n => decide (n.count ≠ 0)

/-- The `while`, which takes as many turns as there is fuel at the most. -/
def protectLoop (maxProtect : ℕ) :
    ℕ → List Net → List (EvictionCandidate P) → ℕ → Option (List (EvictionCandidate P) × ℕ)
  | 0, _, _, _ => none
  | fuel + 1, networks, candidates, numProtected =>
    if numProtected < maxProtect then
      if numNetworks networks = 0 then some (candidates, numProtected)
      else
        let perNetwork := max ((maxProtect - numProtected) / numNetworks networks) 1
        let (networks, s) :=
          protectNetworks maxProtect perNetwork networks ⟨candidates, numProtected, false⟩
        if s.protectedAtLeastOne then
          protectLoop maxProtect fuel networks s.candidates s.numProtected
        else some (s.candidates, s.numProtected)
    else some (candidates, numProtected)

/-- The disadvantaged networks, with the number of candidates each holds. -/
def disadvantagedNetworks (candidates : List (EvictionCandidate P)) : List Net :=
  let networks : List (Bool × Network) :=
    [(false, .cjdns), (false, .i2p), (true, .max), (false, .onion)]
  let networks := networks.map fun (isLocal, id) => Net.mk isLocal id 0
  let networks := networks.map fun n => { n with count := candidates.countP n.holds }
  sortOn Net.count networks

/-- `protect_eviction_candidates_by_ratio`. -/
def protectEvictionCandidatesByRatio (fuel : ℕ) (candidates : List (EvictionCandidate P)) :
    Option (List (EvictionCandidate P)) := do
  let totalProtectSize := candidates.length / 2
  let networks := disadvantagedNetworks candidates
  let maxProtectByNetwork := totalProtectSize / 2
  let (candidates, numProtected) ← protectLoop maxProtectByNetwork fuel networks candidates 0
  some (eraseLastK reverseConnected (totalProtectSize - numProtected) anyOne candidates)

end Ratio

section Choice

variable {P : Type} [LinearOrder P]

/-- The candidates that may be evicted at all. -/
def eligible (candidates : List (EvictionCandidate P)) : List (EvictionCandidate P) :=
  candidates.filter fun c => !c.noban && c.inbound

/-- The protecting steps of `select_node_to_evict`. -/
def unprotected (fuel : ℕ) (candidates : List (EvictionCandidate P)) :
    Option (List (EvictionCandidate P)) :=
  let remaining := eligible candidates
  let remaining := eraseLastK netGroupKeyed 4 anyOne remaining
  let remaining := eraseLastK reverseMinPing 8 anyOne remaining
  let remaining := eraseLastK txTime 4 anyOne remaining
  let remaining := eraseLastK blockRelayOnlyTime 8
    (fun c => !c.relayTxs && c.relevantServices) remaining
  let remaining := eraseLastK blockTime 4 anyOne remaining
  protectEvictionCandidatesByRatio fuel remaining

/-- The candidates to choose from: those to evict with preference, if there are any. -/
def pool (remaining : List (EvictionCandidate P)) : List (EvictionCandidate P) :=
  if remaining.any fun c => c.preferEvict then remaining.filter fun c => c.preferEvict
  else remaining

/-- The variables of the loop over the groups. -/
structure Groups (P : Type) where
  groups : ℕ → List (EvictionCandidate P)
  mostConnections : ℕ
  mostConnectionsTime : ℤ
  mostConnectionsGroup : ℕ

/-- A turn of the loop over the groups. -/
def Groups.add (s : Groups P) (c : EvictionCandidate P) : Groups P :=
  let group := s.groups c.keyedNetGroup ++ [c]
  let groups := Function.update s.groups c.keyedNetGroup group
  let groupTime := (group.headD c).connected
  if s.mostConnections < group.length ∨
      (group.length = s.mostConnections ∧ s.mostConnectionsTime < groupTime) then
    ⟨groups, group.length, groupTime, c.keyedNetGroup⟩
  else { s with groups := groups }

/-- The choice among the candidates that are left, the youngest first. -/
def evictAmong : List (EvictionCandidate P) → Option ℤ
  | [] => none
  | first :: rest =>
    let remaining := pool (first :: rest)
    let start : Groups P := ⟨fun _ => [], 0, 0, (remaining.headD first).keyedNetGroup⟩
    let s := remaining.foldl Groups.add start
    ((s.groups s.mostConnectionsGroup).head?).map EvictionCandidate.id

/-- `select_node_to_evict`. -/
def selectNodeToEvict (fuel : ℕ) (candidates : List (EvictionCandidate P)) :
    Option (Option ℤ) :=
  (unprotected fuel candidates).map evictAmong

end Choice

end BtclibNode.Eviction

/-!
# Who is protected by network and by uptime

A pass over the disadvantaged networks may meet a candidate of two networks, whose count in
the other one is then too large.  It is never too small (`Pass.stale`), so that a pass that
protects nobody has met every disadvantaged candidate.
-/

namespace BtclibNode.Eviction

open SortedTail

variable {P κ : Type} [LinearOrder κ]

/-! ## What a step erases -/

section Erasing

variable {key : EvictionCandidate P → κ} {k : ℕ} {predicate : EvictionCandidate P → Bool}
  {candidates : List (EvictionCandidate P)}

/-- What `_erase_last_k` drops. -/
def erased (key : EvictionCandidate P → κ) (k : ℕ) (predicate : EvictionCandidate P → Bool)
    (candidates : List (EvictionCandidate P)) : List (EvictionCandidate P) :=
  (tail k (sortOn key candidates)).filter predicate

theorem erased_append_perm (key : EvictionCandidate P → κ) (k : ℕ)
    (predicate : EvictionCandidate P → Bool) (candidates : List (EvictionCandidate P)) :
    (erased key k predicate candidates ++ eraseLastK key k predicate candidates).Perm
      candidates := by
  unfold erased eraseLastK
  have hswap := List.perm_append_comm_assoc ((tail k (sortOn key candidates)).filter predicate)
    (front k (sortOn key candidates))
    ((tail k (sortOn key candidates)).filter fun c => !predicate c)
  have htail := (List.filter_append_perm predicate (tail k (sortOn key candidates))).append_left
    (front k (sortOn key candidates))
  rw [front_append_tail] at htail
  exact hswap.trans (htail.trans (sortOn_perm key candidates))

theorem length_erased (key : EvictionCandidate P → κ) (k : ℕ)
    (predicate : EvictionCandidate P → Bool) (candidates : List (EvictionCandidate P)) :
    (erased key k predicate candidates).length + (eraseLastK key k predicate candidates).length =
      candidates.length := by
  rw [← List.length_append]
  exact (erased_append_perm key k predicate candidates).length_eq

theorem length_eraseLastK_le (key : EvictionCandidate P → κ) (k : ℕ)
    (predicate : EvictionCandidate P → Bool) (candidates : List (EvictionCandidate P)) :
    (eraseLastK key k predicate candidates).length ≤ candidates.length := by
  have hlen := length_erased key k predicate candidates
  omega

theorem length_erased_le : (erased key k predicate candidates).length ≤ k := by
  unfold erased
  have hfilter := List.length_filter_le predicate (tail k (sortOn key candidates))
  rw [length_tail] at hfilter
  omega

theorem predicate_of_mem_erased {c : EvictionCandidate P}
    (h : c ∈ erased key k predicate candidates) : predicate c = true :=
  (List.mem_filter.mp h).2

/-- A step whose key sorts what it protects last protects as many as it may. -/
theorem length_erased_of_last (h : ∀ a b, key a ≤ key b → predicate a = true → predicate b = true) :
    (erased key k predicate candidates).length = min k (candidates.countP predicate) := by
  unfold erased
  rw [← List.countP_eq_length_filter,
    countP_tail ((sortOn_sorted key candidates).imp fun {a b} hle => h a b hle),
    (sortOn_perm key candidates).countP_eq]

theorem length_erased_anyOne (key : EvictionCandidate P → κ) (k : ℕ)
    (candidates : List (EvictionCandidate P)) :
    (erased key k anyOne candidates).length = min k candidates.length := by
  have hlen : (erased key k anyOne candidates).length = min k (candidates.countP anyOne) :=
    length_erased_of_last fun _ _ _ _ => rfl
  have hall : candidates.countP anyOne = candidates.length :=
    List.countP_eq_length.mpr fun _ _ => rfl
  rw [hlen, hall]

/-- What goes sorts last. -/
theorem key_le_of_erased {a b : EvictionCandidate P} (ha : a ∈ eraseLastK key k anyOne candidates)
    (hb : b ∈ erased key k anyOne candidates) : key a ≤ key b := by
  unfold eraseLastK anyOne at ha
  dsimp only at ha
  rw [Bool.not_true, List.filter_false, List.append_nil] at ha
  exact rel_of_front_of_tail (sortOn_sorted key candidates) ha (List.mem_filter.mp hb).1

end Erasing

/-! ## Networks -/

theorem fst_le_of_toLex_le {α β : Type} [LinearOrder α] [LinearOrder β] {a a' : α} {b b' : β}
    (h : toLex (a, b) ≤ toLex (a', b')) : a ≤ a' ∧ (a = a' → b ≤ b') := by
  rcases Prod.Lex.toLex_le_toLex.mp h with hlt | ⟨heq, hle⟩
  · exact ⟨hlt.le, fun heq => absurd heq hlt.ne⟩
  · exact ⟨heq.le, fun _ => hle⟩

/-- A network's candidates sort last. -/
theorem Net.holds_of_networkTime_le (n : Net) (a b : EvictionCandidate P)
    (h : n.networkTime a ≤ n.networkTime b) (ha : n.holds a = true) : n.holds b = true := by
  obtain ⟨isLocal, id, count⟩ := n
  unfold Net.networkTime at h
  unfold Net.holds at ha ⊢
  obtain ⟨hfst, hsnd⟩ := fst_le_of_toLex_le h
  dsimp only at ha hfst hsnd ⊢
  cases isLocal with
  | true =>
    rw [if_pos rfl] at ha ⊢
    rw [ha] at hfst
    exact le_antisymm (Bool.le_true _) hfst
  | false =>
    rw [if_neg Bool.false_ne_true] at ha ⊢
    have hid := (fst_le_of_toLex_le (hsnd (by rw [Bool.false_and, Bool.false_and]))).1
    rw [ha] at hid
    exact le_antisymm (Bool.le_true _) hid

/-- What a network is, apart from its count. -/
def Net.kind (n : Net) : Bool × Network := (n.isLocal, n.id)

theorem Net.holds_of_kind {n n' : Net} (h : n.kind = n'.kind) (c : EvictionCandidate P) :
    n.holds c = n'.holds c := by
  obtain ⟨isLocal, id, count⟩ := n
  obtain ⟨isLocal', id', count'⟩ := n'
  cases h
  rfl

/-! ## A pass over the networks -/

/-- The counts are not too small. -/
def Covered (networks : List Net) (candidates : List (EvictionCandidate P)) : Prop :=
  ∀ n ∈ networks, candidates.countP n.holds ≤ n.count

/-- What a pass does, where each network may protect at least one. -/
structure Pass (maxProtect : ℕ) (networks networks' : List Net) (s s' : Protecting P) :
    Prop where
  kinds : networks'.map Net.kind = networks.map Net.kind
  gone : ∃ gone : List (EvictionCandidate P), (gone ++ s'.candidates).Perm s.candidates ∧
    s'.numProtected = s.numProtected + gone.length ∧ ∀ c ∈ gone, ∃ n ∈ networks, n.holds c = true
  flag : s'.protectedAtLeastOne =
    (s.protectedAtLeastOne || decide (s.numProtected < s'.numProtected))
  covered : Covered networks' s'.candidates
  bounded : s'.numProtected ≤ maxProtect
  all_met : s'.numProtected = s.numProtected →
    ∀ n ∈ networks, n.count ≠ 0 → s.candidates.countP n.holds = 0

theorem countP_le_of_gone {gone l l' : List (EvictionCandidate P)} (h : (gone ++ l').Perm l)
    (p : EvictionCandidate P → Bool) : l'.countP p ≤ l.countP p := by
  rw [← h.countP_eq, List.countP_append]
  exact Nat.le_add_left _ _

/-- What the turn of one network does. -/
structure Turn (n n' : Net) (s s' : Protecting P) (gone : List (EvictionCandidate P)) :
    Prop where
  kind : n'.kind = n.kind
  perm : (gone ++ s'.candidates).Perm s.candidates
  numProtected : s'.numProtected = s.numProtected + gone.length
  holds : ∀ c ∈ gone, n.holds c = true
  flag : s'.protectedAtLeastOne =
    (s.protectedAtLeastOne || decide (s.numProtected < s'.numProtected))
  covered : s'.candidates.countP n.holds ≤ n'.count
  all_met : gone = [] → n.count ≠ 0 → s.candidates.countP n.holds = 0

theorem Turn.covered_rest {n n' : Net} {s s' : Protecting P} {gone : List (EvictionCandidate P)}
    {networks : List Net} (h : Turn n n' s s' gone) (hcovered : Covered networks s.candidates) :
    Covered networks s'.candidates :=
  fun m hm => (countP_le_of_gone h.perm m.holds).trans (hcovered m hm)

/-- A turn and a pass over the other networks are a pass. -/
theorem Turn.pass {maxProtect : ℕ} {n n' : Net} {networks networks' : List Net}
    {s s₁ s' : Protecting P} {gone : List (EvictionCandidate P)} (h : Turn n n' s s₁ gone)
    (hrest : Pass maxProtect networks networks' s₁ s') :
    Pass maxProtect (n :: networks) (n' :: networks') s s' := by
  obtain ⟨gone', hperm, hnum, hholds⟩ := hrest.gone
  have hnum₁ := h.numProtected
  refine ⟨?_, ⟨gone ++ gone', ?_, ?_, ?_⟩, ?_, ?_, hrest.bounded, ?_⟩
  · rw [List.map_cons, List.map_cons, h.kind, hrest.kinds]
  · rw [List.append_assoc]
    exact (hperm.append_left gone).trans h.perm
  · rw [List.length_append]
    omega
  · intro c hc
    rcases List.mem_append.mp hc with hc | hc
    · exact ⟨n, List.mem_cons_self, h.holds c hc⟩
    · obtain ⟨m, hm, hheld⟩ := hholds c hc
      exact ⟨m, List.mem_cons_of_mem _ hm, hheld⟩
  · rw [hrest.flag, h.flag, Bool.or_assoc, ← Bool.decide_or]
    congr 1
    exact decide_eq_decide.mpr (by omega)
  · refine List.forall_mem_cons.mpr ⟨?_, hrest.covered⟩
    have hle := countP_le_of_gone hperm n.holds
    have hsame : n'.holds = n.holds (P := P) := funext fun c => Net.holds_of_kind h.kind c
    rw [hsame]
    exact hle.trans h.covered
  · intro heq m hm hcount
    have hnone : gone = [] := List.length_eq_zero_iff.mp (by omega)
    rcases List.mem_cons.mp hm with rfl | hm
    · exact h.all_met hnone hcount
    · have hperm₁ := h.perm
      rw [hnone, List.nil_append] at hperm₁
      rw [← hperm₁.countP_eq]
      exact hrest.all_met (by omega) m hm hcount

/-- A network without a count has no turn. -/
theorem turn_of_zero {n : Net} {s : Protecting P} (hcount : n.count = 0)
    (hcovered : s.candidates.countP n.holds ≤ n.count) : Turn n n s s [] where
  kind := rfl
  perm := .refl _
  numProtected := rfl
  holds := by simp
  flag := by rw [decide_eq_false (lt_irrefl _), Bool.or_false]
  covered := hcovered
  all_met _ hne := absurd hcount hne

/-- The turn of a network with a count. -/
theorem turn_of_erase {n : Net} {s : Protecting P} {perNetwork : ℕ} (hper : 1 ≤ perNetwork)
    (hcovered : s.candidates.countP n.holds ≤ n.count) (flag : Bool)
    (hflag : flag = (s.protectedAtLeastOne ||
      decide (0 < (erased n.networkTime perNetwork n.holds s.candidates).length))) :
    Turn n
      { n with count := n.count - (erased n.networkTime perNetwork n.holds s.candidates).length } s
      ⟨eraseLastK n.networkTime perNetwork n.holds s.candidates,
        s.numProtected + (erased n.networkTime perNetwork n.holds s.candidates).length, flag⟩
      (erased n.networkTime perNetwork n.holds s.candidates) := by
  have hperm := erased_append_perm n.networkTime perNetwork n.holds s.candidates
  have hlen : (erased n.networkTime perNetwork n.holds s.candidates).length =
      min perNetwork (s.candidates.countP n.holds) :=
    length_erased_of_last n.holds_of_networkTime_le
  have hall : (erased n.networkTime perNetwork n.holds s.candidates).countP n.holds =
      (erased n.networkTime perNetwork n.holds s.candidates).length :=
    List.countP_eq_length.mpr fun c hc => predicate_of_mem_erased hc
  have hcount := hperm.countP_eq n.holds
  rw [List.countP_append, hall] at hcount
  refine ⟨rfl, hperm, rfl, fun c hc => predicate_of_mem_erased hc, ?_, ?_, ?_⟩
  · exact hflag.trans (congrArg _ (decide_eq_decide.mpr Nat.lt_add_right_iff_pos.symm))
  · dsimp only
    omega
  · intro hnone _
    rw [hnone, List.length_nil] at hlen
    omega

theorem protectNetworks_pass {maxProtect perNetwork : ℕ} (hper : 1 ≤ perNetwork)
    (networks : List Net) (s : Protecting P) (hcovered : Covered networks s.candidates)
    (hbudget : (perNetwork = 1 ∧ s.numProtected < maxProtect) ∨
      s.numProtected + perNetwork * numNetworks networks ≤ maxProtect) :
    Pass maxProtect networks (protectNetworks maxProtect perNetwork networks s).1 s
      (protectNetworks maxProtect perNetwork networks s).2 := by
  induction networks generalizing s with
  | nil =>
    refine ⟨rfl, ⟨[], .refl _, rfl, by simp⟩, ?_, by simp [Covered, protectNetworks], ?_, by simp⟩
    · rw [protectNetworks, decide_eq_false (lt_irrefl _), Bool.or_false]
    · rw [protectNetworks]
      dsimp only
      omega
  | cons n networks ih =>
    obtain ⟨hn, hcovered'⟩ := List.forall_mem_cons.mp hcovered
    by_cases hcount : n.count = 0
    · have hbudget' : numNetworks (n :: networks) = numNetworks networks := by
        unfold numNetworks
        rw [List.countP_cons_of_neg (by simp [hcount])]
      rw [hbudget'] at hbudget
      rw [protectNetworks, if_pos hcount]
      exact (turn_of_zero hcount hn).pass (ih s hcovered' hbudget)
    · have hbudget' : numNetworks (n :: networks) = numNetworks networks + 1 := by
        unfold numNetworks
        rw [List.countP_cons_of_pos (by simp [hcount])]
      rw [hbudget', Nat.mul_add, Nat.mul_one] at hbudget
      have hlen := length_erased n.networkTime perNetwork n.holds s.candidates
      have hle : (erased n.networkTime perNetwork n.holds s.candidates).length ≤ perNetwork :=
        length_erased_le
      have hdelta : s.candidates.length -
          (eraseLastK n.networkTime perNetwork n.holds s.candidates).length =
          (erased n.networkTime perNetwork n.holds s.candidates).length := by omega
      rw [protectNetworks, if_neg hcount]
      simp only [hdelta]
      by_cases hgone : (erased n.networkTime perNetwork n.holds s.candidates).length = 0
      · have hturn := turn_of_erase hper hn s.protectedAtLeastOne
          (by rw [hgone, decide_eq_false (lt_irrefl _), Bool.or_false])
        rw [hgone] at hturn
        rw [if_neg (not_not.mpr hgone)]
        exact hturn.pass (ih _ (hturn.covered_rest hcovered') (by dsimp only; omega))
      · rw [if_pos hgone]
        have hturn := turn_of_erase hper hn true
          (by rw [decide_eq_true (Nat.pos_of_ne_zero hgone), Bool.or_true])
        by_cases hfull : maxProtect ≤
            s.numProtected + (erased n.networkTime perNetwork n.holds s.candidates).length
        · -- the pass ends before the count is brought up to date
          rw [if_pos hfull]
          refine ⟨rfl, ⟨_, hturn.perm, rfl, fun c hc => ⟨n, List.mem_cons_self, hturn.holds c hc⟩⟩,
            hturn.flag, ?_, ?_, ?_⟩
          · refine List.forall_mem_cons.mpr ⟨?_, hturn.covered_rest hcovered'⟩
            exact (countP_le_of_gone hturn.perm _).trans hn
          · have hleast : perNetwork * 0 ≤ perNetwork * numNetworks networks :=
              Nat.mul_le_mul_left _ (Nat.zero_le _)
            dsimp only
            omega
          · intro heq
            dsimp only at heq
            omega
        · rw [if_neg hfull]
          refine hturn.pass (ih _ (hturn.covered_rest hcovered') ?_)
          dsimp only
          omega

/-! ## The loop -/

/-- Localhost, onion, I2P and CJDNS. -/
def disadvantaged (c : EvictionCandidate P) : Bool :=
  c.isLocal || decide (c.network = .cjdns) || decide (c.network = .i2p) ||
    decide (c.network = .onion)

/-- The networks are the four disadvantaged ones, in some order. -/
def Disadvantaged (networks : List Net) : Prop :=
  (networks.map Net.kind).Perm
    [(false, .cjdns), (false, .i2p), (true, .max), (false, .onion)]

theorem Disadvantaged.exists_holds_iff {networks : List Net} (h : Disadvantaged networks)
    (c : EvictionCandidate P) :
    (∃ n ∈ networks, n.holds c = true) ↔ disadvantaged c = true := by
  have hkind : (∃ n ∈ networks, n.holds c = true) ↔
      ∃ kind ∈ networks.map Net.kind, (Net.mk kind.1 kind.2 0).holds c = true := by
    constructor
    · rintro ⟨n, hn, hheld⟩
      exact ⟨n.kind, List.mem_map_of_mem hn, hheld⟩
    · rintro ⟨kind, hkind, hheld⟩
      obtain ⟨n, hn, rfl⟩ := List.mem_map.mp hkind
      exact ⟨n, hn, hheld⟩
  rw [hkind]
  simp only [h.mem_iff]
  simp [Net.holds, disadvantaged]
  tauto

theorem Disadvantaged.countP_eq_zero {networks : List Net} (h : Disadvantaged networks)
    {candidates : List (EvictionCandidate P)}
    (hzero : ∀ n ∈ networks, candidates.countP n.holds = 0) :
    candidates.countP disadvantaged = 0 := by
  rw [List.countP_eq_zero]
  intro c hc hd
  obtain ⟨n, hn, hheld⟩ := (h.exists_holds_iff c).mpr hd
  exact List.countP_eq_zero.mp (hzero n hn) c hc hheld

/-- What the loop over the passes gives, whatever the fuel that is enough for it. -/
theorem protectLoop_spec {maxProtect : ℕ} (fuel : ℕ) {networks : List Net}
    {candidates : List (EvictionCandidate P)} {numProtected : ℕ}
    (hcovered : Covered networks candidates) (hnetworks : Disadvantaged networks)
    (hle : numProtected ≤ maxProtect) (hfuel : maxProtect - numProtected < fuel) :
    ∃ gone candidates' : List (EvictionCandidate P),
      protectLoop maxProtect fuel networks candidates numProtected =
        some (candidates', numProtected + gone.length) ∧
      (gone ++ candidates').Perm candidates ∧ (∀ c ∈ gone, disadvantaged c = true) ∧
      numProtected + gone.length ≤ maxProtect ∧
      (numProtected + gone.length = maxProtect ∨ candidates'.countP disadvantaged = 0) := by
  induction fuel generalizing networks candidates numProtected with
  | zero => omega
  | succ fuel ih =>
    rw [protectLoop]
    by_cases hmore : numProtected < maxProtect
    · rw [if_pos hmore]
      by_cases hnone : numNetworks networks = 0
      · rw [if_pos hnone]
        refine ⟨[], candidates, rfl, .refl _, by simp, hle, Or.inr ?_⟩
        refine hnetworks.countP_eq_zero fun n hn => ?_
        have hzero := List.countP_eq_zero.mp hnone n hn
        have hcount := hcovered n hn
        simp only [decide_eq_true_eq, not_not] at hzero
        omega
      · rw [if_neg hnone]
        dsimp only
        generalize hper : max ((maxProtect - numProtected) / numNetworks networks) 1 = perNetwork
        have hbudget : (perNetwork = 1 ∧ numProtected < maxProtect) ∨
            numProtected + perNetwork * numNetworks networks ≤ maxProtect := by
          have hdiv := Nat.div_mul_le_self (maxProtect - numProtected) (numNetworks networks)
          rcases Nat.eq_zero_or_pos ((maxProtect - numProtected) / numNetworks networks)
            with hzero | hpos
          · left
            omega
          · right
            rw [← hper, max_eq_left hpos]
            omega
        have hpass := protectNetworks_pass (by omega) networks ⟨candidates, numProtected, false⟩
          hcovered hbudget
        generalize protectNetworks maxProtect perNetwork networks
          ⟨candidates, numProtected, false⟩ = result at hpass ⊢
        obtain ⟨networks', s⟩ := result
        obtain ⟨gone, hperm, hnum, hholds⟩ := hpass.gone
        have hnetworks' : Disadvantaged networks' := by
          unfold Disadvantaged
          rw [hpass.kinds]
          exact hnetworks
        have hgone : ∀ c ∈ gone, disadvantaged c = true :=
          fun c hc => (hnetworks.exists_holds_iff c).mp (hholds c hc)
        have hflag := hpass.flag
        have hbounded := hpass.bounded
        dsimp only at hnum hflag hbounded hperm ⊢
        rw [Bool.false_or] at hflag
        rw [hflag]
        by_cases hprogress : numProtected < s.numProtected
        · rw [if_pos (decide_eq_true hprogress)]
          obtain ⟨gone', candidates', heq, hperm', hgone', hle', hend⟩ :=
            ih hpass.covered hnetworks' hbounded (by omega)
          have hlen : numProtected + (gone ++ gone').length = s.numProtected + gone'.length := by
            rw [List.length_append]
            omega
          rw [← hlen] at heq hle' hend
          refine ⟨gone ++ gone', candidates', heq, ?_, ?_, hle', hend⟩
          · rw [List.append_assoc]
            exact (hperm'.append_left gone).trans hperm
          · exact List.forall_mem_append.mpr ⟨hgone, hgone'⟩
        · -- nobody is protected, so nobody disadvantaged is left
          rw [if_neg (by rw [decide_eq_true_eq]; exact hprogress)]
          have hsame : s.numProtected = numProtected := by omega
          have hzero : ∀ n ∈ networks, candidates.countP n.holds = 0 := by
            intro n hn
            by_cases hcount : n.count = 0
            · have hcov := hcovered n hn
              omega
            · exact hpass.all_met hsame n hn hcount
          refine ⟨gone, s.candidates, by rw [hnum], hperm, hgone, by omega, Or.inr ?_⟩
          have hall := hnetworks.countP_eq_zero hzero
          have hleft := countP_le_of_gone hperm disadvantaged
          omega
    · rw [if_neg hmore]
      refine ⟨[], candidates, rfl, .refl _, by simp, hle, Or.inl ?_⟩
      rw [List.length_nil]
      omega

theorem disadvantagedNetworks_disadvantaged (candidates : List (EvictionCandidate P)) :
    Disadvantaged (disadvantagedNetworks candidates) :=
  (sortOn_perm Net.count _).map Net.kind

theorem disadvantagedNetworks_covered (candidates : List (EvictionCandidate P)) :
    Covered (disadvantagedNetworks candidates) candidates := by
  intro n hn
  obtain ⟨m, -, rfl⟩ := List.mem_map.mp ((sortOn_perm Net.count _).mem_iff.mp hn)
  exact le_of_eq (congrArg (candidates.countP ·) (funext fun c => Net.holds_of_kind rfl c))

/-- **Half of the candidates are protected**: by network a quarter, or the disadvantaged ones
where these are fewer, and for the rest the longest connected. -/
theorem protectEvictionCandidatesByRatio_spec (fuel : ℕ)
    (candidates : List (EvictionCandidate P)) (hfuel : candidates.length < fuel) :
    ∃ byNetwork byUptime kept : List (EvictionCandidate P),
      protectEvictionCandidatesByRatio fuel candidates = some kept ∧
      (byNetwork ++ (byUptime ++ kept)).Perm candidates ∧
      byNetwork.length + byUptime.length = candidates.length / 2 ∧
      byNetwork.length = min (candidates.length / 2 / 2) (candidates.countP disadvantaged) ∧
      (∀ c ∈ byNetwork, disadvantaged c = true) ∧
      (∀ c ∈ byUptime, ∀ d ∈ kept, c.connected ≤ d.connected) ∧
      kept.Pairwise (fun c d => d.connected ≤ c.connected) := by
  obtain ⟨gone, rest, hloop, hperm, hgone, hle, hend⟩ := protectLoop_spec fuel
    (disadvantagedNetworks_covered candidates) (disadvantagedNetworks_disadvantaged candidates)
    (Nat.zero_le (candidates.length / 2 / 2)) (by omega)
  rw [Nat.zero_add] at hloop hle hend
  have hlen := hperm.length_eq
  rw [List.length_append] at hlen
  have hcount := hperm.countP_eq disadvantaged
  rw [List.countP_append, List.countP_eq_length.mpr hgone] at hcount
  have huptime := length_erased_anyOne reverseConnected (candidates.length / 2 - gone.length) rest
  refine ⟨gone, erased reverseConnected (candidates.length / 2 - gone.length) anyOne rest,
    eraseLastK reverseConnected (candidates.length / 2 - gone.length) anyOne rest, ?_, ?_, ?_, ?_,
    hgone, ?_, ?_⟩
  · unfold protectEvictionCandidatesByRatio
    dsimp only
    rw [hloop]
    rfl
  · exact ((erased_append_perm _ _ _ rest).append_left gone).trans hperm
  · omega
  · omega
  · intro c hc d hd
    have hkey := key_le_of_erased hd hc
    unfold reverseConnected at hkey
    omega
  · unfold eraseLastK anyOne
    dsimp only
    rw [Bool.not_true, List.filter_false, List.append_nil]
    refine ((sortOn_sorted reverseConnected rest).sublist (List.take_sublist _ _)).imp ?_
    intro c d hkey
    unfold reverseConnected at hkey
    omega

end BtclibNode.Eviction
