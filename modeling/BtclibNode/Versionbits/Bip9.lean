/-
# The states period by period

What BIP9 says of a chain of headers, from the genesis block on and with nothing cached,
and the tree the chains are paths of.
-/
import BtclibNode.Versionbits.UnknownActivations

namespace BtclibNode.Versionbits

/-! ## Trees of headers -/

/-- Headers by their hash, on a genesis block whose predecessor is none of them. -/
structure HeaderTree where
  headers : Bytes → Option Header
  genesis : Bytes
  root : ∀ header, headers genesis = some header → headers header.previousBlockHash = none

/-- A path of a tree from its genesis block. -/
structure HeaderTree.IsPath (tree : HeaderTree) (activeChain : List Bytes) : Prop where
  first : activeChain[0]? = some tree.genesis
  indexed : ∀ hash ∈ activeChain, ∃ header, tree.headers hash = some header
  linked : ∀ i hash header, activeChain[i + 1]? = some hash → tree.headers hash = some header →
    activeChain[i]? = some header.previousBlockHash

variable {tree : HeaderTree} {chain chain' : List Bytes} {i j : ℕ} {hash : Bytes}

/-- A block stands at one height, on one path. -/
theorem HeaderTree.IsPath.unique (h : tree.IsPath chain) (h' : tree.IsPath chain')
    (hi : chain[i]? = some hash) (hj : chain'[j]? = some hash) :
    i = j ∧ chain.take (i + 1) = chain'.take (j + 1) := by
  -- nothing stands below the genesis block
  have hroot : ∀ {path : List Bytes}, tree.IsPath path → ∀ n, path[n + 1]? ≠ some tree.genesis := by
    intro path hpath n hn
    obtain ⟨header, hheader⟩ := hpath.indexed _ (List.mem_of_getElem? hn)
    have hprev := hpath.linked n _ _ hn hheader
    obtain ⟨parent, hparent⟩ := hpath.indexed _ (List.mem_of_getElem? hprev)
    rw [tree.root header hheader] at hparent
    cases hparent
  induction i generalizing j hash with
  | zero =>
    rw [h.first, Option.some_inj] at hi
    subst hi
    cases j with
    | zero =>
      rw [List.take_add_one, List.take_add_one, h.first, h'.first, List.take_zero, List.take_zero]
      exact ⟨rfl, rfl⟩
    | succ j => exact absurd hj (hroot h' j)
  | succ i ih =>
    obtain ⟨header, hheader⟩ := h.indexed _ (List.mem_of_getElem? hi)
    cases j with
    | zero =>
      rw [h'.first, Option.some_inj] at hj
      subst hj
      exact absurd hi (hroot h i)
    | succ j =>
      obtain ⟨rfl, htake⟩ := ih (h.linked i _ _ hi hheader) (h'.linked j _ _ hj hheader)
      refine ⟨rfl, ?_⟩
      rw [List.take_add_one, htake, List.take_add_one (l := chain') (i := i + 1), hi, hj]

/-! ## The states -/

/-- A block signals a bit. -/
def signals (version : ℤ) (bit : ℕ) : Bool :=
  decide ((version % 2 ^ 32).toNat / 2 ^ 29 = 1) && decide (bit < numBits) &&
    (version % 2 ^ 32).toNat.testBit bit

/-- The bits that the deployments use in a period. -/
def usedBits (r : Rules) (boundary : Boundary) : List ℤ :=
  knownBits (r.deployments.zip boundary.deployments)

section States

variable (r : Rules) (versions : ℕ → ℤ) (mtp : ℕ → Option ℕ)

/-- The state machine over `periods` periods. -/
def states : ℕ → Option Boundary
  | 0 => some r.initial
  | periods + 1 => do
    let previous ← states periods
    let heights := List.range' (periods * r.period) r.period
    let last := (periods + 1) * r.period - 1
    let mtp ← mtp last
    some {
      warning := previous.warning.mapIdx fun bit state =>
        let count := heights.countP fun height => r.minHeight ≤ height ∧
          (bit : ℤ) ∉ usedBits r previous ∧ signals (versions height) bit
        advance state count r.threshold mtp last warningDeployment
      deployments := (r.deployments.zip previous.deployments).map fun (deployment, state) =>
        let count := heights.countP fun height => signals (versions height) deployment.bit.toNat
        advance state count r.threshold mtp last deployment }

end States

/-- The versions along a chain. -/
def versionsOf (headers : Bytes → Option Header) (chain : List Bytes) (height : ℕ) : ℤ :=
  ((chain[height]?.bind headers).map (·.version)).getD 0

/-- The median times along a chain. -/
def mtpOf (medianTimePast : MedianTimePast) (headers : Bytes → Option Header)
    (chain : List Bytes) (height : ℕ) : Option ℕ := do
  let header ← chain[height]?.bind headers
  medianTimePast header height fun header => headers header.previousBlockHash

/-- The states after a number of periods of a chain. -/
def statesOf (medianTimePast : MedianTimePast) (headers : Bytes → Option Header) (r : Rules)
    (chain : List Bytes) (periods : ℕ) : Option Boundary :=
  states r (versionsOf headers chain) (mtpOf medianTimePast headers chain) periods

/-! ## What a call is to answer -/

/-- A call on a path of the tree, at a height on it. -/
def Call.Valid (tree : HeaderTree) : Call → Prop
  | .check activeChain height =>
    tree.IsPath activeChain ∧ ∀ h, height = some h → h < activeChain.length
  | .status activeChain => tree.IsPath activeChain

/-- The answer by the states of the period that the next block is in. -/
def Call.answer (medianTimePast : MedianTimePast) (headers : Bytes → Option Header) (r : Rules) :
    Call → Option Answer
  | .check activeChain height =>
    let next := (height.map (· + 1)).getD activeChain.length
    (statesOf medianTimePast headers r activeChain (next / r.period)).map fun boundary =>
      .warnings (warnings boundary)
  | .status activeChain => do
    let boundary ← statesOf medianTimePast headers r activeChain (activeChain.length / r.period)
    let status ← statusOf r boundary
    some (.status status)

end BtclibNode.Versionbits

/-!
# Counting a period

What `_period_ending_at` counts is, bit by bit, the number of blocks that signal; where it
does not count, no state asks for a number.
-/

namespace BtclibNode.Versionbits

open LowestBit

variable {headers : Bytes → Option Header} {r : Rules} {chain : List Bytes} {known : List ℤ}
  {f g : ℕ → ℕ}

/-! ## The numbers of every bit -/

/-- A number for each bit. -/
def tab (f : ℕ → ℕ) : List ℕ := (List.range numBits).map f

theorem length_tab (f : ℕ → ℕ) : (tab f).length = numBits := by
  rw [tab, List.length_map, List.length_range]

theorem tab_zero : List.replicate numBits 0 = tab fun _ => 0 := rfl

theorem tab_congr (h : ∀ bit < numBits, f bit = g bit) : tab f = tab g :=
  List.map_congr_left fun bit hbit => h bit (List.mem_range.mp hbit)

theorem getElem?_tab {bit : ℕ} (hbit : bit < numBits) : (tab f)[bit]? = some (f bit) := by
  rw [tab, List.getElem?_map, List.getElem?_range hbit]
  rfl

theorem increment_tab {bit : ℕ} (hbit : bit < numBits) :
    increment (tab f) bit = some (tab fun b => f b + if b = bit then 1 else 0) := by
  rw [increment, if_pos (by rw [length_tab]; exact hbit)]
  congr 1
  refine List.ext_getElem (by rw [List.length_modify, length_tab, length_tab]) fun b hb hb' => ?_
  simp only [tab, List.getElem_modify, List.getElem_map, List.getElem_range]
  by_cases h : b = bit
  · rw [if_pos h.symm, if_pos h]
  · rw [if_neg (Ne.symm h), if_neg h, Nat.add_zero]

theorem incrementIf_tab (wanted : ℕ → Bool) {bit : ℕ} (hbit : bit < numBits) :
    incrementIf (wanted bit) (tab f) bit =
      some (tab fun b => f b + if wanted b then (if b = bit then 1 else 0) else 0) := by
  rw [incrementIf]
  cases hwanted : wanted bit with
  | true =>
    rw [if_pos rfl, increment_tab hbit]
    congr 1
    refine tab_congr fun b _ => ?_
    by_cases hb : b = bit
    · rw [hb, hwanted, if_pos rfl, if_pos rfl]
    · rw [if_neg hb, ite_self]
  | false =>
    rw [if_neg Bool.false_ne_true]
    congr 1
    refine tab_congr fun b _ => ?_
    by_cases hb : b = bit
    · rw [hb, hwanted, if_neg Bool.false_ne_true, Nat.add_zero]
    · rw [if_neg hb, ite_self, Nat.add_zero]

/-! ## The signals of a block -/

/-- The loop over the bits: each one that is set counts once. -/
theorem countSignals_tab (warned : Bool) (known : List ℤ) {s : ℕ} (hs : s < 2 ^ numBits) :
    countSignals warned known s (tab f, tab g) =
      some (tab fun b => f b + (s.testBit b).toNat,
        tab fun b => g b + if warned ∧ (b : ℤ) ∉ known then (s.testBit b).toNat else 0) := by
  induction s using Nat.strong_induction_on generalizing f g with
  | _ s ih =>
    rw [countSignals]
    by_cases hzero : s = 0
    · rw [dif_pos hzero, hzero]
      simp only [Nat.zero_testBit, Bool.toNat_false, ite_self, Nat.add_zero]
    · rw [dif_neg hzero]
      obtain ⟨k, hlow, hbit, hlt⟩ := lowBit_spec (Nat.pos_of_ne_zero hzero)
      have hk : k < numBits := by
        by_contra hle
        have hclear := Nat.testBit_lt_two_pow
          (hs.trans_le (Nat.pow_le_pow_right (by decide) (Nat.le_of_not_lt hle)))
        rw [hclear] at hbit
        cases hbit
      have hsize : (lowBit s).size - 1 = k := by
        rw [hlow, Nat.size_pow]
        rfl
      -- the bits of `s` are the lowest one and those of the rest
      have hrest : ∀ b, (s.testBit b).toNat =
          (if b = k then 1 else 0) + ((s ^^^ lowBit s).testBit b).toNat := by
        intro b
        rw [Nat.testBit_xor, hlow, Nat.testBit_two_pow]
        by_cases hb : b = k
        · rw [hb, hbit, decide_eq_true rfl, if_pos rfl]
          rfl
        · rw [if_neg hb, decide_eq_false (Ne.symm hb), Bool.xor_false, Nat.zero_add]
      dsimp only
      rw [hsize, increment_tab hk,
        incrementIf_tab (fun bit => decide (warned ∧ (bit : ℤ) ∉ known)) hk]
      change countSignals warned known (s ^^^ lowBit s) (_, _) = _
      rw [ih _ hlt (hlt.trans hs)]
      congr 2
      · refine tab_congr fun b _ => ?_
        rw [hrest b, Nat.add_assoc]
      · refine tab_congr fun b _ => ?_
        rw [hrest b]
        simp only [decide_eq_true_eq]
        split_ifs <;> omega

theorem testBit_topMask (j : ℕ) : topMask.testBit j = (decide (29 ≤ j) && decide (j - 29 < 3)) := by
  rw [show topMask = (2 ^ 3 - 1) <<< 29 from rfl, Nat.testBit_shiftLeft,
    Nat.testBit_two_pow_sub_one]

/-- The complement of the mask keeps the bits below the three top ones. -/
theorem testBit_low {v : ℕ} (hlt : v < 2 ^ 32) (bit : ℕ) :
    (Int.land v (Int.lnot topMask)).toNat.testBit bit =
      (decide (bit < numBits) && v.testBit bit) := by
  have hcast : ((topMask : ℕ) : ℤ).testBit bit = topMask.testBit bit := rfl
  rw [testBit_land_natCast, Int.testBit_lnot, hcast, testBit_topMask]
  by_cases hbit : bit < numBits
  · have hbelow : ¬ 29 ≤ bit := Nat.not_le_of_lt hbit
    rw [decide_eq_true hbit, decide_eq_false hbelow, Bool.true_and, Bool.false_and, Bool.not_false,
      Bool.and_true]
  · have habove : 29 ≤ bit := Nat.le_of_not_lt hbit
    rw [decide_eq_false hbit, decide_eq_true habove, Bool.false_and, Bool.true_and]
    by_cases hbit' : bit - 29 < 3
    · rw [decide_eq_true hbit', Bool.not_true, Bool.and_false]
    · have hclear : v.testBit bit = false := Nat.testBit_lt_two_pow
        (hlt.trans_le (Nat.pow_le_pow_right (by decide) (by omega)))
      rw [hclear, Bool.false_and]

/-- The mask keeps the three top bits. -/
theorem and_topMask {v : ℕ} (hlt : v < 2 ^ 32) : v &&& topMask = v / 2 ^ 29 * 2 ^ 29 := by
  refine Nat.eq_of_testBit_eq fun j => ?_
  rw [← Nat.shiftLeft_eq, Nat.testBit_and, testBit_topMask, Nat.testBit_shiftLeft,
    Nat.testBit_div_two_pow]
  by_cases hj : 29 ≤ j
  · rw [decide_eq_true hj, Bool.true_and, Bool.true_and, Nat.sub_add_cancel hj]
    by_cases hj' : j - 29 < 3
    · rw [decide_eq_true hj', Bool.and_true]
    · have hclear : v.testBit j = false := Nat.testBit_lt_two_pow
        (hlt.trans_le (Nat.pow_le_pow_right (by decide) (by omega)))
      rw [hclear, Bool.false_and]
  · rw [decide_eq_false hj, Bool.false_and, Bool.false_and, Bool.and_false]

theorem signals_eq (version : ℤ) (bit : ℕ) :
    signals version bit = (decide ((version % 2 ^ 32).toNat &&& topMask = topBits) &&
      (Int.land (version % 2 ^ 32).toNat (Int.lnot topMask)).toNat.testBit bit) := by
  have hlt : (version % 2 ^ 32).toNat < 2 ^ 32 := by omega
  rw [signals]
  generalize (version % 2 ^ 32).toNat = v at hlt ⊢
  have hiff : v / 2 ^ 29 = 1 ↔ v &&& topMask = topBits := by
    rw [and_topMask hlt]
    change _ ↔ _ = 1 * 2 ^ 29
    omega
  rw [testBit_low hlt, Bool.and_assoc, decide_eq_decide.mpr hiff]

/-- What is counted of the block at a height. -/
theorem countBlock_tab {height : ℕ} {hash : Bytes} {header : Header}
    (hhash : chain[height]? = some hash) (hheader : headers hash = some header) :
    countBlock headers r known chain (tab f, tab g) height =
      some (tab fun b => f b + (signals header.version b).toNat,
        tab fun b => g b + if r.minHeight ≤ height ∧ (b : ℤ) ∉ known then
          (signals header.version b).toNat else 0) := by
  have hlow : (Int.land (header.version % 2 ^ 32).toNat (Int.lnot topMask)).toNat <
      2 ^ numBits := by
    refine Nat.lt_pow_two_of_testBit _ fun j hj => ?_
    rw [testBit_low (by omega), decide_eq_false (Nat.not_lt_of_le hj), Bool.false_and]
  rw [countBlock, hhash]
  change (headers hash).bind _ = _
  rw [hheader]
  change (if (header.version % 2 ^ 32).toNat &&& topMask ≠ topBits then _ else _) = _
  simp only [signals_eq]
  by_cases htop : (header.version % 2 ^ 32).toNat &&& topMask = topBits
  · rw [if_neg (not_not.mpr htop), countSignals_tab _ _ hlow, decide_eq_true htop]
    simp only [Bool.true_and, decide_eq_true_eq]
  · rw [if_pos htop, decide_eq_false htop]
    simp only [Bool.false_and, Bool.toNat_false, ite_self, Nat.add_zero]

/-! ## A period -/

/-- The loop over the blocks: for each bit, how many of them signal it. -/
theorem foldlM_countBlock_tab {heights : List ℕ} (h : ∀ height ∈ heights,
    ∃ hash header, chain[height]? = some hash ∧ headers hash = some header) :
    heights.foldlM (countBlock headers r known chain) (tab f, tab g) =
      some (tab fun b => f b + heights.countP fun height =>
          signals (versionsOf headers chain height) b,
        tab fun b => g b + heights.countP fun height => r.minHeight ≤ height ∧
          (b : ℤ) ∉ known ∧ signals (versionsOf headers chain height) b) := by
  induction heights generalizing f g with
  | nil => rfl
  | cons height heights ih =>
    obtain ⟨⟨hash, header, hhash, hheader⟩, hrest⟩ := List.forall_mem_cons.mp h
    have hversion : versionsOf headers chain height = header.version := by
      rw [versionsOf, hhash, Option.bind_some, hheader]
      rfl
    rw [List.foldlM_cons, countBlock_tab hhash hheader]
    change heights.foldlM _ (_, _) = _
    rw [ih hrest]
    congr 2
    · refine tab_congr fun b _ => ?_
      rw [List.countP_cons, hversion, Nat.add_assoc, Nat.add_comm (Bool.toNat _)]
      cases signals header.version b <;> rfl
    · refine tab_congr fun b _ => ?_
      rw [List.countP_cons, hversion, Nat.add_assoc, Nat.add_comm (ite _ _ _)]
      by_cases hb : r.minHeight ≤ height ∧ (b : ℤ) ∉ known
      · cases signals header.version b <;> simp [hb]
      · rw [if_neg hb, if_neg (by simp only [decide_eq_true_eq]; tauto)]

/-- No state but `STARTED` asks for a number. -/
theorem advance_of_ne_started {state : State} (h : state ≠ .started)
    (count count' threshold mtp height : ℕ) (deployment : Deployment) :
    advance state count threshold mtp height deployment =
      advance state count' threshold mtp height deployment := by
  cases state with
  | started => exact absurd rfl h
  | _ => rfl

end BtclibNode.Versionbits
