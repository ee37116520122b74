/-
# Runs of the index

The index as a machine whose steps are the calls the node makes: batches of
headers, arrivals, marks of invalidity off the active chain and their removal,
questions for a candidate, and moves of the active chain by one block, as
`_finalize_fork` makes them.  From a consistent store every call the node may
make returns, and every state reached is consistent.
-/
import BtclibNode.Lib.Run
import BtclibNode.Chainstate.IndexLoad

namespace BtclibNode.BlockIndex

open HeightTree

/-! ## The machine -/

/-- A call of the index. -/
inductive IndexCall where
  | addHeaders (headers : List BlockHeader) (punishCachedInvalid minPowChecked : Bool) (now : ℤ)
  | invalidate (h : Hash)
  | reconsider (h : Hash)
  | weighInvalid (h : Hash)
  | connectTip (h : Hash)
  | disconnectTip (h : Hash)
  | setDownloaded (h : Hash) (downloaded : Bool)
  | precious (h : Hash)
  | generateBlockCandidates
  | getFirstCandidate
  | finalize

/-- Whether the node may make the call: on known headers, a mark of invalidity
off the active chain, and of the active chain only a valid child of its tip
added and its tip above genesis removed. -/
def allowed (chain : Chain) (s : BlockIndex) : IndexCall → Bool
  | .addHeaders .. | .generateBlockCandidates | .getFirstCandidate | .finalize => true
  | .invalidate h => (s.getBlockInfo h).isSome && decide (h ∉ s.activeChain)
  | .reconsider h | .weighInvalid h | .setDownloaded h _ | .precious h => (s.getBlockInfo h).isSome
  | .connectTip h => (s.getBlockInfo h).any fun info =>
      decide (s.activeChain.getLast? = some info.header.previousBlockHash) &&
        decide (info.index ≠ 0) && decide (info.status ≠ .invalid)
  | .disconnectTip h => decide (s.activeChain.getLast? = some h) &&
      decide (h ≠ chain.genesis.hash)

/-- What the call makes of the index. -/
def call (chain : Chain) (s : BlockIndex) : IndexCall → Option BlockIndex
  | .addHeaders headers punish minPow now =>
    (s.addHeaders chain headers punish minPow now).map Prod.fst
  | .invalidate h => s.invalidate h
  | .reconsider h => s.reconsider h
  | .weighInvalid h => s.weighInvalid h
  | .connectTip h => s.connectTip h
  | .disconnectTip h => s.disconnectTip h
  | .setDownloaded h downloaded => s.setDownloaded h downloaded
  | .precious h => (s.precious h).map Prod.fst
  | .generateBlockCandidates => s.generateBlockCandidates
  | .getFirstCandidate => s.getFirstCandidate.map Prod.fst
  | .finalize => some s.finalize.2

/-- An allowed call. -/
def step (chain : Chain) (s : BlockIndex) (c : IndexCall) : Option BlockIndex :=
  if s.allowed chain c then s.call chain c else none

section Step

variable {chain : Chain} {s t : BlockIndex} {h : Hash} {c : IndexCall}

theorem isNextTip_of_allowed (ha : s.allowed chain (.connectTip h) = true) : IsNextTip s h := by
  unfold allowed at ha
  rw [Option.any_eq_true] at ha
  obtain ⟨info, hinfo, ha⟩ := ha
  simp only [Bool.and_eq_true, decide_eq_true_eq] at ha
  obtain ⟨⟨htip, hindex⟩, hvalid⟩ := ha
  obtain ⟨n, hn⟩ := Nat.exists_eq_succ_of_ne_zero hindex
  refine ⟨⟨_, htip, n, ?_⟩, (statusOf_ne hinfo).mpr hvalid⟩
  rw [nodes_eq hinfo, hn]

/-- **An allowed call returns, and keeps the index consistent.** -/
theorem Consistent.call_eq (hs : Consistent chain s) (ha : s.allowed chain c = true) :
    ∃ t, s.call chain c = some t ∧ Consistent chain t := by
  cases c with
  | addHeaders headers punish minPow now =>
    obtain ⟨t, result, heq, -, ht⟩ := hs.addHeaders_eq headers punish minPow now
    exact ⟨t, congrArg (Option.map Prod.fst) heq, ht⟩
  | invalidate h =>
    unfold allowed at ha
    rw [Bool.and_eq_true, Option.isSome_iff_exists, decide_eq_true_iff] at ha
    obtain ⟨⟨info, hinfo⟩, hoff⟩ := ha
    obtain ⟨t, heq, -, ht⟩ := hs.invalidate_eq hinfo hoff
    exact ⟨t, heq, ht⟩
  | reconsider h =>
    obtain ⟨info, hinfo⟩ := Option.isSome_iff_exists.mp ha
    obtain ⟨t, heq, -, ht⟩ := hs.reconsider_eq hinfo
    exact ⟨t, heq, ht⟩
  | weighInvalid h =>
    obtain ⟨info, hinfo⟩ := Option.isSome_iff_exists.mp ha
    obtain ⟨b, heq, ht⟩ := hs.weighInvalid_eq hinfo
    exact ⟨_, heq, ht⟩
  | connectTip h =>
    obtain ⟨t, heq, -, ht⟩ := hs.connectTip_eq (isNextTip_of_allowed ha)
    exact ⟨t, heq, ht⟩
  | disconnectTip h =>
    unfold allowed at ha
    rw [Bool.and_eq_true, decide_eq_true_iff, decide_eq_true_iff] at ha
    obtain ⟨t, heq, -, ht⟩ := hs.disconnectTip_eq ha.1 ha.2
    exact ⟨t, heq, ht⟩
  | setDownloaded h downloaded =>
    obtain ⟨info, hinfo⟩ := Option.isSome_iff_exists.mp ha
    obtain ⟨u, t, heq, -, -, -, ht⟩ := hs.setDownloaded_eq hinfo downloaded
    exact ⟨t, heq, ht⟩
  | precious h =>
    obtain ⟨info, hinfo⟩ := Option.isSome_iff_exists.mp ha
    obtain ⟨t, b, heq, ht, -⟩ := hs.precious_eq hinfo
    exact ⟨t, congrArg (Option.map Prod.fst) heq, ht⟩
  | generateBlockCandidates =>
    obtain ⟨tip, -, heq, hcands⟩ := hs.toSound.generateBlockCandidates_eq
    exact ⟨_, heq, hs.withCandidates hcands⟩
  | getFirstCandidate =>
    obtain ⟨tip, answer, -, heq, ht⟩ := hs.getFirstCandidate_eq
    exact ⟨_, congrArg (Option.map Prod.fst) heq, ht⟩
  | finalize =>
    exact ⟨_, rfl, hs.frame ⟨rfl, rfl, rfl, rfl, rfl, rfl⟩ rfl rfl hs.candidates hs.candidatesValid⟩

theorem Consistent.step (hs : Consistent chain s) (hstep : s.step chain c = some t) :
    Consistent chain t := by
  unfold BlockIndex.step at hstep
  split at hstep
  · next ha =>
    obtain ⟨t', heq, ht⟩ := hs.call_eq ha
    rw [hstep, Option.some.injEq] at heq
    exact heq ▸ ht
  · cases hstep

/-! ## What every call keeps -/

/-- Whether the call moves the tip of the active chain. -/
def IndexCall.movesTip : IndexCall → Bool
  | .connectTip _ | .disconnectTip _ => true
  | _ => false

/-- `t` has the headers of `s`, perhaps more, and its active chain unless the
call moves the tip. -/
structure Follows (moves : Bool) (s t : BlockIndex) : Prop where
  nodes : ∀ x y, s.nodes x = some y → t.nodes x = some y
  activeChain : moves = false → t.activeChain = s.activeChain

theorem Rewrites.follows {moves : Bool} (hr : Rewrites s t)
    (hactive : moves = false → t.activeChain = s.activeChain) : Follows moves s t :=
  ⟨fun x y hx => by rwa [hr.nodes_eq], hactive⟩

theorem HeadersAdded.follows (hadd : HeadersAdded chain s t) : Follows false s t := by
  induction hadd with
  | refl => exact ⟨fun _ _ hx => hx, fun _ => rfl⟩
  | @tail t u header parentHeight _ init hn hi ht ih =>
    refine ⟨fun x y hx => ?_, fun _ => ?_⟩
    · obtain ⟨info, hinfo, rfl⟩ := exists_info (ih.nodes x y hx)
      apply nodes_eq
      rw [hi.info, if_neg (hn.ne hinfo), hinfo]
    · rw [hi.others]
      exact ih.activeChain rfl

/-- **A call keeps the headers**, and all but two the active chain. -/
theorem Consistent.call_follows (hs : Consistent chain s) (ha : s.allowed chain c = true)
    (hcall : s.call chain c = some t) : Follows c.movesTip s t := by
  have hsame : ∀ {u : BlockIndex}, s.call chain c = some u → SameRecords s u →
      u.activeChain = s.activeChain → Follows c.movesTip s t := by
    intro u hu hr hactive
    rw [hcall, Option.some.injEq] at hu
    subst hu
    exact hr.rewrites.follows fun _ => hactive
  cases c with
  | addHeaders headers punish minPow now =>
    obtain ⟨u, result, heq, hadd, -⟩ := hs.addHeaders_eq headers punish minPow now
    obtain rfl : u = t :=
      Option.some.inj ((congrArg (Option.map Prod.fst) heq).symm.trans hcall)
    exact hadd.follows
  | invalidate h =>
    unfold allowed at ha
    rw [Bool.and_eq_true, Option.isSome_iff_exists, decide_eq_true_iff] at ha
    obtain ⟨⟨info, hinfo⟩, hoff⟩ := ha
    obtain ⟨u, heq, hi, -⟩ := hs.invalidate_eq hinfo hoff
    obtain rfl : u = t := Option.some.inj (heq.symm.trans hcall)
    obtain ⟨v, hst, hu⟩ := hi.statuses
    rw [hu]
    refine ⟨fun x y hx => ?_, fun _ => ?_⟩
    · show v.nodes x = some y
      rwa [hst.rewrites.nodes_eq]
    · show v.activeChain = _
      rw [hst.others]
  | reconsider h =>
    obtain ⟨info, hinfo⟩ := Option.isSome_iff_exists.mp ha
    obtain ⟨u, heq, hr, -⟩ := hs.reconsider_eq hinfo
    obtain rfl : u = t := Option.some.inj (heq.symm.trans hcall)
    obtain ⟨r, v, hst, -, hu⟩ := hr.statuses
    rw [hu]
    refine ⟨fun x y hx => ?_, fun _ => ?_⟩
    · show v.nodes x = some y
      rwa [hst.rewrites.nodes_eq]
    · show v.activeChain = _
      rw [hst.others]
  | weighInvalid h =>
    obtain ⟨info, hinfo⟩ := Option.isSome_iff_exists.mp ha
    obtain ⟨b, heq, -⟩ := hs.weighInvalid_eq hinfo
    exact hsame heq ⟨rfl, rfl, rfl, rfl, rfl, rfl⟩ rfl
  | connectTip h =>
    obtain ⟨u, heq, hst, -⟩ := hs.connectTip_eq (isNextTip_of_allowed ha)
    obtain rfl : u = t := Option.some.inj (heq.symm.trans hcall)
    refine ⟨fun x y hx => ?_, fun h0 => by cases h0⟩
    rw [hst.rewrites.nodes_eq]
    exact hx
  | disconnectTip h =>
    unfold allowed at ha
    rw [Bool.and_eq_true, decide_eq_true_iff, decide_eq_true_iff] at ha
    obtain ⟨u, heq, hst, -⟩ := hs.disconnectTip_eq ha.1 ha.2
    obtain rfl : u = t := Option.some.inj (heq.symm.trans hcall)
    refine ⟨fun x y hx => ?_, fun h0 => by cases h0⟩
    rw [hst.rewrites.nodes_eq]
    exact hx
  | setDownloaded h downloaded =>
    obtain ⟨info, hinfo⟩ := Option.isSome_iff_exists.mp ha
    obtain ⟨v, u, heq, hst, -, hlink, -⟩ := hs.setDownloaded_eq hinfo downloaded
    obtain rfl : u = t := Option.some.inj (heq.symm.trans hcall)
    rw [hlink.eq]
    refine ⟨fun x y hx => ?_, fun _ => ?_⟩
    · show v.nodes x = some y
      rwa [hst.rewrites.nodes_eq]
    · show v.activeChain = _
      rw [hst.others]
  | precious h =>
    obtain ⟨info, hinfo⟩ := Option.isSome_iff_exists.mp ha
    obtain ⟨u, b, heq, -, hu⟩ := hs.precious_eq hinfo
    refine hsame (u := u) (congrArg (Option.map Prod.fst) heq) ⟨?_, ?_, ?_, ?_, ?_, ?_⟩ ?_ <;>
      rw [hu]
  | generateBlockCandidates =>
    obtain ⟨tip, -, heq, -⟩ := hs.toSound.generateBlockCandidates_eq
    exact hsame heq ⟨rfl, rfl, rfl, rfl, rfl, rfl⟩ rfl
  | getFirstCandidate =>
    obtain ⟨tip, answer, -, heq, -⟩ := hs.getFirstCandidate_eq
    exact hsame (congrArg (Option.map Prod.fst) heq) ⟨rfl, rfl, rfl, rfl, rfl, rfl⟩ rfl
  | finalize =>
    cases hcall
    exact ⟨fun _ _ hx => hx, fun _ => rfl⟩

/-- Every state of a run is consistent. -/
theorem Consistent.run (hs : Consistent chain s) {calls : List IndexCall}
    (hrun : Run.exec (BlockIndex.step chain) s calls = some t) : Consistent chain t :=
  Run.exec_invariant (fun _ _ _ hr hstep => hr.step hstep) hs hrun

end Step

/-! ## The best header chain -/

/-- **The header index is the best header chain in every state reached from a
consistent store**, and no call the node may make there raises. -/
theorem bestHeaderChain_of_run {chain : Chain} {db : BlockTable} {main : List Hash}
    (hdb : StoredTree chain db main) (hclosed : StoredClosed chain db) (calls : List IndexCall) :
    ∃ s₀, initFromDb chain db = some s₀ ∧
      ∀ s, Run.exec (step chain) s₀ calls = some s →
        BestHeaderChain chain s ∧
          ∀ c, s.allowed chain c = true → ∃ t, s.step chain c = some t := by
  obtain ⟨s₀, hload, -, hcons⟩ := hdb.exists_consistent hclosed
  refine ⟨s₀, hload, fun s hrun => ?_⟩
  have hs := hcons.run hrun
  refine ⟨hs.best, fun c ha => ?_⟩
  obtain ⟨t, heq, -⟩ := hs.call_eq ha
  exact ⟨t, by rw [BlockIndex.step, if_pos ha, heq]⟩

/-- A chain that asks nothing of a header but that it hangs from another, and on
which every header is worth one. -/
def lightChain : Chain where
  genesis := ⟨1, 0, 4, 0, 0⟩
  calculateWork _ := 1
  validPow _ := true
  nextBitsRequired _ _ _ _ := 0
  medianTimePast _ _ _ := -1
  notTimewarp _ _ _ := true
  validTime _ _ := true
  bip34Height := 0
  bip66Height := 0
  bip65Height := 0
  work_pos _ _ := Nat.one_pos
  genesis_pow := rfl

def lightHeader (hash parent : Hash) : BlockHeader := ⟨hash, parent, 4, 0, 0⟩

/-- Two branches, the longer one first connected, then disconnected, invalidated
and considered again. -/
def forkCalls : List IndexCall :=
  [.addHeaders [lightHeader 2 1, lightHeader 3 2] true true 0, .connectTip 2, .connectTip 3,
    .finalize, .disconnectTip 3, .invalidate 3,
    .addHeaders [lightHeader 5 1, lightHeader 6 5, lightHeader 7 6] true true 0, .reconsider 2]

/-- A run over two branches, from a new store. -/
theorem bestHeaderChain_of_run_fork : ∃ s₀ s, initFromDb lightChain ∅ = some s₀ ∧
    Run.exec (step lightChain) s₀ forkCalls = some s ∧ s.headerIndex = [1, 5, 6, 7] ∧
    BestHeaderChain lightChain s := by
  obtain ⟨s₀, hload, hrun⟩ := bestHeaderChain_of_run (storedTree_empty lightChain)
    (storedClosed_empty lightChain) forkCalls
  have heval : ((initFromDb lightChain ∅).bind fun s => Run.exec (step lightChain) s forkCalls).map
      BlockIndex.headerIndex = some [1, 5, 6, 7] := by decide +kernel
  rw [hload, Option.bind_some, Option.map_eq_some_iff] at heval
  obtain ⟨s, hs, hindex⟩ := heval
  exact ⟨s₀, s, hload, hs, hindex, (hrun s hs).1⟩

end BtclibNode.BlockIndex
