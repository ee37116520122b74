/-
# The spanning forest of a linearization

`SpanningForestState` of `cluster_linearize.py`: its tables, and the merging and splitting of
chunks.  A mask is a finite set of positions, and a list is a table of what stands at an index.
-/
import BtclibNode.Lib.Forest
import Mathlib.Algebra.BigOperators.Group.Finset.Basic
import Mathlib.Data.Finset.Sort
import Mathlib.Data.Int.Notation
import Mathlib.Order.Interval.Finset.Nat

namespace BtclibNode

/-! ## The cluster -/

/-- `DepGraph`, as far as the forest reads it: `ancestors` has each transaction and all those it
depends on. -/
structure DepGraph where
  positions : Finset ℕ
  fees : ℕ → ℤ
  sizes : ℕ → ℤ
  ancestors : ℕ → Finset ℕ
  self_mem : ∀ i ∈ positions, i ∈ ancestors i
  ancestors_subset : ∀ i ∈ positions, ancestors i ⊆ positions
  ancestors_trans : ∀ i ∈ positions, ∀ j ∈ ancestors i, ancestors j ⊆ ancestors i

/-- `is_acyclic`. -/
def DepGraph.IsAcyclic (g : DepGraph) : Prop :=
  ∀ i ∈ g.positions, ∀ j ∈ g.ancestors i, i ∈ g.ancestors j → i = j

/-- `_bits`. -/
def bits (mask : Finset ℕ) : List ℕ := mask.sort (· ≤ ·)

/-- A turn of the loop of `reduced_parents`. -/
def DepGraph.reduce (g : DepGraph) (parents : Finset ℕ) (parent : ℕ) : Finset ℕ :=
  if parent ∈ parents then insert parent (parents \ g.ancestors parent) else parents

/-- `reduced_parents`. -/
def DepGraph.reducedParents (g : DepGraph) (i : ℕ) : Finset ℕ :=
  (bits (g.ancestors i \ {i})).foldl g.reduce (g.ancestors i \ {i})

/-- A set of transactions and their combined fee and size. -/
@[ext]
structure SetInfo where
  tx : Finset ℕ
  fee : ℤ
  size : ℤ

/-- `_SpanningForestState`, without its queues and its random numbers. -/
structure SpanningForestState where
  cost : ℕ
  transactions : Finset ℕ
  parents : ℕ → Finset ℕ
  children : ℕ → Finset ℕ
  activeChildren : ℕ → Finset ℕ
  chunkIdx : ℕ → ℕ
  depTop : ℕ → ℕ → Option ℕ
  sets : ℕ → SetInfo
  reachUp : ℕ → Finset ℕ
  reachDown : ℕ → Finset ℕ
  chunkIdxs : Finset ℕ

namespace SpanningForestState

/-! ## Setting up -/

/-- `__init__`: the chunk of each transaction has its number in the order of the positions. -/
def init (g : DepGraph) : SpanningForestState :=
  let txs := g.positions
  let count := txs.card
  let parents := fun tx => if tx ∈ txs then g.reducedParents tx else ∅
  let children := fun parent => txs.filter fun tx => parent ∈ g.reducedParents tx
  let numDeps := ((bits txs).map fun tx => (parents tx).card).sum
  { cost := 39 * count + 48 * count + 4 * numDeps
    transactions := txs
    parents := parents
    children := children
    activeChildren := fun _ => ∅
    chunkIdx := fun tx => (bits txs).idxOf tx
    depTop := fun _ _ => none
    sets := fun chunk =>
      match (bits txs)[chunk]? with
      | some tx => ⟨{tx}, g.fees tx, g.sizes tx⟩
      | none => ⟨∅, 0, 0⟩
    reachUp := fun chunk =>
      match (bits txs)[chunk]? with
      | some tx => parents tx
      | none => ∅
    reachDown := fun chunk =>
      match (bits txs)[chunk]? with
      | some tx => children tx
      | none => ∅
    chunkIdxs := Finset.range count }

/-! ## Merging and splitting -/

/-- A turn of the inner loops: the top set of one active dependency, as `change` has it.  A
dependency without a set is a `KeyError`. -/
def changeTop (s : SpanningForestState) (change : SetInfo → SetInfo) (tx : ℕ)
    (sets : ℕ → SetInfo) (depChild : ℕ) : Option (ℕ → SetInfo) :=
  (s.depTop tx depChild).map fun d => Function.update sets d (change (sets d))

/-- The loop over the active dependencies of the transactions of a chunk. -/
def changeTops (s : SpanningForestState) (change : SetInfo → SetInfo) (txs : Finset ℕ)
    (sets : ℕ → SetInfo) : Option (ℕ → SetInfo) :=
  (bits txs).foldlM (fun sets tx =>
    (bits (s.activeChildren tx)).foldlM (s.changeTop change tx) sets) sets

/-- A top set that holds `tx` gains `other`. -/
def widen (tx : ℕ) (other : SetInfo) (set : SetInfo) : SetInfo :=
  if tx ∈ set.tx then ⟨set.tx ∪ other.tx, set.fee + other.fee, set.size + other.size⟩ else set

/-- A top set that holds `tx` loses `other`. -/
def narrow (tx : ℕ) (other : SetInfo) (set : SetInfo) : SetInfo :=
  if tx ∈ set.tx then ⟨set.tx \ other.tx, set.fee - other.fee, set.size - other.size⟩ else set

/-- `_activate`: the chunk, and the state afterwards. -/
def activate (s : SpanningForestState) (parent child : ℕ) :
    Option (ℕ × SpanningForestState) := do
  let top := s.chunkIdx parent
  let bottom := s.chunkIdx child
  let topSet := s.sets top
  let botSet := s.sets bottom
  let sets ← s.changeTops (widen parent botSet) topSet.tx s.sets
  let sets ← s.changeTops (widen child topSet) botSet.tx sets
  let merged := botSet.tx ∪ topSet.tx
  some (bottom, { s with
    cost := s.cost + 10 * (merged.card - 1) + 1
    chunkIdx := fun tx => if tx ∈ topSet.tx then bottom else s.chunkIdx tx
    sets := Function.update sets bottom
      ⟨merged, botSet.fee + topSet.fee, botSet.size + topSet.size⟩
    reachUp := Function.update s.reachUp bottom ((s.reachUp bottom ∪ s.reachUp top) \ merged)
    reachDown := Function.update s.reachDown bottom
      ((s.reachDown bottom ∪ s.reachDown top) \ merged)
    depTop := Function.update s.depTop parent
      (Function.update (s.depTop parent) child (some top))
    activeChildren := Function.update s.activeChildren parent
      (insert child (s.activeChildren parent))
    chunkIdxs := s.chunkIdxs.erase top })

/-- `_deactivate`: the two chunks, and the state afterwards. -/
def deactivate (s : SpanningForestState) (parent child : ℕ) :
    Option ((ℕ × ℕ) × SpanningForestState) := do
  let top ← s.depTop parent child
  let bottom := s.chunkIdx parent
  let s' := { s with
    depTop := Function.update s.depTop parent (Function.update (s.depTop parent) child none)
    activeChildren := Function.update s.activeChildren parent
      ((s.activeChildren parent).erase child) }
  let ntx := (s.sets bottom).tx.card
  let topSet := s.sets top
  let botSet : SetInfo := ⟨(s.sets bottom).tx \ topSet.tx, (s.sets bottom).fee - topSet.fee,
    (s.sets bottom).size - topSet.size⟩
  let sets ← s'.changeTops (narrow parent botSet) topSet.tx (Function.update s.sets bottom botSet)
  let sets ← s'.changeTops (narrow child topSet) botSet.tx sets
  some ((top, bottom), { s' with
    cost := s.cost + 11 * (ntx - 1) + 8
    chunkIdx := fun tx => if tx ∈ topSet.tx then top else s.chunkIdx tx
    sets := sets
    reachUp := Function.update
      (Function.update s.reachUp top (topSet.tx.biUnion s.parents \ topSet.tx)) bottom
      (botSet.tx.biUnion s.parents \ botSet.tx)
    reachDown := Function.update
      (Function.update s.reachDown top (topSet.tx.biUnion s.children \ topSet.tx)) bottom
      (botSet.tx.biUnion s.children \ botSet.tx)
    chunkIdxs := insert top s.chunkIdxs })

end SpanningForestState

end BtclibNode

/-!
# What the tables of a spanning forest stand for

The active dependencies are a forest, its trees are the chunks, and the set of an active
dependency is its side.  The loops over the sets change each of them once.
-/

namespace BtclibNode.SpanningForestState

open Forest SimpleGraph

variable {g : DepGraph} {s s' : SpanningForestState} {a b c d i p t u v : ℕ} {txs : Finset ℕ}
  {set other : SetInfo} {change : SetInfo → SetInfo} {sets : ℕ → SetInfo}

/-- The active dependencies. -/
def active (s : SpanningForestState) : SimpleGraph ℕ :=
  SimpleGraph.fromRel fun a b => b ∈ s.activeChildren a

/-- The fee and the size of a set are those of its transactions together. -/
def IsSum (g : DepGraph) (set : SetInfo) : Prop :=
  set.fee = ∑ i ∈ set.tx, g.fees i ∧ set.size = ∑ i ∈ set.tx, g.sizes i

/-- What the tables stand for. -/
structure Represents (g : DepGraph) (s : SpanningForestState) : Prop where
  transactions : s.transactions = g.positions
  parents : ∀ i, s.parents i = if i ∈ g.positions then g.reducedParents i else ∅
  children : ∀ p c, c ∈ s.children p ↔ c ∈ g.positions ∧ p ∈ g.reducedParents c
  dependency : ∀ p c, c ∈ s.activeChildren p → c ∈ s.children p
  forest : s.active.IsAcyclic
  chunk : ∀ a ∈ g.positions, ∀ b ∈ g.positions,
    s.chunkIdx a = s.chunkIdx b ↔ s.active.Reachable a b
  idxs : s.chunkIdxs = g.positions.image s.chunkIdx
  members : ∀ i ∈ s.chunkIdxs, ∀ b, b ∈ (s.sets i).tx ↔ b ∈ g.positions ∧ s.chunkIdx b = i
  sums : ∀ i ∈ s.chunkIdxs, IsSum g (s.sets i)
  tops : ∀ p c, c ∈ s.activeChildren p → ∃ d, s.depTop p c = some d ∧ d ∉ s.chunkIdxs ∧
    (∀ b, b ∈ (s.sets d).tx ↔ Side s.active p c b) ∧ IsSum g (s.sets d)
  tops_inj : ∀ p c, c ∈ s.activeChildren p → ∀ p' c', c' ∈ s.activeChildren p' →
    s.depTop p c = s.depTop p' c' → p = p' ∧ c = c'
  reach : ∀ i ∈ s.chunkIdxs,
    s.reachUp i = (s.sets i).tx.biUnion s.parents \ (s.sets i).tx ∧
      s.reachDown i = (s.sets i).tx.biUnion s.children \ (s.sets i).tx

/-! ## Dependencies -/

theorem mem_bits {mask : Finset ℕ} : i ∈ bits mask ↔ i ∈ mask := Finset.mem_sort (· ≤ ·)

theorem nodup_bits (mask : Finset ℕ) : (bits mask).Nodup := Finset.sort_nodup mask (· ≤ ·)

theorem reducedParents_subset (g : DepGraph) (i : ℕ) :
    g.reducedParents i ⊆ g.ancestors i \ {i} := by
  have hfold : ∀ (l : List ℕ) (parents : Finset ℕ), parents ⊆ g.ancestors i \ {i} →
      l.foldl g.reduce parents ⊆ g.ancestors i \ {i} := by
    intro l
    induction l with
    | nil => exact fun parents h => h
    | cons parent l ih =>
      refine fun parents h => ih _ ?_
      rw [DepGraph.reduce]
      split_ifs with hmem
      · exact Finset.insert_subset (h hmem) (Finset.sdiff_subset.trans h)
      · exact h
  exact hfold _ _ subset_rfl

theorem active_adj : s.active.Adj a b ↔
    a ≠ b ∧ (b ∈ s.activeChildren a ∨ a ∈ s.activeChildren b) := SimpleGraph.fromRel_adj ..

theorem Represents.mem_of_child (h : Represents g s) (hc : c ∈ s.children p) :
    p ∈ g.positions ∧ c ∈ g.positions ∧ p ≠ c := by
  obtain ⟨hmem, hparent⟩ := (h.children p c).mp hc
  have hsub := reducedParents_subset g c hparent
  rw [Finset.mem_sdiff, Finset.mem_singleton] at hsub
  exact ⟨g.ancestors_subset c hmem hsub.1, hmem, hsub.2⟩

/-- Of two transactions one depends on the other at most. -/
theorem Represents.not_both (h : Represents g s) (hg : g.IsAcyclic) (hc : c ∈ s.children p) :
    p ∉ s.children c := by
  intro hp
  obtain ⟨hmem, hparent⟩ := (h.children p c).mp hc
  obtain ⟨-, hparent'⟩ := (h.children c p).mp hp
  have hpc := (Finset.mem_sdiff.mp (reducedParents_subset g c hparent)).1
  have hcp := (Finset.mem_sdiff.mp (reducedParents_subset g p hparent')).1
  exact (h.mem_of_child hc).2.2 (hg c hmem p hpc hcp).symm

theorem Represents.adj (h : Represents g s) (hc : c ∈ s.activeChildren p) : s.active.Adj p c :=
  active_adj.mpr ⟨(h.mem_of_child (h.dependency p c hc)).2.2, Or.inl hc⟩

theorem Represents.mem_of_adj (h : Represents g s) (hadj : s.active.Adj a b) :
    b ∈ g.positions := by
  rcases (active_adj.mp hadj).2 with hb | ha
  · exact (h.mem_of_child (h.dependency a b hb)).2.1
  · exact (h.mem_of_child (h.dependency b a ha)).1

theorem Represents.mem_of_reachable (h : Represents g s) (ha : a ∈ g.positions)
    (hreach : s.active.Reachable a b) : b ∈ g.positions := by
  rw [reachable_iff_reflTransGen] at hreach
  induction hreach with
  | refl => exact ha
  | tail _ hadj _ => exact h.mem_of_adj hadj

theorem Represents.idx_mem (h : Represents g s) (ha : a ∈ g.positions) :
    s.chunkIdx a ∈ s.chunkIdxs := by
  rw [h.idxs]
  exact Finset.mem_image_of_mem _ ha

/-- The set of a chunk is the tree of any of its transactions. -/
theorem Represents.mem_chunk (h : Represents g s) (ha : a ∈ g.positions) :
    b ∈ (s.sets (s.chunkIdx a)).tx ↔ s.active.Reachable a b := by
  rw [h.members _ (h.idx_mem ha)]
  constructor
  · rintro ⟨hb, hidx⟩
    exact (h.chunk a ha b hb).mp hidx.symm
  · intro hreach
    have hb := h.mem_of_reachable ha hreach
    exact ⟨hb, ((h.chunk a ha b hb).mpr hreach).symm⟩

/-! ## The loops over the top sets -/

/-- The change of the sets in a list of slots. -/
def changeSlots (change : SetInfo → SetInfo) (ds : List ℕ) (sets : ℕ → SetInfo) : ℕ → SetInfo :=
  ds.foldl (fun sets d => Function.update sets d (change (sets d))) sets

theorem changeSlots_apply {ds : List ℕ} (hds : ds.Nodup) (sets : ℕ → SetInfo) (d : ℕ) :
    changeSlots change ds sets d = if d ∈ ds then change (sets d) else sets d := by
  induction ds generalizing sets with
  | nil => rfl
  | cons e ds ih =>
    obtain ⟨he, hds⟩ := List.nodup_cons.mp hds
    have hstep : changeSlots change (e :: ds) sets =
        changeSlots change ds (Function.update sets e (change (sets e))) := rfl
    rw [hstep, ih hds]
    by_cases hde : d = e
    · subst hde
      rw [if_neg he, if_pos List.mem_cons_self, Function.update_self]
    · rw [Function.update_of_ne hde]
      simp only [List.mem_cons, hde, false_or]

/-- The slot of an active dependency. -/
def slot (s : SpanningForestState) (p c : ℕ) : ℕ := (s.depTop p c).getD 0

/-- The slots that a loop goes over. -/
def slots (s : SpanningForestState) (txs : Finset ℕ) : List ℕ :=
  (bits txs).flatMap fun tx => (bits (s.activeChildren tx)).map (s.slot tx)

theorem changeTops_eq (change : SetInfo → SetInfo) (sets : ℕ → SetInfo)
    (hslot : ∀ tx ∈ txs, ∀ ch ∈ s.activeChildren tx, s.depTop tx ch = some (s.slot tx ch)) :
    s.changeTops change txs sets = some (changeSlots change (s.slots txs) sets) := by
  have hinner : ∀ tx ∈ txs, ∀ (chs : List ℕ), (∀ ch ∈ chs, ch ∈ s.activeChildren tx) →
      ∀ sets, chs.foldlM (s.changeTop change tx) sets =
        some (changeSlots change (chs.map (s.slot tx)) sets) := by
    intro tx htx chs
    induction chs with
    | nil => exact fun _ _ => rfl
    | cons ch chs ih =>
      intro hchs sets
      rw [List.foldlM_cons, changeTop, hslot tx htx ch (hchs ch List.mem_cons_self)]
      exact ih (fun x hx => hchs x (List.mem_cons_of_mem _ hx)) _
  have houter : ∀ (l : List ℕ), (∀ tx ∈ l, tx ∈ txs) → ∀ sets,
      l.foldlM (fun sets tx =>
        (bits (s.activeChildren tx)).foldlM (s.changeTop change tx) sets) sets =
        some (changeSlots change
          (l.flatMap fun tx => (bits (s.activeChildren tx)).map (s.slot tx)) sets) := by
    intro l
    induction l with
    | nil => exact fun _ _ => rfl
    | cons tx l ih =>
      intro hl sets
      rw [List.foldlM_cons, hinner tx (hl tx List.mem_cons_self) _ fun ch hch => mem_bits.mp hch,
        Option.bind_eq_bind, Option.bind_some,
        ih fun x hx => hl x (List.mem_cons_of_mem _ hx)]
      rw [List.flatMap_cons, changeSlots, changeSlots, changeSlots, List.foldl_append]
  exact houter _ (fun tx htx => mem_bits.mp htx) sets

theorem mem_slots : d ∈ s.slots txs ↔ ∃ u ∈ txs, ∃ v ∈ s.activeChildren u, s.slot u v = d := by
  rw [slots, List.mem_flatMap]
  simp only [mem_bits, List.mem_map]

theorem nodup_slots (hinj : ∀ u ∈ txs, ∀ v ∈ s.activeChildren u, ∀ u' ∈ txs,
    ∀ v' ∈ s.activeChildren u', s.slot u v = s.slot u' v' → u = u' ∧ v = v') :
    (s.slots txs).Nodup := by
  refine List.nodup_flatMap.mpr ⟨fun u hu => ?_, ?_⟩
  · refine List.Nodup.map_on (fun v hv v' hv' heq => ?_) (nodup_bits _)
    have hmem := mem_bits.mp hu
    exact (hinj u hmem v (mem_bits.mp hv) u hmem v' (mem_bits.mp hv') heq).2
  · refine (nodup_bits txs).imp_of_mem fun {u u'} hu hu' hne d hd hd' => ?_
    obtain ⟨v, hv, hslot⟩ := List.mem_map.mp hd
    obtain ⟨v', hv', hslot'⟩ := List.mem_map.mp hd'
    exact hne (hinj u (mem_bits.mp hu) v (mem_bits.mp hv) u' (mem_bits.mp hu') v'
      (mem_bits.mp hv') (hslot.trans hslot'.symm)).1

/-- **A loop over the top sets of a chunk** changes each of them once and nothing else. -/
theorem exists_changeTops (txs : Finset ℕ) (change : SetInfo → SetInfo) (sets : ℕ → SetInfo)
    (hslot : ∀ u v, v ∈ s.activeChildren u → s.depTop u v = some (s.slot u v))
    (hinj : ∀ u v, v ∈ s.activeChildren u → ∀ u' v', v' ∈ s.activeChildren u' →
      s.slot u v = s.slot u' v' → u = u' ∧ v = v') :
    ∃ sets', s.changeTops change txs sets = some sets' ∧
      (∀ u ∈ txs, ∀ v ∈ s.activeChildren u,
        sets' (s.slot u v) = change (sets (s.slot u v))) ∧
      (∀ u ∉ txs, ∀ v ∈ s.activeChildren u, sets' (s.slot u v) = sets (s.slot u v)) ∧
      ∀ d, (∀ u v, v ∈ s.activeChildren u → s.slot u v ≠ d) → sets' d = sets d := by
  have hnodup : (s.slots txs).Nodup := nodup_slots fun u _ v hv u' _ v' hv' =>
    hinj u v hv u' v' hv'
  refine ⟨_, changeTops_eq change sets fun u _ v hv => hslot u v hv, fun u hu v hv => ?_,
    fun u hu v hv => ?_, fun d hd => ?_⟩
  · rw [changeSlots_apply hnodup, if_pos (mem_slots.mpr ⟨u, hu, v, hv, rfl⟩)]
  · rw [changeSlots_apply hnodup, if_neg]
    intro hmem
    obtain ⟨u', hu', v', hv', heq⟩ := mem_slots.mp hmem
    exact hu ((hinj u' v' hv' u v hv heq).1 ▸ hu')
  · rw [changeSlots_apply hnodup, if_neg]
    intro hmem
    obtain ⟨u, -, v, hv, heq⟩ := mem_slots.mp hmem
    exact hd u v hv heq

/-! ## Widening and narrowing -/

theorem IsSum.union (hset : IsSum g set) (hother : IsSum g other)
    (hdisjoint : Disjoint set.tx other.tx) :
    IsSum g ⟨set.tx ∪ other.tx, set.fee + other.fee, set.size + other.size⟩ := by
  rw [IsSum, Finset.sum_union hdisjoint, Finset.sum_union hdisjoint, hset.1, hset.2, hother.1,
    hother.2]
  exact ⟨rfl, rfl⟩

theorem IsSum.sdiff (hset : IsSum g set) (hother : IsSum g other) (hsub : other.tx ⊆ set.tx) :
    IsSum g ⟨set.tx \ other.tx, set.fee - other.fee, set.size - other.size⟩ := by
  have hfees := Finset.sum_sdiff (f := g.fees) hsub
  have hsizes := Finset.sum_sdiff (f := g.sizes) hsub
  rw [IsSum, hset.1, hset.2, hother.1, hother.2]
  dsimp only
  omega

/-- A top set that is widened, where it and the other tree are apart. -/
theorem widen_spec {P Q : ℕ → Prop} (hset : ∀ b, b ∈ set.tx ↔ P b)
    (hother : ∀ b, b ∈ other.tx ↔ Q b) (hPQ : ∀ b, P b → ¬ Q b) (hsum : IsSum g set)
    (hsumOther : IsSum g other) :
    (∀ b, b ∈ (widen t other set).tx ↔ P b ∨ P t ∧ Q b) ∧ IsSum g (widen t other set) := by
  rw [widen]
  split_ifs with ht
  · have hdisjoint : Disjoint set.tx other.tx := Finset.disjoint_left.mpr fun b hb hb' =>
      hPQ b ((hset b).mp hb) ((hother b).mp hb')
    refine ⟨fun b => ?_, hsum.union hsumOther hdisjoint⟩
    rw [Finset.mem_union, hset, hother, and_iff_right ((hset t).mp ht)]
  · refine ⟨fun b => ?_, hsum⟩
    rw [hset]
    exact (or_iff_left fun hQ => ht ((hset t).mpr hQ.1)).symm

/-- A top set that is narrowed, where it holds the other tree or none of it. -/
theorem narrow_spec {P Q : ℕ → Prop} (hset : ∀ b, b ∈ set.tx ↔ P b ∨ P t ∧ Q b)
    (hother : ∀ b, b ∈ other.tx ↔ Q b) (hPQ : ∀ b, P b → ¬ Q b) (hsum : IsSum g set)
    (hsumOther : IsSum g other) :
    (∀ b, b ∈ (narrow t other set).tx ↔ P b) ∧ IsSum g (narrow t other set) := by
  rw [narrow]
  split_ifs with ht
  · have hPt : P t := ((hset t).mp ht).elim id And.left
    have hsub : other.tx ⊆ set.tx := fun b hb => (hset b).mpr (Or.inr ⟨hPt, (hother b).mp hb⟩)
    refine ⟨fun b => ?_, hsum.sdiff hsumOther hsub⟩
    rw [Finset.mem_sdiff, hset, hother]
    constructor
    · rintro ⟨hP | ⟨-, hQ⟩, hnot⟩
      · exact hP
      · exact absurd hQ hnot
    · exact fun hP => ⟨Or.inl hP, hPQ b hP⟩
  · refine ⟨fun b => ?_, hsum⟩
    rw [hset]
    exact or_iff_left fun hQ => ht ((hset t).mpr (Or.inl hQ.1))

end BtclibNode.SpanningForestState
