/-
# The order a block takes transactions

`txgraph.py`: the chunks of a cluster's linearization, the key that places each transaction, and
the chunks of all clusters in the order of the first one's key.
-/
import Mathlib
import BtclibNode.Cluster.Diagram
import BtclibNode.Lib.SortedTail

namespace BtclibNode

open SortedTail

/-- `Chunk`: its transactions, of which there is always a first. -/
structure Chunk (ρ : Type) where
  first : ρ
  others : List ρ
  feerate : FeeFrac

/-- `MiningKey`: `rate`, `prefix` and `highest` place a chunk, and `position` a transaction in
it. -/
abbrev MiningKey (κ : Type) := (ℚ ×ₗ ℤ ×ₗ κ) ×ₗ ℕ

/-- `TxGraph`, each cluster by its linearization once it is acceptable.  A transaction is in one
cluster, its place in `fallback_order` is its own, its size is positive and its fee saturates at
an `int64`. -/
structure TxGraph (ρ κ : Type) where
  clusters : List (List ρ)
  feerate : ρ → FeeFrac
  keys : ρ → κ
  nodup : clusters.flatten.Nodup
  keys_inj : ∀ a ∈ clusters.flatten, ∀ b ∈ clusters.flatten, keys a = keys b → a = b
  size_pos : ∀ a ∈ clusters.flatten, 0 < (feerate a).size
  fee_lt : ∀ a ∈ clusters.flatten, (feerate a).fee < 2 ^ 63

variable {ρ κ : Type}

/-! ## Chunks -/

namespace Chunk

def refs (chunk : Chunk ρ) : List ρ := chunk.first :: chunk.others

/-- `chunk` absorbs the chunk before it while it has the strictly higher feerate; `chunks` has
the last one first. -/
def absorb (chunk : Chunk ρ) : List (Chunk ρ) → List (Chunk ρ)
  | [] => [chunk]
  | last :: chunks =>
    if last.feerate.fee * chunk.feerate.size < chunk.feerate.fee * last.feerate.size then
      absorb ⟨last.first, last.others ++ chunk.refs, chunk.feerate.add last.feerate⟩ chunks
    else chunk :: last :: chunks

/-- The feerate of a chunk is one that its transactions can have together. -/
def Paid (chunk : Chunk ρ) : Prop :=
  0 < chunk.feerate.size ∧ chunk.feerate.fee < 2 ^ 63 * chunk.feerate.size

theorem absorb_refs (chunk : Chunk ρ) (chunks : List (Chunk ρ)) :
    (chunk.absorb chunks).reverse.flatMap refs = chunks.reverse.flatMap refs ++ chunk.refs := by
  induction chunks generalizing chunk with
  | nil => simp [absorb]
  | cons last chunks ih =>
    rw [absorb]
    split_ifs
    · rw [ih]
      simp [refs]
    · simp

theorem absorb_paid {chunk : Chunk ρ} {chunks : List (Chunk ρ)} (hchunk : chunk.Paid)
    (hchunks : ∀ c ∈ chunks, c.Paid) : ∀ c ∈ chunk.absorb chunks, c.Paid := by
  induction chunks generalizing chunk with
  | nil => exact List.forall_mem_singleton.mpr hchunk
  | cons last chunks ih =>
    obtain ⟨hlast, hchunks⟩ := List.forall_mem_cons.mp hchunks
    rw [absorb]
    split_ifs
    · refine ih ?_ hchunks
      obtain ⟨hsize, hfee⟩ := hchunk
      obtain ⟨hsize', hfee'⟩ := hlast
      constructor
      · exact add_pos hsize hsize'
      · change chunk.feerate.fee + last.feerate.fee <
          2 ^ 63 * (chunk.feerate.size + last.feerate.size)
        omega
    · exact List.forall_mem_cons.mpr ⟨hchunk, List.forall_mem_cons.mpr ⟨hlast, hchunks⟩⟩

end Chunk

namespace TxGraph

variable {g : TxGraph ρ κ} {lin : List ρ} {a b : ρ}

def refs (g : TxGraph ρ κ) : List ρ := g.clusters.flatten

/-- `_chunks`, with `chunk_linearization_info`. -/
def chunks (g : TxGraph ρ κ) (lin : List ρ) : List (Chunk ρ) :=
  (lin.foldl (fun chunks ref => Chunk.absorb ⟨ref, [], g.feerate ref⟩ chunks) []).reverse

theorem chunks_refs (g : TxGraph ρ κ) (lin : List ρ) :
    (g.chunks lin).flatMap Chunk.refs = lin := by
  have hfold : ∀ (lin : List ρ) (chunks : List (Chunk ρ)),
      (lin.foldl (fun chunks ref => Chunk.absorb ⟨ref, [], g.feerate ref⟩ chunks)
        chunks).reverse.flatMap Chunk.refs = chunks.reverse.flatMap Chunk.refs ++ lin := by
    intro lin
    induction lin with
    | nil => exact fun chunks => (List.append_nil _).symm
    | cons ref lin ih =>
      intro chunks
      rw [List.foldl_cons, ih, Chunk.absorb_refs, List.append_assoc]
      rfl
  exact hfold lin []

theorem chunks_paid (hlin : lin ∈ g.clusters) : ∀ chunk ∈ g.chunks lin, chunk.Paid := by
  have hfold : ∀ (l : List ρ) (chunks : List (Chunk ρ)), (∀ ref ∈ l, ref ∈ lin) →
      (∀ c ∈ chunks, c.Paid) →
      ∀ c ∈ l.foldl (fun chunks ref => Chunk.absorb ⟨ref, [], g.feerate ref⟩ chunks) chunks,
        c.Paid := by
    intro l
    induction l with
    | nil => exact fun chunks _ h => h
    | cons ref l ih =>
      intro chunks hl hchunks
      obtain ⟨href, hl⟩ := List.forall_mem_cons.mp hl
      have hmem : ref ∈ g.clusters.flatten := List.mem_flatten.mpr ⟨lin, hlin, href⟩
      have hsize := g.size_pos ref hmem
      have hfee := g.fee_lt ref hmem
      refine ih _ hl (Chunk.absorb_paid ⟨hsize, ?_⟩ hchunks)
      change (g.feerate ref).fee < 2 ^ 63 * (g.feerate ref).size
      omega
  intro chunk hchunk
  exact hfold lin [] (fun _ h => h) (fun _ h => absurd h List.not_mem_nil) chunk
    (List.mem_reverse.mp hchunk)

/-! ## Keys -/

/-- The keys of the transactions of a chunk. -/
def chunkKeys (m : Chunk ρ × (ℚ ×ₗ ℤ ×ₗ κ) × ℕ) : List (ρ × MiningKey κ) :=
  m.1.refs.zipIdx.map fun r => (r.1, toLex (m.2.1, m.2.2 + r.2))

theorem chunkKeys_refs (m : Chunk ρ × (ℚ ×ₗ ℤ ×ₗ κ) × ℕ) :
    (chunkKeys m).map Prod.fst = m.1.refs := by
  rw [chunkKeys, List.map_map]
  exact List.zipIdx_map_fst 0 m.1.refs

theorem nodup_lin (hlin : lin ∈ g.clusters) : lin.Nodup :=
  (List.nodup_flatten.mp g.nodup).1 lin hlin

theorem lookup_of_mem [DecidableEq ρ] {β : Type} {l : List (ρ × β)}
    (hl : (l.map Prod.fst).Nodup) {k : β} (h : (a, k) ∈ l) : l.lookup a = some k := by
  induction l with
  | nil => exact absurd h List.not_mem_nil
  | cons x l ih =>
    obtain ⟨hx, hl⟩ := List.nodup_cons.mp hl
    rw [List.lookup_cons]
    rcases List.mem_cons.mp h with rfl | hmem
    · rw [beq_self_eq_true]
    · have hne : a ≠ x.1 := fun heq => hx (heq ▸ List.mem_map_of_mem (f := Prod.fst) hmem)
      rw [beq_false_of_ne hne, ih hl hmem]

/-- A transaction is in one cluster. -/
theorem find_cluster [DecidableEq ρ] (hlin : lin ∈ g.clusters) (ha : a ∈ lin) :
    g.clusters.find? (a ∈ ·) = some lin := by
  have hdisjoint := (List.nodup_flatten.mp g.nodup).2
  revert hdisjoint hlin
  induction g.clusters with
  | nil => exact fun hlin => absurd hlin List.not_mem_nil
  | cons lin' rest ih =>
    intro hlin hdisjoint
    obtain ⟨hfirst, hrest⟩ := List.pairwise_cons.mp hdisjoint
    rw [List.find?_cons]
    rcases List.mem_cons.mp hlin with rfl | hmem
    · rw [decide_eq_true ha]
    · have ha' : a ∉ lin' := fun ha' => hfirst lin hmem ha' ha
      rw [decide_eq_false ha']
      exact ih hmem hrest

variable [LinearOrder κ]

/-- What the loop of `_order_keys` has at each chunk: its `rate`, `prefix` and `highest`, and the
`index` of its first transaction. -/
def marks (g : TxGraph ρ κ) :
    List (Chunk ρ) → FeeFrac → ℕ → List (Chunk ρ × (ℚ ×ₗ ℤ ×ₗ κ) × ℕ)
  | [], _, _ => []
  | chunk :: chunks, before, index =>
    let upTo := if chunk.feerate.compare before < 0 then chunk.feerate
      else before.add chunk.feerate
    let rate : ℚ := -chunk.feerate.fee / chunk.feerate.size
    let highest := chunk.others.foldl (fun highest ref => max highest (g.keys ref))
      (g.keys chunk.first)
    (chunk, toLex (rate, toLex (upTo.size, highest)), index) ::
      g.marks chunks upTo (index + chunk.refs.length)

/-- `_order_keys`. -/
def clusterKeys (g : TxGraph ρ κ) (lin : List ρ) : List (ρ × MiningKey κ) :=
  (g.marks (g.chunks lin) ⟨0, 0⟩ 0).flatMap chunkKeys

theorem marks_chunks (g : TxGraph ρ κ) (chunks : List (Chunk ρ)) (before : FeeFrac) (index : ℕ) :
    (g.marks chunks before index).map Prod.fst = chunks := by
  induction chunks generalizing before index with
  | nil => rfl
  | cons chunk chunks ih => rw [marks, List.map_cons, ih]

/-- A mark has the feerate of its chunk, and the key of one of its transactions. -/
theorem marks_spec {chunks : List (Chunk ρ)} {before : FeeFrac} {index : ℕ}
    {m : Chunk ρ × (ℚ ×ₗ ℤ ×ₗ κ) × ℕ} (h : m ∈ g.marks chunks before index) :
    (ofLex m.2.1).1 = -m.1.feerate.fee / m.1.feerate.size ∧
      ∃ ref ∈ m.1.refs, (ofLex (ofLex m.2.1).2).2 = g.keys ref := by
  have hmax : ∀ (l : List ρ) (ref : ρ), ∃ r ∈ ref :: l,
      l.foldl (fun highest ref => max highest (g.keys ref)) (g.keys ref) = g.keys r := by
    intro l
    induction l with
    | nil => exact fun ref => ⟨ref, List.mem_singleton_self ref, rfl⟩
    | cons a l ih =>
      intro ref
      rw [List.foldl_cons]
      rcases max_choice (g.keys ref) (g.keys a) with hmax | hmax
      · rw [hmax]
        obtain ⟨r, hr, heq⟩ := ih ref
        exact ⟨r, List.cons_subset_cons ref (List.subset_cons_self a l) hr, heq⟩
      · rw [hmax]
        obtain ⟨r, hr, heq⟩ := ih a
        exact ⟨r, List.mem_cons_of_mem ref hr, heq⟩
  induction chunks generalizing before index with
  | nil => exact absurd h List.not_mem_nil
  | cons c chunks ih =>
    rw [marks] at h
    rcases List.mem_cons.mp h with rfl | hmem
    · exact ⟨rfl, hmax c.others c.first⟩
    · exact ih hmem

theorem clusterKeys_refs (g : TxGraph ρ κ) (lin : List ρ) :
    (g.clusterKeys lin).map Prod.fst = lin := by
  rw [clusterKeys, List.map_flatMap]
  simp only [chunkKeys_refs]
  calc _ = ((g.marks (g.chunks lin) ⟨0, 0⟩ 0).map Prod.fst).flatMap Chunk.refs :=
        (List.flatMap_map ..).symm
    _ = lin := by rw [marks_chunks, chunks_refs]

/-! ## The mining order -/

variable [DecidableEq ρ]

/-- `order_keys`, of one transaction. -/
def orderKey (g : TxGraph ρ κ) (ref : ρ) : WithBot (MiningKey κ) :=
  (g.clusters.find? (ref ∈ ·)).bind fun lin => (g.clusterKeys lin).lookup ref

/-- `_main_chunks`, before the sort: each chunk with the key of its first transaction. -/
def keyed (g : TxGraph ρ κ) : List (WithBot (MiningKey κ) × Chunk ρ) :=
  g.clusters.flatMap fun lin =>
    (g.chunks lin).map fun chunk => ((g.clusterKeys lin).lookup chunk.first, chunk)

/-- `mining_order`. -/
def miningOrder (g : TxGraph ρ κ) : List (Chunk ρ) := (sortOn Prod.fst g.keyed).map Prod.snd

/-- The key of a transaction is its chunk's mark and its own position. -/
theorem orderKey_eq (hlin : lin ∈ g.clusters) {k : MiningKey κ}
    (h : (a, k) ∈ g.clusterKeys lin) :
    (g.clusterKeys lin).lookup a = some k ∧ g.orderKey a = k := by
  have hnodup : ((g.clusterKeys lin).map Prod.fst).Nodup := by
    rw [clusterKeys_refs]
    exact nodup_lin hlin
  have ha : a ∈ lin := by
    rw [← clusterKeys_refs g lin]
    exact List.mem_map_of_mem (f := Prod.fst) h
  have hlookup := lookup_of_mem hnodup h
  refine ⟨hlookup, ?_⟩
  rw [orderKey, find_cluster hlin ha, Option.bind_some, hlookup]
  rfl

/-- A chunk with its mark, as the sort has it. -/
structure Marked (g : TxGraph ρ κ) (x : WithBot (MiningKey κ) × Chunk ρ) : Prop where
  paid : x.2.Paid
  mem : ∀ ref ∈ x.2.refs, ref ∈ g.refs
  mark : ∃ (mark : ℚ ×ₗ ℤ ×ₗ κ) (index : ℕ), x.1 = ((toLex (mark, index) : MiningKey κ) :) ∧
    (ofLex mark).1 = -x.2.feerate.fee / x.2.feerate.size ∧
    (∃ ref ∈ x.2.refs, (ofLex (ofLex mark).2).2 = g.keys ref) ∧
    ∀ n ref, x.2.refs[n]? = some ref →
      g.orderKey ref = ((toLex (mark, index + n) : MiningKey κ) :)

theorem marked {x : WithBot (MiningKey κ) × Chunk ρ} (h : x ∈ g.keyed) : Marked g x := by
  obtain ⟨lin, hlin, hx⟩ := List.mem_flatMap.mp h
  obtain ⟨chunk, hchunk, rfl⟩ := List.mem_map.mp hx
  have hm : chunk ∈ (g.marks (g.chunks lin) ⟨0, 0⟩ 0).map Prod.fst := by
    rw [marks_chunks]
    exact hchunk
  obtain ⟨⟨chunk', mark, index⟩, hmark, rfl⟩ := List.mem_map.mp hm
  have hkey : ∀ n ref, chunk'.refs[n]? = some ref →
      (ref, (toLex (mark, index + n) : MiningKey κ)) ∈ g.clusterKeys lin := by
    intro n ref hget
    refine List.mem_flatMap.mpr ⟨_, hmark, List.mem_map.mpr ⟨(ref, n), ?_, rfl⟩⟩
    exact List.mem_zipIdx_iff_getElem?.mpr hget
  obtain ⟨hrate, hhighest⟩ := marks_spec hmark
  refine ⟨chunks_paid hlin _ hchunk, fun ref href => ?_, mark, index, ?_, hrate, hhighest, ?_⟩
  · refine List.mem_flatten.mpr ⟨lin, hlin, ?_⟩
    rw [← chunks_refs g lin]
    exact List.mem_flatMap.mpr ⟨_, hchunk, href⟩
  · exact (orderKey_eq hlin (hkey 0 _ rfl)).1
  · exact fun n ref hget => (orderKey_eq hlin (hkey n ref hget)).2

theorem keyed_refs (g : TxGraph ρ κ) : g.keyed.flatMap (fun x => x.2.refs) = g.refs := by
  rw [keyed, List.flatMap_assoc]
  have hlin : ∀ lin, ((g.chunks lin).map fun chunk =>
      ((g.clusterKeys lin).lookup chunk.first, chunk)).flatMap (fun x => x.2.refs) = lin := by
    intro lin
    rw [List.flatMap_map]
    exact chunks_refs g lin
  rw [refs, ← List.flatMap_id]
  exact congrArg (fun f => g.clusters.flatMap f) (funext hlin)

/-- The mining order has each transaction once. -/
theorem miningOrder_perm (g : TxGraph ρ κ) : (g.miningOrder.flatMap Chunk.refs).Perm g.refs := by
  rw [miningOrder, List.flatMap_map, ← keyed_refs g]
  exact (sortOn_perm Prod.fst g.keyed).flatMap_right _

/-- **The mining order is the order of the keys**, which are all different. -/
theorem miningOrder_sorted (g : TxGraph ρ κ) :
    (g.miningOrder.flatMap Chunk.refs).Pairwise fun a b => g.orderKey a < g.orderKey b := by
  have hnodup : ((sortOn Prod.fst g.keyed).flatMap fun x => x.2.refs).Nodup := by
    rw [((sortOn_perm Prod.fst g.keyed).flatMap_right _).nodup_iff, keyed_refs]
    exact g.nodup
  have hdisjoint := (List.nodup_flatMap.mp hnodup).2
  have hmarked : ∀ x ∈ sortOn Prod.fst g.keyed, Marked g x := fun x hx =>
    marked ((sortOn_perm Prod.fst g.keyed).mem_iff.mp hx)
  rw [miningOrder, List.flatMap_map, List.pairwise_flatMap]
  constructor
  · intro x hx
    obtain ⟨mark, index, -, -, -, hkeys⟩ := (hmarked x hx).mark
    rw [List.pairwise_iff_getElem]
    intro i j hi hj hij
    rw [hkeys i _ (List.getElem?_eq_getElem hi), hkeys j _ (List.getElem?_eq_getElem hj),
      WithBot.coe_lt_coe]
    exact Prod.Lex.right _ (Nat.add_lt_add_left hij index)
  · refine (((sortOn_sorted Prod.fst g.keyed).and hdisjoint).imp_of_mem ?_)
    rintro x y hx hy ⟨hle, hapart⟩ a ha b hb
    obtain ⟨mark, index, hx1, -, ⟨u, hu, hmark⟩, hkeys⟩ := (hmarked x hx).mark
    obtain ⟨mark', index', hy1, -, ⟨v, hv, hmark'⟩, hkeys'⟩ := (hmarked y hy).mark
    obtain ⟨n, hn⟩ := List.getElem?_of_mem ha
    obtain ⟨n', hn'⟩ := List.getElem?_of_mem hb
    have hne : mark ≠ mark' := by
      rintro rfl
      have huv := g.keys_inj u ((hmarked x hx).mem u hu) v ((hmarked y hy).mem v hv)
        (hmark.symm.trans hmark')
      exact hapart hu (huv ▸ hv)
    have hlt : mark < mark' := by
      rw [hx1, hy1, WithBot.coe_le_coe, Prod.Lex.toLex_le_toLex] at hle
      rcases hle with hlt | ⟨heq, -⟩
      · exact hlt
      · exact absurd heq hne
    rw [hkeys n a hn, hkeys' n' b hn', WithBot.coe_lt_coe]
    exact Prod.Lex.left _ _ hlt

theorem exists_marked (ha : a ∈ g.refs) : ∃ x, Marked g x ∧ a ∈ x.2.refs := by
  rw [← keyed_refs g] at ha
  obtain ⟨x, hx, hmem⟩ := List.mem_flatMap.mp ha
  exact ⟨x, marked hx, hmem⟩

/-- Two transactions have different keys. -/
theorem eq_of_orderKey_eq (ha : a ∈ g.refs) (hb : b ∈ g.refs)
    (heq : g.orderKey a = g.orderKey b) : a = b := by
  have hmem : ∀ {w}, w ∈ g.refs → w ∈ g.miningOrder.flatMap Chunk.refs := fun hw =>
    g.miningOrder_perm.mem_iff.mpr hw
  have hnodup : ((g.miningOrder.flatMap Chunk.refs).map g.orderKey).Nodup :=
    List.pairwise_map.mpr (g.miningOrder_sorted.imp fun hlt => hlt.ne)
  exact List.inj_on_of_nodup_map hnodup (hmem ha) (hmem hb) heq

variable [OrderBot κ]

/-- `_GONE_KEY`, with the least `OrderKey`. -/
def goneKey : MiningKey κ := toLex (toLex (-(2 : ℚ) ^ 256, toLex (0, ⊥)), 0)

/-- What is gone comes before all that is held. -/
theorem goneKey_lt (ha : a ∈ g.refs) : ((goneKey : MiningKey κ) : WithBot _) < g.orderKey a := by
  obtain ⟨x, hx, hmem⟩ := exists_marked ha
  obtain ⟨mark, index, -, hrate, -, hkeys⟩ := hx.mark
  obtain ⟨n, hn⟩ := List.getElem?_of_mem hmem
  rw [hkeys n a hn, WithBot.coe_lt_coe]
  refine Prod.Lex.left _ _ (Prod.Lex.left _ _ ?_)
  change -(2 : ℚ) ^ 256 < (ofLex mark).1
  obtain ⟨hsize, hfee⟩ := hx.paid
  have hsize' : (0 : ℚ) < x.2.feerate.size := by exact_mod_cast hsize
  rw [hrate, neg_div, neg_lt_neg_iff, div_lt_iff₀ hsize']
  have hbound : x.2.feerate.fee < 2 ^ 256 * x.2.feerate.size := by omega
  exact_mod_cast hbound

end TxGraph

end BtclibNode
