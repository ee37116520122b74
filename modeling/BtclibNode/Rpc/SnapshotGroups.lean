/-
# The coins, txid by txid

The cursor goes by the octets of the keys, in which the index of an output is
little-endian; `by_txid` gathers the rows of each txid and sorts them by the index
itself.  What comes out holds each row once, the txids in the order of their
octets.
-/
import Mathlib
import BtclibNode.Rpc.SnapshotRollback

namespace BtclibNode.Snapshot

open Overlay

/-! ## The order of the keys -/

theorem compare_append {a a' b b' : Bytes} (h : a.length = a'.length) :
    compare (a ++ b) (a' ++ b') = (compare a a').then (compare b b') := by
  induction a generalizing a' with
  | nil =>
    obtain rfl := List.length_eq_zero_iff.mp h.symm
    rfl
  | cons x a ih =>
    cases a' with
    | nil => cases h
    | cons y a' =>
      rw [List.cons_append, List.cons_append, List.compare_cons_cons, List.compare_cons_cons,
        ih (Nat.succ.inj h), Ordering.then_assoc]

/-- The octets of a txid. -/
def txidOctets (t : Hash) : Bytes := LittleEndian.encode 32 t

/-- The order of the octets of the keys: by txid, then by the octets of the index. -/
theorem compare_utxoKey (o p : OutPoint) : compare (utxoKey o) (utxoKey p) =
    (compare (txidOctets o.txid) (txidOctets p.txid)).then
      (compare (LittleEndian.encode 4 o.vout) (LittleEndian.encode 4 p.vout)) := by
  unfold utxoKey serializeOutPoint
  rw [compare_append rfl, Std.ReflOrd.compare_self, Ordering.then, compare_append]
  · rfl
  · rw [LittleEndian.length_encode, LittleEndian.length_encode]

/-- The order of a snapshot: by the octets of the txid, then by the index. -/
def Before (o p : OutPoint) : Prop :=
  compare (txidOctets o.txid) (txidOctets p.txid) = .lt ∨ o.txid = p.txid ∧ o.vout < p.vout

theorem Before.trans {o p q : OutPoint} (h : Before o p) (h' : Before p q) : Before o q := by
  rcases h with h | ⟨h, hlt⟩
  · rcases h' with h' | ⟨h', -⟩
    · exact .inl (Std.TransCmp.lt_trans h h')
    · exact .inl (h' ▸ h)
  · rcases h' with h' | ⟨h', hlt'⟩
    · exact .inl (h ▸ h')
    · exact .inr ⟨h.trans h', Nat.lt_trans hlt hlt'⟩

/-- Of two keys in order the first has the lower txid, or the same. -/
theorem txid_of_lt {o p : OutPoint} (ho : o.Fits) (hp : p.Fits)
    (h : compare (utxoKey o) (utxoKey p) = .lt) :
    compare (txidOctets o.txid) (txidOctets p.txid) = .lt ∨ o.txid = p.txid ∧ o.vout ≠ p.vout := by
  rw [compare_utxoKey] at h
  cases htxid : compare (txidOctets o.txid) (txidOctets p.txid) with
  | lt => exact .inl rfl
  | gt =>
    rw [htxid] at h
    cases h
  | eq =>
    rw [htxid] at h
    refine .inr ⟨encode_injective ho.txid hp.txid (Std.LawfulEqOrd.eq_of_compare htxid), ?_⟩
    intro hvout
    rw [hvout, Std.ReflOrd.compare_self] at h
    cases h

/-! ## Gathering -/

section Gather

variable {β : Type}

/-- The rows of a txid by index. -/
def byVout (l : List (OutPoint × β)) : List (OutPoint × β) :=
  l.insertionSort fun x y => (compare x.1.vout y.1.vout).isLE = true

/-- The rows of each txid, those of `t` seen so far among them. -/
def gather (t : Hash) (seen : List (OutPoint × β)) :
    List (OutPoint × β) → List (List (OutPoint × β))
  | [] => if seen.isEmpty then [] else [byVout seen]
  | x :: rest =>
    if x.1.txid ≠ t ∧ !seen.isEmpty then byVout seen :: gather x.1.txid [x] rest
    else gather x.1.txid (seen ++ [x]) rest

theorem byVout_perm (l : List (OutPoint × β)) : (byVout l).Perm l := List.perm_insertionSort _ l

/-- The keys of rows in order. -/
def KeyOrdered (l : List (OutPoint × β)) : Prop :=
  l.Pairwise fun x y => compare (utxoKey x.1) (utxoKey y.1) = .lt

theorem gather_perm (t : Hash) (seen rest : List (OutPoint × β)) :
    (gather t seen rest).flatten.Perm (seen ++ rest) := by
  induction rest generalizing t seen with
  | nil =>
    unfold gather
    split
    · next h =>
      rw [List.isEmpty_iff.mp h]
      exact List.Perm.refl _
    · rw [List.flatten_singleton, List.append_nil]
      exact byVout_perm seen
  | cons x rest ih =>
    unfold gather
    split
    · rw [List.flatten_cons]
      exact (byVout_perm seen).append (ih x.1.txid [x])
    · exact (ih x.1.txid (seen ++ [x])).trans (by rw [List.append_assoc, List.singleton_append])

/-- The rows seen of one txid, by index. -/
theorem pairwise_byVout {t : Hash} {seen : List (OutPoint × β)} (hfits : ∀ x ∈ seen, x.1.Fits)
    (hseen : ∀ x ∈ seen, x.1.txid = t) (hord : KeyOrdered seen) :
    (byVout seen).Pairwise fun x y => Before x.1 y.1 := by
  have hsorted : (byVout seen).Pairwise fun x y => (compare x.1.vout y.1.vout).isLE = true := by
    have : IsTrans (OutPoint × β) fun x y => (compare x.1.vout y.1.vout).isLE = true :=
      ⟨fun x y z h h' => by
        rw [Nat.isLE_compare] at h h' ⊢
        exact Nat.le_trans h h'⟩
    have : Std.Total fun x y : OutPoint × β => (compare x.1.vout y.1.vout).isLE = true :=
      ⟨fun x y => by
        rw [Nat.isLE_compare, Nat.isLE_compare]
        exact Nat.le_total _ _⟩
    exact List.pairwise_insertionSort _ seen
  have hne : (byVout seen).Pairwise fun x y => x.1.vout ≠ y.1.vout := by
    have hmap : (seen.map fun x => x.1.vout).Nodup := by
      refine List.pairwise_map.mpr (List.Pairwise.imp_of_mem (fun {x y} hx hy hlt => ?_) hord)
      rcases txid_of_lt (hfits x hx) (hfits y hy) hlt with hlt | ⟨-, hne⟩
      · rw [hseen x hx, hseen y hy, Std.ReflOrd.compare_self] at hlt
        cases hlt
      · exact hne
    have hperm : ((byVout seen).map fun x => x.1.vout).Perm (seen.map fun x => x.1.vout) :=
      (byVout_perm seen).map _
    exact List.pairwise_map.mp (hperm.nodup_iff.mpr hmap)
  refine List.Pairwise.imp_of_mem (fun {x y} hx hy h => ?_) (hsorted.and hne)
  have hx' := hseen x ((byVout_perm seen).mem_iff.mp hx)
  have hy' := hseen y ((byVout_perm seen).mem_iff.mp hy)
  refine .inr ⟨hx'.trans hy'.symm, ?_⟩
  obtain ⟨hle, hne⟩ := h
  rw [Nat.isLE_compare] at hle
  omega

/-- **The rows come out by txid and index.** -/
theorem pairwise_gather {t : Hash} {seen rest : List (OutPoint × β)}
    (hfits : ∀ x ∈ seen ++ rest, x.1.Fits) (hseen : ∀ x ∈ seen, x.1.txid = t)
    (hord : KeyOrdered (seen ++ rest)) :
    (gather t seen rest).flatten.Pairwise fun x y => Before x.1 y.1 := by
  induction rest generalizing t seen with
  | nil =>
    rw [List.append_nil] at hfits hord
    unfold gather
    split
    · exact List.Pairwise.nil
    · rw [List.flatten_singleton]
      exact pairwise_byVout hfits hseen hord
  | cons x rest ih =>
    have hsplit := List.pairwise_append.mp hord
    unfold gather
    split
    · next hnew =>
      rw [List.flatten_cons, List.pairwise_append]
      refine ⟨pairwise_byVout (fun y hy => hfits y (List.mem_append_left _ hy)) hseen hsplit.1,
        ih (fun y hy => hfits y (List.mem_append_right seen hy))
          (fun y hy => by rw [List.mem_singleton.mp hy]) hsplit.2.1, fun y hy z hz => ?_⟩
      rw [(byVout_perm seen).mem_iff] at hy
      rw [(gather_perm x.1.txid [x] rest).mem_iff, List.singleton_append] at hz
      -- the txid of `y` is before that of `x`, which is before that of `z` or the same
      have hyfits := hfits y (List.mem_append_left _ hy)
      have hxfits := hfits x (List.mem_append_right seen List.mem_cons_self)
      have hyx : compare (txidOctets y.1.txid) (txidOctets x.1.txid) = .lt := by
        refine (txid_of_lt hyfits hxfits (hsplit.2.2 y hy x List.mem_cons_self)).resolve_right ?_
        rintro ⟨heq, -⟩
        exact hnew.1 (heq ▸ hseen y hy)
      rcases List.mem_cons.mp hz with rfl | hz
      · exact .inl hyx
      · have hxz := List.rel_of_pairwise_cons hsplit.2.1 hz
        have hzfits := hfits z (List.mem_append_right seen (List.mem_cons_of_mem x hz))
        rcases txid_of_lt hxfits hzfits hxz with hxz | ⟨hxz, -⟩
        · exact .inl (Std.TransCmp.lt_trans hyx hxz)
        · exact .inl (hxz ▸ hyx)
    · next hsame =>
      have hseen' : ∀ y ∈ seen, y.1.txid = x.1.txid := by
        intro y hy
        have hne : seen.isEmpty = false := by
          rw [List.isEmpty_eq_false_iff]
          exact List.ne_nil_of_mem hy
        rw [hne, not_and, Bool.not_false] at hsame
        by_contra hxy
        exact hsame (fun hx => hxy ((hseen y hy).trans hx.symm)) rfl
      have happ : seen ++ [x] ++ rest = seen ++ x :: rest := by
        rw [List.append_assoc, List.singleton_append]
      refine ih (happ ▸ hfits) (fun y hy => ?_) (happ ▸ hord)
      rcases List.mem_append.mp hy with hy | hy
      · exact hseen' y hy
      · rw [List.mem_singleton.mp hy]

/-- The rows of one group share their txid, and there is one. -/
theorem txid_of_gather {t : Hash} {seen rest : List (OutPoint × β)}
    (hseen : ∀ x ∈ seen, x.1.txid = t) {group : List (OutPoint × β)}
    (hg : group ∈ gather t seen rest) :
    group ≠ [] ∧ ∃ t', ∀ x ∈ group, x.1.txid = t' := by
  have hclose : ∀ {seen : List (OutPoint × β)} {t : Hash}, (∀ x ∈ seen, x.1.txid = t) →
      seen.isEmpty = false → byVout seen ≠ [] ∧ ∃ t', ∀ x ∈ byVout seen, x.1.txid = t' := by
    intro seen t hseen hne
    refine ⟨fun hnil => ?_, t, fun x hx => hseen x ((byVout_perm seen).mem_iff.mp hx)⟩
    have hperm := byVout_perm seen
    rw [hnil] at hperm
    rw [hperm.symm.eq_nil] at hne
    cases hne
  induction rest generalizing t seen with
  | nil =>
    unfold gather at hg
    split at hg
    · cases hg
    · next hne =>
      obtain rfl := List.mem_singleton.mp hg
      exact hclose hseen (by simpa using hne)
  | cons x rest ih =>
    unfold gather at hg
    split at hg
    · next hnew =>
      rcases List.mem_cons.mp hg with rfl | hg
      · exact hclose hseen (by simpa using hnew.2)
      · exact ih (fun y hy => by rw [List.mem_singleton.mp hy]) hg
    · next hsame =>
      refine ih (fun y hy => ?_) hg
      rcases List.mem_append.mp hy with hy | hy
      · by_contra hxy
        refine hsame ⟨fun hx => hxy ((hseen y hy).trans hx.symm), ?_⟩
        rw [Bool.not_eq_true', List.isEmpty_eq_false_iff]
        exact List.ne_nil_of_mem hy
      · rw [List.mem_singleton.mp hy]

end Gather

/-! ## `by_txid` -/

/-- A row of the cursor. -/
def keyed (x : OutPoint × CoinRecord) : Bytes × CoinRecord := (utxoKey x.1, x.2)

/-- What `by_txid` makes of it. -/
def rowOf (x : OutPoint × CoinRecord) : ℕ × Bytes × CoinRecord :=
  (x.1.vout, serializeOutPoint x.1, x.2)

theorem drop_utxoKey (o : OutPoint) : (utxoKey o).drop 5 = serializeOutPoint o := by
  unfold utxoKey
  rw [List.drop_left' (by decide)]

theorem take_serializeOutPoint (o : OutPoint) : (serializeOutPoint o).take 32 = txidOctets o.txid := by
  unfold serializeOutPoint
  rw [List.take_left' (LittleEndian.length_encode 32 o.txid), txidOctets]

theorem decode_serializeOutPoint {o : OutPoint} (ho : o.Fits) :
    LittleEndian.decode ((serializeOutPoint o).drop 32) = o.vout := by
  unfold serializeOutPoint
  rw [List.drop_left' (LittleEndian.length_encode 32 o.txid), LittleEndian.decode_encode ho.vout]

theorem sortRows_map (l : List (OutPoint × CoinRecord)) :
    sortRows (l.map rowOf) = (byVout l).map rowOf := by
  unfold sortRows sortKeys byVout
  exact (List.map_insertionSort _ _ rowOf l fun _ _ _ _ => Iff.rfl).symm

/-- **`by_txid` gathers the rows of the cursor.** -/
theorem byTxidFrom_eq {octets : Bytes} {t : Hash} {seen rest : List (OutPoint × CoinRecord)}
    (ht : seen = [] ∨ octets = txidOctets t ∧ t < 256 ^ 32) (hfits : ∀ x ∈ rest, x.1.Fits) :
    byTxidFrom octets (seen.map rowOf) (rest.map keyed) =
      (gather t seen rest).map fun group => group.map rowOf := by
  induction rest generalizing octets t seen with
  | nil =>
    unfold byTxidFrom gather
    rw [List.map_nil, List.isEmpty_map]
    dsimp only
    split
    · rfl
    · rw [sortRows_map, List.map_singleton]
  | cons x rest ih =>
    obtain ⟨hx, hrest⟩ := List.forall_mem_cons.mp hfits
    have hrow : (LittleEndian.decode ((serializeOutPoint x.1).drop 32), serializeOutPoint x.1, x.2) =
        rowOf x := by rw [decode_serializeOutPoint hx, rowOf]
    have hnext : ∀ seen : List (OutPoint × CoinRecord),
        seen = [] ∨ txidOctets x.1.txid = txidOctets x.1.txid ∧ x.1.txid < 256 ^ 32 :=
      fun _ => .inr ⟨rfl, hx.txid⟩
    unfold gather
    rw [List.map_cons, keyed, byTxidFrom, drop_utxoKey, take_serializeOutPoint, hrow,
      List.isEmpty_map]
    rcases ht with rfl | ⟨rfl, ht⟩
    · rw [if_neg (fun h => by cases h.2), if_neg (fun h => by cases h.2)]
      exact ih (hnext [x]) hrest
    · -- two txids differ where their octets do
      have hiff : txidOctets x.1.txid ≠ txidOctets t ↔ x.1.txid ≠ t := by
        refine not_congr ⟨fun h => encode_injective hx.txid ht h, fun h => by rw [h]⟩
      by_cases hnew : x.1.txid ≠ t ∧ (!seen.isEmpty) = true
      · rw [if_pos hnew, if_pos ⟨hiff.mpr hnew.1, hnew.2⟩, sortRows_map, List.map_cons]
        exact congrArg _ (ih (hnext [x]) hrest)
      · rw [if_neg hnew, if_neg fun h => hnew ⟨hiff.mp h.1, h.2⟩]
        have happ : seen.map rowOf ++ [rowOf x] = (seen ++ [x]).map rowOf := by
          rw [List.map_append, List.map_singleton]
        rw [happ]
        exact ih (hnext (seen ++ [x])) hrest

/-- Rows in the order of their keys, as outpoints. -/
theorem exists_keyed {rows : List (Bytes × CoinRecord)} {f : OutPoint → Option CoinRecord}
    (h : Lists rows f) : ∃ l : List (OutPoint × CoinRecord), rows = l.map keyed ∧
      (∀ x ∈ l, x.1.Fits) ∧ KeyOrdered l ∧ ∀ o record, (o, record) ∈ l ↔ o.Fits ∧ f o = some record := by
  have hkeys : ∀ row ∈ rows, ∃ o : OutPoint, o.Fits ∧ row.1 = utxoKey o := by
    intro row hrow
    obtain ⟨o, ho, hkey, -⟩ := h.mem_iff.mp hrow
    exact ⟨o, ho, hkey⟩
  have hlist : ∀ {rows : List (Bytes × CoinRecord)},
      (∀ row ∈ rows, ∃ o : OutPoint, o.Fits ∧ row.1 = utxoKey o) →
        ∃ l : List (OutPoint × CoinRecord), rows = l.map keyed ∧ ∀ x ∈ l, x.1.Fits := by
    intro rows
    induction rows with
    | nil => exact fun _ => ⟨[], rfl, nofun⟩
    | cons row rows ih =>
      intro hrows
      obtain ⟨⟨o, ho, hkey⟩, hrows⟩ := List.forall_mem_cons.mp hrows
      obtain ⟨l, rfl, hl⟩ := ih hrows
      refine ⟨(o, row.2) :: l, ?_, List.forall_mem_cons.mpr ⟨ho, hl⟩⟩
      rw [List.map_cons, keyed, ← hkey]
  obtain ⟨l, rfl, hl⟩ := hlist hkeys
  refine ⟨l, rfl, hl, List.pairwise_map.mp h.ordered, fun o record => ?_⟩
  constructor
  · intro hmem
    obtain ⟨p, hp, hkey, hf⟩ := h.mem_iff.mp (List.mem_map_of_mem hmem)
    obtain rfl := utxoKey_injective (hl _ hmem) hp hkey
    exact ⟨hp, hf⟩
  · rintro ⟨ho, hf⟩
    obtain ⟨x, hx, heq⟩ := List.mem_map.mp (h.mem_iff.mpr ⟨o, ho, rfl, hf⟩)
    obtain ⟨hkey, rfl⟩ := Prod.mk.inj heq
    obtain rfl := utxoKey_injective (hl x hx) ho hkey
    exact hx

end BtclibNode.Snapshot
