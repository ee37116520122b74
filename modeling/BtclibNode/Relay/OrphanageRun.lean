/-
# Runs of the orphanage

The orphanage as a machine of its calls.  Every call of a run keeps both global
limits, and what `_limit_orphans` erases in it is of peers above their share.
-/
import BtclibNode.Lib.Run
import BtclibNode.Relay.OrphanageLimit

namespace BtclibNode

open Incidence

/-- A call, `addChildrenToWorkSet` with what the `rng` picks in it. -/
inductive OrphanageCall where
  | addTx (tx : OrphanTx) (p : PeerId)
  | addAnnouncer (w : Hash) (p : PeerId)
  | eraseTx (w : Hash)
  | eraseForPeer (p : PeerId)
  | eraseForBlock (transactions : List Tx)
  | addChildrenToWorkSet (choice : Hash → ℕ) (tx : Tx)
  | getTxToReconsider (p : PeerId)

namespace TxOrphanage

variable {lim : OrphanLimits} {setOrder : List Hash → List Hash} {A B : Held}
  {s t m : TxOrphanage} {a b : OrphanAnnouncement} {tx : OrphanTx} {w : Hash} {p q : PeerId}
  {c : OrphanageCall}

/-! ## The machine -/

/-- A call: the orphanage after it, and what `_limit_orphans` did in it. -/
def call (lim : OrphanLimits) (setOrder : List Hash → List Hash) :
    OrphanageCall → TxOrphanage → Option (TxOrphanage × Option Trim)
  | .addTx tx p, s => (addTx lim tx p s).map fun r => (r.1, r.2.1)
  | .addAnnouncer w p, s => (addAnnouncer lim w p s).map fun r => (r.1, r.2.1)
  | .eraseTx w, s => (eraseTx lim w s).map fun r => (r.1, r.2.1)
  | .eraseForPeer p, s => eraseForPeer lim p s
  | .eraseForBlock transactions, s => eraseForBlock lim setOrder transactions s
  | .addChildrenToWorkSet choice tx, s =>
    (addChildrenToWorkSet choice tx s).map fun r => (r.1, none)
  | .getTxToReconsider p, s => (getTxToReconsider p s).map fun r => (r.1, none)

/-- With this peer, those with an announcement are at most the global latency score. -/
def Joins (lim : OrphanLimits) (p : PeerId) (s : TxOrphanage) : Prop :=
  (s.use.keys.insert p).length ≤ lim.maxGlobalLatencyScore

instance (p : PeerId) (s : TxOrphanage) : Decidable (Joins lim p s) :=
  inferInstanceAs (Decidable (_ ≤ lim.maxGlobalLatencyScore))

/-- What a call is made with: a transaction that repeats no input and is the one kept under
its wtxid, if one is, from a peer that is not one too many. -/
def Allowed (lim : OrphanLimits) (s : TxOrphanage) : OrphanageCall → Prop
  | .addTx tx p =>
    tx.vin.Nodup ∧ (∀ kept ∈ (s.getTx tx.hash).join, kept = tx) ∧ Joins lim p s
  | .addAnnouncer _ p => Joins lim p s
  | _ => True

instance (s : TxOrphanage) : DecidablePred (Allowed lim s)
  | .addTx tx p => inferInstanceAs (Decidable (tx.vin.Nodup ∧
      (∀ kept ∈ (s.getTx tx.hash).join, kept = tx) ∧ Joins lim p s))
  | .addAnnouncer _ p => inferInstanceAs (Decidable (Joins lim p s))
  | .eraseTx _ => isTrue trivial
  | .eraseForPeer _ => isTrue trivial
  | .eraseForBlock _ => isTrue trivial
  | .addChildrenToWorkSet _ _ => isTrue trivial
  | .getTxToReconsider _ => isTrue trivial

/-- A step: an allowed call that returns. -/
def step (lim : OrphanLimits) (setOrder : List Hash → List Hash) (s : TxOrphanage)
    (c : OrphanageCall) : Option TxOrphanage :=
  if Allowed lim s c then (call lim setOrder c s).map Prod.fst else none

/-- The announcements a call is there to erase. -/
def erases (a : OrphanAnnouncement) : OrphanageCall → Prop
  | .eraseTx w => a.wtxid = w
  | .eraseForPeer p => a.announcer = p
  | .eraseForBlock transactions => ∃ tx ∈ transactions, ∃ o ∈ tx.vin, o ∈ a.tx.vin
  | _ => False

/-- Both global limits hold of the counts, and the counts are the ones of the announcements. -/
structure WithinLimits (lim : OrphanLimits) (s : TxOrphanage) : Prop where
  latency : s.uniqueInputScores + s.announcements ≤ lim.maxGlobalLatencyScore
  weight : s.uniqueWeight ≤ lim.reservedPeerWeight * max s.use.keys.length 1
  counted : ∃ A, Holds A s

theorem Holds.withinLimits (hs : Holds A s) (h : ¬Crowded lim A) : WithinLimits lim s := by
  have hno := mt (needsTrim_iff hs).mp h
  unfold needsTrim at hno
  rw [Bool.or_eq_true, decide_eq_true_iff, decide_eq_true_iff, not_or, not_lt, not_lt] at hno
  exact ⟨hno.1, hno.2, A, hs⟩

/-! ## What a call does -/

/-- What a call leaves. -/
structure Outcome (lim : OrphanLimits) (c : OrphanageCall) (s : TxOrphanage) (B : Held)
    (t : TxOrphanage) (trim : Option Trim) : Prop where
  holds : Holds B t
  limits : ¬Crowded lim B
  peers : (holders B).card ≤ lim.maxGlobalLatencyScore
  fair : ∀ x ∈ trim, FairEvictions (x.start.maxPeerLatencyScore lim) lim.reservedPeerWeight
    x.start x.evicted t
  keeps : ∀ w p a, s.get w p = some a → ¬erases a c →
    (∀ x ∈ trim, ¬AboveShare (x.start.maxPeerLatencyScore lim) lim.reservedPeerWeight x.start p) →
    (t.get w p).isSome

/-- A call that does not come to `_limit_orphans`. -/
theorem Outcome.of_untrimmed (ht : Holds B t) (hlimits : ¬Crowded lim B)
    (hpeers : (holders B).card ≤ lim.maxGlobalLatencyScore)
    (hkeeps : ∀ w p, (t.get w p).isSome = (s.get w p).isSome) : Outcome lim c s B t none :=
  ⟨ht, hlimits, hpeers, nofun, fun w p a ha _ _ => by rw [hkeeps, ha]; rfl⟩

/-- A call that ends with `_limit_orphans`. -/
theorem limited_eq (hm : Holds A m) (hweight : 0 < lim.reservedPeerWeight)
    (hpeers : (holders A).card ≤ lim.maxGlobalLatencyScore)
    (hkeeps : ∀ w p a, s.get w p = some a → ¬erases a c → (m.get w p).isSome) :
    ∃ B t trim, limitOrphans lim m = some (t, trim) ∧ Outcome lim c s B t (some trim) := by
  obtain ⟨B, t, evicted, ht, hB, hholds, hlimits, hfair⟩ := limitOrphans_eq hm hweight hpeers
  refine ⟨B, t, ⟨m, evicted⟩, ht, hholds, hlimits,
    (Finset.card_le_card (holders_mono hB)).trans hpeers, ?_, fun w p a ha hnot hwithin => ?_⟩
  · rintro x ⟨⟩
    exact hfair
  · rw [hfair.keeps hm (hwithin _ rfl) w]
    exact hkeeps w p a ha hnot

/-- `get_tx` of a wtxid kept, and of one that is not. -/
theorem getTx_eq (hs : Holds A s) :
    (s.haveTx w = false ∧ s.getTx w = some none) ∨
      s.haveTx w = true ∧ ∃ tx, s.getTx w = some (some tx) ∧ tx.hash = w ∧ tx ∈ items A := by
  unfold getTx haveTx
  cases h : s.byWtxid.get? w with
  | none => exact .inl ⟨rfl, rfl⟩
  | some announcers =>
    obtain ⟨p, a, ha⟩ := Dict.exists_get?_of_keys (hs.announced w announcers h)
    have hne := List.ne_nil_of_mem (Dict.mem_values.mpr ⟨p, ha⟩)
    obtain ⟨b, hb⟩ := Option.isSome_iff_exists.mp (List.isSome_head?.mpr hne)
    obtain ⟨q, hq⟩ := Dict.mem_values.mp (List.mem_of_head? hb)
    obtain ⟨-, -, hhash, hmem⟩ := hs.get_mem w q b (by
      rw [get, h]
      exact hq)
    refine .inr ⟨rfl, b.tx, ?_, hhash, mem_items.mpr ⟨q, hmem⟩⟩
    simp only [hb, Option.map_some]

/-- A transaction that is the one kept under its wtxid is the one held under it. -/
theorem Holds.commits_of_kept (hs : Holds A s)
    (hkept : ∀ kept ∈ (s.getTx tx.hash).join, kept = tx) :
    ∀ x ∈ A, x.1.hash = tx.hash → x.1 = tx := by
  intro x hx hhash
  rcases getTx_eq hs (w := tx.hash) with ⟨hnot, -⟩ | ⟨-, kept, htx, hkhash, hkmem⟩
  · have hhave := hs.haveTx_iff.mpr ⟨x, hx, hhash⟩
    rw [hnot] at hhave
    cases hhave
  · have hkeq := hkept kept (by rw [htx]; rfl)
    obtain ⟨q, hq⟩ := mem_items.mp hkmem
    exact (hs.commits x hx _ hq (hhash.trans hkhash.symm)).trans hkeq

/-- One more peer, where it is not one too many. -/
theorem Joins.card_le (hs : Holds A s) (h : Joins lim p s) :
    (holders (insert (tx, p) A)).card ≤ lim.maxGlobalLatencyScore := by
  refine le_trans (Finset.card_le_card fun q hq => ?_)
    ((List.toFinset_card_le (s.use.keys.insert p)).trans h)
  rw [holders_insert, Finset.mem_insert] at hq
  rw [List.mem_toFinset, List.mem_insert_iff]
  exact hq.imp id hs.use_keys.mpr

theorem addTx_eq (hs : Holds A s) (hlimits : ¬Crowded lim A)
    (hpeers : (holders A).card ≤ lim.maxGlobalLatencyScore) (hweight : 0 < lim.reservedPeerWeight)
    (hc : Allowed lim s (.addTx tx p)) :
    ∃ B t trim, call lim setOrder (.addTx tx p) s = some (t, trim) ∧
      Outcome lim (.addTx tx p) s B t trim := by
  obtain ⟨hvin, hkept, hjoins⟩ := hc
  have hsame : ∃ B t trim, some (s, none) = some (t, trim) ∧
      Outcome lim (.addTx tx p) s B t trim :=
    ⟨A, s, none, rfl, .of_untrimmed hs hlimits hpeers fun _ _ => rfl⟩
  simp only [call, addTx]
  by_cases hheavy : lim.maxStandardTxWeight < tx.weight
  · simp only [if_pos hheavy, Option.map_some]
    exact hsame
  · simp only [if_neg hheavy]
    cases hget : s.get tx.hash p with
    | some a =>
      simp only [announce_eq_none hget, Option.map_some]
      exact hsame
    | none =>
      obtain ⟨t, ht, hholds, hgets⟩ := announce_eq hs (hs.commits_of_kept hkept) hvin hget
      obtain ⟨B, u, trim, hu, hout⟩ := limited_eq (c := .addTx tx p) (s := s) hholds hweight
        (hjoins.card_le hs) fun w q a ha _ => by
          rw [hgets]
          split
          · rfl
          · rw [ha]
            rfl
      refine ⟨B, u, some trim, ?_, hout⟩
      have hrecord : (if (!s.haveTx tx.hash) = true then addUnique tx tx.hash t else t) =
          record tx s t := by
        unfold record
        cases s.haveTx tx.hash <;> rfl
      simp only [ht, hrecord, hu, Option.bind_eq_bind, Option.bind_some, Option.pure_def,
        Option.map_some]

theorem addAnnouncer_eq (hs : Holds A s) (hlimits : ¬Crowded lim A)
    (hpeers : (holders A).card ≤ lim.maxGlobalLatencyScore) (hweight : 0 < lim.reservedPeerWeight)
    (hc : Allowed lim s (.addAnnouncer w p)) :
    ∃ B t trim, call lim setOrder (.addAnnouncer w p) s = some (t, trim) ∧
      Outcome lim (.addAnnouncer w p) s B t trim := by
  have hsame : ∃ B t trim, some (s, none) = some (t, trim) ∧
      Outcome lim (.addAnnouncer w p) s B t trim :=
    ⟨A, s, none, rfl, .of_untrimmed hs hlimits hpeers fun _ _ => rfl⟩
  simp only [call, addAnnouncer]
  rcases getTx_eq hs (w := w) with ⟨-, hnone⟩ | ⟨hhave, tx, htx, rfl, hmem⟩
  · simp only [hnone, Option.bind_eq_bind, Option.bind_some, Option.pure_def, Option.map_some]
    exact hsame
  · simp only [htx, Option.bind_eq_bind, Option.bind_some, Option.pure_def]
    cases hget : s.get tx.hash p with
    | some a =>
      simp only [announce_eq_none hget, Option.map_some]
      exact hsame
    | none =>
      obtain ⟨q, hq⟩ := mem_items.mp hmem
      obtain ⟨t, ht, hholds, hgets⟩ := announce_eq hs
        (fun x hx hhash => hs.commits x hx _ hq hhash) (hs.vin_nodup _ hq) hget
      rw [record, if_pos hhave] at hholds hgets
      obtain ⟨B, u, trim, hu, hout⟩ := limited_eq (c := .addAnnouncer tx.hash p) (s := s) hholds
        hweight (Joins.card_le hs hc) fun w q a ha _ => by
          rw [hgets]
          split
          · rfl
          · rw [ha]
            rfl
      refine ⟨B, u, some trim, ?_, hout⟩
      simp only [ht, hu, Option.bind_some, Option.map_some]

/-! ## The calls that erase -/

/-- `_erase_wtxid` keeps the announcements of every other wtxid. -/
theorem eraseWtxid_eq (hs : Holds A s) (w : Hash) :
    ∃ t erased B, eraseWtxid w s = some (t, erased) ∧ B ⊆ A ∧ Holds B t ∧
      ∀ v q b, s.get v q = some b → v ≠ w → t.get v q = some b := by
  unfold eraseWtxid
  cases h : s.byWtxid.get? w with
  | none => exact ⟨s, false, A, rfl, Finset.Subset.refl A, hs, fun _ _ _ hb _ => hb⟩
  | some announcers =>
    have hget : ∀ q, s.get w q = announcers.get? q := by
      intro q
      rw [get, h]
      rfl
    have hmem : ∀ a, a ∈ announcers.values → a.wtxid = w ∧ s.get w a.announcer = some a := by
      intro a ha
      obtain ⟨q, hq⟩ := Dict.mem_values.mp ha
      obtain ⟨h1, h2, -⟩ := hs.get_mem w q a ((hget q).trans hq)
      exact ⟨h1, h2 ▸ (hget q).trans hq⟩
    have hnodup : announcers.values.Nodup := by
      unfold Dict.values
      apply List.Nodup.filterMap _ announcers.nodup
      intro p q a hp hq
      rw [← (hs.get_mem w p a ((hget p).trans hp)).2.1,
        (hs.get_mem w q a ((hget q).trans hq)).2.1]
    obtain ⟨t, B, ht, hB, hholds, hkeep⟩ := eraseAll_eq hs
      (fun a ha => by
        obtain ⟨hw, hget⟩ := hmem a ha
        rw [hw]
        exact hget) hnodup
    refine ⟨t, true, B, ?_, hB, hholds, fun v q b hb hv => hkeep v q b hb fun hmemb => ?_⟩
    · simp only [ht, Option.bind_eq_bind, Option.bind_some, Option.pure_def]
    · rw [← (hmem b hmemb).1, (hs.get_mem v q b hb).1] at hv
      exact hv rfl

theorem eraseWtxids_eq (hs : Holds A s) (l : List Hash) :
    ∃ t B, eraseWtxids l s = some t ∧ B ⊆ A ∧ Holds B t ∧
      ∀ v q b, s.get v q = some b → v ∉ l → t.get v q = some b := by
  induction l generalizing A s with
  | nil => exact ⟨s, A, rfl, Finset.Subset.refl A, hs, fun _ _ _ hb _ => hb⟩
  | cons w l ih =>
    obtain ⟨m, erased, B, hm, hB, hholds, hkeep⟩ := eraseWtxid_eq hs w
    obtain ⟨t, C, ht, hC, htholds, htkeep⟩ := ih hholds
    refine ⟨t, C, ?_, hC.trans hB, htholds, fun v q b hb hv => ?_⟩
    · rw [eraseWtxids, hm, Option.bind_eq_bind, Option.bind_some]
      exact ht
    · rw [List.mem_cons, not_or] at hv
      exact htkeep v q b (hkeep v q b hb hv.1) hv.2

theorem eraseTx_eq (hs : Holds A s) (hpeers : (holders A).card ≤ lim.maxGlobalLatencyScore)
    (hweight : 0 < lim.reservedPeerWeight) (w : Hash) :
    ∃ B t trim, call lim setOrder (.eraseTx w) s = some (t, trim) ∧
      Outcome lim (.eraseTx w) s B t trim := by
  obtain ⟨m, erased, B, hm, hB, hholds, hkeep⟩ := eraseWtxid_eq hs w
  obtain ⟨C, t, trim, ht, hout⟩ := limited_eq (c := .eraseTx w) (s := s) hholds hweight
    ((Finset.card_le_card (holders_mono hB)).trans hpeers) fun v q b hb hnot => by
      rw [hkeep v q b hb fun hv => hnot ((hs.get_mem v q b hb).1.trans hv)]
      rfl
  refine ⟨C, t, some trim, ?_, hout⟩
  simp only [call, eraseTx, hm, ht, Option.bind_eq_bind, Option.bind_some, Option.pure_def,
    Option.map_some]

theorem eraseForPeer_eq (hs : Holds A s) (hpeers : (holders A).card ≤ lim.maxGlobalLatencyScore)
    (hweight : 0 < lim.reservedPeerWeight) (p : PeerId) :
    ∃ B t trim, call lim setOrder (.eraseForPeer p) s = some (t, trim) ∧
      Outcome lim (.eraseForPeer p) s B t trim := by
  have hmem : ∀ a, a ∈ s.announcementsOf p → a.announcer = p ∧ s.get a.wtxid p = some a := by
    intro a ha
    rw [mem_announcementsOf hs] at ha
    exact ⟨(hs.get_mem _ p a ha).2.1, ha⟩
  obtain ⟨m, B, hm, hB, hholds, hkeep⟩ := eraseAll_eq hs
    (fun a ha => by
      obtain ⟨hp, hget⟩ := hmem a ha
      rw [hp]
      exact hget) (nodup_announcementsOf hs)
  obtain ⟨C, t, trim, ht, hout⟩ := limited_eq (c := .eraseForPeer p) (s := s) hholds hweight
    ((Finset.card_le_card (holders_mono hB)).trans hpeers) fun v q b hb hnot => by
      rw [hkeep v q b hb fun hmemb => hnot (hmem b hmemb).1]
      rfl
  refine ⟨C, t, some trim, ?_, hout⟩
  simp only [call, eraseForPeer, hm, ht, Option.bind_eq_bind, Option.bind_some, Option.pure_def]

theorem mem_foldl_insert (l : List Hash) (acc : Std.ExtTreeSet Hash) (w : Hash) :
    w ∈ l.foldl (fun acc v => acc.insert v) acc ↔ w ∈ l ∨ w ∈ acc := by
  induction l generalizing acc with
  | nil => simp
  | cons v l ih =>
    rw [List.foldl_cons, ih, FiniteMap.mem_insert, List.mem_cons, eq_comm (a := v)]
    tauto

/-- What a block reaches is a spender of an input of one of its transactions. -/
theorem mem_spendersOfBlock {transactions : List Tx} :
    w ∈ s.spendersOfBlock transactions ↔
      ∃ tx ∈ transactions, ∃ o ∈ tx.vin, w ∈ s.spendersOf o := by
  have hfold : ∀ (l : List OutPoint) (acc : Std.ExtTreeSet Hash),
      w ∈ l.foldl (fun wtxids o => (s.spendersOf o).foldl (fun acc v => acc.insert v) wtxids) acc ↔
        (∃ o ∈ l, w ∈ s.spendersOf o) ∨ w ∈ acc := by
    intro l
    induction l with
    | nil => simp
    | cons o l ih =>
      intro acc
      rw [List.foldl_cons, ih, Std.ExtTreeSet.foldl_eq_foldl_toList, mem_foldl_insert,
        Std.ExtTreeSet.mem_toList]
      simp only [List.mem_cons, exists_eq_or_imp]
      rw [or_left_comm, or_assoc]
  unfold spendersOfBlock
  rw [hfold]
  simp only [List.mem_flatMap, Std.ExtTreeSet.not_mem_empty, or_false]
  constructor
  · rintro ⟨o, ⟨tx, htx, ho⟩, hw⟩
    exact ⟨tx, htx, o, ho, hw⟩
  · rintro ⟨tx, htx, o, ho, hw⟩
    exact ⟨o, ⟨tx, htx, ho⟩, hw⟩

theorem eraseForBlock_eq (hs : Holds A s) (hlimits : ¬Crowded lim A)
    (hpeers : (holders A).card ≤ lim.maxGlobalLatencyScore) (hweight : 0 < lim.reservedPeerWeight)
    (horder : ∀ l, (setOrder l).Perm l) (transactions : List Tx) :
    ∃ B t trim, call lim setOrder (.eraseForBlock transactions) s = some (t, trim) ∧
      Outcome lim (.eraseForBlock transactions) s B t trim := by
  simp only [call, eraseForBlock]
  split
  · exact ⟨A, s, none, rfl, .of_untrimmed hs hlimits hpeers fun _ _ => rfl⟩
  · obtain ⟨m, B, hm, hB, hholds, hkeep⟩ := eraseWtxids_eq hs
      (setOrder (s.spendersOfBlock transactions).toList)
    obtain ⟨C, t, trim, ht, hout⟩ := limited_eq (c := .eraseForBlock transactions) (s := s) hholds
      hweight ((Finset.card_le_card (holders_mono hB)).trans hpeers) fun v q b hb hnot => by
        rw [hkeep v q b hb]
        · rfl
        intro hv
        rw [(horder _).mem_iff, Std.ExtTreeSet.mem_toList, mem_spendersOfBlock] at hv
        obtain ⟨tx, htx, o, ho, hv⟩ := hv
        obtain ⟨x, hx, hxv, hxo⟩ := (hs.spenders_mem o v).mp hv
        obtain ⟨-, -, hhash, hmem⟩ := hs.get_mem v q b hb
        have hbx : b.tx = x.1 := hs.commits _ hmem x hx (hhash.trans hxv.symm)
        exact hnot ⟨tx, htx, o, ho, by rw [hbx]; exact hxo⟩
    refine ⟨C, t, some trim, ?_, hout⟩
    simp only [hm, ht, Option.bind_eq_bind, Option.bind_some, Option.pure_def]

/-! ## The calls that change the marks -/

theorem addChildrenToWorkSet_eq (hs : Holds A s) (hlimits : ¬Crowded lim A)
    (hpeers : (holders A).card ≤ lim.maxGlobalLatencyScore) (choice : Hash → ℕ) (tx : Tx) :
    ∃ B t trim, call lim setOrder (.addChildrenToWorkSet choice tx) s = some (t, trim) ∧
      Outcome lim (.addChildrenToWorkSet choice tx) s B t trim := by
  obtain ⟨t, marked, ht, hholds, hkeeps⟩ := markChildren_eq hs choice
    (l := tx.outPoints.flatMap fun o =>
      (s.spendersOf o).toList.insertionSort fun v w => reversed v ≤ reversed w) fun w hw => by
        obtain ⟨o, -, hw⟩ := List.mem_flatMap.mp hw
        rw [List.mem_insertionSort, Std.ExtTreeSet.mem_toList, hs.spenders_mem] at hw
        obtain ⟨x, hx, hxw, -⟩ := hw
        exact ⟨x, hx, hxw⟩
  refine ⟨A, t, none, ?_, .of_untrimmed hholds hlimits hpeers hkeeps⟩
  simp only [call, addChildrenToWorkSet, ht, Option.map_some]

theorem mapM_eq {α β : Type} {f : α → Option β} {l : List α} (h : ∀ x ∈ l, ∃ y, f x = some y) :
    ∃ r, l.mapM f = some r ∧ ∀ y ∈ r, ∃ x ∈ l, f x = some y := by
  induction l with
  | nil => exact ⟨[], rfl, nofun⟩
  | cons x l ih =>
    obtain ⟨⟨y, hy⟩, hl⟩ := List.forall_mem_cons.mp h
    obtain ⟨r, hr, hmem⟩ := ih hl
    refine ⟨y :: r, by simp [hy, hr], fun z hz => ?_⟩
    rcases List.mem_cons.mp hz with rfl | hz
    · exact ⟨x, List.mem_cons_self, hy⟩
    · obtain ⟨x', hx', hfx⟩ := hmem z hz
      exact ⟨x', List.mem_cons_of_mem x hx', hfx⟩

/-- **`get_tx_to_reconsider` finds every mark it looks up**, and takes one away. -/
theorem getTxToReconsider_holds (hs : Holds A s) (p : PeerId) :
    ∃ t answer, getTxToReconsider p s = some (t, answer) ∧ Holds A t ∧
      ∀ v q, (t.get v q).isSome = (s.get v q).isSome := by
  obtain ⟨marked, hmarked, hmem⟩ := mapM_eq
    (l := s.reconsiderable.keys.filter fun w => s.reconsiderable.get? w = some p)
    (f := fun w => s.get w p) fun w hw => by
      rw [List.mem_filter, decide_eq_true_iff] at hw
      obtain ⟨a, ha, -⟩ := (hs.marks w p).mp hw.2
      exact ⟨a, ha⟩
  simp only [getTxToReconsider, nextToReconsider, hmarked, Option.bind_eq_bind,
    Option.bind_some, Option.pure_def]
  cases hfirst : marked.argmin OrphanAnnouncement.sequence with
  | none => exact ⟨s, none, rfl, hs, fun _ _ => rfl⟩
  | some a =>
    obtain ⟨w, hw, ha⟩ := hmem a (List.argmin_mem hfirst)
    rw [List.mem_filter, decide_eq_true_iff] at hw
    obtain ⟨b, hb, hre⟩ := (hs.marks w p).mp hw.2
    rw [ha, Option.some.injEq] at hb
    subst hb
    obtain ⟨rfl, rfl, -⟩ := hs.get_mem w p a ha
    obtain ⟨announcers, hannouncers, hget⟩ := Option.bind_eq_some_iff.mp ha
    obtain ⟨hholds, hkeeps⟩ := hs.remark false hannouncers hget hre
    refine ⟨_, some a.tx, ?_, hholds, hkeeps⟩
    simp only [write, hannouncers, hw.2, Option.bind_eq_bind, Option.bind_some, Option.pure_def]
    rfl

theorem getTxToReconsider_eq (hs : Holds A s) (hlimits : ¬Crowded lim A)
    (hpeers : (holders A).card ≤ lim.maxGlobalLatencyScore) (p : PeerId) :
    ∃ B t trim, call lim setOrder (.getTxToReconsider p) s = some (t, trim) ∧
      Outcome lim (.getTxToReconsider p) s B t trim := by
  obtain ⟨t, answer, ht, hholds, hkeeps⟩ := getTxToReconsider_holds hs p
  refine ⟨A, t, none, ?_, .of_untrimmed hholds hlimits hpeers hkeeps⟩
  simp only [call, ht, Option.map_some]

/-! ## Runs -/

/-- **Every allowed call returns.** -/
theorem call_eq (hs : Holds A s) (hlimits : ¬Crowded lim A)
    (hpeers : (holders A).card ≤ lim.maxGlobalLatencyScore) (hweight : 0 < lim.reservedPeerWeight)
    (horder : ∀ l, (setOrder l).Perm l) (hc : Allowed lim s c) :
    ∃ B t trim, call lim setOrder c s = some (t, trim) ∧ Outcome lim c s B t trim := by
  cases c with
  | addTx tx p => exact addTx_eq hs hlimits hpeers hweight hc
  | addAnnouncer w p => exact addAnnouncer_eq hs hlimits hpeers hweight hc
  | eraseTx w => exact eraseTx_eq hs hpeers hweight w
  | eraseForPeer p => exact eraseForPeer_eq hs hpeers hweight p
  | eraseForBlock transactions =>
    exact eraseForBlock_eq hs hlimits hpeers hweight horder transactions
  | addChildrenToWorkSet choice tx => exact addChildrenToWorkSet_eq hs hlimits hpeers choice tx
  | getTxToReconsider p => exact getTxToReconsider_eq hs hlimits hpeers p

/-- What every call keeps. -/
def Good (lim : OrphanLimits) (s : TxOrphanage) : Prop :=
  ∃ A, Holds A s ∧ ¬Crowded lim A ∧ (holders A).card ≤ lim.maxGlobalLatencyScore

theorem good_init : Good lim init := by
  refine ⟨∅, .init, ?_, by simp [holders]⟩
  unfold Crowded once
  simp [items]

theorem good_of_run (hweight : 0 < lim.reservedPeerWeight) (horder : ∀ l, (setOrder l).Perm l)
    {calls : List OrphanageCall} (hrun : Run.exec (step lim setOrder) init calls = some s) :
    Good lim s := by
  refine Run.exec_invariant (fun s c t hs hstep => ?_) good_init hrun
  obtain ⟨A, hholds, hlimits, hpeers⟩ := hs
  unfold step at hstep
  split at hstep
  · next hc =>
    obtain ⟨B, u, trim, hu, hout⟩ := call_eq hholds hlimits hpeers hweight horder hc
    rw [hu, Option.map_some, Option.some.injEq] at hstep
    exact hstep ▸ ⟨B, hout.holds, hout.limits, hout.peers⟩
  · cases hstep

/-- **Eviction is fair and ends.**  After any run, an allowed call returns with both global
limits met; `_limit_orphans` erases an announcement only of a peer above the share each peer
had when it started; and the announcements of a peer within its share are kept, but for those
the call is there to erase. -/
theorem limitOrphans_fair_of_run (hweight : 0 < lim.reservedPeerWeight)
    (horder : ∀ l, (setOrder l).Perm l) {calls : List OrphanageCall}
    (hrun : Run.exec (step lim setOrder) init calls = some s) (hc : Allowed lim s c) :
    ∃ t trim, call lim setOrder c s = some (t, trim) ∧ WithinLimits lim t ∧
      (∀ x ∈ trim, FairEvictions (x.start.maxPeerLatencyScore lim) lim.reservedPeerWeight
        x.start x.evicted t) ∧
      ∀ w p a, s.get w p = some a → ¬erases a c →
        (∀ x ∈ trim, ¬AboveShare (x.start.maxPeerLatencyScore lim) lim.reservedPeerWeight
          x.start p) → (t.get w p).isSome := by
  obtain ⟨A, hholds, hlimits, hpeers⟩ := good_of_run hweight horder hrun
  obtain ⟨B, t, trim, ht, hout⟩ := call_eq hholds hlimits hpeers hweight horder hc
  exact ⟨t, trim, ht, hout.holds.withinLimits hout.limits, hout.fair, hout.keeps⟩

/-- Limits small enough to be exceeded. -/
def smallLimits : OrphanLimits := ⟨3, 100, 400⟩

/-- A transaction of one input. -/
def smallTx (w : Hash) : OrphanTx := ⟨⟨w, [⟨w + 100, 0⟩], []⟩, w, 40⟩

/-- Two peers, the first with two announcements of the three that may be made. -/
theorem limitOrphans_fair_of_run_two :
    ∃ s, Run.exec (step smallLimits id) init
        [.addTx (smallTx 1) 7, .addTx (smallTx 2) 7, .addTx (smallTx 3) 8] = some s ∧
      ∃ t trim, call smallLimits id (.addTx (smallTx 4) 7) s = some (t, trim) ∧
        WithinLimits smallLimits t ∧
        (∀ x ∈ trim, FairEvictions (x.start.maxPeerLatencyScore smallLimits)
          smallLimits.reservedPeerWeight x.start x.evicted t) ∧
        ∀ w p a, s.get w p = some a → ¬erases a (.addTx (smallTx 4) 7) →
          (∀ x ∈ trim, ¬AboveShare (x.start.maxPeerLatencyScore smallLimits)
            smallLimits.reservedPeerWeight x.start p) → (t.get w p).isSome := by
  obtain ⟨s, hs, hc⟩ : ∃ s, Run.exec (step smallLimits id) init
      [.addTx (smallTx 1) 7, .addTx (smallTx 2) 7, .addTx (smallTx 3) 8] = some s ∧
      Allowed smallLimits s (.addTx (smallTx 4) 7) := by
    have h : (Run.exec (step smallLimits id) init
        [.addTx (smallTx 1) 7, .addTx (smallTx 2) 7, .addTx (smallTx 3) 8]).any
          (fun s => decide (Allowed smallLimits s (.addTx (smallTx 4) 7))) = true := by
      decide +kernel
    obtain ⟨s, hs, hc⟩ := (Option.any_eq_true _ _).mp h
    exact ⟨s, hs, of_decide_eq_true hc⟩
  exact ⟨s, hs, limitOrphans_fair_of_run (by decide) (fun l => .refl l) hs hc⟩

end TxOrphanage

end BtclibNode
