/-
# Block requests in flight over a run

Every method and handler keeps `Fits`, so every run does: of `block_download`,
`headers_direct_fetch` and the handlers in any order, whatever the messages say,
with connections coming and going and the rest of the node at work between.
-/
import BtclibNode.Chainstate.IndexRun
import BtclibNode.Download.Storing

namespace BtclibNode.DownloadNode

open StateExcept BlockIndex BlockAvailability

variable {P S : Type} {rules : DownloadRules P S} {n t : DownloadNode P S} {id : ℕ} {h : Hash}

/-! ## `block` -/

/-- `t` fits as `n` does, with the active chain of `n`. -/
structure SameChain (rules : DownloadRules P S) (n t : DownloadNode P S) : Prop where
  fits : t.Fits rules
  active : t.blockIndex.activeChain = n.blockIndex.activeChain

theorem sat_dropBlockRequest (hn : n.Fits rules) (h : Hash) (fromPeer : Option ℕ) :
    Sat (dropBlockRequest h fromPeer) n (fun _ t => SameChain rules n t) fun _ t => t.Fits rules := by
  have hkeep := (keeps_dropBlockRequest h fromPeer).sat hn
  unfold dropBlockRequest at hkeep ⊢
  rw [sat_bind] at hkeep ⊢
  exact ⟨hkeep, rfl⟩

theorem sat_tryHeaders {headers : List BlockHeader} {punish minPow : Bool} (hn : n.Fits rules) :
    Sat (tryHeaders rules headers punish minPow) n (fun _ t => SameChain rules n t)
      fun _ t => t.Fits rules := by
  unfold tryHeaders
  rw [sat_bind]
  refine sat_now fun now t ht => ?_
  have hnt := hn.alike ht
  unfold onIndex
  rw [sat_bind, sat_get, sat_bind]
  refine sat_lookup (fun x hx => ?_) hnt
  obtain ⟨s, result⟩ := x
  obtain ⟨hfit, honly⟩ := addHeaders_fit hnt.index hx
  refine ⟨hnt.withIndex hfit honly.grown.known fun _ hw => honly.grown.wanted hw, ?_⟩
  show s.activeChain = _
  rw [honly.active, ht.blockIndex]

theorem sat_indexBlockHeader {header : BlockHeader} (hn : n.Fits rules) :
    Sat (indexBlockHeader rules header) n (fun _ t => SameChain rules n t)
      fun _ t => t.Fits rules := by
  unfold indexBlockHeader
  rw [sat_bind, sat_get]
  split
  · exact ⟨hn, rfl⟩
  · rw [sat_bind]
    refine sat_askIndex (fun checked _ => ?_) hn
    rw [sat_bind]
    refine (sat_tryHeaders hn).mono (fun result t ht => ?_) fun _ _ h => h
    rcases result with (_ | _ | _) | (_ | _)
    · exact ht.fits
    · exact ht.fits
    · exact ht
    · exact ht.fits
    · exact ht

/-- **`block` keeps the invariant.** -/
theorem keeps_block (id : ℕ) (b : Block) : Keeps rules (block rules id b) := by
  refine keeps_of_sat fun n hn => ?_
  unfold block
  rw [sat_bind, sat_get]
  split
  · exact hn
  · dsimp only
    have hoff : (n.connections.any fun c => decide (b.header.hash ∈ c.downloadQueue)) = true →
        b.header.hash ∉ n.blockIndex.activeChain := by
      intro hany
      obtain ⟨c, hc, hmem⟩ := List.any_eq_true.mp hany
      exact (hn.wanted c hc _ (decide_eq_true_iff.mp hmem)).off
    rw [sat_bind]
    refine (sat_dropBlockRequest hn _ _).mono (fun _ t ht => ?_) fun _ _ h => h
    rw [sat_bind]
    have hrefuse : Sat (refuseBeforeIndexing rules b id) t (fun _ u => u = t)
        fun _ u => u.Fits rules := by
      unfold refuseBeforeIndexing
      rw [sat_bind, sat_get]
      dsimp only
      split
      · exact ht.fits
      · exact sat_checkBlock rfl fun _ => ht.fits
    refine hrefuse.mono (fun _ u hu => ?_) fun _ _ h => h
    subst hu
    rw [sat_bind]
    refine (sat_indexBlockHeader ht.fits).mono (fun indexed v hv => ?_) fun _ _ h => h
    split
    · refine sat_acceptBlock hv.fits fun hreq => ?_
      rw [hv.active, ht.active]
      exact hoff hreq
    · exact hv.fits

/-! ## Partial blocks -/

/-- `h` is queued from `id`. -/
def QueuedFrom (n : DownloadNode P S) (id : ℕ) (h : Hash) : Prop :=
  ∃ c ∈ n.connections, c.id = id ∧ h ∈ c.downloadQueue

theorem Fits.mem_of_queuedFrom (hn : n.Fits rules) (hq : QueuedFrom n id h) {c : Connection P S}
    (hc : c ∈ n.connections) (hid : c.id = id) : h ∈ c.downloadQueue := by
  obtain ⟨c', hc', hid', hmem⟩ := hq
  obtain rfl : c' = c := List.inj_on_of_nodup_map hn.ids hc' hc (hid'.trans hid.symm)
  exact hmem

/-- What is kept beside the queue, about a block of it. -/
theorem Connection.lessens_beside {c : Connection P S} {a : BlockAvailability P}
    (hpartials : ∀ x ∈ a.partialBlocks, x ∈ c.blockAvailability.partialBlocks ∨ x ∈ c.downloadQueue)
    (horders : ∀ x ∈ a.requestOrder, x ∈ c.blockAvailability.requestOrder ∨ x ∈ c.downloadQueue)
    (hheader : c.Tidy rules → ∀ x p, a.partialBlocks[x]? = some (some p) →
      (rules.headerOf p).hash = x) : c.Lessens rules { c with blockAvailability := a } where
  id := rfl
  status := fun hs => hs
  queue := fun _ hx => hx
  tidy := fun ht => ⟨ht.nodup, ht.length_le, fun x hx => (hpartials x hx).elim (ht.partials x) id,
    fun x hx => (horders x hx).elim (ht.orders x) id, hheader ht⟩

theorem sat_setPartial {p : Option P} (hn : n.Fits rules) (hq : QueuedFrom n id h)
    (hp : ∀ q, p = some q → (rules.headerOf q).hash = h) :
    Sat (setPartial id h p) n
      (fun _ t => t.Fits rules ∧ QueuedFrom t id h ∧ t.blockIndex = n.blockIndex)
      fun _ t => t.Fits rules := by
  refine ⟨hn.withConn fun c hc hid => ⟨Connection.lessens_beside (fun x hx => ?_) (fun x hx => .inl hx)
    fun ht x q hx => ?_, hn.known c hc⟩, ?_, rfl⟩
  · rcases Std.ExtTreeMap.mem_insert.mp hx with hx | hx
    · obtain rfl := Std.LawfulEqOrd.eq_of_compare hx
      exact .inr (hn.mem_of_queuedFrom hq hc hid)
    · exact .inl hx
  · rw [FiniteMap.getElem?_insert] at hx
    split at hx
    · next hxh =>
      obtain rfl := Option.some.inj hx
      exact hxh ▸ hp q rfl
    · exact ht.header x q hx
  · obtain ⟨c, hc, hid, hmem⟩ := hq
    exact ⟨_, List.mem_map_of_mem hc, by rw [if_pos hid]; exact hid, by rw [if_pos hid]; exact hmem⟩

theorem keeps_askFullBlock (id : ℕ) (h : Hash) :
    Keeps rules (askFullBlock id h : Handler P S Unit) :=
  (keeps_conn id).bind fun _ => keeps_send id _

/-- **`_process_compact_block_txns` keeps the invariant.** -/
theorem keeps_processCompactBlockTxns (id : ℕ) (h : Hash) (txs : List Tx) :
    Keeps rules (processCompactBlockTxns rules id h txs) := by
  refine keeps_of_sat fun n hn => ?_
  unfold processCompactBlockTxns
  rw [sat_bind, sat_get]
  dsimp only
  rw [sat_bind]
  refine sat_conn (fun c hc hid => ?_) hn
  split
  · exact hn
  · next hmem =>
    rw [not_not] at hmem
    split
    · exact hn
    · exact ((keeps_dropBlockRequest h (some id)).bind fun _ => keeps_throw _).sat hn
    · next p hpartial =>
      split
      · exact ((keeps_dropBlockRequest h (some id)).bind fun _ => keeps_throw _).sat hn
      · next b hfill =>
        -- the block is the one that was asked for
        have hhash : b.header.hash = h := by
          rw [rules.header_fill p txs b hfill]
          exact (hn.tidy c hc).header h p hpartial
        have hoff := (hn.wanted c hc h hmem).off
        rw [sat_bind]
        refine (sat_setPartial hn ⟨c, hc, hid, hmem⟩ fun _ hq => by cases hq).mono
          (fun _ t ht => ?_) fun _ _ h => h
        obtain ⟨hfits, -, hindex⟩ := ht
        rw [sat_bind]
        refine sat_askIndex (fun segwit _ => ?_) hfits
        split
        · split
          · exact (keeps_askFullBlock id h).sat hfits
          · exact (keeps_dropBlockRequest h (some id)).sat hfits
        · rw [sat_bind]
          refine (sat_dropBlockRequest hfits h (some id)).mono (fun _ u hu => ?_) fun _ _ h => h
          rw [sat_bind]
          refine sat_checkBlock ?_ fun _ => hu.fits
          refine sat_acceptBlock hu.fits fun _ => ?_
          rw [hhash, hu.active, hindex]
          exact hoff

/-! ## `cmpctblock` -/

/-- The header of a `cmpctblock` taken: its block is known and not held. -/
theorem sat_indexCompactHeader {header : BlockHeader} (hn : n.Fits rules) :
    Sat (indexCompactHeader rules id header) n (fun wanted t => t.Fits rules ∧ (wanted = true →
      ∃ info, t.blockIndex.getBlockInfo header.hash = some info ∧ info.downloaded = false))
      fun _ t => t.Fits rules := by
  unfold indexCompactHeader
  rw [sat_bind, sat_get]
  split
  · rw [sat_bind]
    have hask : Keeps rules (doWhen (!n.isInitialBlockDownload) do
        maybeSendGetheaders id (← askIndex getBlockLocatorHashes) : Handler P S Unit) :=
      keeps_doWhen _ ((keeps_askIndex _).bind fun locator => keeps_maybeSendGetheaders id locator)
    exact (hask.sat hn).mono (fun _ t ht => ⟨ht, fun h => by cases h⟩) fun _ _ h => h
  · rw [sat_bind]
    refine sat_askIndex (fun checked _ => ?_) hn
    split
    · exact ⟨hn, fun h => by cases h⟩
    · dsimp only
      rw [sat_bind]
      refine ((keeps_addHeaders [header] false).sat hn).mono (fun _ t ht => ?_) fun _ _ h => h
      rw [sat_bind]
      refine ((keeps_updateBlockAvailability id header.hash).sat ht).mono (fun _ u hu => ?_)
        fun _ _ h => h
      rw [sat_bind]
      refine ((keeps_announceIfBest id _ header.hash).sat hu).mono (fun _ v hv => ?_) fun _ _ h => h
      rw [sat_bind]
      refine sat_askIndex (fun info hinfo => ⟨hv, fun hwanted => ⟨info, hinfo, ?_⟩⟩) hv
      simpa using hwanted

theorem Fits.ready (hn : n.Fits rules) : Ready rules n := ⟨hn.index, hn.ids, hn.known⟩

theorem Quiet.lessens (h : Quiet rules n t) :
    List.Forall₂ (Connection.Lessens rules) n.connections t.connections := by
  obtain ⟨g, hg, hsame⟩ := h.connections
  rw [hg, List.forall₂_map_right_iff, List.forall₂_same]
  exact fun c hc => (hsame c hc).lessens

theorem Fits.quiet (hn : n.Fits rules) (h : Quiet rules n t) : t.Fits rules :=
  hn.lessens h.blockIndex h.lessens fun c hc => h.blockIndex ▸ h.ready.known c hc

theorem sat_startDownloading (hn : n.Fits rules) :
    Sat (startDownloading id : Handler P S Unit) n (fun _ t => Quiet rules n t)
      fun _ t => t.Fits rules := by
  unfold startDownloading
  rw [sat_bind]
  refine sat_conn (fun c hc hid => ?_) hn
  unfold doWhen
  split
  · rw [sat_bind]
    refine sat_now fun now t ht => ?_
    have hquiet := hn.ready.quiet ht
    exact hquiet.trans (hquiet.ready.withAvailability (c := c) (ht.connections ▸ hc) hid
      (f := fun a => { a with downloadingSince := now }) ⟨rfl, rfl, fun hk => hk⟩)
  · exact hn.ready.quiet (Alike.refl n)

/-- The connection changed is the one queued from still. -/
theorem QueuedFrom.withConn {f : Connection P S → Connection P S} (hq : QueuedFrom n id h)
    (hf : ∀ c : Connection P S, (f c).id = c.id ∧ (f c).downloadQueue = c.downloadQueue) :
    QueuedFrom (n.withConn id f) id h := by
  obtain ⟨c, hc, hid, hmem⟩ := hq
  refine ⟨_, List.mem_map_of_mem hc, ?_, ?_⟩
  · rw [if_pos hid, (hf c).1, hid]
  · rw [if_pos hid, (hf c).2]
    exact hmem

/-- A block wanted, put on a queue with room for it. -/
theorem Fits.queueOne {c : Connection P S} (hn : n.Fits rules) (hc : c ∈ n.connections)
    (hnew : h ∉ c.downloadQueue) (hroom : c.downloadQueue.length < maxBlocksInTransitPerPeer)
    (hfew : holdersOf n.connections h < maxCmpctblocksInflightPerBlock)
    (hwanted : Wanted n.blockIndex h) :
    (n.withConn c.id fun c => { c with downloadQueue := c.downloadQueue ++ [h] }).Fits rules := by
  refine hn.request [h] (fun c' hc' hid => ?_) (fun _ _ _ => rfl) ?_ ?_
  · obtain rfl : c' = c := List.inj_on_of_nodup_map hn.ids hc' hc hid
    refine ⟨rfl, ?_, hn.known c' hc', fun x hx => List.mem_append.mp hx⟩
    refine (hn.tidy c' hc').append c'.blockAvailability.downloadingSince (List.nodup_singleton h)
      ?_ ?_
    · simpa using hnew
    · rw [List.length_singleton]
      omega
  · simpa using hwanted
  · rw [List.forall_mem_singleton]
    exact hfew

theorem sat_numberRequest (hn : n.Fits rules) (hq : QueuedFrom n id h) :
    Sat (numberRequest id h : Handler P S Unit) n
      (fun _ t => t.Fits rules ∧ QueuedFrom t id h ∧ t.blockIndex = n.blockIndex)
      fun _ t => t.Fits rules := by
  unfold numberRequest
  rw [sat_bind, sat_get]
  dsimp only
  rw [sat_bind, sat_modify]
  have hn' : ({ n with requestOrders := n.requestOrders + 1 } : DownloadNode P S).Fits rules :=
    hn.alike ⟨rfl, rfl⟩
  refine ⟨hn'.withConn fun c hc hid => ⟨Connection.lessens_beside (fun x hx => .inl hx)
    (fun x hx => ?_) fun ht => ht.header, hn'.known c hc⟩,
    QueuedFrom.withConn (n := { n with requestOrders := n.requestOrders + 1 }) hq
      fun _ => ⟨rfl, rfl⟩, rfl⟩
  rcases Std.ExtTreeMap.mem_insert.mp hx with hx | hx
  · obtain rfl := Std.LawfulEqOrd.eq_of_compare hx
    exact .inr (hn.mem_of_queuedFrom hq hc hid)
  · exact .inl hx

/-- `BlockRequested` of a block wanted, with room for it. -/
theorem sat_queueBlock {c : Connection P S} (hn : n.Fits rules) (hc : c ∈ n.connections)
    (hid : c.id = id)
    (hnew : h ∉ c.downloadQueue) (hroom : c.downloadQueue.length < maxBlocksInTransitPerPeer)
    (hfew : holdersOf n.connections h < maxCmpctblocksInflightPerBlock)
    (hwanted : Wanted n.blockIndex h) :
    Sat (queueBlock id h : Handler P S Unit) n
      (fun _ t => t.Fits rules ∧ QueuedFrom t id h ∧ t.blockIndex = n.blockIndex)
      fun _ t => t.Fits rules := by
  subst hid
  unfold queueBlock
  rw [sat_bind]
  refine (sat_startDownloading hn).mono (fun _ t ht => ?_) fun _ _ h => h
  obtain ⟨g, hg, hsame⟩ := ht.connections
  have hs := hsame c hc
  have hgc : g c ∈ t.connections := hg ▸ List.mem_map_of_mem hc
  rw [sat_bind, ← hs.id]
  have hqueued := (hn.quiet ht).queueOne (h := h) hgc (hs.queue ▸ hnew) (hs.queue ▸ hroom)
    ((holdersOf_le_of_lessens ht.lessens h).trans_lt hfew) (ht.blockIndex ▸ hwanted)
  have hfrom : QueuedFrom (t.withConn (g c).id fun c =>
      { c with downloadQueue := c.downloadQueue ++ [h] }) (g c).id h := by
    refine ⟨_, List.mem_map_of_mem hgc, ?_, ?_⟩
    · rw [if_pos rfl]
    · rw [if_pos rfl]
      exact List.mem_append_right _ (List.mem_singleton.mpr rfl)
  unfold onConn
  rw [sat_modify]
  exact (sat_numberRequest hqueued hfrom).mono
    (fun _ u hu => ⟨hu.1, hu.2.1, hu.2.2.trans ht.blockIndex⟩) fun _ _ h => h

/-- **`_queue_compact_block` of a block that is queued.** -/
theorem sat_rebuildQueued {compact : CmpctBlock} {holders : List (Connection P S)}
    (hn : n.Fits rules) (hq : QueuedFrom n id compact.header.hash) :
    Sat (rebuildQueued rules id compact holders) n (fun _ t => t.Fits rules)
      fun _ t => t.Fits rules := by
  unfold rebuildQueued
  dsimp only
  split
  · exact ((keeps_dropBlockRequest _ (some id)).bind fun _ => keeps_throw _).sat hn
  · rw [sat_bind, sat_get]
    split
    · split
      · rw [sat_bind]
        refine (sat_setPartial hn hq fun q hq => ?_).mono
          (fun _ t ht => (keeps_askFullBlock id _).sat ht.1) fun _ _ h => h
        rw [← Option.some.inj hq]
        exact congrArg BlockHeader.hash (rules.headerOf_partialBlock _ _)
      · exact (keeps_dropBlockRequest _ (some id)).sat hn
    · next p hp =>
      rw [sat_bind]
      refine (sat_setPartial hn hq fun q hq => ?_).mono (fun _ t ht => ?_) fun _ _ h => h
      · rw [← Option.some.inj hq]
        exact congrArg BlockHeader.hash (rules.headerOf_reconstruct _ _ _ hp)
      · have hrest : Keeps rules (do
            let c ← conn id
            if rules.missingIndexes p = [] then
              processCompactBlockTxns rules id compact.header.hash []
            else if (holders.head?.all fun c => c.id == id) = true ∨ (c.bip152HighbandwidthTo = true ∧
                ((!c.inbound) = true ∨ (holders.any fun c => !c.inbound) = true
                  ∨ holders.length < maxCmpctblocksInflightPerBlock - 1)) then
              send id (.getBlockTxn compact.header.hash (rules.missingIndexes p))
            else dropBlockRequest compact.header.hash (some id)) := by
          refine (keeps_conn id).bind fun c => ?_
          split
          · exact keeps_processCompactBlockTxns id _ []
          · split
            · exact keeps_send id _
            · exact keeps_dropBlockRequest _ (some id)
        exact hrest.sat ht.1

/-- **`_queue_compact_block` keeps the invariant**, of a block queued from the
peer or with room for it. -/
theorem sat_queueCompactBlock {compact : CmpctBlock} {holders : List (Connection P S)}
    (hn : n.Fits rules) (hwanted : Wanted n.blockIndex compact.header.hash)
    (hroom : ∀ c ∈ n.connections, c.id = id → compact.header.hash ∈ c.downloadQueue ∨
      holdersOf n.connections compact.header.hash < maxCmpctblocksInflightPerBlock ∧
        c.downloadQueue.length < maxBlocksInTransitPerPeer) :
    Sat (queueCompactBlock rules id compact holders) n (fun _ t => t.Fits rules)
      fun _ t => t.Fits rules := by
  unfold queueCompactBlock
  dsimp only
  rw [sat_bind]
  refine sat_conn (fun c hc hid => ?_) hn
  split
  · next hmem =>
    split
    · exact hn
    · exact sat_rebuildQueued hn ⟨c, hc, hid, hmem⟩
  · next hnew =>
    obtain ⟨hfew, hlen⟩ := (hroom c hc hid).resolve_left hnew
    rw [sat_bind]
    exact (sat_queueBlock hn hc hid hnew hlen hfew hwanted).mono
      (fun _ t ht => sat_rebuildQueued ht.1 ht.2.1) fun _ _ h => h

/-- **`_reconstruct_optimistically` keeps the invariant**, off the active chain. -/
theorem sat_reconstructOptimistically {compact : CmpctBlock} (hn : n.Fits rules)
    (hoff : compact.header.hash ∉ n.blockIndex.activeChain) :
    Sat (reconstructOptimistically rules id compact) n (fun _ t => t.Fits rules)
      fun _ t => t.Fits rules := by
  unfold reconstructOptimistically
  split
  · exact hn
  · rw [sat_bind, sat_get]
    split
    · exact hn
    · next p hp =>
      split
      · exact hn
      · split
        · exact hn
        · next b hb =>
          -- the block rebuilt has the header that was sent
          have hhash : b.header.hash = compact.header.hash := by
            rw [rules.header_fill p [] b hb, rules.headerOf_reconstruct _ _ _ hp]
          rw [sat_bind]
          refine sat_askIndex (fun segwit _ => ?_) hn
          split
          · exact hn
          · rw [sat_bind]
            refine sat_checkBlock ?_ fun _ => hn
            exact sat_acceptBlock hn fun _ => hhash ▸ hoff

/-- **`cmpctblock` keeps the invariant**, of a block with more work than the tip. -/
theorem sat_takeCompact {compact : CmpctBlock} {requested : Bool} (hn : n.Fits rules)
    (hwanted : Wanted n.blockIndex compact.header.hash)
    (hrequested : requested = true → ∀ c ∈ n.connections, c.id = id →
      compact.header.hash ∈ c.downloadQueue) :
    Sat (takeCompact rules id compact (inFlightFrom n.connections compact.header.hash) requested) n
      (fun _ t => t.Fits rules) fun _ t => t.Fits rules := by
  unfold takeCompact
  dsimp only
  rw [sat_bind]
  refine sat_askIndex (fun info _ => ?_) hn
  rw [sat_bind]
  refine sat_conn (fun c hc hid => ?_) hn
  rw [sat_bind, sat_get]
  split
  · split
    · exact (keeps_askFullBlock id _).sat hn
    · exact (keeps_processHeaders id _ true).sat hn
  · split
    · next hgo =>
      refine sat_queueCompactBlock hn hwanted fun c' hc' hid' => ?_
      obtain rfl : c' = c := List.inj_on_of_nodup_map hn.ids hc' hc (hid'.trans hid.symm)
      rcases hgo with hreq | ⟨hfew, hlen⟩
      · exact .inl (hrequested hreq c' hc' hid')
      · exact .inr ⟨(holdersOf_le_inFlightFrom _ _).trans_lt hfew, hlen⟩
    · exact sat_reconstructOptimistically hn hwanted.off

theorem sat_mayFetch {holders : List (Connection P S)} {Q : Bool → DownloadNode P S → Prop}
    {E : HandlerError → DownloadNode P S → Prop} (hQ : ∀ b t, Alike n t → Q b t)
    (hE : ∀ t, Alike n t → E .key t) : Sat (mayFetch rules holders) n Q E := by
  unfold mayFetch
  split
  · rw [sat_bind]
    refine sat_now fun now t ht => ?_
    exact sat_askIndex (fun b _ => hQ b t ht) (hE t ht)
  · exact hQ true n (Alike.refl n)

/-- A block with more work than the tip is off the active chain. -/
theorem off_of_more_work {s : BlockIndex} {tip : Hash} {work tipWork : ℕ}
    (hs : IndexFit rules.chain s) (htip : s.activeChain.getLast? = some tip)
    (hwork : s.chainwork[h]? = some work) (htipWork : s.chainwork[tip]? = some tipWork)
    (hmore : tipWork < work) : h ∉ s.activeChain := by
  intro hactive
  have ht := hs.consistent.headerTree
  obtain ⟨tip', info, htip', -, hpath, hw⟩ := hs.consistent.exists_tip
  obtain rfl := Option.some.inj (htip.symm.trans htip')
  have hle : s.weight h ≤ s.weight tip := hpath.weight_le (fun hx => ht.work_lt ⟨_, hx⟩) hactive
  obtain rfl := Option.some.inj (htipWork.symm.trans hw)
  have hweight : s.weight h = work := by
    unfold weight
    rw [hwork, Option.getD_some]
  omega

/-- **`cmpctblock` keeps the invariant.** -/
theorem keeps_cmpctblock (id : ℕ) (compact : CmpctBlock) :
    Keeps rules (cmpctblock rules id compact) := by
  refine keeps_of_sat fun n hn => ?_
  unfold cmpctblock
  rw [sat_bind, sat_get, sat_bind]
  refine sat_conn (fun _ _ _ => ?_) hn
  split
  · exact hn
  · rw [sat_bind]
    refine (sat_indexCompactHeader hn).mono (fun wanted t ht => ?_) fun _ _ h => h
    obtain ⟨ht, hmissing⟩ := ht
    split
    · exact ht
    · next hgo =>
      obtain ⟨info, hinfo, hheld⟩ := hmissing (by simpa using hgo)
      rw [sat_bind, sat_get]
      dsimp only
      rw [sat_bind]
      refine sat_conn (fun c hc hid => ?_) ht
      split
      · exact ht
      · rw [sat_bind]
        refine sat_activeTip (fun tip htip => ?_) ht
        rw [sat_bind]
        refine sat_askIndex (fun work hwork => ?_) ht
        rw [sat_bind]
        refine sat_askIndex (fun tipWork htipWork => ?_) ht
        split
        · split
          · exact (keeps_askFullBlock id _).sat ht
          · exact ht
        · next hmore =>
          have hwanted : Wanted t.blockIndex compact.header.hash := by
            refine ⟨off_of_more_work ht.index htip hwork htipWork (not_le.mp hmore), ?_⟩
            intro info' hinfo'
            rwa [Option.some.inj (hinfo'.symm.trans hinfo)]
          rw [sat_bind]
          refine sat_mayFetch (fun b u hu => ?_) fun u hu => ht.alike hu
          split
          · rw [← hu.connections]
            refine sat_takeCompact (ht.alike hu) (hu.blockIndex ▸ hwanted) fun hreq c' hc' hid' => ?_
            rw [hu.connections] at hc'
            obtain rfl : c' = c := List.inj_on_of_nodup_map ht.ids hc' hc (hid'.trans hid.symm)
            exact of_decide_eq_true hreq
          · exact ht.alike hu

/-- **`blocktxn` keeps the invariant.** -/
theorem keeps_blocktxn (id : ℕ) (h : Hash) (txs : List Tx) :
    Keeps rules (blocktxn rules id h txs) := by
  refine keeps_get.bind fun n => ?_
  split
  · exact keeps_pure ()
  · exact keeps_processCompactBlockTxns id h txs

end BtclibNode.DownloadNode
