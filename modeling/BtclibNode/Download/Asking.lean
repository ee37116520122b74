/-
# What asking for blocks keeps

`headers` with `headers_direct_fetch`, and `block_download`: the blocks asked for
are in flight from nobody, so each is then queued from one established connection.
-/
import BtclibNode.Download.Moves

namespace BtclibNode.DownloadNode

open StateExcept BlockIndex BlockAvailability

variable {P S : Type} {rules : DownloadRules P S} {n t : DownloadNode P S}

/-! ## Headers -/

theorem keeps_tryHeaders (headers : List BlockHeader) (punish minPow : Bool) :
    Keeps rules (tryHeaders rules headers punish minPow) :=
  keeps_now.bind fun _ => keeps_onIndex fun _ _ _ hs heq =>
    (addHeaders_fit hs heq).imp_right HeadersOnly.grown

theorem keeps_addHeaders (headers : List BlockHeader) (punish : Bool) :
    Keeps rules (addHeaders rules headers punish) := by
  refine (keeps_tryHeaders headers punish true).bind fun result => ?_
  cases result with
  | error e => exact keeps_throw _
  | ok tip => exact keeps_pure tip

theorem keeps_maybeSendGetheaders (id : ℕ) (locator : List Hash) :
    Keeps rules (maybeSendGetheaders id locator : Handler P S Unit) := by
  refine keeps_now.bind fun now => keeps_get.bind fun n => ?_
  dsimp only
  split
  · exact (keeps_send _ _).bind fun _ => keeps_alike fun _ => ⟨rfl, rfl⟩
  · exact keeps_pure _

theorem keeps_setHeadersSync (id : ℕ) (sync : Option S) :
    Keeps rules (onConn id fun c => { c with headersSync := sync } : Handler P S Unit) :=
  keeps_onConn (fun _ => ⟨rfl, fun h => h, rfl, rfl, rfl⟩) fun _ _ h => h

theorem keeps_isContinuation (id : ℕ) (headers : List BlockHeader) :
    Keeps rules (isContinuationOfLowWorkHeadersSync rules id headers) := by
  refine (keeps_conn id).bind fun c => ?_
  cases c.headersSync with
  | none => exact keeps_pure _
  | some sync =>
    dsimp only
    refine (keeps_setHeadersSync id _).bind fun _ => ?_
    refine (keeps_doWhen _ (keeps_popTimestamp id)).bind fun _ => ?_
    refine (keeps_doWhen _ (keeps_maybeSendGetheaders id _)).bind fun _ => ?_
    refine (keeps_doWhen _ (keeps_setHeadersSync id none)).bind fun _ => ?_
    split
    · exact keeps_pure _
    · exact keeps_pure _

theorem keeps_tryLowWork (id : ℕ) (chainStart : Hash) (headers : List BlockHeader) :
    Keeps rules (tryLowWorkHeadersSync rules id chainStart headers) := by
  refine (keeps_askIndex _).bind fun work => (keeps_askIndex _).bind fun threshold => ?_
  split
  · exact keeps_pure _
  · split
    · refine keeps_now.bind fun now => keeps_get.bind fun n => ?_
      refine (keeps_setHeadersSync id _).bind fun _ => ?_
      exact (keeps_isContinuation id headers).bind fun _ => keeps_pure _
    · exact keeps_pure _

theorem keeps_disconnect (id : ℕ) : Keeps rules (disconnectIfInsufficientWork rules id) := by
  refine keeps_get.bind fun n => (keeps_conn id).bind fun c => ?_
  split
  · exact keeps_pure _
  · split
    · exact keeps_pure _
    · refine (keeps_askIndex _).bind fun work => ?_
      split
      · exact keeps_pure _
      · exact keeps_stop id

theorem keeps_askForMoreHeaders (id batchSize : ℕ) (tip : Hash) (have_ : Bool) :
    Keeps rules (askForMoreHeaders id batchSize tip have_ : Handler P S Unit) := by
  unfold askForMoreHeaders
  split
  · split
    · exact keeps_pure _
    · refine (keeps_askIndex _).bind fun best => ?_
      split
      · exact keeps_maybeSendGetheaders id _
      · exact (keeps_askIndex _).bind fun locator => keeps_maybeSendGetheaders id locator
  · exact keeps_alike fun _ => ⟨rfl, rfl⟩

theorem keeps_announceIfBest (id : ℕ) (new : Bool) (h : Hash) :
    Keeps rules (announceIfBest id new h : Handler P S Unit) := by
  refine keeps_activeTip.bind fun tip => (keeps_askIndex _).bind fun work =>
    (keeps_askIndex _).bind fun tipWork => ?_
  split
  · refine keeps_now.bind fun now => keeps_onConn ?_ fun _ _ h => h
    exact fun _ => ⟨rfl, fun h => h, rfl, rfl, rfl⟩
  · exact keeps_pure _

/-! ## Requests -/

/-- **`_request_blocks` keeps the invariant**, of blocks that may be asked for
where every established connection's are in flight. -/
theorem sat_requestBlocks {c : Connection P S} {blocks : List Hash} {inFlight : Hash → Prop}
    {now : ℚ} {compact : Bool} (hn : n.Fits rules) (hc : c ∈ n.connections)
    (hroom : blocks.length ≤ maxBlocksInTransitPerPeer - c.downloadQueue.length)
    (hask : Askable n.blockIndex inFlight blocks) (hqueue : ∀ h ∈ c.downloadQueue, inFlight h)
    (hall : ∀ c' ∈ n.connections, c'.status = .connected → ∀ h ∈ c'.downloadQueue, inFlight h) :
    Sat (requestBlocks c.id blocks now compact) n
      (fun _ t => t.Fits rules ∧ t.connections = (n.withConn c.id (queued blocks now)).connections)
      fun _ t => t.Fits rules := by
  have hlen := (hn.tidy c hc).length_le
  have hfits : (n.withConn c.id (queued blocks now)).Fits rules := by
    refine hn.request blocks (fun c' hc' hid => ?_) (fun _ _ _ => rfl)
      hask.wanted fun b hb => ?_
    · obtain rfl : c' = c := List.inj_on_of_nodup_map hn.ids hc' hc hid
      refine ⟨rfl, ?_, hn.known c' hc, fun h hh => List.mem_append.mp hh⟩
      exact (hn.tidy c' hc).append _ hask.nodup
        (fun b hb hmem => hask.free b hb (hqueue b hmem)) (by omega)
    · rw [holdersOf_eq_zero fun c' hc' hst hmem => hask.free b hb (hall c' hc' hst b hmem)]
      decide
  unfold requestBlocks
  rw [sat_bind]
  show Sat _ (n.withConn c.id _) _ _
  rw [sat_bind]
  refine sat_conn (fun c' _ _ => ?_) hfits
  exact ⟨hfits.alike ⟨rfl, rfl⟩, rfl⟩

/-- `headers_direct_fetch` keeps the invariant. -/
theorem keeps_headersDirectFetch (id : ℕ) (lastHeader : Hash) :
    Keeps rules (headersDirectFetch rules id lastHeader) := by
  refine keeps_of_sat fun n₀ hn₀ => ?_
  unfold headersDirectFetch
  rw [sat_bind]
  refine sat_now fun now₁ n halike => ?_
  have hn := hn₀.alike halike
  rw [sat_bind]
  refine sat_conn (fun c hc hid => ?_) hn
  subst hid
  rw [sat_bind, sat_get, sat_bind]
  refine sat_lookup (fun blocks hblocks => ?_) hn
  split
  · exact hn
  · rw [sat_bind]
    refine sat_askIndex (fun info _ => ?_) hn
    rw [sat_bind]
    refine sat_askIndex (fun parent _ => ?_) hn
    dsimp only
    rw [sat_bind]
    refine sat_now fun now₂ t ht => ?_
    obtain ⟨hroom, hask⟩ := toDirectFetch_spec hn.index.consistent.toSound hblocks
    have hflight : ∀ c' ∈ t.connections, ∀ h ∈ c'.downloadQueue,
        h ∈ n.connections.flatMap Connection.downloadQueue := fun c' hc' h hh =>
      List.mem_flatMap.mpr ⟨c', ht.connections ▸ hc', hh⟩
    have hct : c ∈ t.connections := ht.connections ▸ hc
    exact (sat_requestBlocks (hn.alike ht) hct hroom (ht.blockIndex ▸ hask) (hflight c hct)
      fun c' hc' _ => hflight c' hc').mono (fun _ _ h => h.1) fun _ _ h => h

/-! ## `headers` -/

theorem keeps_indexHeaders (id count : ℕ) (headers : List BlockHeader) (last : Hash)
    (have_ via : Bool) : Keeps rules (indexHeaders rules id count headers last have_ via) := by
  refine keeps_get.bind fun n => (keeps_conn id).bind fun c => ?_
  refine (keeps_addHeaders headers _).bind fun tip? => (keeps_lookup tip?).bind fun tip => ?_
  refine (keeps_announceIfBest id _ tip).bind fun _ => ?_
  refine (keeps_updateBlockAvailability id tip).bind fun _ => ?_
  refine (keeps_doWhen _ (keeps_disconnect id)).bind fun _ => ?_
  exact (keeps_askForMoreHeaders id count tip have_).bind fun _ => keeps_headersDirectFetch id tip

theorem keeps_processHeaders (id : ℕ) (headers : List BlockHeader) (via : Bool) :
    Keeps rules (processHeaders rules id headers via) := by
  unfold processHeaders
  split
  · exact (keeps_setHeadersSync id none).bind fun _ => keeps_popTimestamp id
  · split
    · exact keeps_throw _
    · refine (keeps_isContinuation id headers).bind fun x => ?_
      obtain ⟨validated, kept⟩ := x
      dsimp only
      split
      · refine (keeps_conn id).bind fun c => keeps_get.bind fun n => ?_
        split
        · refine (keeps_askIndex _).bind fun locator => ?_
          refine (keeps_maybeSendGetheaders id locator).bind fun _ => ?_
          exact keeps_updateBlockAvailability id _
        · refine (keeps_popTimestamp id).bind fun _ => (keeps_conn id).bind fun c => ?_
          split
          · exact keeps_indexHeaders id _ _ _ _ _
          · refine (keeps_tryLowWork id _ _).bind fun keptOut => ?_
            split
            · exact keeps_pure _
            · exact keeps_indexHeaders id _ _ _ _ _
      · exact keeps_pure _

/-- `headers` keeps the invariant. -/
theorem keeps_headers (id : ℕ) (hs : List BlockHeader) : Keeps rules (headers rules id hs) := by
  refine keeps_get.bind fun n => ?_
  split
  · exact keeps_pure _
  · exact keeps_processHeaders id hs false

/-! ## `block_download` -/

theorem sat_stallingOrTimedOut {c : Connection P S} {now : ℚ} {downloadingFrom : ℕ}
    {Q : Bool → DownloadNode P S → Prop} {E : HandlerError → DownloadNode P S → Prop}
    (h : ∀ b t, Alike n t → Q b t) : Sat (stallingOrTimedOut c now downloadingFrom) n Q E := by
  unfold stallingOrTimedOut
  rw [sat_bind, sat_get]
  dsimp only
  split
  · exact h true _ ⟨rfl, rfl⟩
  · exact h _ n (Alike.refl n)

/-- Every block of an established connection, or of one of `rest`, is in the map. -/
def Covered (n : DownloadNode P S) (rest : List ℕ) (inFlight : Std.ExtTreeMap Hash ℕ) : Prop :=
  ∀ c ∈ n.connections, c.status = .connected ∨ c.id ∈ rest → ∀ h ∈ c.downloadQueue, h ∈ inFlight

variable {rest : List ℕ} {inFlight : Std.ExtTreeMap Hash ℕ} {id : ℕ}

theorem Covered.alike (h : Covered n rest inFlight) (ht : Alike n t) : Covered t rest inFlight :=
  fun c hc => h c (ht.connections ▸ hc)

theorem Covered.tail (h : Covered n (id :: rest) inFlight) : Covered n rest inFlight :=
  fun c hc hst => h c hc (hst.imp_right (List.mem_cons_of_mem _))

/-- A field that is no request leaves the blocks covered. -/
theorem Covered.withConn {f : Connection P S → Connection P S} (h : Covered n rest inFlight)
    (hf : ∀ c, (f c).id = c.id ∧ (f c).status = c.status ∧ (f c).downloadQueue = c.downloadQueue) :
    Covered (n.withConn id f) rest inFlight := by
  intro c' hc'
  obtain ⟨c, hc, rfl⟩ := List.mem_map.mp hc'
  obtain ⟨hid, hst, hqueue⟩ := hf c
  split
  · rw [hid, hst, hqueue]
    exact h c hc
  · exact h c hc

/-- A connection that is closed is not covered any more, and not to be. -/
theorem Covered.stop (h : Covered n (id :: rest) inFlight) (hid : id ∉ rest) :
    Covered (n.withConn id fun c => { c with status := .closed }) rest inFlight := by
  intro c' hc' hst
  obtain ⟨c, hc, rfl⟩ := List.mem_map.mp hc'
  by_cases hcid : c.id = id
  · rw [if_pos hcid] at hst
    rcases hst with hst | hst
    · cases hst
    · exact absurd (hcid ▸ hst) hid
  · rw [if_neg hcid] at hst ⊢
    exact h.tail c hc hst

theorem mem_foldl_insert {blocks : List Hash} {h : Hash} (hx : h ∈ inFlight ∨ h ∈ blocks) :
    h ∈ blocks.foldl (fun m b => m.insert b id) inFlight := by
  induction blocks generalizing inFlight with
  | nil =>
    rcases hx with hx | hx
    · exact hx
    · cases hx
  | cons b blocks ih =>
    refine ih ?_
    rcases hx with hx | hx
    · exact .inl (Std.ExtTreeMap.mem_insert.mpr (.inr hx))
    · rcases List.mem_cons.mp hx with rfl | hx
      · exact .inl Std.ExtTreeMap.mem_insert_self
      · exact .inr hx

/-- The blocks asked for join the map. -/
theorem Covered.queued {blocks : List Hash} {now : ℚ} (h : Covered n rest inFlight)
    (ht : t.connections = (n.withConn id (queued blocks now)).connections) :
    Covered t rest (blocks.foldl (fun m b => m.insert b id) inFlight) := by
  intro c' hc' hst b hb
  rw [ht] at hc'
  obtain ⟨c, hc, rfl⟩ := List.mem_map.mp hc'
  refine mem_foldl_insert ?_
  by_cases hcid : c.id = id
  · rw [if_pos hcid] at hst hb
    rcases List.mem_append.mp hb with hb | hb
    · exact .inl (h c hc hst b hb)
    · exact .inr hb
  · rw [if_neg hcid] at hst hb
    exact .inl (h c hc hst b hb)

/-- A call of `block_availability.py` changes the state of the connection it is about. -/
theorem sat_callAvailability {α : Type} {Q : α → DownloadNode P S → Prop}
    {f : BlockIndex → BlockAvailability P → Option (BlockAvailability P × α)}
    (hn : n.Fits rules)
    (hf : ∀ a a' x, f n.blockIndex a = some (a', x) → a.Known n.blockIndex →
      Kept n.blockIndex a a')
    (h : ∀ c ∈ n.connections, c.id = id → ∀ a x, f n.blockIndex c.blockAvailability = some (a, x) →
      (n.withConn id fun c => { c with blockAvailability := a }).Fits rules →
        Q x (n.withConn id fun c => { c with blockAvailability := a })) :
    Sat (callAvailability id f) n Q fun _ t => t.Fits rules := by
  unfold callAvailability
  rw [sat_bind]
  refine sat_conn (fun c hc hid => ?_) hn
  rw [sat_bind]
  refine sat_askIndex (fun x hx => ?_) hn
  obtain ⟨a, result⟩ := x
  refine h c hc hid a result hx (hn.withConn fun c' hc' hid' => ?_)
  -- the ids are distinct: it is the connection that was read
  obtain rfl : c' = c := List.inj_on_of_nodup_map hn.ids hc' hc (hid'.trans hid.symm)
  have hkept := hf _ _ _ hx (hn.known c' hc)
  exact ⟨Connection.SameRequests.lessens ⟨rfl, fun h => h, rfl, hkept.partials, hkept.orders⟩,
    hkept.known (hn.known c' hc)⟩

theorem sat_markStalling {now : ℚ} {byId : List ℕ} {queue : List Hash} {staller : Option ℕ}
    (hn : n.Fits rules) (hcov : Covered n rest inFlight) :
    Sat (markStalling now byId queue staller : Handler P S Unit) n
      (fun _ t => t.Fits rules ∧ Covered t rest inFlight) fun _ t => t.Fits rules := by
  unfold markStalling
  split
  · exact ⟨hn, hcov⟩
  · next peer =>
    unfold doWhen
    split
    · refine ⟨hn.withConn fun c hc _ => ⟨?_, hn.known c hc⟩,
        hcov.withConn fun c => ⟨rfl, rfl, rfl⟩⟩
      exact Connection.SameRequests.lessens ⟨rfl, fun h => h, rfl, rfl, rfl⟩
    · exact ⟨hn, hcov⟩

/-- The loop of `block_download` keeps the invariant. -/
theorem sat_blockDownloadFrom {now : ℚ} {preferred downloadingFrom : ℕ} {byId ids : List ℕ}
    (hn : n.Fits rules) (hids : ids.Nodup) (hcov : Covered n ids inFlight) :
    Sat (blockDownloadFrom rules now preferred byId ids downloadingFrom inFlight) n
      (fun _ t => t.Fits rules) fun _ t => t.Fits rules := by
  induction ids generalizing n downloadingFrom inFlight with
  | nil => exact hn
  | cons id ids ih =>
    obtain ⟨hid, hrest⟩ := List.nodup_cons.mp hids
    rw [blockDownloadFrom, sat_bind]
    refine sat_conn (fun c hc hcid => ?_) hn
    subst hcid
    rw [sat_bind]
    refine sat_stallingOrTimedOut fun stalls n₁ h₁ => ?_
    have hn₁ := hn.alike h₁
    have hcov₁ := hcov.alike h₁
    have hc₁ : c ∈ n₁.connections := h₁.connections ▸ hc
    split
    · -- the peer is dropped
      rw [sat_bind]
      refine ih ?_ hrest (hcov₁.stop hid)
      exact (keeps_stop c.id).sat hn₁
    · rw [sat_bind, sat_get]
      split
      · exact ih hn₁ hrest hcov₁.tail
      · rw [sat_bind]
        refine sat_callAvailability hn₁ (fun a a' x heq hk => ?_) fun c' hc' hid' a x heq hfits => ?_
        · exact (findNextBlocksToDownload_spec hn₁.index hk heq).1
        · obtain rfl : c' = c := List.inj_on_of_nodup_map hn₁.ids hc' hc₁ hid'
          obtain ⟨blocks, staller⟩ := x
          obtain ⟨-, hroom, hask⟩ := findNextBlocksToDownload_spec hn₁.index (hn₁.known c' hc₁) heq
          generalize hn₂ : (n₁.withConn c'.id fun c => { c with blockAvailability := a }) = n₂
            at hfits
          have hcov₂ : Covered n₂ (c'.id :: ids) inFlight :=
            hn₂ ▸ hcov₁.withConn fun c => ⟨rfl, rfl, rfl⟩
          have hindex : n₂.blockIndex = n₁.blockIndex := by rw [← hn₂]; rfl
          dsimp only
          split
          · rw [sat_bind]
            have hc₂ : { c' with blockAvailability := a } ∈ n₂.connections := by
              rw [← hn₂]
              exact List.mem_map.mpr ⟨c', hc₁, if_pos rfl⟩
            refine (sat_requestBlocks (c := { c' with blockAvailability := a }) hfits hc₂ hroom
              (hindex ▸ hask) (hcov₂ _ hc₂ (.inr List.mem_cons_self))
              fun c hc hst => hcov₂ c hc (.inl hst)).mono (fun _ t ht => ?_) fun _ _ h => h
            exact ih ht.1 hrest (hcov₂.tail.queued ht.2)
          · rw [sat_bind]
            refine (sat_markStalling hfits hcov₂.tail).mono (fun _ t ht => ?_) fun _ _ h => h
            exact ih ht.1 hrest ht.2

/-- **`block_download` keeps the invariant.** -/
theorem keeps_blockDownload : Keeps rules (blockDownload rules) := by
  refine keeps_of_sat fun n hn => ?_
  unfold blockDownload
  rw [sat_bind, sat_get]
  dsimp only
  rw [sat_bind]
  refine sat_now fun now t ht => ?_
  refine sat_blockDownloadFrom (hn.alike ht) ?_ fun c hc hst => ?_
  · exact (List.filter_sublist.map Connection.id).nodup hn.ids
  · intro h hh
    have hcn : c ∈ n.connections := ht.connections ▸ hc
    refine mem_firstInFlight (c := c) (List.mem_filter.mpr ⟨hcn, decide_eq_true ?_⟩) hh
    rcases hst with hst | hst
    · exact hst
    · obtain ⟨c', hc', hid⟩ := List.mem_map.mp hst
      rw [List.mem_filter, decide_eq_true_iff] at hc'
      obtain rfl : c' = c := List.inj_on_of_nodup_map hn.ids hc'.1 hcn hid
      exact hc'.2

end BtclibNode.DownloadNode
