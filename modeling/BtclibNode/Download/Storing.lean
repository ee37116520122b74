/-
# What storing a block keeps

`_accept_block` marks a block held and then takes it off every queue.  Nothing
between the two raises: `new_pow_valid_block` reads what is indexed alone.  A block
marked failed on the way is off the active chain.
-/
import BtclibNode.Download.Asking

namespace BtclibNode.DownloadNode

open StateExcept BlockIndex BlockAvailability

variable {P S : Type} {rules : DownloadRules P S} {n t : DownloadNode P S} {id : ℕ}

/-! ## Announcing a block that is stored -/

/-- What `new_pow_valid_block` relies on: the tree, and that what peers are known
to have is in it. -/
structure Ready (rules : DownloadRules P S) (n : DownloadNode P S) : Prop where
  index : IndexFit rules.chain n.blockIndex
  ids : (n.connections.map Connection.id).Nodup
  known : ∀ c ∈ n.connections, c.blockAvailability.Known n.blockIndex

/-- `t` has the index and the requests of `n`, and is as ready. -/
structure Quiet (rules : DownloadRules P S) (n t : DownloadNode P S) : Prop where
  blockIndex : t.blockIndex = n.blockIndex
  connections : ∃ g : Connection P S → Connection P S, t.connections = n.connections.map g ∧
    ∀ c ∈ n.connections, c.SameRequests (g c)
  ready : Ready rules t

theorem Ready.alike (hn : Ready rules n) (h : Alike n t) : Ready rules t := by
  obtain ⟨hconns, hindex⟩ := h
  refine ⟨hindex ▸ hn.index, hconns ▸ hn.ids, ?_⟩
  rw [hconns, hindex]
  exact hn.known

theorem Ready.quiet (hn : Ready rules n) (h : Alike n t) : Quiet rules n t :=
  ⟨h.blockIndex, ⟨fun c => c, by rw [h.connections, List.map_id'], fun c _ =>
    Connection.SameRequests.refl c⟩, hn.alike h⟩

theorem Quiet.trans {u : DownloadNode P S} (h : Quiet rules n t) (h' : Quiet rules t u) :
    Quiet rules n u := by
  obtain ⟨g, hg, hsame⟩ := h.connections
  obtain ⟨g', hg', hsame'⟩ := h'.connections
  refine ⟨h'.blockIndex.trans h.blockIndex, ⟨g' ∘ g, ?_, fun c hc => ?_⟩, h'.ready⟩
  · rw [hg', hg, List.map_map]
  · have h₁ := hsame c hc
    have h₂ := hsame' (g c) (hg ▸ List.mem_map_of_mem hc)
    exact ⟨h₂.id.trans h₁.id, fun hst => h₁.status (h₂.status hst), h₂.queue.trans h₁.queue,
      h₂.partials.trans h₁.partials, h₂.orders.trans h₁.orders⟩

theorem Quiet.ids (h : Quiet rules n t) :
    t.connections.map Connection.id = n.connections.map Connection.id := by
  obtain ⟨g, hg, hsame⟩ := h.connections
  rw [hg, List.map_map]
  exact List.map_congr_left fun c hc => (hsame c hc).id

/-- A connection's state changed beside its requests. -/
theorem Ready.withAvailability (hn : Ready rules n) {id : ℕ} {c : Connection P S}
    (hc : c ∈ n.connections) (hid : c.id = id) {f : BlockAvailability P → BlockAvailability P}
    (hkept : Kept n.blockIndex c.blockAvailability (f c.blockAvailability)) :
    Quiet rules n (n.withConn id fun c => { c with blockAvailability := f c.blockAvailability }) := by
  have hcase : ∀ c' ∈ n.connections, c'.id = id → c' = c := fun c' hc' hid' =>
    List.inj_on_of_nodup_map hn.ids hc' hc (hid'.trans hid.symm)
  refine ⟨rfl, ⟨_, rfl, fun c' hc' => ?_⟩, hn.index, ?_, fun c' hc' => ?_⟩
  · split
    · next hid' =>
      obtain rfl := hcase c' hc' hid'
      exact ⟨rfl, fun h => h, rfl, hkept.partials, hkept.orders⟩
    · exact Connection.SameRequests.refl c'
  · show ((n.connections.map _).map Connection.id).Nodup
    rw [List.map_map]
    refine (List.map_congr_left fun c' _ => ?_) ▸ hn.ids
    show c'.id = (if c'.id = id then _ else c').id
    split <;> rfl
  · obtain ⟨c'', hc'', rfl⟩ := List.mem_map.mp hc'
    split
    · next hid' =>
      obtain rfl := hcase c'' hc'' hid'
      exact hkept.known (hn.known c'' hc)
    · exact hn.known c'' hc''

/-- A method that returns, with the state it leaves as quiet as `Quiet` says. -/
abbrev Calm {α : Type} (rules : DownloadRules P S) (n : DownloadNode P S) (x : Handler P S α) :
    Prop := Sat x n (fun _ t => Quiet rules n t) fun _ _ => False

theorem sat_conn_of_mem {Q : Connection P S → DownloadNode P S → Prop}
    {E : HandlerError → DownloadNode P S → Prop} (hid : id ∈ n.connections.map Connection.id)
    (h : ∀ c ∈ n.connections, c.id = id → Q c n) : Sat (conn id) n Q E := by
  unfold conn
  rw [sat_bind, sat_get]
  cases hfind : n.connections.find? (fun c => c.id == id) with
  | none =>
    obtain ⟨c, hc, hcid⟩ := List.mem_map.mp hid
    rw [List.find?_eq_none] at hfind
    exact absurd (beq_iff_eq.mpr hcid) (hfind c hc)
  | some c =>
    refine h c (List.mem_of_find?_eq_some hfind) ?_
    have := List.find?_some hfind
    rwa [beq_iff_eq] at this

theorem sat_askIndex_of_some {α : Type} {f : BlockIndex → Option α} {a : α}
    {Q : α → DownloadNode P S → Prop} {E : HandlerError → DownloadNode P S → Prop}
    (ha : f n.blockIndex = some a) (h : Q a n) : Sat (askIndex f) n Q E := by
  unfold askIndex
  rw [sat_bind, sat_get, ha]
  exact h

theorem sat_onIndex_of_some {α : Type} {f : BlockIndex → Option (BlockIndex × α)} {s : BlockIndex}
    {a : α} {Q : α → DownloadNode P S → Prop} {E : HandlerError → DownloadNode P S → Prop}
    (hf : f n.blockIndex = some (s, a)) (h : Q a { n with blockIndex := s }) :
    Sat (onIndex f) n Q E := by
  unfold onIndex
  rw [sat_bind, sat_get, hf]
  exact h

/-- `process_block_availability` of a connection held. -/
theorem calm_process (hn : Ready rules n) (hid : id ∈ n.connections.map Connection.id) :
    Calm rules n
      (callAvailability id fun s a => (a.process s).map (·, ()) : Handler P S Unit) := by
  unfold callAvailability
  rw [Calm, sat_bind]
  refine sat_conn_of_mem hid fun c hc hcid => ?_
  obtain ⟨a, ha⟩ := exists_process hn.index.consistent.headerTree (hn.known c hc)
  rw [sat_bind]
  refine sat_askIndex_of_some (a := (a, ())) (congrArg (Option.map (·, ())) ha) ?_
  exact hn.withAvailability hc hcid (f := fun _ => a) (kept_process ha)

/-- What `new_pow_valid_block` sends one connection, of two indexed headers. -/
theorem calm_sendCompactTo {block : Block} (hn : Ready rules n)
    (hid : id ∈ n.connections.map Connection.id)
    (hblock : ∃ info, n.blockIndex.getBlockInfo block.header.hash = some info)
    (hparent : ∃ info, n.blockIndex.getBlockInfo block.header.previousBlockHash = some info) :
    Calm rules n (sendCompactTo block id) := by
  unfold sendCompactTo
  rw [Calm, sat_bind]
  refine sat_conn_of_mem hid fun c hc hcid => ?_
  split
  · exact hn.quiet (Alike.refl n)
  · rw [sat_bind]
    refine (calm_process hn hid).mono (fun _ t ht => ?_) fun _ _ h => h
    have hidt : id ∈ t.connections.map Connection.id := ht.ids ▸ hid
    rw [sat_bind]
    refine sat_conn_of_mem hidt fun c' hc' hcid' => ?_
    have hknown := ht.ready.known c' hc'
    rw [← ht.blockIndex] at hblock hparent
    obtain ⟨info, hinfo⟩ := hblock
    obtain ⟨pinfo, hpinfo⟩ := hparent
    have htree := ht.ready.index.consistent.headerTree
    obtain ⟨b, hb⟩ := exists_peerHasHeader htree hknown hinfo
    obtain ⟨b', hb'⟩ := exists_peerHasHeader htree hknown hpinfo
    dsimp only
    split
    · exact ht
    · rw [sat_bind]
      refine sat_askIndex_of_some hb ?_
      split
      · exact ht
      · rw [sat_bind]
        refine sat_askIndex_of_some hb' ?_
        split
        · rw [sat_bind]
          refine ht.trans ?_
          have hsent := ht.ready.quiet (t := { t with sent := t.sent ++ [(id, .cmpctBlock block)] })
            ⟨rfl, rfl⟩
          refine hsent.trans (hsent.ready.withAvailability
            (f := fun a => { a with bestHeaderSent := some block.header.hash }) hc' hcid'
            ⟨rfl, rfl, fun hk h hh => ?_⟩)
          rcases hh with hh | hh
          · exact hk h (.inl hh)
          · obtain rfl := Option.some.inj hh
            exact ⟨info, hinfo⟩
        · exact ht

theorem calm_sendCompact {block : Block} {ids : List ℕ} (hn : Ready rules n)
    (hids : ∀ id ∈ ids, id ∈ n.connections.map Connection.id)
    (hblock : ∃ info, n.blockIndex.getBlockInfo block.header.hash = some info)
    (hparent : ∃ info, n.blockIndex.getBlockInfo block.header.previousBlockHash = some info) :
    Calm rules n (sendCompact block ids) := by
  induction ids generalizing n with
  | nil => exact hn.quiet (Alike.refl n)
  | cons id ids ih =>
    obtain ⟨hid, hids⟩ := List.forall_mem_cons.mp hids
    rw [sendCompact, Calm, sat_bind]
    refine (calm_sendCompactTo hn hid hblock hparent).mono (fun _ t ht => ?_) fun _ _ h => h
    refine (ih ht.ready ?_ ?_ ?_).mono (fun _ u hu => ht.trans hu) fun _ _ h => h
    · rw [ht.ids]
      exact hids
    · rw [ht.blockIndex]
      exact hblock
    · rw [ht.blockIndex]
      exact hparent

/-- **`new_pow_valid_block` returns**, of an indexed block. -/
theorem calm_newPowValidBlock {block : Block} (hn : Ready rules n)
    (hblock : ∃ info, n.blockIndex.getBlockInfo block.header.hash = some info) :
    Calm rules n (newPowValidBlock rules block) := by
  obtain ⟨tip, tipInfo, htip, htipInfo, -⟩ := hn.index.consistent.exists_tip
  obtain ⟨info, hinfo⟩ := hblock
  unfold newPowValidBlock
  rw [Calm, sat_bind, sat_get, sat_bind]
  refine sat_askIndex_of_some htip ?_
  split
  · exact hn.quiet (Alike.refl n)
  · next hext =>
    rw [not_or, not_not] at hext
    rw [sat_bind]
    refine sat_askIndex_of_some hinfo ?_
    rw [sat_bind]
    refine sat_now fun now t ht => ?_
    have hquiet := hn.quiet ht
    split
    · exact hquiet
    · split
      · exact hquiet
      · rw [sat_bind]
        have hset := hquiet.trans
          (hquiet.ready.quiet (t := { t with highestFastAnnounce := info.index }) ⟨rfl, rfl⟩)
        show Sat _ { t with highestFastAnnounce := info.index } _ _
        split
        · exact hset
        · refine (calm_sendCompact hset.ready ?_ ?_ ?_).mono (fun _ u hu => hset.trans hu)
            fun _ _ h => h
          · intro id hid
            rwa [hset.ids]
          · exact ⟨info, by rw [hset.blockIndex, hinfo]⟩
          · refine ⟨tipInfo, ?_⟩
            rw [hset.blockIndex, hext.2, htipInfo]

/-! ## Checks -/

/-- A read that ends in the state it started from. -/
theorem sat_checkBlock {block : Block} {via : Bool} {Q : Unit → DownloadNode P S → Prop}
    {E : HandlerError → DownloadNode P S → Prop} (hQ : Q () n) (hE : ∀ e, E e n) :
    Sat (checkBlock rules block id via) n Q E := by
  have hrest : Sat (do
      let s := (← get).blockIndex
      let inbound := (← conn id).inbound
      if (s.getBlockInfo block.header.hash).any (fun info => info.status == .invalid)
          && rules.passesCheckBlock block then
        throw (blockRefusal "duplicate-invalid" !(via || inbound))
      else return () : Handler P S Unit) n Q E := by
    rw [sat_bind, sat_get]
    dsimp only
    rw [sat_bind]
    refine sat_conn (fun c _ _ => ?_) (hE _)
    split
    · exact hE _
    · exact hQ
  unfold checkBlock checkBody
  rw [sat_bind]
  split
  · exact hrest
  · split
    · exact hE _
    · exact hrest

theorem keeps_checkBlock (block : Block) (id : ℕ) (via : Bool) :
    Keeps rules (checkBlock rules block id via) :=
  keeps_of_sat fun _ hn => sat_checkBlock hn fun _ => hn

theorem keeps_refuseBeforeIndexing (block : Block) (id : ℕ) :
    Keeps rules (refuseBeforeIndexing rules block id) := by
  refine keeps_get.bind fun n => ?_
  dsimp only
  split
  · exact keeps_throw _
  · exact keeps_checkBlock block id false

/-- `invalidate` off the active chain. -/
theorem sat_invalidate {h : Hash} {info : BlockInfo} (hn : n.Fits rules)
    (hinfo : n.blockIndex.getBlockInfo h = some info) (hoff : h ∉ n.blockIndex.activeChain) :
    Sat (invalidate h) n (fun _ t => t.Fits rules) fun _ t => t.Fits rules := by
  unfold invalidate onIndex
  rw [sat_bind, sat_get, sat_bind]
  refine sat_lookup (fun x hx => ?_) hn
  rw [Option.map_eq_some_iff] at hx
  obtain ⟨s, hs, rfl⟩ := hx
  obtain ⟨hfit, hgrown⟩ := invalidate_fit hn.index hinfo hoff hs
  exact hn.withIndex hfit hgrown.known fun _ hw => hgrown.wanted hw

theorem sat_assertValid {block : Block} {via : Bool} {info : BlockInfo} (hn : n.Fits rules)
    (hinfo : n.blockIndex.getBlockInfo block.header.hash = some info)
    (hoff : block.header.hash ∉ n.blockIndex.activeChain) :
    Sat (assertValid rules block via) n (fun _ t => t = n) fun _ t => t.Fits rules := by
  unfold assertValid
  split
  · rw [sat_bind]
    refine sat_askIndex (fun segwit _ => ?_) hn
    rw [sat_bind]
    unfold doWhen
    split
    · exact (sat_invalidate hn hinfo hoff).mono (fun _ _ h => h) fun _ _ h => h
    · exact hn
  · exact rfl

theorem sat_assertContextual {block : Block} {height : ℕ} {via : Bool} {info : BlockInfo}
    (hn : n.Fits rules) (hinfo : n.blockIndex.getBlockInfo block.header.hash = some info)
    (hoff : block.header.hash ∉ n.blockIndex.activeChain) :
    Sat (assertContextual rules block height via) n (fun _ t => Alike n t)
      fun _ t => t.Fits rules := by
  unfold assertContextual
  rw [sat_bind]
  refine sat_now fun now t ht => ?_
  rw [sat_bind, sat_get]
  split
  · split
    · rw [sat_bind]
      rw [← ht.blockIndex] at hinfo hoff
      exact (sat_invalidate (hn.alike ht) hinfo hoff).mono (fun _ _ h => h) fun _ _ h => h
    · exact ht
  · exact ht

/-! ## Blocks -/

/-- A block stored and taken off every queue. -/
theorem Fits.stored {s : BlockIndex} {h : Hash} (hn : n.Fits rules)
    (hs : IndexFit rules.chain s) (hstored : Stored n.blockIndex s h)
    (hindex : t.blockIndex = s)
    (hl : List.Forall₂ (Connection.Lessens rules) n.connections t.connections)
    (hknown : ∀ c ∈ t.connections, c.blockAvailability.Known s)
    (hgone : ∀ c ∈ t.connections, h ∉ c.downloadQueue) : t.Fits rules := by
  have hbefore : ({ t with blockIndex := n.blockIndex } : DownloadNode P S).Fits rules := by
    refine hn.lessens rfl hl fun c hc x hx => ?_
    exact (hstored.known x).mp (hknown c hc x hx)
  refine ⟨hindex ▸ hs, hbefore.ids, hbefore.tidy, hindex ▸ hknown, hbefore.holders, ?_⟩
  intro c hc x hx
  rw [hindex]
  exact hstored.wanted (fun he => hgone c hc (he ▸ hx)) (hbefore.wanted c hc x hx)

/-- **A block held is awaited from nobody.** -/
theorem sat_holdBlock {block : Block} {info : BlockInfo} (hn : n.Fits rules)
    (hinfo : n.blockIndex.getBlockInfo block.header.hash = some info) :
    Sat (holdBlock rules block) n (fun _ t => t.Fits rules) fun _ t => t.Fits rules := by
  obtain ⟨s, hset, hfit, hstored⟩ := setDownloaded_fit hn.index hinfo
  unfold holdBlock
  rw [sat_bind]
  refine sat_onIndex_of_some (congrArg (Option.map (·, ())) hset) ?_
  -- the block is held, and may still be queued
  have hready : Ready rules ({ n with blockIndex := s } : DownloadNode P S) :=
    ⟨hfit, hn.ids, fun c hc x hx => (hstored.known x).mpr (hn.known c hc x hx)⟩
  rw [sat_bind]
  refine (calm_newPowValidBlock hready ((hstored.known _).mpr ⟨info, hinfo⟩)).mono
    (fun _ u hu => ?_) fun _ _ h => h.elim
  unfold dropBlockRequest
  rw [sat_bind]
  refine sat_now fun now v hv => ?_
  obtain ⟨g, hg, hsame⟩ := hu.connections
  have hconns : removeBlockRequest v.connections block.header.hash now none =
      n.connections.map fun c => (g c).forget block.header.hash now := by
    rw [hv.connections, hg]
    exact List.map_map
  have hof : ∀ c' ∈ removeBlockRequest v.connections block.header.hash now none,
      ∃ c ∈ n.connections, c' = (g c).forget block.header.hash now := by
    intro c' hc'
    rw [hconns] at hc'
    obtain ⟨c, hc, rfl⟩ := List.mem_map.mp hc'
    exact ⟨c, hc, rfl⟩
  refine hn.stored (t := { v with connections := removeBlockRequest v.connections _ now none })
    hfit hstored (hv.blockIndex.trans hu.blockIndex) ?_ (fun c' hc' => ?_) fun c' hc' => ?_
  · rw [hconns, List.forall₂_map_right_iff, List.forall₂_same]
    intro c hc
    have h₁ : c.Lessens rules (g c) := (hsame c hc).lessens
    have h₂ : (g c).Lessens rules ((g c).forget block.header.hash now) :=
      Connection.lessens_forget (g c) block.header.hash now
    exact ⟨h₂.id.trans h₁.id, fun h => h₁.status (h₂.status h), fun x hx =>
      h₁.queue x (h₂.queue x hx), fun h => h₂.tidy (h₁.tidy h)⟩
  · obtain ⟨c, hc, rfl⟩ := hof c' hc'
    have hk := hu.ready.known (g c) (hg ▸ List.mem_map_of_mem hc)
    rw [hu.blockIndex] at hk
    unfold Connection.forget
    split
    · exact hk
    · exact hk
  · obtain ⟨c, hc, rfl⟩ := hof c' hc'
    exact Connection.notMem_forget ((hsame c hc).lessens.tidy (hn.tidy c hc)) _ now

/-- **Storing a block keeps the invariant.** -/
theorem sat_storeBlock {block : Block} {via : Bool} {info : BlockInfo} (hn : n.Fits rules)
    (hinfo : n.blockIndex.getBlockInfo block.header.hash = some info) :
    Sat (storeBlock rules block id via) n (fun _ t => t.Fits rules) fun _ t => t.Fits rules := by
  have hrest : Sat (do
      modify fun n => { n with
        blockDb := n.blockDb.insert block.header.hash block
        blockSource := if block.header.hash ∈ n.blockSource then n.blockSource
          else n.blockSource.insert block.header.hash (id, !via) }
      let now ← now
      onConn id fun c => { c with lastNovelBlockTime := now.floor }
      holdBlock rules block : Handler P S Unit) n
      (fun _ t => t.Fits rules) fun _ t => t.Fits rules := by
    rw [sat_bind, sat_modify, sat_bind]
    refine sat_now fun now t ht => ?_
    rw [sat_bind]
    have ht₁ := hn.alike (t := t) ⟨ht.connections, ht.blockIndex⟩
    have hinfo' : t.blockIndex.getBlockInfo block.header.hash = some info := by
      rw [ht.blockIndex, hinfo]
    exact sat_holdBlock (ht₁.withConn fun c hc _ =>
      ⟨Connection.SameRequests.lessens ⟨rfl, fun h => h, rfl, rfl, rfl⟩, ht₁.known c hc⟩) hinfo'
  unfold storeBlock doWhen
  dsimp only
  rw [sat_bind]
  split
  · exact hn
  · exact hrest

/-- A block nobody asked for that is not refused is off the active chain, where
it is not held. -/
theorem off_of_unrequested {s : BlockIndex} {h : Hash} {info : BlockInfo}
    (hs : IndexFit rules.chain s) (hinfo : s.getBlockInfo h = some info)
    (hmissing : info.downloaded = false)
    (hkept : unrequestedBlockRefused rules s h = some false) : h ∉ s.activeChain := by
  intro hactive
  have ht := hs.consistent.headerTree
  obtain ⟨tip, tipInfo, htip, htipInfo, hpath, hwork⟩ := hs.consistent.exists_tip
  by_cases hne : h = tip
  · subst hne
    rw [hs.tipHeld h info htip hinfo] at hmissing
    cases hmissing
  · have hlt : s.weight h < s.weight tip := HeightTree.Path.weight_lt (fun hx => ht.work_lt ⟨_, hx⟩)
      hpath hactive hne
    unfold unrequestedBlockRefused at hkept
    rw [ht.work_eq hinfo, hinfo, htip] at hkept
    simp only [Option.bind_eq_bind, Option.bind_some, hwork] at hkept
    have hfalse := Option.some.inj hkept
    rw [decide_eq_false_iff_not] at hfalse
    exact hfalse (.inl hlt)

/-- **`_accept_block` keeps the invariant**, of a block asked for off the active
chain or of one nobody asked for. -/
theorem sat_acceptBlock {block : Block} {requested via : Bool} (hn : n.Fits rules)
    (hoff : requested = true → block.header.hash ∉ n.blockIndex.activeChain) :
    Sat (acceptBlock rules block id requested via) n (fun _ t => t.Fits rules)
      fun _ t => t.Fits rules := by
  unfold acceptBlock
  rw [sat_bind]
  refine sat_askIndex (fun info hinfo => ?_) hn
  rw [sat_bind]
  refine sat_askIndex (fun refused hrefused => ?_) hn
  split
  · exact hn.alike ⟨rfl, rfl⟩
  · next hgo =>
    simp only [Bool.or_eq_true, not_or, Bool.not_eq_true] at hgo
    have hoff' : block.header.hash ∉ n.blockIndex.activeChain := by
      cases requested with
      | true => exact hoff rfl
      | false => exact off_of_unrequested hn.index hinfo hgo.1 (hgo.2 ▸ hrefused)
    rw [sat_bind]
    refine (sat_assertValid hn hinfo hoff').mono (fun _ t ht => ?_) fun _ _ h => h
    subst ht
    rw [sat_bind]
    refine (sat_assertContextual hn hinfo hoff').mono (fun _ u hu => ?_) fun _ _ h => h
    rw [← hu.blockIndex] at hinfo
    exact sat_storeBlock (hn.alike hu) hinfo

end BtclibNode.DownloadNode
