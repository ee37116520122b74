/-
# What is in flight

The invariant of block download.  A connection's queue has no duplicate and no
more than `maxBlocksInTransitPerPeer` blocks, and what is kept beside the queue
is about blocks of it; an established connection shares a block with at most two
others; and no block that is held, or on the active chain, is awaited.
-/
import BtclibNode.Chainstate.IndexCalls
import BtclibNode.Download.Handlers

namespace BtclibNode

open BlockIndex HeightTree

variable {P S : Type}

/-! ## One connection -/

/-- The requests of a connection are in order. -/
structure Connection.Tidy (rules : DownloadRules P S) (c : Connection P S) : Prop where
  nodup : c.downloadQueue.Nodup
  length_le : c.downloadQueue.length ≤ maxBlocksInTransitPerPeer
  partials : ∀ h ∈ c.blockAvailability.partialBlocks, h ∈ c.downloadQueue
  orders : ∀ h ∈ c.blockAvailability.requestOrder, h ∈ c.downloadQueue
  header : ∀ h p, c.blockAvailability.partialBlocks[h]? = some (some p) →
    (rules.headerOf p).hash = h

/-- `c'` is `c` with no new request. -/
structure Connection.Lessens (rules : DownloadRules P S) (c c' : Connection P S) : Prop where
  id : c'.id = c.id
  status : c'.status = .connected → c.status = .connected
  queue : ∀ h ∈ c'.downloadQueue, h ∈ c.downloadQueue
  tidy : c.Tidy rules → c'.Tidy rules

/-- `c'` has the requests of `c`. -/
structure Connection.SameRequests (c c' : Connection P S) : Prop where
  id : c'.id = c.id
  status : c'.status = .connected → c.status = .connected
  queue : c'.downloadQueue = c.downloadQueue
  partials : c'.blockAvailability.partialBlocks = c.blockAvailability.partialBlocks
  orders : c'.blockAvailability.requestOrder = c.blockAvailability.requestOrder

namespace Connection

variable {rules : DownloadRules P S} {c c' c'' : Connection P S} {h : Hash}

theorem SameRequests.refl (c : Connection P S) : c.SameRequests c := ⟨rfl, fun hx => hx, rfl, rfl, rfl⟩

theorem SameRequests.lessens (hs : c.SameRequests c') : c.Lessens rules c' where
  id := hs.id
  status := hs.status
  queue := fun x hx => by rwa [hs.queue] at hx
  tidy := fun ht => by
    refine ⟨?_, ?_, fun x hx => ?_, fun x hx => ?_, fun x p hp => ?_⟩
    · rw [hs.queue]
      exact ht.nodup
    · rw [hs.queue]
      exact ht.length_le
    · rw [hs.queue]
      rw [hs.partials] at hx
      exact ht.partials x hx
    · rw [hs.queue]
      rw [hs.orders] at hx
      exact ht.orders x hx
    · rw [hs.partials] at hp
      exact ht.header x p hp

theorem Lessens.refl (rules : DownloadRules P S) (c : Connection P S) : c.Lessens rules c :=
  ⟨rfl, fun hx => hx, fun _ hx => hx, fun hx => hx⟩

/-- A request taken off the queue takes what is kept beside it along. -/
theorem lessens_forget (c : Connection P S) (h : Hash) (now : ℚ) :
    c.Lessens rules (c.forget h now) := by
  unfold forget
  split
  · exact Lessens.refl rules c
  · refine ⟨rfl, fun hx => hx, fun x hx => List.mem_of_mem_erase hx, fun ht => ?_⟩
    have hkeep : ∀ x ∈ c.downloadQueue, x ≠ h → x ∈ c.downloadQueue.erase h := fun x hx hne =>
      (List.mem_erase_of_ne hne).mpr hx
    refine ⟨ht.nodup.erase h, ?_, fun x hx => ?_, fun x hx => ?_, fun x p hp => ?_⟩
    · exact (List.erase_sublist.length_le).trans ht.length_le
    · rw [Std.ExtTreeMap.mem_erase] at hx
      exact hkeep x (ht.partials x hx.2) fun he => hx.1 (he ▸ Std.ReflCmp.compare_self)
    · rw [Std.ExtTreeMap.mem_erase] at hx
      exact hkeep x (ht.orders x hx.2) fun he => hx.1 (he ▸ Std.ReflCmp.compare_self)
    · rw [FiniteMap.getElem?_erase] at hp
      split at hp
      · cases hp
      · exact ht.header x p hp

theorem notMem_forget (ht : c.Tidy rules) (h : Hash) (now : ℚ) :
    h ∉ (c.forget h now).downloadQueue := by
  unfold forget
  split
  · assumption
  · exact ht.nodup.not_mem_erase

/-- A queue grown by blocks that are not in it, within the bound. -/
theorem Tidy.append {blocks : List Hash} (ht : c.Tidy rules) (now : ℚ) (hnodup : blocks.Nodup)
    (hfresh : ∀ b ∈ blocks, b ∉ c.downloadQueue)
    (hroom : c.downloadQueue.length + blocks.length ≤ maxBlocksInTransitPerPeer) :
    ({ c with
      downloadQueue := c.downloadQueue ++ blocks
      blockAvailability := { c.blockAvailability with downloadingSince := now } } :
        Connection P S).Tidy rules where
  nodup := by
    refine List.nodup_append.mpr ⟨ht.nodup, hnodup, ?_⟩
    rintro x hx y hy rfl
    exact hfresh x hy hx
  length_le := by rwa [List.length_append]
  partials := fun x hx => List.mem_append_left _ (ht.partials x hx)
  orders := fun x hx => List.mem_append_left _ (ht.orders x hx)
  header := ht.header

end Connection

/-! ## All of them -/

/-- How many established connections a block is queued from. -/
def holdersOf (connections : List (Connection P S)) (h : Hash) : ℕ :=
  connections.countP fun c => decide (c.status = .connected ∧ h ∈ c.downloadQueue)

section Holders

variable {connections connections' : List (Connection P S)} {h : Hash}

/-- Every connection is what one of the connections before became. -/
theorem exists_of_lessens {rules : DownloadRules P S} {c' : Connection P S}
    (hl : List.Forall₂ (Connection.Lessens rules) connections connections')
    (hc' : c' ∈ connections') : ∃ c ∈ connections, c.Lessens rules c' := by
  obtain ⟨i, hi, rfl⟩ := List.getElem_of_mem hc'
  have hlen := hl.length_eq
  exact ⟨connections[i], List.getElem_mem _, List.forall₂_iff_get.mp hl |>.2 i (by omega) hi⟩

theorem ids_of_lessens {rules : DownloadRules P S}
    (hl : List.Forall₂ (Connection.Lessens rules) connections connections') :
    connections'.map Connection.id = connections.map Connection.id := by
  refine List.forall₂_eq_eq_eq ▸ ?_
  rw [List.forall₂_map_left_iff, List.forall₂_map_right_iff]
  exact hl.flip.imp fun _ _ h => h.id

theorem holdersOf_le_of_lessens {rules : DownloadRules P S}
    (hl : List.Forall₂ (Connection.Lessens rules) connections connections') (h : Hash) :
    holdersOf connections' h ≤ holdersOf connections h := by
  induction hl with
  | nil => exact Nat.le_refl _
  | cons hc _ ih =>
    unfold holdersOf at ih ⊢
    rw [List.countP_cons, List.countP_cons]
    refine Nat.add_le_add ih ?_
    split
    · next hx =>
      rw [decide_eq_true_iff] at hx
      rw [if_pos (decide_eq_true ⟨hc.status hx.1, hc.queue h hx.2⟩)]
    · exact Nat.zero_le _

/-- A block nobody established is asked for. -/
theorem holdersOf_eq_zero
    (hx : ∀ c ∈ connections, c.status = .connected → h ∉ c.downloadQueue) :
    holdersOf connections h = 0 := by
  unfold holdersOf
  rw [List.countP_eq_zero]
  intro c hc
  rw [decide_eq_true_iff]
  exact fun hc' => hx c hc hc'.1 hc'.2

/-- One connection changed: the others count as before. -/
theorem holdersOf_map_le {id : ℕ} {f : Connection P S → Connection P S} {h : Hash}
    (hids : (connections.map Connection.id).Nodup) :
    holdersOf (connections.map fun c => if c.id = id then f c else c) h ≤
      holdersOf connections h + 1 := by
  induction connections with
  | nil => exact Nat.zero_le _
  | cons c connections ih =>
    rw [List.map_cons, List.nodup_cons] at hids
    rw [List.map_cons]
    by_cases hc : c.id = id
    · have hrest : connections.map (fun c => if c.id = id then f c else c) = connections := by
        refine (List.map_congr_left fun c' hc' => ?_).trans (List.map_id _)
        refine if_neg fun he => hids.1 ?_
        rw [hc, ← he]
        exact List.mem_map_of_mem hc'
      rw [hrest, if_pos hc]
      unfold holdersOf
      rw [List.countP_cons, List.countP_cons]
      split <;> omega
    · have := ih hids.2
      rw [if_neg hc]
      unfold holdersOf at this ⊢
      rw [List.countP_cons, List.countP_cons]
      omega

/-- The peers a block is asked of are no fewer than the established ones. -/
theorem holdersOf_le_inFlightFrom (connections : List (Connection P S)) (h : Hash) :
    holdersOf connections h ≤ (inFlightFrom connections h).length := by
  unfold holdersOf inFlightFrom
  rw [List.length_insertionSort, ← List.countP_eq_length_filter]
  refine List.countP_mono_left fun c _ hc => ?_
  rw [decide_eq_true_iff] at hc ⊢
  exact hc.2

end Holders

/-! ## What is first in flight -/

section FirstInFlight

variable {connections : List (Connection P S)} {h : Hash}

theorem mem_firstInFlightOf (c : Connection P S)
    (first : Std.ExtTreeMap Hash (Connection P S)) (h : Hash)
    (hx : h ∈ first ∨ h ∈ c.downloadQueue) : h ∈ firstInFlightOf c first := by
  unfold firstInFlightOf
  generalize c.downloadQueue = queue at hx
  induction queue generalizing first with
  | nil =>
    rcases hx with hx | hx
    · exact hx
    · cases hx
  | cons x queue ih =>
    rw [List.foldl_cons]
    refine ih _ ?_
    rcases hx with hx | hx
    · left
      split
      · exact Std.ExtTreeMap.mem_insert.mpr (.inr hx)
      · split
        · exact Std.ExtTreeMap.mem_insert.mpr (.inr hx)
        · exact hx
    · rcases List.mem_cons.mp hx with rfl | hx
      · left
        split
        · exact Std.ExtTreeMap.mem_insert_self
        · next held hheld =>
          split
          · exact Std.ExtTreeMap.mem_insert_self
          · exact (FiniteMap.mem_iff_exists _ _).mpr ⟨held, hheld⟩
      · exact .inr hx

/-- **Every block of a queue is in the map.** -/
theorem mem_firstInFlight {c : Connection P S} (hc : c ∈ connections) (hh : h ∈ c.downloadQueue) :
    h ∈ firstInFlight connections := by
  unfold firstInFlight
  rw [Std.ExtTreeMap.mem_map]
  have key : ∀ (first : Std.ExtTreeMap Hash (Connection P S)), (h ∈ first ∨ c ∈ connections) →
      h ∈ connections.foldl (fun first c => firstInFlightOf c first) first := by
    intro first hx
    clear hc
    induction connections generalizing first with
    | nil =>
      rcases hx with hx | hx
      · exact hx
      · cases hx
    | cons c' connections ih =>
      rw [List.foldl_cons]
      refine ih _ ?_
      rcases hx with hx | hx
      · exact .inl (mem_firstInFlightOf c' first h (.inl hx))
      · rcases List.mem_cons.mp hx with rfl | hx
        · exact .inl (mem_firstInFlightOf c first h (.inr hh))
        · exact .inr hx
  exact key ∅ (.inr hc)

end FirstInFlight

/-! ## The invariant -/

/-- What block download relies on of the index. -/
structure IndexFit (chain : Chain) (s : BlockIndex) : Prop where
  consistent : Consistent chain s
  skips : ∀ x info, s.getBlockInfo x = some info → info.index ≠ 0 → x ∈ s.skip
  tipHeld : ∀ tip info, s.activeChain.getLast? = some tip → s.getBlockInfo tip = some info →
    info.downloaded = true

/-- A block that may be awaited: neither held nor on the active chain. -/
structure Wanted (s : BlockIndex) (h : Hash) : Prop where
  off : h ∉ s.activeChain
  missing : ∀ info, s.getBlockInfo h = some info → info.downloaded = false

/-- What a peer is known to have is indexed. -/
def BlockAvailability.Known (s : BlockIndex) (a : BlockAvailability P) : Prop :=
  ∀ h, a.bestKnown = some h ∨ a.bestHeaderSent = some h → ∃ info, s.getBlockInfo h = some info

/-- Block requests in flight are consistent. -/
structure DownloadNode.Fits (rules : DownloadRules P S) (n : DownloadNode P S) : Prop where
  index : IndexFit rules.chain n.blockIndex
  ids : (n.connections.map Connection.id).Nodup
  tidy : ∀ c ∈ n.connections, c.Tidy rules
  known : ∀ c ∈ n.connections, c.blockAvailability.Known n.blockIndex
  holders : ∀ h, holdersOf n.connections h ≤ maxCmpctblocksInflightPerBlock
  wanted : ∀ c ∈ n.connections, ∀ h ∈ c.downloadQueue, Wanted n.blockIndex h

namespace DownloadNode

variable {rules : DownloadRules P S} {n t : DownloadNode P S}

/-- `t` has the connections and the index of `n`. -/
structure Alike (n t : DownloadNode P S) : Prop where
  connections : t.connections = n.connections
  blockIndex : t.blockIndex = n.blockIndex

theorem Fits.alike (hn : n.Fits rules) (h : Alike n t) : t.Fits rules := by
  obtain ⟨hconns, hindex⟩ := h
  refine ⟨?_, ?_, ?_, ?_, ?_, ?_⟩
  · rw [hindex]
    exact hn.index
  · rw [hconns]
    exact hn.ids
  · rw [hconns]
    exact hn.tidy
  · rw [hconns, hindex]
    exact hn.known
  · rw [hconns]
    exact hn.holders
  · rw [hconns, hindex]
    exact hn.wanted

/-- Requests dropped, and nothing else that matters. -/
theorem Fits.lessens (hn : n.Fits rules) (hindex : t.blockIndex = n.blockIndex)
    (hl : List.Forall₂ (Connection.Lessens rules) n.connections t.connections)
    (hknown : ∀ c ∈ t.connections, c.blockAvailability.Known n.blockIndex) : t.Fits rules := by
  have hof := fun c' (hc' : c' ∈ t.connections) => exists_of_lessens hl hc'
  refine ⟨hindex ▸ hn.index, ?_, fun c' hc' => ?_, hindex ▸ hknown, fun h => ?_, ?_⟩
  · rw [ids_of_lessens hl]
    exact hn.ids
  · obtain ⟨c, hc, hcc⟩ := hof c' hc'
    exact hcc.tidy (hn.tidy c hc)
  · exact (holdersOf_le_of_lessens hl h).trans (hn.holders h)
  · intro c' hc' h hh
    obtain ⟨c, hc, hcc⟩ := hof c' hc'
    rw [hindex]
    exact hn.wanted c hc h (hcc.queue h hh)

/-- One connection's requests dropped. -/
theorem Fits.withConn (hn : n.Fits rules) {id : ℕ} {f : Connection P S → Connection P S}
    (hf : ∀ c ∈ n.connections, c.id = id →
      c.Lessens rules (f c) ∧ (f c).blockAvailability.Known n.blockIndex) :
    (n.withConn id f).Fits rules := by
  refine hn.lessens rfl ?_ ?_
  · show List.Forall₂ _ _ (n.connections.map _)
    rw [List.forall₂_map_right_iff, List.forall₂_same]
    intro c hc
    split
    · next hid => exact (hf c hc hid).1
    · exact Connection.Lessens.refl rules c
  · intro c' hc'
    obtain ⟨c, hc, rfl⟩ := List.mem_map.mp hc'
    split
    · next hid => exact (hf c hc hid).2
    · exact hn.known c hc

/-- **New requests of one connection**: blocks wanted, not in its queue, and
asked of fewer than `maxCmpctblocksInflightPerBlock` others. -/
theorem Fits.request (hn : n.Fits rules) {id : ℕ} (blocks : List Hash)
    {f : Connection P S → Connection P S}
    (hf : ∀ c ∈ n.connections, c.id = id → (f c).id = c.id ∧ (f c).Tidy rules ∧
      (f c).blockAvailability.Known n.blockIndex ∧
      ∀ h ∈ (f c).downloadQueue, h ∈ c.downloadQueue ∨ h ∈ blocks)
    (hstatus : ∀ c ∈ n.connections, c.id = id → (f c).status = c.status)
    (hwanted : ∀ b ∈ blocks, Wanted n.blockIndex b)
    (hfew : ∀ b ∈ blocks, holdersOf n.connections b < maxCmpctblocksInflightPerBlock) :
    (n.withConn id f).Fits rules := by
  have hof : ∀ c' ∈ (n.withConn id f).connections, ∃ c ∈ n.connections,
      c' = if c.id = id then f c else c := by
    intro c' hc'
    obtain ⟨c, hc, rfl⟩ := List.mem_map.mp hc'
    exact ⟨c, hc, rfl⟩
  refine ⟨hn.index, ?_, ?_, ?_, fun h => ?_, ?_⟩
  · show ((n.connections.map _).map Connection.id).Nodup
    rw [List.map_map]
    refine (List.map_congr_left fun c hc => ?_) ▸ hn.ids
    show c.id = (if c.id = id then f c else c).id
    split
    · next hid => exact (hf c hc hid).1.symm
    · rfl
  · intro c' hc'
    obtain ⟨c, hc, rfl⟩ := hof c' hc'
    split
    · next hid => exact (hf c hc hid).2.1
    · exact hn.tidy c hc
  · intro c' hc'
    obtain ⟨c, hc, rfl⟩ := hof c' hc'
    split
    · next hid => exact (hf c hc hid).2.2.1
    · exact hn.known c hc
  · by_cases hb : h ∈ blocks
    · exact (holdersOf_map_le hn.ids).trans (hfew h hb)
    · -- a block that is not asked for now counts no more than before
      refine le_trans ?_ (hn.holders h)
      show holdersOf (n.connections.map _) h ≤ _
      unfold holdersOf
      rw [List.countP_map]
      refine List.countP_mono_left fun c hc hx => ?_
      rw [Function.comp_apply, decide_eq_true_iff] at hx
      rw [decide_eq_true_iff]
      by_cases hid : c.id = id
      · rw [if_pos hid] at hx
        refine ⟨hstatus c hc hid ▸ hx.1, ?_⟩
        exact ((hf c hc hid).2.2.2 h hx.2).resolve_right hb
      · rwa [if_neg hid] at hx
  · intro c' hc' h hh
    obtain ⟨c, hc, rfl⟩ := hof c' hc'
    by_cases hid : c.id = id
    · rw [if_pos hid] at hh
      rcases (hf c hc hid).2.2.2 h hh with hh | hh
      · exact hn.wanted c hc h hh
      · exact hwanted h hh
    · rw [if_neg hid] at hh
      exact hn.wanted c hc h hh

end DownloadNode

end BtclibNode
