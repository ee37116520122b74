/-
# What the handlers keep

Every method and handler of block download leaves `Fits` true, whichever way it
ends.  Those that read, or set what the invariant is not about, do so from any
state; those that ask for a block or store one, where the handler has checked.
-/
import BtclibNode.Chainstate.Ancestors
import BtclibNode.Download.Choice

namespace BtclibNode.DownloadNode

open StateExcept BlockIndex BlockAvailability

variable {P S : Type} {rules : DownloadRules P S} {n t : DownloadNode P S} {α β : Type}

theorem Alike.refl (n : DownloadNode P S) : Alike n n := ⟨rfl, rfl⟩

theorem Alike.trans {u : DownloadNode P S} (h : Alike n t) (h' : Alike t u) : Alike n u :=
  ⟨h'.connections.trans h.connections, h'.blockIndex.trans h.blockIndex⟩

/-! ## Reads -/

section Reads

variable {Q : α → DownloadNode P S → Prop} {E : HandlerError → DownloadNode P S → Prop}

theorem sat_now {Q : ℚ → DownloadNode P S → Prop} (h : ∀ q t, Alike n t → Q q t) :
    Sat now n Q E := h _ _ ⟨rfl, rfl⟩

theorem sat_lookup {x : Option α} (h : ∀ a, x = some a → Q a n) (hE : E .key n) :
    Sat (lookup x) n Q E := by
  cases x with
  | none => exact hE
  | some a => exact h a rfl

theorem sat_askIndex {f : BlockIndex → Option α} (h : ∀ a, f n.blockIndex = some a → Q a n)
    (hE : E .key n) : Sat (askIndex f) n Q E := by
  unfold askIndex
  rw [sat_bind, sat_get]
  exact sat_lookup h hE

theorem sat_conn {id : ℕ} {Q : Connection P S → DownloadNode P S → Prop}
    (h : ∀ c ∈ n.connections, c.id = id → Q c n) (hE : E .key n) : Sat (conn id) n Q E := by
  unfold conn
  rw [sat_bind, sat_get]
  refine sat_lookup (fun c hc => h c (List.mem_of_find?_eq_some hc) ?_) hE
  have := List.find?_some hc
  rwa [beq_iff_eq] at this

theorem sat_activeTip {Q : Hash → DownloadNode P S → Prop}
    (h : ∀ tip, n.blockIndex.activeChain.getLast? = some tip → Q tip n) (hE : E .key n) :
    Sat activeTip n Q E := sat_askIndex h hE

end Reads

/-! ## The programs that keep the invariant -/

/-- `x` keeps the invariant, from any state. -/
abbrev Keeps (rules : DownloadRules P S) (x : Handler P S α) : Prop :=
  Moves (fun n t => n.Fits rules → t.Fits rules) x

/-- Keeping the invariant is a matter of the states that satisfy it. -/
theorem keeps_of_sat {x : Handler P S α} (h : ∀ n, n.Fits rules →
    Sat x n (fun _ t => t.Fits rules) fun _ t => t.Fits rules) : Keeps rules x := by
  intro n
  by_cases hn : n.Fits rules
  · exact (h n hn).mono (fun _ _ ht _ => ht) fun _ _ ht _ => ht
  · unfold Sat
    cases x n with
    | ok a t => exact fun h' => absurd h' hn
    | error e t => exact fun h' => absurd h' hn

theorem Keeps.sat {x : Handler P S α} (hx : Keeps rules x) (hn : n.Fits rules) :
    Sat x n (fun _ t => t.Fits rules) fun _ t => t.Fits rules :=
  (hx n).mono (fun _ _ h => h hn) fun _ _ h => h hn

theorem Keeps.bind {x : Handler P S α} {f : α → Handler P S β} (hx : Keeps rules x)
    (hf : ∀ a, Keeps rules (f a)) : Keeps rules (x >>= f) :=
  Moves.bind (fun _ _ _ h h' hn => h' (h hn)) hx hf

theorem keeps_pure (a : α) : Keeps rules (pure a : Handler P S α) := moves_pure (fun _ h => h) a

theorem keeps_throw (e : HandlerError) : Keeps rules (throw e : Handler P S α) :=
  moves_throw (fun _ h => h) e

theorem keeps_doWhen {x : Handler P S Unit} (c : Bool) (hx : Keeps rules x) :
    Keeps rules (doWhen c x) := by
  cases c with
  | false => exact keeps_pure ()
  | true => exact hx

theorem keeps_get : Keeps rules (get : Handler P S (DownloadNode P S)) := moves_get fun _ h => h

theorem keeps_modify {g : DownloadNode P S → DownloadNode P S}
    (h : ∀ n, n.Fits rules → (g n).Fits rules) : Keeps rules (modify g : Handler P S Unit) :=
  moves_modify h

/-- What is neither a connection nor the index is free. -/
theorem keeps_alike {g : DownloadNode P S → DownloadNode P S} (h : ∀ n, Alike n (g n)) :
    Keeps rules (modify g : Handler P S Unit) := keeps_modify fun n hn => hn.alike (h n)

theorem keeps_now : Keeps rules (now : Handler P S ℚ) :=
  fun _ => sat_now fun _ _ h hn => hn.alike h

theorem keeps_lookup (x : Option α) : Keeps rules (lookup x : Handler P S α) := by
  cases x with
  | none => exact keeps_throw _
  | some a => exact keeps_pure a

theorem keeps_askIndex (f : BlockIndex → Option α) : Keeps rules (askIndex f : Handler P S α) :=
  fun _ => sat_askIndex (fun _ _ hn => hn) fun hn => hn

theorem keeps_conn (id : ℕ) : Keeps rules (conn id : Handler P S (Connection P S)) :=
  fun _ => sat_conn (fun _ _ _ hn => hn) fun hn => hn

theorem keeps_activeTip : Keeps rules (activeTip : Handler P S Hash) := keeps_askIndex _

theorem keeps_send (id : ℕ) (msg : Payload) : Keeps rules (send id msg : Handler P S Unit) :=
  keeps_alike fun _ => ⟨rfl, rfl⟩

theorem keeps_popTimestamp (id : ℕ) : Keeps rules (popTimestamp id : Handler P S Unit) :=
  keeps_alike fun _ => ⟨rfl, rfl⟩

/-- A field that is no request and nothing the peer is known to have. -/
theorem keeps_onConn {id : ℕ} {f : Connection P S → Connection P S}
    (hf : ∀ c : Connection P S, c.SameRequests (f c)) (hk : ∀ c s, c.blockAvailability.Known s →
      (f c).blockAvailability.Known s) : Keeps rules (onConn id f : Handler P S Unit) :=
  keeps_modify fun _ hn => hn.withConn fun c hc _ => ⟨(hf c).lessens, hk c _ (hn.known c hc)⟩

theorem keeps_stop (id : ℕ) : Keeps rules (stop id : Handler P S Unit) :=
  keeps_onConn (fun _ => ⟨rfl, (fun h => by cases h), rfl, rfl, rfl⟩) fun _ _ h => h

/-- What `block_availability.py` does to a connection's state. -/
theorem keeps_callAvailability {id : ℕ}
    {f : BlockIndex → BlockAvailability P → Option (BlockAvailability P × α)}
    (hf : ∀ s a a' x, f s a = some (a', x) → a.Known s → IndexFit rules.chain s → Kept s a a') :
    Keeps rules (callAvailability id f : Handler P S α) := by
  intro n
  unfold callAvailability
  rw [sat_bind]
  refine sat_conn (fun c hc hid => ?_) fun hn => hn
  rw [sat_bind]
  refine sat_askIndex (fun x hx => ?_) fun hn => hn
  obtain ⟨a, result⟩ := x
  rw [sat_bind]
  intro hn
  have hkept := hf _ _ _ _ hx (hn.known c hc) hn.index
  refine hn.withConn fun c' hc' hid' => ?_
  -- the ids are distinct: it is the connection that was read
  obtain rfl : c' = c := List.inj_on_of_nodup_map hn.ids hc' hc (hid'.trans hid.symm)
  exact ⟨Connection.SameRequests.lessens ⟨rfl, fun h => h, rfl, hkept.partials, hkept.orders⟩,
    hkept.known (hn.known c' hc)⟩

theorem keeps_updateBlockAvailability (id : ℕ) (h : Hash) :
    Keeps rules (updateBlockAvailability id h : Handler P S Unit) := by
  refine keeps_callAvailability fun s a a' x heq _ _ => ?_
  rw [Option.map_eq_some_iff] at heq
  obtain ⟨b, hb, heq⟩ := heq
  cases heq
  exact kept_update hb

theorem keeps_dropBlockRequest (h : Hash) (fromPeer : Option ℕ) :
    Keeps rules (dropBlockRequest h fromPeer : Handler P S Unit) := by
  refine keeps_now.bind fun now => keeps_modify fun n hn => ?_
  refine hn.lessens rfl ?_ ?_
  · show List.Forall₂ _ _ (n.connections.map _)
    rw [List.forall₂_map_right_iff, List.forall₂_same]
    intro c hc
    split
    · exact Connection.lessens_forget c h now
    · exact Connection.Lessens.refl rules c
  · intro c' hc'
    obtain ⟨c, hc, rfl⟩ := List.mem_map.mp hc'
    split
    · unfold Connection.forget
      split
      · exact hn.known c hc
      · exact hn.known c hc
    · exact hn.known c hc

/-! ## The index -/

/-- An index with the blocks held and the active chain of another. -/
structure Grown (s t : BlockIndex) : Prop where
  active : t.activeChain = s.activeChain
  known : ∀ h info, s.getBlockInfo h = some info → ∃ info', t.getBlockInfo h = some info'
  held : ∀ h info', t.getBlockInfo h = some info' → info'.downloaded = true →
    ∃ info, s.getBlockInfo h = some info ∧ info.downloaded = true

theorem Grown.wanted {s t : BlockIndex} {h : Hash} (hg : Grown s t) (hw : Wanted s h) :
    Wanted t h := by
  refine ⟨hg.active ▸ hw.off, fun info' hinfo' => ?_⟩
  cases hd : info'.downloaded with
  | false => rfl
  | true =>
    obtain ⟨info, hinfo, hheld⟩ := hg.held h info' hinfo' hd
    rw [hw.missing info hinfo] at hheld
    cases hheld

/-- A new index with the same connections. -/
theorem Fits.withIndex (hn : n.Fits rules) {s : BlockIndex} (hs : IndexFit rules.chain s)
    (hknown : ∀ h info, n.blockIndex.getBlockInfo h = some info →
      ∃ info', s.getBlockInfo h = some info')
    (hwanted : ∀ h, Wanted n.blockIndex h → Wanted s h) :
    ({ n with blockIndex := s } : DownloadNode P S).Fits rules where
  index := hs
  ids := hn.ids
  tidy := hn.tidy
  known := fun c hc h hh => by
    obtain ⟨info, hinfo⟩ := hn.known c hc h hh
    exact hknown h info hinfo
  holders := hn.holders
  wanted := fun c hc h hh => hwanted h (hn.wanted c hc h hh)

/-- A call of the index that stores no block. -/
theorem keeps_onIndex {f : BlockIndex → Option (BlockIndex × α)}
    (hf : ∀ s t x, IndexFit rules.chain s → f s = some (t, x) →
      IndexFit rules.chain t ∧ Grown s t) :
    Keeps rules (onIndex f : Handler P S α) := by
  intro n
  unfold onIndex
  rw [sat_bind, sat_get, sat_bind]
  refine sat_lookup (fun x hx => ?_) fun hn => hn
  obtain ⟨t, a⟩ := x
  rw [sat_bind]
  intro hn
  obtain ⟨hfit, hgrown⟩ := hf _ _ _ hn.index hx
  exact hn.withIndex hfit hgrown.known fun h hw => hgrown.wanted hw

theorem Grown.refl (s : BlockIndex) : Grown s s :=
  ⟨rfl, fun _ info h => ⟨info, h⟩, fun _ info h hd => ⟨info, h, hd⟩⟩

theorem Grown.trans {s t u : BlockIndex} (h : Grown s t) (h' : Grown t u) : Grown s u := by
  refine ⟨h'.active.trans h.active, fun x info hx => ?_, fun x info hx hd => ?_⟩
  · obtain ⟨info', hinfo'⟩ := h.known x info hx
    exact h'.known x info' hinfo'
  · obtain ⟨info', hinfo', hd'⟩ := h'.held x info hx hd
    exact h.held x info' hinfo' hd'

end BtclibNode.DownloadNode

/-!
# What the handlers do to the index

A batch of headers adds leaves, an invalidation changes statuses off the active
chain, and a block that is stored is held: each returns, leaves the index fit for
block download, and no other block held.
-/

namespace BtclibNode.DownloadNode

open BlockIndex HeightTree

variable {chain : Chain} {s t : BlockIndex} {h : Hash}

/-! ## New headers -/

/-- A batch of headers leaves the records there are, and adds none of a block held. -/
structure HeadersOnly (s t : BlockIndex) : Prop where
  active : t.activeChain = s.activeChain
  info : ∀ x info, s.getBlockInfo x = some info → t.getBlockInfo x = some info
  new : ∀ x info, t.getBlockInfo x = some info →
    s.getBlockInfo x = some info ∨ info.downloaded = false

theorem headersOnly_of_added (h : HeadersAdded chain s t) : HeadersOnly s t := by
  induction h with
  | refl => exact ⟨rfl, fun _ _ h => h, fun _ _ h => .inl h⟩
  | @tail u v header parentHeight currentWork _ hnew hins _ ih =>
    refine ⟨?_, fun x info hx => ?_, fun x info hx => ?_⟩
    · rw [hins.others]
      exact ih.active
    · have hu := ih.info x info hx
      rw [hins.info, if_neg (hnew.ne hu), hu]
    · rw [hins.info] at hx
      split at hx
      · obtain rfl := Option.some.inj hx
        exact .inr rfl
      · exact ih.new x info hx

theorem HeadersOnly.grown (h : HeadersOnly s t) : Grown s t := by
  refine ⟨h.active, fun x info hx => ⟨info, h.info x info hx⟩, fun x info hx hd => ?_⟩
  rcases h.new x info hx with hx | hx
  · exact ⟨info, hx, hd⟩
  · rw [hx] at hd
    cases hd

/-- **`add_headers` leaves the index fit.** -/
theorem addHeaders_fit {headers : List BlockHeader} {punish minPow : Bool} {now : ℤ}
    {result : Except HeaderError (Option Hash)} (hs : IndexFit chain s)
    (heq : s.addHeaders chain headers punish minPow now = some (t, result)) :
    IndexFit chain t ∧ HeadersOnly s t := by
  obtain ⟨t', result', heq', hadded, hcons⟩ := hs.consistent.addHeaders_eq headers punish minPow now
  rw [heq, Option.some.injEq, Prod.mk.injEq] at heq'
  obtain ⟨rfl, -⟩ := heq'
  have honly := headersOnly_of_added hadded
  refine ⟨⟨hcons, skipped_addHeaders hs.skips heq, fun tip info htip hinfo => ?_⟩, honly⟩
  rw [honly.active] at htip
  obtain ⟨tip', tipInfo, htip', htipInfo, -⟩ := hs.consistent.exists_tip
  rw [htip, Option.some.injEq] at htip'
  subst htip'
  rw [honly.info tip tipInfo htipInfo, Option.some.injEq] at hinfo
  exact hinfo ▸ hs.tipHeld tip tipInfo htip htipInfo

/-! ## Invalidity -/

/-- Records rewritten that keep whether a block is held. -/
theorem fit_of_recordsSet {f : BlockInfo → BlockInfo} {r : List Hash} {u : BlockIndex}
    (hs : IndexFit chain s) (hst : RecordsSet f r s u)
    (hf : ∀ info, (f info).downloaded = info.downloaded) (hdict : t.headerDict = u.headerDict)
    (hskip : t.skip = u.skip) (hactive : t.activeChain = s.activeChain)
    (hcons : Consistent chain t) : IndexFit chain t ∧ Grown s t := by
  have hget : ∀ x, t.getBlockInfo x = u.getBlockInfo x := fun x => by
    unfold getBlockInfo
    rw [hdict]
  have hdown : ∀ x info', t.getBlockInfo x = some info' →
      ∃ info, s.getBlockInfo x = some info ∧ info.downloaded = info'.downloaded := by
    intro x info' hx
    rw [hget, hst.info x] at hx
    split at hx
    · rw [Option.map_eq_some_iff] at hx
      obtain ⟨info, hinfo, rfl⟩ := hx
      exact ⟨info, hinfo, (hf info).symm⟩
    · exact ⟨info', hx, rfl⟩
  refine ⟨⟨hcons, fun x info hx hne => ?_, fun tip info htip hx => ?_⟩, hactive, ?_, ?_⟩
  · rw [hskip, hst.rewrites.skip]
    rw [hget] at hx
    obtain ⟨info', hinfo', -, hindex⟩ := hst.rewrites.exists_info' hx
    exact hs.skips x info' hinfo' (by omega)
  · obtain ⟨info', hinfo', hd⟩ := hdown tip info hx
    rw [← hd]
    exact hs.tipHeld tip info' (hactive ▸ htip) hinfo'
  · intro x info hx
    obtain ⟨info', hinfo', -⟩ := hst.rewrites.exists_info hx
    exact ⟨info', by rw [hget, hinfo']⟩
  · intro x info' hx hd
    obtain ⟨info, hinfo, heq⟩ := hdown x info' hx
    exact ⟨info, hinfo, heq ▸ hd⟩

/-- **`invalidate` leaves the index fit**, off the active chain. -/
theorem invalidate_fit {info : BlockInfo} (hs : IndexFit chain s)
    (hinfo : s.getBlockInfo h = some info) (hoff : h ∉ s.activeChain)
    (heq : s.invalidate h = some t) : IndexFit chain t ∧ Grown s t := by
  obtain ⟨t', heq', hinv, hcons⟩ := hs.consistent.invalidate_eq hinfo hoff
  rw [heq, Option.some.injEq] at heq'
  subst heq'
  obtain ⟨u, hst, ht⟩ := hinv.statuses
  refine fit_of_recordsSet hs hst (fun _ => rfl) ?_ ?_ ?_ hcons
  · rw [ht]
  · rw [ht]
  · rw [ht, hst.others]

/-! ## Blocks held -/

/-- What storing the block `h` does to the index. -/
structure Stored (s t : BlockIndex) (h : Hash) : Prop where
  active : t.activeChain = s.activeChain
  known : ∀ x, (∃ info, t.getBlockInfo x = some info) ↔ ∃ info, s.getBlockInfo x = some info
  held : ∀ x info', x ≠ h → t.getBlockInfo x = some info' →
    ∃ info, s.getBlockInfo x = some info ∧ info.downloaded = info'.downloaded

theorem Stored.wanted {x : Hash} (hst : Stored s t h) (hne : x ≠ h) (hw : Wanted s x) :
    Wanted t x := by
  refine ⟨hst.active ▸ hw.off, fun info' hinfo' => ?_⟩
  obtain ⟨info, hinfo, heq⟩ := hst.held x info' hne hinfo'
  rw [← heq]
  exact hw.missing info hinfo

/-- **`set_downloaded` returns**, and leaves the index fit. -/
theorem setDownloaded_fit {info : BlockInfo} (hs : IndexFit chain s)
    (hinfo : s.getBlockInfo h = some info) :
    ∃ t, s.setDownloaded h true = some t ∧ IndexFit chain t ∧ Stored s t h := by
  obtain ⟨u, t, heq, hst, -, hlink, hcons⟩ := hs.consistent.setDownloaded_eq hinfo true
  have hrec : t.headerDict = u.headerDict := by rw [hlink.eq]
  have hget : ∀ x, t.getBlockInfo x = u.getBlockInfo x := fun x => by
    unfold getBlockInfo
    rw [hrec]
  have hactive : t.activeChain = s.activeChain := by rw [hlink.eq, hst.others]
  have hother : ∀ x info', x ≠ h → t.getBlockInfo x = some info' →
      s.getBlockInfo x = some info' := by
    intro x info' hne hx
    rwa [hget, hst.info x, if_neg (by simpa using hne)] at hx
  refine ⟨t, heq, ⟨hcons, fun x xinfo hx hne => ?_, fun tip tipInfo htip hx => ?_⟩, hactive, ?_, ?_⟩
  · have hskip : t.skip = s.skip := by rw [hlink.eq, hst.rewrites.skip]
    rw [hskip]
    rw [hget] at hx
    obtain ⟨info', hinfo', -, hindex⟩ := hst.rewrites.exists_info' hx
    exact hs.skips x info' hinfo' (by omega)
  · by_cases hne : tip = h
    · rw [hget, hst.info tip, if_pos (by simpa using hne), Option.map_eq_some_iff] at hx
      obtain ⟨info', -, rfl⟩ := hx
      rfl
    · exact hs.tipHeld tip tipInfo (hactive ▸ htip) (hother tip tipInfo hne hx)
  · intro x
    constructor
    · rintro ⟨xinfo, hx⟩
      rw [hget] at hx
      obtain ⟨info', hinfo', -⟩ := hst.rewrites.exists_info' hx
      exact ⟨info', hinfo'⟩
    · rintro ⟨xinfo, hx⟩
      obtain ⟨info', hinfo', -⟩ := hst.rewrites.exists_info hx
      exact ⟨info', by rw [hget, hinfo']⟩
  · intro x info' hne hx
    exact ⟨info', hother x info' hne hx, rfl⟩

end BtclibNode.DownloadNode
