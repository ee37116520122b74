/-
# Statuses over the tree

What `set_status`, `invalidate` and `reconsider` change: the statuses of a list
of headers, each record staged or written as it was before, and nothing of the
tree.  `invalidate` sets those of a block and everything built on it,
`reconsider` those of the invalid headers of one lineage, and both leave
invalidity closed under descent.
-/
import BtclibNode.Chainstate.HeaderIndex

namespace BtclibNode.BlockIndex

open HeightTree

/-! ## Records rewritten -/

/-- `t` has the tree and the header index of `s`, under records rewritten that
keep their header and height. -/
structure Rewrites (s t : BlockIndex) : Prop where
  headers : ∀ x, (t.getBlockInfo x).map (fun info => (info.header, info.index)) =
    (s.getBlockInfo x).map fun info => (info.header, info.index)
  keys : t.headerDict.keys = s.headerDict.keys
  chainwork : t.chainwork = s.chainwork
  skip : t.skip = s.skip
  children : t.children = s.children
  headerIndex : t.headerIndex = s.headerIndex
  headerIndexPos : t.headerIndexPos = s.headerIndexPos

section Rewrites

variable {chain : Chain} {s t u : BlockIndex} {h x : Hash} {info new : BlockInfo}
  {status : BlockStatus}

theorem Rewrites.refl (s : BlockIndex) : Rewrites s s :=
  ⟨fun _ => rfl, rfl, rfl, rfl, rfl, rfl, rfl⟩

theorem Rewrites.trans (hst : Rewrites s t) (htu : Rewrites t u) : Rewrites s u :=
  ⟨fun x => (htu.headers x).trans (hst.headers x), htu.keys.trans hst.keys,
    htu.chainwork.trans hst.chainwork, htu.skip.trans hst.skip, htu.children.trans hst.children,
    htu.headerIndex.trans hst.headerIndex, htu.headerIndexPos.trans hst.headerIndexPos⟩

theorem Rewrites.nodes_eq (h : Rewrites s t) : t.nodes = s.nodes := by
  funext x
  have hx := congrArg (Option.map fun p : BlockHeader × ℕ => (p.1.previousBlockHash, p.2))
    (h.headers x)
  rw [Option.map_map, Option.map_map] at hx
  exact hx

theorem Rewrites.weight_eq (h : Rewrites s t) : t.weight = s.weight := by
  unfold weight
  rw [h.chainwork]

/-- The record of `t` for a header of `s`. -/
theorem Rewrites.exists_info (h : Rewrites s t) (hinfo : s.getBlockInfo x = some info) :
    ∃ info', t.getBlockInfo x = some info' ∧ info'.header = info.header ∧
      info'.index = info.index := by
  have hx := h.headers x
  rw [hinfo, Option.map_some, Option.map_eq_some_iff] at hx
  obtain ⟨info', hinfo', heq⟩ := hx
  rw [Prod.mk.injEq] at heq
  exact ⟨info', hinfo', heq⟩

theorem Rewrites.exists_info' (h : Rewrites s t) (hinfo : t.getBlockInfo x = some info) :
    ∃ info', s.getBlockInfo x = some info' ∧ info'.header = info.header ∧
      info'.index = info.index := by
  have hx := h.headers x
  rw [hinfo, Option.map_some, eq_comm, Option.map_eq_some_iff] at hx
  obtain ⟨info', hinfo', heq⟩ := hx
  rw [Prod.mk.injEq] at heq
  exact ⟨info', hinfo', heq⟩

/-- A rewrite keeps the tree. -/
theorem Rewrites.headerTree (h : Rewrites s t) (ht : HeaderTree chain s) : HeaderTree chain t := by
  have hpath : ∀ l h, IsPath chain t l h ↔ IsPath chain s l h := by
    intro l x
    unfold IsPath
    rw [h.nodes_eq]
  constructor
  case tree =>
    rw [h.nodes_eq]
    exact ht.tree
  case hash_eq =>
    intro x info hinfo
    obtain ⟨info', hinfo', hheader, -⟩ := h.exists_info' hinfo
    rw [← hheader]
    exact ht.hash_eq hinfo'
  case work_some =>
    intro x info hinfo
    obtain ⟨info', hinfo', -⟩ := h.exists_info' hinfo
    rw [h.chainwork]
    exact ht.work_some hinfo'
  case work_lt =>
    rw [h.nodes_eq, h.weight_eq]
    exact ht.work_lt
  case mem_children =>
    rw [h.nodes_eq, h.children]
    exact ht.mem_children
  case nodup_children =>
    rw [h.children]
    exact ht.nodup_children
  case skip_eq =>
    intro x target l hs hl
    rw [h.skip] at hs
    exact ht.skip_eq hs ((hpath l x).mp hl)
  case skip_known =>
    intro x target hs
    rw [h.skip] at hs
    obtain ⟨info, hinfo⟩ := ht.skip_known hs
    obtain ⟨info', hinfo', -⟩ := h.exists_info hinfo
    exact ⟨info', hinfo'⟩

theorem Rewrites.heightOf_eq (h : Rewrites s t) (x : Hash) : t.heightOf x = s.heightOf x := by
  have hx := congrArg (Option.map Prod.snd) (h.headers x)
  rw [Option.map_map, Option.map_map] at hx
  unfold heightOf
  cases ht : t.getBlockInfo x <;> cases hs : s.getBlockInfo x <;> simp_all

/-! ## `set_status` -/

theorem getBlockInfo_set (d : Dict Hash BlockInfo) (hs : s.headerDict = d) :
    ({ s with headerDict := d.set h new } : BlockIndex).getBlockInfo x =
      if h = x then some new else s.getBlockInfo x := by
  subst hs
  exact Dict.get?_set s.headerDict h new x

/-- A known record is rewritten where it stands. -/
theorem recordBlockInfo_eq (hinfo : s.getBlockInfo h = some info) (hh : new.header.hash = h) :
    s.recordBlockInfo new = { s with headerDict := s.headerDict.set h new } := by
  unfold recordBlockInfo
  rw [hh, hinfo]

/-- A change of a record that keeps its header and height. -/
structure KeepsHeader (f : BlockInfo → BlockInfo) : Prop where
  header : ∀ info, (f info).header = info.header
  index : ∀ info, (f info).index = info.index
  idem : ∀ info, f (f info) = f info

theorem keepsHeader_withStatus (status : BlockStatus) : KeepsHeader (·.withStatus status) :=
  ⟨fun _ => rfl, fun _ => rfl, fun _ => rfl⟩

theorem keepsHeader_withDownloaded (downloaded : Bool) :
    KeepsHeader (·.withDownloaded downloaded) := ⟨fun _ => rfl, fun _ => rfl, fun _ => rfl⟩

/-- The records of the headers of `r`, and nothing else, change by `f`: what is
staged stays staged and what is not is written. -/
structure RecordsSet (f : BlockInfo → BlockInfo) (r : List Hash) (s t : BlockIndex) : Prop where
  rewrites : Rewrites s t
  info : ∀ x, t.getBlockInfo x = if x ∈ r then (s.getBlockInfo x).map f else s.getBlockInfo x
  pending : ∀ x, t.pending[x]? = if x ∈ r ∧ x ∈ s.pending
    then (s.getBlockInfo x).map f else s.pending[x]?
  puts : t.puts = s.puts ++ (r.filter (· ∉ s.pending)).filterMap fun x => (s.getBlockInfo x).map f
  others : t = { s with
    headerDict := t.headerDict
    pending := t.pending
    puts := t.puts
    bestInvalid := t.bestInvalid }

/-- The statuses of the headers of `r`, and nothing else, become `status`. -/
abbrev StatusesSet (status : BlockStatus) := RecordsSet (·.withStatus status)

section RecordsSet

variable {f : BlockInfo → BlockInfo} {r r' : List Hash}

theorem RecordsSet.nil (f : BlockInfo → BlockInfo) (s : BlockIndex) : RecordsSet f [] s s :=
  ⟨Rewrites.refl s, fun x => by simp, fun x => by simp, by simp, rfl⟩

/-- The header that `best_invalid` names is no part of it. -/
theorem RecordsSet.withBestInvalid (h : RecordsSet f r s t) (b : Option Hash) :
    RecordsSet f r s { t with bestInvalid := b } := by
  obtain ⟨hheaders, hkeys, hwork, hskip, hchildren, hindex, hpos⟩ := h.rewrites
  refine ⟨⟨hheaders, hkeys, hwork, hskip, hchildren, hindex, hpos⟩, h.info, h.pending, h.puts, ?_⟩
  conv_lhs => rw [h.others]

theorem RecordsSet.of_bestInvalid {b : Option Hash}
    (h : RecordsSet f r { s with bestInvalid := b } t) : RecordsSet f r s t := by
  obtain ⟨hheaders, hkeys, hwork, hskip, hchildren, hindex, hpos⟩ := h.rewrites
  exact ⟨⟨hheaders, hkeys, hwork, hskip, hchildren, hindex, hpos⟩, h.info, h.pending, h.puts,
    h.others⟩

theorem RecordsSet.mem_pending (h : RecordsSet f r s t)
    (hr : ∀ x ∈ r, ∃ info, s.getBlockInfo x = some info) (x : Hash) :
    x ∈ t.pending ↔ x ∈ s.pending := by
  rw [FiniteMap.mem_iff_exists, FiniteMap.mem_iff_exists, h.pending x]
  by_cases hx : x ∈ r ∧ x ∈ s.pending
  · rw [if_pos hx]
    obtain ⟨info, hinfo⟩ := hr x hx.1
    have hmem := (FiniteMap.mem_iff_exists s.pending x).mp hx.2
    simp [hinfo, hmem]
  · rw [if_neg hx]

theorem RecordsSet.append (hf : KeepsHeader f) (hst : RecordsSet f r s t)
    (hr : ∀ x ∈ r, ∃ info, s.getBlockInfo x = some info) (htu : RecordsSet f r' t u) :
    RecordsSet f (r ++ r') s u := by
  have hmem := hst.mem_pending hr
  have hmap : ∀ x, (t.getBlockInfo x).map f = (s.getBlockInfo x).map f := by
    intro x
    rw [hst.info x]
    split
    · rw [Option.map_map]
      exact congrArg (fun g => Option.map g _) (funext hf.idem)
    · rfl
  refine ⟨hst.rewrites.trans htu.rewrites, fun x => ?_, fun x => ?_, ?_, ?_⟩
  · rw [htu.info x, hmap x, hst.info x]
    by_cases hx : x ∈ r' <;> by_cases hx' : x ∈ r <;> simp [hx, hx']
  · simp only [htu.pending x, hmap x, hst.pending x, hmem x]
    by_cases hx : x ∈ r' <;> by_cases hx' : x ∈ r <;> by_cases hp : x ∈ s.pending <;>
      simp [hx, hx', hp]
  · rw [htu.puts, hst.puts, List.append_assoc, List.filter_append, List.filterMap_append]
    have hfilter : r'.filter (· ∉ t.pending) = r'.filter (· ∉ s.pending) :=
      List.filter_congr fun x _ => by simp only [hmem x]
    rw [hfilter]
    exact congrArg _ (congrArg _ (List.filterMap_congr fun x _ => hmap x))
  · have hu := htu.others
    rw [hst.others] at hu
    exact hu

/-- The update of one known record. -/
theorem HeaderTree.updateBlockInfo_eq (hf : KeepsHeader f) (ht : HeaderTree chain s)
    (hinfo : s.getBlockInfo h = some info) :
    RecordsSet f [h] s (s.updateBlockInfo (f info)) := by
  have hh : (f info).header.hash = h := (congrArg _ (hf.header info)).trans (ht.hash_eq hinfo)
  unfold updateBlockInfo stage insertBlockInfo
  rw [recordBlockInfo_eq hinfo hh]
  have hget : ∀ x, (s.headerDict.set h (f info)).get? x =
      if x ∈ [h] then (s.getBlockInfo x).map f else s.getBlockInfo x := by
    intro x
    rw [Dict.get?_set]
    by_cases hx : h = x
    · rw [if_pos hx, if_pos (by simp [hx]), ← hx, hinfo]
      rfl
    · rw [if_neg hx, if_neg (by simpa using Ne.symm hx)]
      rfl
  have hheaders : ∀ x, ((s.headerDict.set h (f info)).get? x).map
      (fun info => (info.header, info.index)) =
      (s.getBlockInfo x).map fun info => (info.header, info.index) := by
    intro x
    rw [hget x]
    split
    · rw [Option.map_map]
      exact congrArg (fun g => Option.map g _) (funext fun i => by simp [hf.header, hf.index])
    · rfl
  have hkeys := Dict.keys_set_of_get? (f info) hinfo
  by_cases hp : (f info).header.hash ∈ s.pending
  · rw [if_pos hp]
    rw [hh] at hp
    refine ⟨⟨hheaders, hkeys, rfl, rfl, rfl, rfl, rfl⟩, hget, fun x => ?_, by simp [hp], rfl⟩
    show (s.pending.insert _ _)[x]? = _
    rw [hh, FiniteMap.getElem?_insert]
    by_cases hx : h = x
    · subst hx
      rw [if_pos rfl, if_pos ⟨List.mem_singleton_self h, hp⟩, hinfo]
      rfl
    · rw [if_neg hx, if_neg (fun hc => hx (List.mem_singleton.mp hc.1).symm)]
  · rw [if_neg hp]
    rw [hh] at hp
    refine ⟨⟨hheaders, hkeys, rfl, rfl, rfl, rfl, rfl⟩, hget, fun x => ?_,
      by simp [hp, hinfo], rfl⟩
    rw [if_neg]
    rintro ⟨hx, hmem⟩
    exact hp (List.mem_singleton.mp hx ▸ hmem)

/-- `set_status` of a known header. -/
theorem HeaderTree.setStatus_eq (ht : HeaderTree chain s) (hinfo : s.getBlockInfo h = some info)
    (status : BlockStatus) :
    ∃ t, s.setStatus h status = some t ∧ StatusesSet status [h] s t := by
  refine ⟨_, ?_, ht.updateBlockInfo_eq (keepsHeader_withStatus status) hinfo⟩
  unfold setStatus
  rw [hinfo]
  rfl

end RecordsSet

end Rewrites

/-! ## `invalidate` -/

section Invalidate

variable {chain : Chain} {s t : BlockIndex} {h : Hash} {info : BlockInfo}

/-- The order `invalidate` visits a block and everything built on it in. -/
def invalidationOrder (s : BlockIndex) (h : Hash) : List Hash :=
  visit (fun p => s.children[p]?.getD []) s.headerDict.keys.length [h]

/-- What is built on an indexed header is indexed. -/
theorem known_of_descends (hinfo : s.getBlockInfo h = some info) {x : Hash} (hx : Descends s.nodes h x) :
    ∃ info, s.getBlockInfo x = some info := by
  rcases hx.cases_tail with rfl | ⟨p, -, n, hn⟩
  · exact ⟨info, hinfo⟩
  · obtain ⟨xinfo, hxinfo, -⟩ := BlockIndex.exists_info hn
    exact ⟨xinfo, hxinfo⟩

theorem HeaderTree.invalidationOrder_spec (ht : HeaderTree chain s)
    (hinfo : s.getBlockInfo h = some info) :
    (s.invalidationOrder h).Nodup ∧
      ∀ x, x ∈ s.invalidationOrder h ↔ Descends s.nodes h x := by
  have hkeys : ∀ x, Descends s.nodes h x → x ∈ s.headerDict.keys := by
    intro x hx
    obtain ⟨xinfo, hxinfo⟩ := known_of_descends hinfo hx
    exact mem_keys_of_info hxinfo
  exact visit_spec ht.tree ht.mem_children ht.nodup_children hkeys (Visiting.init s.nodes _ h)
    (Nat.le_refl _)

/-- The stack loop sets the statuses of what `visit` visits. -/
theorem HeaderTree.invalidateFrom_eq (ht : HeaderTree chain s) {fuel : ℕ} {done stack : List Hash}
    (invalidated : List Hash)
    (hv : Visiting s.nodes (fun p => s.children[p]?.getD []) h done stack)
    (hfuel : s.headerDict.keys.length ≤ fuel + done.length)
    (hknown : ∀ x, Descends s.nodes h x → ∃ info, s.getBlockInfo x = some info) :
    ∃ t, invalidateFrom fuel stack invalidated s = some
        ((visit (fun p => s.children[p]?.getD []) fuel stack).reverse ++ invalidated, t) ∧
      StatusesSet .invalid (visit (fun p => s.children[p]?.getD []) fuel stack) s t := by
  induction fuel generalizing s done stack invalidated with
  | zero =>
    -- a header on the stack would be one more than there are
    obtain rfl := hv.stack_eq_nil (fun x hx => by
      obtain ⟨info, hinfo⟩ := hknown x hx
      exact mem_keys_of_info hinfo) (by omega)
    exact ⟨s, rfl, RecordsSet.nil _ s⟩
  | succ fuel ih =>
    cases stack with
    | nil => exact ⟨s, rfl, RecordsSet.nil _ s⟩
    | cons a stack =>
      obtain ⟨ainfo, hainfo⟩ := hknown a (hv.descends a (by simp))
      obtain ⟨t, hset, hst⟩ := ht.setStatus_eq hainfo .invalid
      have htt := hst.rewrites.headerTree ht
      have hstep := hv.step ht.tree (fun p c => (ht.mem_children p c).mp) ht.nodup_children
      rw [← hst.rewrites.nodes_eq, ← hst.rewrites.children] at hstep
      obtain ⟨u, hloop, hsu⟩ := ih htt (a :: invalidated) hstep
        (by rw [hst.rewrites.keys]; simp; omega) (by
          intro x hx
          rw [hst.rewrites.nodes_eq] at hx
          obtain ⟨info, hinfo⟩ := hknown x hx
          obtain ⟨info', hinfo', -⟩ := hst.rewrites.exists_info hinfo
          exact ⟨info', hinfo'⟩)
      refine ⟨u, ?_, ?_⟩
      · rw [invalidateFrom, hset, Option.bind_eq_bind, Option.bind_some, hst.rewrites.children]
        rw [hst.rewrites.children] at hloop
        rw [hloop, visit, List.reverse_cons, List.append_assoc]
        rfl
      · rw [hst.rewrites.children] at hsu
        rw [visit, ← List.singleton_append]
        exact hst.append (keepsHeader_withStatus .invalid) (fun x hx => ⟨ainfo, List.mem_singleton.mp hx ▸ hainfo⟩) hsu

/-- Setting a block and everything built on it invalid keeps invalidity closed. -/
theorem RecordsSet.invalidClosed {r : List Hash} (hst : StatusesSet .invalid r s t)
    (hr : ∀ x, x ∈ r ↔ Descends s.nodes h x) (hc : InvalidClosed s) : InvalidClosed t := by
  intro p c hpc hp
  rw [hst.rewrites.nodes_eq] at hpc
  have hstatus : ∀ x, t.statusOf x = if x ∈ r then (s.getBlockInfo x).map fun _ => .invalid
      else s.statusOf x := by
    intro x
    unfold statusOf
    rw [hst.info x]
    split
    · rw [Option.map_map]
      rfl
    · rfl
  obtain ⟨cinfo, hcinfo, -⟩ := BlockIndex.exists_info hpc.choose_spec
  rw [hstatus] at hp ⊢
  by_cases hcr : c ∈ r
  · rw [if_pos hcr, hcinfo]
    rfl
  · have hpr : p ∉ r := fun hpr => hcr ((hr c).mpr (((hr p).mp hpr).trans (Descends.of_child hpc)))
    rw [if_neg hpr] at hp
    rw [if_neg hcr]
    exact hc p c hpc hp

end Invalidate

/-! ## `reconsider` -/

section Reconsider

variable {chain : Chain} {s t : BlockIndex} {h other : Hash} {info oinfo : BlockInfo}

/-- Two headers, one of which is built on the other. -/
def SharesLineage (s : BlockIndex) (x h : Hash) : Prop :=
  Descends s.nodes x h ∨ Descends s.nodes h x

/-- **`_shares_lineage` answers for the tree.** -/
theorem HeaderTree.sharesLineage_eq (ht : HeaderTree chain s)
    (hother : s.getBlockInfo other = some oinfo) (hinfo : s.getBlockInfo h = some info)
    [Decidable (SharesLineage s other h)] :
    s.sharesLineage other h info.index = some (decide (SharesLineage s other h)) := by
  obtain ⟨l, hl, hlen⟩ := ht.exists_path hinfo
  obtain ⟨lo, hlo, holen⟩ := ht.exists_path hother
  have hmem : ∀ {x y : Hash} {xinfo : BlockInfo} {m : List Hash}, s.getBlockInfo x = some xinfo →
      IsPath chain s m y → (m[xinfo.index]? = some x ↔ Descends s.nodes x y) := by
    intro x y xinfo m hx hm
    rw [← hm.mem_iff_descends ht.tree]
    exact ⟨List.mem_of_getElem?, fun hmem => hm.getElem?_of_mem ht.tree hmem (nodes_eq hx)⟩
  unfold sharesLineage
  rw [hother, Option.bind_eq_bind, Option.bind_some, ht.getAncestor_eq hlo,
    Option.bind_eq_bind, Option.bind_some, ht.getAncestor_eq hl, Option.bind_some]
  have hup := hmem hinfo hlo
  have hdown := hmem hother hl
  by_cases ho : lo[info.index]? = some h
  · rw [if_pos ho]
    have : SharesLineage s other h := .inr (hup.mp ho)
    simp [this]
  · rw [if_neg ho]
    have hiff : l[oinfo.index]? = some other ↔ SharesLineage s other h := by
      rw [hdown]
      exact ⟨.inl, fun hs => hs.resolve_right (mt hup.mpr ho)⟩
    simp [hiff]

/-- The loop of `reconsider` makes the invalid headers of the lineage valid headers. -/
theorem HeaderTree.reconsiderFrom_eq (ht : HeaderTree chain s)
    (hinfo : s.getBlockInfo h = some info) (keys : List Hash) (hnodup : keys.Nodup)
    (hknown : ∀ x ∈ keys, ∃ info, s.getBlockInfo x = some info) :
    ∃ t r, reconsiderFrom h info.index keys s = some t ∧ StatusesSet .validHeader r s t ∧
      ∀ x, x ∈ r ↔ x ∈ keys ∧ s.statusOf x = some .invalid ∧ SharesLineage s x h := by
  classical
  induction keys generalizing s info with
  | nil => exact ⟨s, [], rfl, RecordsSet.nil _ s, by simp⟩
  | cons other keys ih =>
    rw [List.nodup_cons] at hnodup
    obtain ⟨⟨oinfo, hother⟩, hrest⟩ := List.forall_mem_cons.mp hknown
    have hostatus : s.statusOf other = some oinfo.status :=
      congrArg (Option.map BlockInfo.status) hother
    rw [reconsiderFrom, hother, Option.bind_eq_bind, Option.bind_some]
    have hskip : (s.statusOf other ≠ some .invalid ∨ ¬SharesLineage s other h) →
        ∃ t r, reconsiderFrom h info.index keys s = some t ∧ StatusesSet .validHeader r s t ∧
          ∀ x, x ∈ r ↔ x ∈ other :: keys ∧ s.statusOf x = some .invalid ∧
            SharesLineage s x h := by
      intro hno
      obtain ⟨t, r, hloop, hst, hr⟩ := ih ht hinfo hnodup.2 hrest
      refine ⟨t, r, hloop, hst, fun x => ?_⟩
      rw [hr, List.mem_cons]
      constructor
      · rintro ⟨hx, hrest⟩
        exact ⟨.inr hx, hrest⟩
      · rintro ⟨rfl | hx, hinv, hshare⟩
        · rcases hno with hno | hno
          · exact absurd hinv hno
          · exact absurd hshare hno
        · exact ⟨hx, hinv, hshare⟩
    by_cases hinvalid : oinfo.status = .invalid
    · rw [if_pos hinvalid, ht.sharesLineage_eq hother hinfo, Option.bind_eq_bind, Option.bind_some]
      by_cases hshare : SharesLineage s other h
      · rw [decide_eq_true hshare, if_pos rfl]
        obtain ⟨t, hset, hst⟩ := ht.setStatus_eq hother .validHeader
        rw [hset, Option.bind_eq_bind, Option.bind_some]
        obtain ⟨t', ht', hst'⟩ : ∃ t', t.forgetBestInvalid other = t' ∧
            StatusesSet .validHeader [other] s t' := ⟨_, rfl, hst.withBestInvalid _⟩
        rw [ht']
        obtain ⟨info', hinfo', -, hindex⟩ := hst'.rewrites.exists_info hinfo
        obtain ⟨u, r, hloop, hsu, hr⟩ := ih (hst'.rewrites.headerTree ht) hinfo' hnodup.2 (by
          intro x hx
          obtain ⟨xinfo, hxinfo⟩ := hrest x hx
          obtain ⟨xinfo', hxinfo', -⟩ := hst'.rewrites.exists_info hxinfo
          exact ⟨xinfo', hxinfo'⟩)
        refine ⟨u, [other] ++ r, by rw [← hindex]; exact hloop,
          hst'.append (keepsHeader_withStatus .validHeader) (fun x hx => ⟨oinfo, List.mem_singleton.mp hx ▸ hother⟩) hsu, fun x => ?_⟩
        have hsame : SharesLineage t' x h ↔ SharesLineage s x h := by
          unfold SharesLineage
          rw [hst'.rewrites.nodes_eq]
        rw [List.singleton_append, List.mem_cons, List.mem_cons, hr, hsame]
        have hstatus : x ≠ other → t'.statusOf x = s.statusOf x := by
          intro hx
          unfold statusOf
          rw [hst'.info x, if_neg (by simpa using hx)]
        constructor
        · rintro (rfl | ⟨hx, hinv, hsx⟩)
          · exact ⟨.inl rfl, hinvalid ▸ hostatus, hshare⟩
          · have hne : x ≠ other := fun hxo => hnodup.1 (hxo ▸ hx)
            exact ⟨.inr hx, hstatus hne ▸ hinv, hsx⟩
        · rintro ⟨rfl | hx, hinv, hsx⟩
          · exact .inl rfl
          · have hne : x ≠ other := fun hxo => hnodup.1 (hxo ▸ hx)
            exact .inr ⟨hx, (hstatus hne).trans hinv, hsx⟩
      · rw [decide_eq_false hshare, if_neg (by simp)]
        exact hskip (.inr hshare)
    · rw [if_neg hinvalid]
      refine hskip (.inl ?_)
      rw [hostatus, ne_eq, Option.some.injEq]
      exact hinvalid

/-- Making the invalid headers of a lineage valid keeps invalidity closed. -/
theorem RecordsSet.invalidClosed_of_lineage {r : List Hash}
    (hst : StatusesSet .validHeader r s t)
    (hr : ∀ x, x ∈ r ↔ s.statusOf x = some .invalid ∧ SharesLineage s x h)
    (hc : InvalidClosed s) : InvalidClosed t := by
  intro p c hpc hp
  rw [hst.rewrites.nodes_eq] at hpc
  have hstatus : ∀ x, x ∉ r → t.statusOf x = s.statusOf x := by
    intro x hx
    unfold statusOf
    rw [hst.info x, if_neg hx]
  have hpr : p ∉ r := by
    intro hpr
    unfold statusOf at hp
    rw [hst.info p, if_pos hpr, Option.map_map, Option.map_eq_some_iff] at hp
    obtain ⟨_, -, h0⟩ := hp
    cases h0
  rw [hstatus p hpr] at hp
  have hcinv := hc p c hpc hp
  -- the lineage of an invalid child is that of its parent
  have hcr : c ∉ r := by
    intro hcr
    rcases ((hr c).mp hcr).2 with hch | hhc
    · exact hpr ((hr p).mpr ⟨hp, .inl ((Descends.of_child hpc).trans hch)⟩)
    · rcases hhc.cases_tail with rfl | ⟨q, hhq, hqc⟩
      · exact hpr ((hr p).mpr ⟨hp, .inl (Descends.of_child hpc)⟩)
      · obtain rfl := hpc.parent_unique hqc
        exact hpr ((hr p).mpr ⟨hp, .inr hhq⟩)
  rw [hstatus c hcr]
  exact hcinv

end Reconsider

end BtclibNode.BlockIndex
