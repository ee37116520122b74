/-
# Loading the index

`init_from_db` on a store whose records form a tree with one active path: the
records come back as stored, over the genesis record where none is stored, and
everything the index keeps beside them is made again.  On a store whose
invalidity is closed under descent the index is consistent.
-/
import BtclibNode.Chainstate.IndexCalls

namespace BtclibNode.BlockIndex

open HeightTree

/-! ## The store -/

/-- The record of genesis, where none is stored. -/
def genesisInfo (chain : Chain) : BlockInfo := ⟨chain.genesis, 0, .inActiveChain, true⟩

/-- The record the store gives a header: its own, or that of genesis. -/
def storedInfo (chain : Chain) (db : BlockTable) (h : Hash) : Option BlockInfo :=
  db[h]?.or (if h = chain.genesis.hash then some (genesisInfo chain) else none)

/-- The parent and the height each stored header records. -/
def storedNodes (chain : Chain) (db : BlockTable) : Nodes Hash := fun h =>
  (storedInfo chain db h).map fun info => (info.header.previousBlockHash, info.index)

/-- Records under their own hashes, with proof of work, that form a tree whose
active headers are the path `main`. -/
structure StoredTree (chain : Chain) (db : BlockTable) (main : List Hash) : Prop where
  hash_eq : ∀ (h : Hash) (info : BlockInfo), db[h]? = some info → info.header.hash = h
  pow : ∀ (h : Hash) (info : BlockInfo), db[h]? = some info → chain.validPow info.header = true
  tree : IsTree (storedNodes chain db) chain.genesis.hash
  active : ∃ tip, Path (storedNodes chain db) chain.genesis.hash main tip
  activeStatus : ∀ h info, storedInfo chain db h = some info →
    (info.status = .inActiveChain ↔ h ∈ main)

/-- What is built on an invalid stored header is stored invalid. -/
def StoredClosed (chain : Chain) (db : BlockTable) : Prop :=
  ∀ p c pinfo cinfo, Child (storedNodes chain db) p c → storedInfo chain db p = some pinfo →
    storedInfo chain db c = some cinfo → pinfo.status = .invalid → cinfo.status = .invalid

section Load

variable {chain : Chain} {s t : BlockIndex} {db : BlockTable} {main done : List Hash} {h x : Hash}
  {info : BlockInfo}

/-! ## The records -/

theorem readRecords_eq (infos : List BlockInfo)
    (hpow : ∀ info ∈ infos, chain.validPow info.header = true) (s : BlockIndex) :
    readRecords chain infos s = some { s with
      headerDict := infos.foldl (fun d info => d.set info.header.hash info) s.headerDict } := by
  induction infos generalizing s with
  | nil => rfl
  | cons info infos ih =>
    obtain ⟨hhead, hrest⟩ := List.forall_mem_cons.mp hpow
    rw [readRecords, if_pos hhead, ih hrest]
    rfl

/-- Records set under their own hashes, each of its own hash, are what is read. -/
theorem get?_foldl_set (infos : List BlockInfo) (d : Dict Hash BlockInfo)
    (hnodup : (infos.map fun info => info.header.hash).Nodup) (x : Hash) :
    (infos.foldl (fun d info => d.set info.header.hash info) d).get? x =
      (infos.find? fun info => info.header.hash = x).or (d.get? x) := by
  induction infos generalizing d with
  | nil => rfl
  | cons info infos ih =>
    rw [List.map_cons, List.nodup_cons] at hnodup
    rw [List.foldl_cons, ih _ hnodup.2, List.find?_cons, Dict.get?_set]
    by_cases hx : info.header.hash = x
    · have hnone : infos.find? (fun info => info.header.hash = x) = none := by
        rw [List.find?_eq_none]
        intro info' hinfo' heq
        refine hnodup.1 (List.mem_map.mpr ⟨info', hinfo', ?_⟩)
        rw [of_decide_eq_true heq, hx]
      rw [hnone, if_pos hx, decide_eq_true hx]
      rfl
    · rw [if_neg hx, decide_eq_false hx]

/-- **The records come back as stored.** -/
theorem StoredTree.getBlockInfo_readRecords (hdb : StoredTree chain db main) :
    ∃ d, readRecords chain (db.toList.map Prod.snd) (empty chain) =
        some { empty chain with headerDict := d } ∧
      ∀ x, d.get? x = storedInfo chain db x := by
  have hmem : ∀ info, info ∈ db.toList.map Prod.snd ↔ db[info.header.hash]? = some info := by
    intro info
    rw [List.mem_map]
    constructor
    · rintro ⟨⟨h, info'⟩, hp, rfl⟩
      have hget := (FiniteMap.mem_toList db h info').mp hp
      rw [hdb.hash_eq h info' hget]
      exact hget
    · intro hget
      exact ⟨(info.header.hash, info), (FiniteMap.mem_toList db _ _).mpr hget, rfl⟩
  have hhashes : (db.toList.map Prod.snd).map (fun info => info.header.hash) =
      db.toList.map Prod.fst := by
    rw [List.map_map]
    refine List.map_congr_left fun p hp => ?_
    exact hdb.hash_eq p.1 p.2 ((FiniteMap.mem_toList db p.1 p.2).mp hp)
  have hnodup : ((db.toList.map Prod.snd).map fun info => info.header.hash).Nodup := by
    rw [hhashes]
    exact FiniteMap.nodup_keys db
  refine ⟨_, readRecords_eq _ (fun info hinfo => hdb.pow _ info ((hmem info).mp hinfo)) _,
    fun x => ?_⟩
  show (List.foldl _ (empty chain).headerDict _).get? x = _
  rw [get?_foldl_set _ _ hnodup]
  unfold storedInfo
  have hgenesis : (empty chain).headerDict.get? x =
      if x = chain.genesis.hash then some (genesisInfo chain) else none := by
    show (Dict.singleton _ _).get? x = _
    rw [Dict.get?_singleton]
    simp only [eq_comm]
    rfl
  rw [hgenesis]
  congr 1
  cases hfind : (db.toList.map Prod.snd).find? (fun info => info.header.hash = x) with
  | some info =>
    have hmem' := List.mem_of_find?_eq_some hfind
    have hx : info.header.hash = x := by
      have := List.find?_some hfind
      exact of_decide_eq_true this
    rw [hmem, hx] at hmem'
    exact hmem'.symm
  | none =>
    cases hget : db[x]? with
    | none => rfl
    | some info =>
      rw [List.find?_eq_none] at hfind
      have hhash := hdb.hash_eq x info hget
      exact absurd (decide_eq_true hhash)
        (hfind info ((hmem info).mpr (by rw [hhash]; exact hget)))

/-! ## Works -/

/-- What `calculate_chainwork` has made for the headers `done`, which hold their
ancestors. -/
structure Weighed (chain : Chain) (s : BlockIndex) (done : List Hash) : Prop where
  parent_mem : ∀ p c, Child s.nodes p c → c ∈ done → p ∈ done
  work_some : ∀ h ∈ done, ∃ w, s.chainwork[h]? = some w
  work_lt : ∀ p c, Child s.nodes p c → c ∈ done → s.weight p < s.weight c
  mem_children : ∀ p c : Hash, c ∈ s.children[p]?.getD [] ↔ c ∈ done ∧ Child s.nodes p c
  nodup_children : ∀ p : Hash, (s.children[p]?.getD []).Nodup
  skips : SkipPointers chain s
  skip_mem : ∀ h target : Hash, s.skip[h]? = some target → h ∈ done
  bestInvalid : ∀ b, s.bestInvalid = some b → b ∈ done

/-- What `calculate_chainwork` may move. -/
structure OnlyWeighed (s t : BlockIndex) : Prop where
  eq : t = { s with
    chainwork := t.chainwork
    skip := t.skip
    children := t.children
    bestInvalid := t.bestInvalid }

theorem OnlyWeighed.nodes (ho : OnlyWeighed s t) : t.nodes = s.nodes := by
  rw [ho.eq]
  rfl

theorem OnlyWeighed.getBlockInfo (ho : OnlyWeighed s t) : t.getBlockInfo = s.getBlockInfo := by
  rw [ho.eq]
  rfl

theorem OnlyWeighed.trans {u : BlockIndex} (hst : OnlyWeighed s t) (htu : OnlyWeighed t u) :
    OnlyWeighed s u := by
  refine ⟨?_⟩
  conv_lhs => rw [htu.eq, hst.eq]

/-- The skip pointer of a header whose parent's ancestors are there. -/
theorem buildSkip_eq (ht : IsTree s.nodes chain.genesis.hash) (hskips : SkipPointers chain s)
    (hinfo : s.getBlockInfo h = some info) :
    ∃ skip, s.buildSkip h info = some { s with skip } ∧ SkipPointers chain { s with skip } ∧
      ∀ x target : Hash, skip[x]? = some target → x = h ∨ s.skip[x]? = some target := by
  unfold buildSkip
  by_cases hzero : info.index = 0
  · rw [if_pos hzero]
    exact ⟨s.skip, rfl, hskips, fun x target hx => .inr hx⟩
  · rw [if_neg hzero]
    obtain ⟨n, hn⟩ := Nat.exists_eq_succ_of_ne_zero hzero
    have hnode := nodes_eq hinfo
    rw [hn] at hnode
    obtain ⟨l, hl, hlen⟩ := ht.exists_path hnode
    have htip := hl.tip_getElem?
    rw [hlen, Nat.add_sub_cancel] at htip
    obtain ⟨p, hp, hpnode⟩ := hl.parent_getElem? htip
    rw [hnode, Option.some.injEq, Prod.mk.injEq] at hpnode
    have hlt := skipHeight_lt (n := info.index) (by omega)
    obtain ⟨target, htarget⟩ : ∃ target, l[skipHeight info.index]? = some target :=
      ⟨_, List.getElem?_eq_getElem (by omega)⟩
    have hanc : s.ancestor info.header.previousBlockHash (info.index - 1)
        (skipHeight info.index) = some target := by
      rw [ancestor_eq ht hskips hl (by rw [hn, Nat.succ_sub_one, hpnode.1]; exact hp) (by omega),
        htarget]
    rw [hanc, Option.bind_eq_bind, Option.bind_some]
    refine ⟨s.skip.insert h target, rfl, fun x target' m hs hm => ?_, fun x target' hs => ?_⟩
    · have hs' : (s.skip.insert h target)[x]? = some target' := hs
      rw [FiniteMap.getElem?_insert] at hs'
      split at hs'
      · next hx =>
        subst hx
        rw [Path.unique ht hm hl, hlen, Nat.add_sub_cancel, ← hn, htarget, hs']
      · exact hskips x target' m hs' hm
    · rw [FiniteMap.getElem?_insert] at hs
      split at hs
      · next hx => exact .inl hx.symm
      · exact .inr hs

/-- **A header is weighed** once its parent is. -/
theorem Weighed.weighHeader (hw : Weighed chain s done)
    (ht : IsTree s.nodes chain.genesis.hash) (hinfo : s.getBlockInfo h = some info)
    (hpow : chain.validPow info.header = true) (hnew : h ∉ done)
    (hparent : ∀ p, Child s.nodes p h → p ∈ done) :
    ∃ t, s.weighHeader chain h = some t ∧ OnlyWeighed s t ∧ Weighed chain t (done ++ [h]) := by
  have hchild : info.index ≠ 0 → Child s.nodes info.header.previousBlockHash h := by
    intro hne
    obtain ⟨n, hn⟩ := Nat.exists_eq_succ_of_ne_zero hne
    exact ⟨n, by rw [nodes_eq hinfo, hn]⟩
  have hchildIff : ∀ p, Child s.nodes p h ↔
      info.index ≠ 0 ∧ p = info.header.previousBlockHash := by
    intro p
    constructor
    · rintro ⟨n, hn⟩
      rw [nodes_eq hinfo, Option.some.injEq, Prod.mk.injEq] at hn
      exact ⟨by omega, hn.1.symm⟩
    · rintro ⟨hne, rfl⟩
      exact hchild hne
  -- the work below the header, and its children list
  obtain ⟨oldWork, hold, hlt⟩ : ∃ oldWork,
      (if info.index = 0 then some 0 else s.chainwork[info.header.previousBlockHash]?) =
        some oldWork ∧
      (info.index ≠ 0 → s.weight info.header.previousBlockHash <
        oldWork + chain.calculateWork info.header) := by
    by_cases hzero : info.index = 0
    · exact ⟨0, by rw [if_pos hzero], fun h0 => absurd hzero h0⟩
    · obtain ⟨w, hwork⟩ := hw.work_some _ (hparent _ (hchild hzero))
      refine ⟨w, by rw [if_neg hzero, hwork], fun _ => ?_⟩
      have := chain.work_pos info.header hpow
      unfold weight
      rw [hwork, Option.getD_some]
      omega
  obtain ⟨children, hchildren⟩ : ∃ children, children =
      (if info.index = 0 then s.children
        else appendAt s.children info.header.previousBlockHash h) := ⟨_, rfl⟩
  obtain ⟨s₂, hs₂⟩ : ∃ s₂, s₂ = ({ s with
      children
      chainwork := s.chainwork.insert h (oldWork + chain.calculateWork info.header) } :
      BlockIndex) := ⟨_, rfl⟩
  have hnodes₂ : s₂.nodes = s.nodes := by rw [hs₂]; rfl
  have hinfo₂ : s₂.getBlockInfo h = some info := by rw [hs₂]; exact hinfo
  obtain ⟨skip, hskip, hskips, hskipMem⟩ := buildSkip_eq (s := s₂) (by rw [hnodes₂]; exact ht)
    (by rw [hs₂]; exact hw.skips) hinfo₂
  obtain ⟨s₃, hs₃⟩ : ∃ s₃, s₃ = ({ s₂ with skip } : BlockIndex) := ⟨_, rfl⟩
  have hnodes₃ : s₃.nodes = s.nodes := by rw [hs₃, ← hnodes₂]; rfl
  have hwork₃ : ∀ x : Hash, s₃.chainwork[x]? =
      if h = x then some (oldWork + chain.calculateWork info.header) else s.chainwork[x]? := by
    intro x
    rw [hs₃, hs₂]
    exact FiniteMap.getElem?_insert _ _ _ _
  have hweight₃ : ∀ x, s₃.weight x =
      if h = x then oldWork + chain.calculateWork info.header else s.weight x := by
    intro x
    unfold weight
    rw [hwork₃]
    split <;> rfl
  have hchildren₃ : ∀ p : Hash, s₃.children[p]?.getD [] =
      if info.index ≠ 0 ∧ p = info.header.previousBlockHash then s.children[p]?.getD [] ++ [h]
        else s.children[p]?.getD [] := by
    intro p
    rw [hs₃, hs₂]
    show children[p]?.getD [] = _
    rw [hchildren]
    by_cases hzero : info.index = 0
    · rw [if_pos hzero, if_neg fun hc => hc.1 hzero]
    · rw [if_neg hzero]
      unfold appendAt
      rw [FiniteMap.getElem?_insert]
      by_cases hp : info.header.previousBlockHash = p
      · rw [if_pos hp, if_pos ⟨hzero, hp.symm⟩, hp]
        rfl
      · rw [if_neg hp, if_neg fun hc => hp hc.2.symm]
  have hweighed₃ : Weighed chain s₃ (done ++ [h]) := by
    constructor
    case parent_mem =>
      intro p c hpc hc
      rw [hnodes₃] at hpc
      rcases List.mem_append.mp hc with hc | hc
      · exact List.mem_append_left _ (hw.parent_mem p c hpc hc)
      · exact List.mem_append_left _ (hparent p (List.mem_singleton.mp hc ▸ hpc))
    case work_some =>
      intro x hx
      rw [hwork₃]
      split
      · exact ⟨_, rfl⟩
      · next hne =>
        rcases List.mem_append.mp hx with hx | hx
        · exact hw.work_some x hx
        · exact absurd (List.mem_singleton.mp hx).symm hne
    case work_lt =>
      intro p c hpc hc
      rw [hnodes₃] at hpc
      rw [hweight₃, hweight₃]
      rcases List.mem_append.mp hc with hc | hc
      · have hp := hw.parent_mem p c hpc hc
        rw [if_neg (fun h0 : h = p => hnew (h0 ▸ hp)), if_neg (fun h0 : h = c => hnew (h0 ▸ hc))]
        exact hw.work_lt p c hpc hc
      · obtain rfl := List.mem_singleton.mp hc
        obtain ⟨hne, rfl⟩ := (hchildIff p).mp hpc
        have hp := hparent _ hpc
        rw [if_neg fun h0 => hnew (by rw [h0]; exact hp), if_pos rfl]
        exact hlt hne
    case mem_children =>
      intro p c
      rw [hnodes₃, hchildren₃]
      by_cases hp : Child s.nodes p h
      · rw [if_pos ((hchildIff p).mp hp), List.mem_append, List.mem_append, hw.mem_children, List.mem_singleton]
        constructor
        · rintro (⟨hc, hpc⟩ | rfl)
          · exact ⟨.inl hc, hpc⟩
          · exact ⟨.inr rfl, hp⟩
        · rintro ⟨hc | rfl, hpc⟩
          · exact .inl ⟨hc, hpc⟩
          · exact .inr rfl
      · rw [if_neg (mt (hchildIff p).mpr hp), hw.mem_children, List.mem_append, List.mem_singleton]
        constructor
        · rintro ⟨hc, hpc⟩
          exact ⟨.inl hc, hpc⟩
        · rintro ⟨hc | rfl, hpc⟩
          · exact ⟨hc, hpc⟩
          · exact absurd hpc hp
    case nodup_children =>
      intro p
      rw [hchildren₃]
      split
      · rw [List.nodup_append]
        refine ⟨hw.nodup_children p, List.nodup_singleton h, ?_⟩
        rintro c hc c' hc' rfl
        rw [List.mem_singleton] at hc'
        exact hnew (hc' ▸ ((hw.mem_children p c).mp hc).1)
      · exact hw.nodup_children p
    case skips =>
      rw [hs₃]
      exact hskips
    case skip_mem =>
      intro x target hx
      rw [hs₃] at hx
      rcases hskipMem x target hx with rfl | hx
      · simp
      · rw [hs₂] at hx
        exact List.mem_append_left _ (hw.skip_mem x target hx)
    case bestInvalid =>
      intro b hb
      rw [hs₃, hs₂] at hb
      exact List.mem_append_left _ (hw.bestInvalid b hb)
  have honly₃ : OnlyWeighed s s₃ := by
    refine ⟨?_⟩
    rw [hs₃, hs₂]
  have hcall : s.weighHeader chain h =
      if info.status = .invalid then s₃.weighInvalid h else some s₃ := by
    unfold BlockIndex.weighHeader
    rw [hinfo, Option.bind_eq_bind, Option.bind_some]
    have hend : ∀ u, u = s₂ → ((u.buildSkip h info).bind fun s₃ =>
        if info.status = .invalid then s₃.weighInvalid h else some s₃) =
        if info.status = .invalid then s₃.weighInvalid h else some s₃ := by
      rintro u rfl
      rw [hskip, Option.bind_some, hs₃]
    by_cases hzero : info.index = 0
    · rw [if_pos hzero, Option.some.injEq] at hold
      simp only [if_pos hzero]
      exact hend _ (by rw [hs₂, hchildren, if_pos hzero, ← hold])
    · rw [if_neg hzero] at hold
      simp only [if_neg hzero, hold, Option.bind_eq_bind, Option.bind_some]
      exact hend _ (by rw [hs₂, hchildren, if_neg hzero])
  rw [hcall]
  split
  · -- an invalid header may be the heaviest
    have hwithBest : ∀ b ∈ done ++ [h],
        OnlyWeighed s { s₃ with bestInvalid := some b } ∧
          Weighed chain { s₃ with bestInvalid := some b } (done ++ [h]) := by
      intro b hb
      refine ⟨⟨?_⟩, hweighed₃.parent_mem, hweighed₃.work_some, hweighed₃.work_lt,
        hweighed₃.mem_children, hweighed₃.nodup_children, hweighed₃.skips, hweighed₃.skip_mem, ?_⟩
      · rw [hs₃, hs₂]
      · intro b' hb'
        cases hb'
        exact hb
    unfold weighInvalid
    cases hbest : s₃.bestInvalid with
    | none => exact ⟨_, rfl, hwithBest h (by simp)⟩
    | some b =>
      have hbmem := hweighed₃.bestInvalid b hbest
      obtain ⟨w, hb⟩ := hweighed₃.work_some b hbmem
      obtain ⟨w', hh⟩ := hweighed₃.work_some h (by simp)
      simp only [hb, hh, Option.bind_eq_bind, Option.bind_some]
      split
      · exact ⟨_, rfl, hwithBest h (by simp)⟩
      · exact ⟨s₃, rfl, honly₃, hweighed₃⟩
  · exact ⟨s₃, rfl, honly₃, hweighed₃⟩

/-- Of all the headers, lower ones first, a parent stands before its children. -/
theorem parent_mem_of_sorted {p : Hash} {rest : List Hash}
    (ht : IsTree s.nodes chain.genesis.hash)
    (hsorted : (done ++ h :: rest).Pairwise fun a b => s.heightOf a ≤ s.heightOf b)
    (hall : ∀ x, x ∈ done ++ h :: rest ↔ ∃ info, s.getBlockInfo x = some info)
    (hpc : Child s.nodes p h) : p ∈ done := by
  obtain ⟨n, hn⟩ := hpc
  obtain ⟨q, hq⟩ := ht.parent_node hn
  obtain ⟨pinfo, hpinfo, hpeq⟩ := exists_info hq
  obtain ⟨info', hinfo', heq⟩ := exists_info hn
  have hheight : s.heightOf p < s.heightOf h := by
    unfold heightOf
    rw [hpinfo, hinfo']
    have h₁ := congrArg Prod.snd hpeq
    have h₂ := congrArg Prod.snd heq
    simp only at h₁ h₂
    simp only [Option.elim_some]
    omega
  have hmem := (hall p).mpr ⟨pinfo, hpinfo⟩
  rcases List.mem_append.mp hmem with hmem | hmem
  · exact hmem
  · have hle : s.heightOf h ≤ s.heightOf p := by
      rcases List.mem_cons.mp hmem with rfl | hmem
      · exact Nat.le_refl _
      · have hrest := (List.pairwise_append.mp hsorted).2.1
        exact (List.pairwise_cons.mp hrest).1 p hmem
    omega

/-- **`calculate_chainwork` weighs all headers**, their parents before them. -/
theorem Weighed.calculateChainwork (hw : Weighed chain s done)
    (ht : IsTree s.nodes chain.genesis.hash)
    (hpow : ∀ h info, s.getBlockInfo h = some info → chain.validPow info.header = true)
    (rest : List Hash) (hnodup : (done ++ rest).Nodup)
    (hsorted : (done ++ rest).Pairwise fun a b => s.heightOf a ≤ s.heightOf b)
    (hall : ∀ x, x ∈ done ++ rest ↔ ∃ info, s.getBlockInfo x = some info) :
    ∃ t, calculateChainwork chain rest s = some t ∧ OnlyWeighed s t ∧
      Weighed chain t (done ++ rest) := by
  induction rest generalizing s done with
  | nil => exact ⟨s, rfl, ⟨rfl⟩, by rwa [List.append_nil]⟩
  | cons h rest ih =>
    have happend : done ++ h :: rest = done ++ [h] ++ rest := by simp
    obtain ⟨info, hinfo⟩ := (hall h).mp (by simp)
    have hnew : h ∉ done := fun hmem =>
      (List.nodup_append.mp hnodup).2.2 h hmem h (by simp) rfl
    have hparent : ∀ p, Child s.nodes p h → p ∈ done := fun p hpc =>
      parent_mem_of_sorted ht hsorted hall hpc
    obtain ⟨t, hweigh, honly, hwt⟩ := hw.weighHeader ht hinfo (hpow h info hinfo) hnew hparent
    rw [happend] at hnodup hsorted hall ⊢
    have hheight : t.heightOf = s.heightOf := by
      unfold heightOf
      rw [honly.getBlockInfo]
    obtain ⟨u, hloop, honly', hwu⟩ := ih hwt (by rw [honly.nodes]; exact ht)
      (by rw [honly.getBlockInfo]; exact hpow) hnodup (by rw [hheight]; exact hsorted)
      (by rw [honly.getBlockInfo]; exact hall)
    refine ⟨u, ?_, honly.trans honly', hwu⟩
    rw [BlockIndex.calculateChainwork, hweigh, Option.bind_eq_bind, Option.bind_some, hloop]

/-! ## The active chain and the arrival numbers -/

/-- The entries of a path, put at their heights, are the path. -/
theorem getElem?_foldl_heights (hheight : ∀ i y, main[i]? = some y → s.heightOf y = i)
    (keys : List Hash) (hkeys : ∀ y ∈ keys, y ∈ main) (d : Std.ExtTreeMap ℕ Hash) (i : ℕ) :
    (keys.foldl (fun d y => d.insert (s.heightOf y) y) d)[i]? =
      (main[i]?.filter (· ∈ keys)).or d[i]? := by
  induction keys generalizing d with
  | nil => simp
  | cons y keys ih =>
    obtain ⟨hy, hrest⟩ := List.forall_mem_cons.mp hkeys
    obtain ⟨j, hj⟩ := List.mem_iff_getElem?.mp hy
    have hyj := hheight j y hj
    rw [List.foldl_cons, ih hrest, FiniteMap.getElem?_insert, hyj]
    by_cases hji : j = i
    · subst hji
      rw [if_pos rfl, hj]
      by_cases hyk : y ∈ keys <;> simp [hyk, Option.filter]
    · rw [if_neg hji]
      cases hx : main[i]? with
      | none => rfl
      | some z =>
        have hne : z ≠ y := by
          rintro rfl
          exact hji (hyj.symm.trans (hheight i z hx))
        simp [Option.filter, hne]

/-- **The active chain comes back** as the path of the active headers. -/
theorem generateActiveChain_eq {tip : Hash} (ht : IsTree s.nodes chain.genesis.hash)
    (hmain : IsPath chain s main tip)
    (hstatus : ∀ h, s.statusOf h = some .inActiveChain ↔ h ∈ main) (hnil : s.activeChain = []) :
    s.generateActiveChain = { s with activeChain := main } := by
  have hheight : ∀ i y, main[i]? = some y → s.heightOf y = i := by
    intro i y hy
    obtain ⟨info, hinfo, hindex⟩ := info_of_getElem? ht hmain hy
    unfold heightOf
    rw [hinfo]
    exact hindex
  have hkeys : ∀ y, y ∈ s.headerDict.keys.filter (fun h =>
      decide ((s.getBlockInfo h).map BlockInfo.status = some .inActiveChain)) ↔ y ∈ main := by
    intro y
    rw [List.mem_filter, decide_eq_true_iff, ← hstatus]
    refine ⟨And.right, fun hy => ⟨?_, hy⟩⟩
    obtain ⟨info, hinfo, -⟩ := exists_info_of_status hy
    exact mem_keys_of_info hinfo
  unfold generateActiveChain
  dsimp only
  rw [hnil, List.nil_append, FiniteMap.map_snd_toList _ main]
  intro i
  rw [getElem?_foldl_heights hheight _ (fun y hy => (hkeys y).mp hy)]
  cases hx : main[i]? with
  | none => simp
  | some y =>
    have hy := (hkeys y).mpr (List.mem_of_getElem? hx)
    simp only [Option.filter, decide_eq_true hy, if_true]
    rfl

theorem loadSequenceIds_eq (keys : List Hash)
    (hknown : ∀ x ∈ keys, ∃ info, s.getBlockInfo x = some info) :
    ∃ ids unlinked, loadSequenceIds keys s =
      some { s with sequenceId := ids, unlinked := unlinked } := by
  induction keys generalizing s with
  | nil => exact ⟨s.sequenceId, s.unlinked, rfl⟩
  | cons h keys ih =>
    obtain ⟨⟨info, hinfo⟩, hrest⟩ := List.forall_mem_cons.mp hknown
    rw [loadSequenceIds, hinfo, Option.bind_eq_bind, Option.bind_some]
    dsimp only
    split
    · exact ih hrest
    · split
      · exact ih hrest
      · split
        · exact ih hrest
        · exact ih hrest

/-! ## The load -/

theorem StoredTree.info_hash (hdb : StoredTree chain db main)
    (hinfo : storedInfo chain db h = some info) : info.header.hash = h := by
  unfold storedInfo at hinfo
  rcases Option.or_eq_some_iff.mp hinfo with hinfo | ⟨-, hinfo⟩
  · exact hdb.hash_eq h info hinfo
  · split at hinfo
    · next hh =>
      cases hinfo
      exact hh.symm
    · cases hinfo

theorem StoredTree.info_validPow (hdb : StoredTree chain db main)
    (hinfo : storedInfo chain db h = some info) : chain.validPow info.header = true := by
  unfold storedInfo at hinfo
  rcases Option.or_eq_some_iff.mp hinfo with hinfo | ⟨-, hinfo⟩
  · exact hdb.pow h info hinfo
  · split at hinfo
    · cases hinfo
      exact chain.genesis_pow
    · cases hinfo

/-- **The load up to the arrival numbers**: the tree of the records, the active
path, and nothing numbered, staged or written. -/
theorem StoredTree.exists_activeChain (hdb : StoredTree chain db main) :
    ∃ s tip, (initFromDb chain db = do
        let t ← loadSequenceIds s.sortedHeaders s
        let u ← t.generateBlockCandidates
        u.rebuildHeaderIndex) ∧
      (∀ x, s.getBlockInfo x = storedInfo chain db x) ∧ s.activeChain = main ∧
      s.pending = ∅ ∧ s.puts = [] ∧ HeaderTree chain s ∧ IsPath chain s s.activeChain tip ∧
      (∀ h, s.statusOf h = some .inActiveChain ↔ h ∈ s.activeChain) ∧
      (∀ b, s.bestInvalid = some b → ∃ info, s.getBlockInfo b = some info) ∧
      s.sequenceId = ∅ ∧ s.nextSequenceId = 2 ∧ s.unlinked = ∅ := by
  obtain ⟨d, hread, hget⟩ := hdb.getBlockInfo_readRecords
  obtain ⟨tip, hmain⟩ := hdb.active
  obtain ⟨s₁, hs₁⟩ : ∃ s₁, s₁ = ({ empty chain with headerDict := d } : BlockIndex) := ⟨_, rfl⟩
  have hinfo₁ : s₁.getBlockInfo = storedInfo chain db := by
    funext x
    rw [hs₁]
    exact hget x
  have hnodes₁ : s₁.nodes = storedNodes chain db := by
    unfold nodes storedNodes
    rw [hinfo₁]
  have hempty : ∀ x : Hash, s₁.chainwork[x]? = none ∧ s₁.skip[x]? = none ∧
      s₁.children[x]?.getD [] = [] := by
    intro x
    rw [hs₁]
    simp [empty]
  have hstart : Weighed chain s₁ [] := by
    refine ⟨?_, ?_, ?_, fun p c => ?_, fun p => ?_, ?_, ?_, ?_⟩
    · intro _ _ _ hc
      cases hc
    · intro _ hh
      cases hh
    · intro _ _ _ hc
      cases hc
    · rw [(hempty p).2.2]
      simp
    · rw [(hempty p).2.2]
      exact List.nodup_nil
    · intro x target l hx
      rw [(hempty x).2.1] at hx
      cases hx
    · intro x target hx
      rw [(hempty x).2.1] at hx
      cases hx
    · intro b hb
      rw [hs₁] at hb
      cases hb
  have hnodup : s₁.sortedHeaders.Nodup :=
    (List.perm_insertionSort _ _).nodup_iff.mpr s₁.headerDict.nodup
  obtain ⟨s₂, hweigh, honly, hw⟩ := hstart.calculateChainwork (by rw [hnodes₁]; exact hdb.tree)
    (by rw [hinfo₁]; exact fun h info hinfo => hdb.info_validPow hinfo) s₁.sortedHeaders
    (by rwa [List.nil_append]) s₁.sortedHeaders_pairwise s₁.mem_sortedHeaders
  rw [List.nil_append] at hw
  have hinfo₂ : s₂.getBlockInfo = storedInfo chain db := honly.getBlockInfo.trans hinfo₁
  have hnodes₂ : s₂.nodes = storedNodes chain db := honly.nodes.trans hnodes₁
  have hdone : ∀ x, x ∈ s₁.sortedHeaders ↔ ∃ info, s₂.getBlockInfo x = some info := by
    rw [honly.getBlockInfo]
    exact s₁.mem_sortedHeaders
  have htree₂ : HeaderTree chain s₂ := by
    refine ⟨by rw [hnodes₂]; exact hdb.tree, ?_, ?_, ?_, ?_, hw.nodup_children, ?_, ?_⟩
    · rw [hinfo₂]
      exact hdb.info_hash
    · intro x info hinfo
      exact hw.work_some x ((hdone x).mpr ⟨info, hinfo⟩)
    · intro p c hpc
      obtain ⟨info, hinfo, -⟩ := exists_info hpc.choose_spec
      exact hw.work_lt p c hpc ((hdone c).mpr ⟨info, hinfo⟩)
    · intro p c
      rw [hw.mem_children]
      refine ⟨And.right, fun hpc => ⟨?_, hpc⟩⟩
      obtain ⟨info, hinfo, -⟩ := exists_info hpc.choose_spec
      exact (hdone c).mpr ⟨info, hinfo⟩
    · intro x target l hx hl
      exact hw.skips x target l hx hl
    · intro x target hx
      exact (hdone x).mp (hw.skip_mem x target hx)
  have hmain₂ : IsPath chain s₂ main tip := by
    unfold IsPath
    rw [hnodes₂]
    exact hmain
  have hstatus₂ : ∀ h, s₂.statusOf h = some .inActiveChain ↔ h ∈ main := by
    intro h
    constructor
    · intro hh
      obtain ⟨info, hinfo, hst⟩ := exists_info_of_status hh
      rw [hinfo₂] at hinfo
      exact (hdb.activeStatus h info hinfo).mp hst
    · intro hh
      obtain ⟨info, hinfo, -⟩ := htree₂.info_of_mem hmain₂ hh
      rw [statusOf_eq hinfo, (hdb.activeStatus h info (hinfo₂ ▸ hinfo)).mpr hh]
  have hnil : s₂.activeChain = [] := by rw [honly.eq, hs₁]; rfl
  have hactive := generateActiveChain_eq htree₂.tree hmain₂ hstatus₂ hnil
  obtain ⟨s₃, hs₃⟩ : ∃ s₃, s₃ = ({ s₂ with activeChain := main } : BlockIndex) := ⟨_, rfl⟩
  refine ⟨{ s₂ with activeChain := main }, tip, ?_, fun x => congrFun hinfo₂ x, rfl, ?_, ?_,
    htree₂.congr rfl rfl rfl rfl, hmain₂, hstatus₂, fun b hb => (hdone b).mp (hw.bestInvalid b hb),
    ?_, ?_, ?_⟩
  · unfold initFromDb
    rw [hread, Option.bind_eq_bind, Option.bind_some, ← hs₁, hweigh, Option.bind_some]
    dsimp only
    rw [hactive]
  · show s₂.pending = ∅
    rw [honly.eq, hs₁]
    rfl
  · show s₂.puts = []
    rw [honly.eq, hs₁]
    rfl
  · show s₂.sequenceId = ∅
    rw [honly.eq, hs₁]
    rfl
  · show s₂.nextSequenceId = 2
    rw [honly.eq, hs₁]
    rfl
  · show s₂.unlinked = ∅
    rw [honly.eq, hs₁]
    rfl

/-- **The load up to the header index**: the records as stored, the active path,
nothing staged and nothing written. -/
theorem StoredTree.exists_load (hdb : StoredTree chain db main) :
    ∃ s tip, initFromDb chain db = s.rebuildHeaderIndex ∧
      (∀ x, s.getBlockInfo x = storedInfo chain db x) ∧ s.activeChain = main ∧
      s.pending = ∅ ∧ s.puts = [] ∧ HeaderTree chain s ∧ IsPath chain s s.activeChain tip ∧
      (∀ h, s.statusOf h = some .inActiveChain ↔ h ∈ s.activeChain) ∧
      (∀ b, s.bestInvalid = some b → ∃ info, s.getBlockInfo b = some info) ∧
      ∀ c ∈ s.blockCandidates, IsCandidateEntry chain s c ∧ s.statusOf c.1 ≠ some .invalid := by
  obtain ⟨s, tip, hinit, hinfo, hactive, hpending, hputs, htree, hmain, hstatus, hbest, -⟩ :=
    hdb.exists_activeChain
  obtain ⟨ids, unlinked, hids⟩ := loadSequenceIds_eq (s := s) s.sortedHeaders
    fun x hx => (s.mem_sortedHeaders x).mp hx
  obtain ⟨t, ht⟩ : ∃ t, t = ({ s with sequenceId := ids, unlinked := unlinked } : BlockIndex) :=
    ⟨_, rfl⟩
  rw [← ht] at hids
  have htree' : HeaderTree chain t := by
    rw [ht]
    exact htree.congr rfl rfl rfl rfl
  have hmain' : IsPath chain t t.activeChain tip := by
    rw [ht]
    exact hmain
  have hgen := htree'.generateBlockCandidates_eq hmain'
  have hcands := isCandidateEntry_of_isNewCandidate hmain'
  obtain ⟨cands, hcandsEq⟩ : ∃ cands, cands =
      (t.sortedHeaders.filter (t.isNewCandidate tip)).map fun h => (h, t.weight h) := ⟨_, rfl⟩
  rw [← hcandsEq] at hgen hcands
  refine ⟨{ t with blockCandidates := cands }, tip, ?_, ?_, ?_, ?_, ?_, ?_, ?_, ?_, ?_, ?_⟩
  · rw [hinit, hids, Option.bind_eq_bind, Option.bind_some, hgen, Option.bind_some]
  · intro x
    show t.getBlockInfo x = _
    rw [ht, ← hinfo]
    rfl
  · show t.activeChain = main
    rw [ht, hactive]
  · show t.pending = ∅
    rw [ht, hpending]
  · show t.puts = []
    rw [ht, hputs]
  · exact htree'.congr rfl rfl rfl rfl
  · exact hmain'
  · intro h
    show t.statusOf h = _ ↔ h ∈ t.activeChain
    rw [ht]
    exact hstatus h
  · intro b hb
    rw [ht] at hb ⊢
    exact hbest b hb
  · intro c hc
    obtain ⟨⟨hknown, hwork, hne⟩, hvalid⟩ := hcands c hc
    exact ⟨⟨hknown, hwork, hne⟩, hvalid⟩

/-- What a load gives back: the records as stored, the active path, nothing
staged and nothing written. -/
structure Loaded (chain : Chain) (db : BlockTable) (main : List Hash) (s : BlockIndex) : Prop where
  info : ∀ x, s.getBlockInfo x = storedInfo chain db x
  activeChain : s.activeChain = main
  pending : s.pending = ∅
  puts : s.puts = []

/-- What `_grow_header_index` may move. -/
structure OnlyHeaderIndex (s t : BlockIndex) : Prop where
  eq : t = { s with headerIndex := t.headerIndex, headerIndexPos := t.headerIndexPos }

theorem growHeaderIndex_only {header : BlockHeader} {newWork : ℕ}
    (heq : s.growHeaderIndex header h newWork = some t) : OnlyHeaderIndex s t := by
  unfold growHeaderIndex at heq
  rw [Option.bind_eq_bind, Option.bind_eq_some_iff] at heq
  obtain ⟨best, -, heq⟩ := heq
  split at heq
  · cases heq
    exact ⟨rfl⟩
  · rw [Option.bind_eq_bind, Option.bind_eq_some_iff] at heq
    obtain ⟨work, -, heq⟩ := heq
    split at heq
    · rw [Option.bind_eq_bind, Option.bind_eq_some_iff] at heq
      obtain ⟨fork, -, heq⟩ := heq
      rw [Option.bind_eq_some_iff] at heq
      obtain ⟨pos, -, heq⟩ := heq
      cases heq
      exact ⟨rfl⟩
    · cases heq
      exact ⟨rfl⟩

theorem extendHeaderIndex_only {keys : List Hash} (heq : s.extendHeaderIndex keys = some t) :
    OnlyHeaderIndex s t := by
  induction keys generalizing s with
  | nil =>
    cases heq
    exact ⟨rfl⟩
  | cons h keys ih =>
    rw [extendHeaderIndex] at heq
    split at heq
    · exact ih heq
    · rw [Option.bind_eq_bind, Option.bind_eq_some_iff] at heq
      obtain ⟨info, -, heq⟩ := heq
      split at heq
      · exact ih heq
      · rw [Option.bind_eq_bind, Option.bind_eq_some_iff] at heq
        obtain ⟨work, -, heq⟩ := heq
        rw [Option.bind_eq_bind, Option.bind_eq_some_iff] at heq
        obtain ⟨u, hgrow, heq⟩ := heq
        have hsu := (growHeaderIndex_only hgrow).eq
        have hut := (ih heq).eq
        rw [hsu] at hut
        exact ⟨hut⟩

/-- **A load that returns gives back the store.** -/
theorem StoredTree.loaded (hdb : StoredTree chain db main) (hload : initFromDb chain db = some s) :
    Loaded chain db main s := by
  obtain ⟨u, tip, heq, hinfo, hactive, hpending, hputs, -⟩ := hdb.exists_load
  rw [heq] at hload
  have hus := (extendHeaderIndex_only hload).eq
  refine ⟨fun x => ?_, ?_, ?_, ?_⟩ <;> rw [hus]
  · exact hinfo x
  · exact hactive
  · exact hpending
  · exact hputs

/-- **A store whose invalidity is closed loads**, as a consistent index. -/
theorem StoredTree.exists_consistent (hdb : StoredTree chain db main)
    (hclosed : StoredClosed chain db) :
    ∃ s, initFromDb chain db = some s ∧ Loaded chain db main s ∧ Consistent chain s := by
  obtain ⟨u, tip, heq, hinfo, -, -, -, htree, hmain, hstatus, hbest, hcands⟩ := hdb.exists_load
  have hnodes : u.nodes = storedNodes chain db := by
    unfold nodes storedNodes
    rw [funext hinfo]
  have hsound : Sound chain u := by
    refine ⟨htree, ?_, ⟨tip, hmain⟩, hstatus, hbest, fun c hc => (hcands c hc).1,
      fun c hc => (hcands c hc).2⟩
    intro p c hpc hp
    obtain ⟨pinfo, hpinfo, hpinv⟩ := exists_info_of_status hp
    obtain ⟨cinfo, hcinfo, -⟩ := exists_info hpc.choose_spec
    rw [statusOf_eq hcinfo]
    rw [hinfo] at hpinfo hcinfo
    rw [hnodes] at hpc
    rw [hclosed p c pinfo cinfo hpc hpinfo hcinfo hpinv]
  obtain ⟨l, d, hrebuild, hcons⟩ := hsound.rebuildHeaderIndex
  exact ⟨_, heq.trans hrebuild, hdb.loaded (heq.trans hrebuild), hcons⟩

/-- An index that agrees with the store and keeps invalidity closed shows that
the store does. -/
theorem Loaded.storedClosed (hl : Loaded chain db main s) (hc : InvalidClosed s) :
    StoredClosed chain db := by
  intro p c pinfo cinfo hpc hp hcs hinv
  have hnodes : s.nodes = storedNodes chain db := by
    unfold nodes storedNodes
    rw [funext hl.info]
  rw [← hnodes] at hpc
  rw [← hl.info] at hp hcs
  have h0 := hc p c hpc (by rw [statusOf_eq hp, hinv])
  rwa [statusOf_eq hcs, Option.some.injEq] at h0

/-! ## A new store -/

theorem storedInfo_empty (chain : Chain) (x : Hash) : storedInfo chain ∅ x =
    if x = chain.genesis.hash then some (genesisInfo chain) else none := by
  unfold storedInfo
  rw [Std.ExtTreeMap.getElem?_empty]
  rfl

/-- A new store holds genesis, active. -/
theorem storedTree_empty (chain : Chain) : StoredTree chain ∅ [chain.genesis.hash] := by
  have hnode : ∀ {x y}, storedNodes chain ∅ x = some y →
      x = chain.genesis.hash ∧ y = (chain.genesis.previousBlockHash, 0) := by
    intro x y hx
    unfold storedNodes at hx
    rw [storedInfo_empty] at hx
    split at hx
    · next hh =>
      cases hx
      exact ⟨hh, rfl⟩
    · cases hx
  refine ⟨fun x info hx => ?_, fun x info hx => ?_, ⟨⟨chain.genesis.previousBlockHash, ?_⟩,
    fun hx => (hnode hx).1, fun hx => ?_⟩, ⟨_, .root⟩, fun x info hx => ?_⟩
  · rw [Std.ExtTreeMap.getElem?_empty] at hx
    cases hx
  · rw [Std.ExtTreeMap.getElem?_empty] at hx
    cases hx
  · unfold storedNodes
    rw [storedInfo_empty, if_pos rfl]
    rfl
  · have := congrArg Prod.snd (hnode hx).2
    simp at this
  · rw [storedInfo_empty] at hx
    split at hx
    · next hh =>
      cases hx
      simp [genesisInfo, hh]
    · cases hx

theorem storedClosed_empty (chain : Chain) : StoredClosed chain ∅ := by
  intro p c pinfo cinfo _ hp _ hinv
  rw [storedInfo_empty] at hp
  split at hp
  · cases hp
    cases hinv
  · cases hp

end Load

end BtclibNode.BlockIndex
