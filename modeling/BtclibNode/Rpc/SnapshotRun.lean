/-
# A whole dump

The transactions counted and the coins written are those of one chain, whatever
becomes of the active chain while the call yields: the base is pinned by its block,
and nothing yields between the last look at the chain and the cursor.
-/
import BtclibNode.Rpc.SnapshotGroups

namespace BtclibNode.Snapshot

open Overlay StateExcept

variable {S : Type} {C : CoinStats S} {b : ChainBlocks} {env : SnapshotEnv S}
  {rules : SnapshotRules S} {s : DumpState}

/-! ## The transactions -/

/-- The chain at a resume. -/
abbrev chainAt (env : SnapshotEnv S) (k : ℕ) : List Hash := (env.worlds k).activeChain

theorem sat_txCounts (hworlds : ∀ k, (env.worlds k).Consistent C b) (number : ℕ)
    (chain : List Hash) :
    Sat (txCounts env number chain) s
      (fun n t => n = b.txSum chain ∧ s.resumes ≤ t.resumes ∧ t.file = s.file) Failed := by
  induction chain generalizing number s with
  | nil => exact ⟨rfl, Nat.le_refl _, rfl⟩
  | cons h chain ih =>
    unfold txCounts
    rw [sat_bind]
    refine sat_access.mono (fun _ t ht => ?_) fun _ _ h => h
    rw [sat_bind]
    refine sat_world ?_
    rw [sat_bind]
    refine sat_orRaise nofun fun count hcount => ?_
    have hsum := (hworlds t.resumes).txCounts h count hcount
    rw [sat_bind]
    refine (sat_pauseWhen _).mono (fun _ u hu => ?_) fun _ _ h => h
    rw [sat_bind]
    refine (ih (number + 1)).mono (fun rest v hv => ?_) fun _ _ h => h
    refine ⟨?_, ?_, hv.2.2.trans (hu.2.trans ht.file)⟩
    · rw [hv.1, hsum]
      rfl
    · have := ht.resumes
      omega

theorem sat_chainTxCount (hworlds : ∀ k, (env.worlds k).Consistent C b) (first last : ℕ) :
    Sat (chainTxCount env first last) s
      (fun n t => n = b.txSum (((chainAt env s.resumes).take (last + 1)).drop first) ∧
        s.resumes ≤ t.resumes ∧ t.file = s.file) Failed := by
  unfold chainTxCount
  rw [sat_bind]
  exact sat_world (sat_txCounts hworlds 0 _)

/-- What `_counted` answers: the base is on the chain of the last look, and the
transactions are those of its chain. -/
def CountedAt (b : ChainBlocks) (env : SnapshotEnv S) (r : ℕ × ℕ) (t : DumpState) : Prop :=
  r.2 < (chainAt env t.resumes).length ∧
    r.1 = b.txSum ((chainAt env t.resumes).take (r.2 + 1))

/-- **The count for the tip**: `total` is what was counted of the chain there is now. -/
theorem sat_countedTip (hworlds : ∀ k, (env.worlds k).Consistent C b) {fuel counted total : ℕ}
    (hcounted : counted ≤ (chainAt env s.resumes).length)
    (htotal : total = b.txSum ((chainAt env s.resumes).take counted)) :
    Sat (countedTip env fuel counted total) s
      (fun r t => CountedAt b env r t ∧ r.2 = (chainAt env t.resumes).length - 1 ∧ t.file = s.file)
      (fun e t => e = .waiting → s.resumes + fuel ≤ t.resumes) := by
  induction fuel generalizing counted total s with
  | zero => exact fun _ => Nat.le_refl _
  | succ fuel ih =>
    unfold countedTip
    rw [sat_bind]
    refine sat_world ?_
    dsimp only
    rw [sat_bind]
    refine sat_orRaise nofun fun pinned hpinned => ?_
    have hlt : (chainAt env s.resumes).length - 1 < (chainAt env s.resumes).length :=
      (List.getElem?_eq_some_iff.mp hpinned).1
    rw [sat_bind]
    refine (sat_chainTxCount hworlds counted _).mono (fun more t ht => ?_) fun _ _ h hw =>
      absurd hw h
    obtain ⟨hmore, hresumes, hfile⟩ := ht
    rw [sat_bind]
    refine sat_world ?_
    -- a round that does not end has yielded: the chain is another
    have hmoved : chainAt env t.resumes ≠ chainAt env s.resumes → s.resumes + 1 ≤ t.resumes := by
      intro hne
      rcases Nat.eq_or_lt_of_le hresumes with heq | hlt
      · exact absurd (by rw [heq]) hne
      · exact hlt
    have htip : (chainAt env s.resumes).length - 1 + 1 = (chainAt env s.resumes).length := by
      omega
    have hsum : total + more = b.txSum (chainAt env s.resumes) := by
      rw [hmore, htotal, htip, List.take_length, ← ChainBlocks.txSum_append,
        List.take_append_drop]
    split
    · next hreorg =>
      have hone := hmoved fun heq => hreorg (heq.symm ▸ hpinned : (chainAt env t.resumes)[_]? = _)
      refine (ih (Nat.zero_le _) rfl).mono (fun r u hu => ⟨hu.1, hu.2.1, hu.2.2.trans hfile⟩)
        fun e u hu hw => ?_
      have := hu hw
      omega
    · next hkept =>
      rw [not_not] at hkept
      have htake := (hworlds s.resumes).chain.take_eq (hworlds t.resumes).chain hpinned hkept
      rw [htip, List.take_length] at htake
      have hlt' : (chainAt env s.resumes).length - 1 < (chainAt env t.resumes).length :=
        (List.getElem?_eq_some_iff.mp hkept).1
      split
      · next hend =>
        refine ⟨⟨hlt', ?_⟩, hend.symm, hfile⟩
        rw [htip, ← htake]
        exact hsum
      · next hgrown =>
        have hone := hmoved fun heq => hgrown (by
          show (chainAt env t.resumes).length - 1 = _
          rw [heq])
        rw [htip]
        refine (ih (s := t) ?_ ?_).mono (fun r u hu => ⟨hu.1, hu.2.1, hu.2.2.trans hfile⟩)
          fun e u hu hw => ?_
        · omega
        · rw [← htake]
          exact hsum
        · have := hu hw
          omega

/-- The height of the base: the target, or that of the tip. -/
def IsBase (target : Option ℕ) (chain : List Hash) (height : ℕ) : Prop :=
  match target with
  | some target => height = target
  | none => height = chain.length - 1

/-- **`_counted` counts the chain of the base it answers.** -/
theorem sat_counted (hworlds : ∀ k, (env.worlds k).Consistent C b) (target : Option ℕ) :
    Sat (counted env target) s
      (fun r t => CountedAt b env r t ∧ t.file = s.file ∧ IsBase target (chainAt env t.resumes) r.2)
      (fun e t => e = .waiting → env.patience ≤ t.resumes) := by
  cases target with
  | none =>
    refine (sat_countedTip hworlds (Nat.zero_le _) rfl).mono
      (fun r t ht => ⟨ht.1, ht.2.2, ht.2.1⟩) fun e t ht hw => ?_
    have := ht hw
    omega
  | some target =>
    unfold counted
    rw [sat_bind]
    refine sat_world ?_
    rw [sat_bind]
    refine sat_orRaise nofun fun pinned hpinned => ?_
    rw [sat_bind]
    refine (sat_chainTxCount hworlds 0 target).mono (fun count t ht => ?_) fun _ _ h hw =>
      absurd hw h
    obtain ⟨hcount, -, hfile⟩ := ht
    rw [sat_bind]
    unfold requireBlock
    rw [sat_bind]
    refine sat_world ?_
    split
    · exact nofun
    · next hkept =>
      rw [not_not] at hkept
      obtain ⟨hlt, -⟩ := List.getElem?_eq_some_iff.mp hkept
      refine ⟨⟨hlt, ?_⟩, hfile, rfl⟩
      rw [hcount, List.drop_zero,
        (hworlds s.resumes).chain.take_eq (hworlds t.resumes).chain hpinned hkept]

/-! ## The file -/

theorem sat_putPipe {fuel : ℕ} {data : Bytes} :
    Sat (putPipe env fuel data) s (fun _ t => t.file = s.file ++ data)
      (fun e t => e = .waiting → s.writes + fuel ≤ t.writes) := by
  induction fuel generalizing data s with
  | zero =>
    cases data with
    | nil => exact (List.append_nil _).symm
    | cons x data => exact fun _ => Nat.le_refl _
  | succ fuel ih =>
    cases data with
    | nil => exact (List.append_nil _).symm
    | cons x data =>
      unfold putPipe
      rw [sat_bind, sat_get, sat_bind]
      show Sat _ { s with writes := s.writes + 1 } _ _
      split
      · exact nofun
      · rw [sat_bind]
        unfold interruptionPoint
        rw [sat_bind, sat_get, sat_bind]
        show Sat _ { s with writes := s.writes + 1, looks := s.looks + 1 } _ _
        split
        · exact nofun
        · rw [sat_pure, sat_bind]
          refine (ih (s := { s with
            writes := s.writes + 1, looks := s.looks + 1, resumes := s.resumes + 1 })).mono
            (fun _ t ht => ht) fun e t ht hw => ?_
          have := ht hw
          dsimp only at this
          omega
      · next n _ =>
        rw [sat_bind, sat_modify]
        refine (ih (s := { s with
          writes := s.writes + 1, file := s.file ++ (x :: data).take n })).mono
          (fun _ t ht => ?_) fun e t ht hw => ?_
        · rw [ht, List.append_assoc, List.take_append_drop]
        · have := ht hw
          dsimp only at this
          omega

/-- What a call still waiting has done. -/
abbrev Ended (env : SnapshotEnv S) (e : SnapshotError) (t : DumpState) : Prop :=
  e = .waiting → env.patience ≤ t.resumes ∨ env.patience ≤ t.writes

/-- **`_put` writes everything**, or raises. -/
theorem sat_put (seekable : Bool) (data : Bytes) :
    Sat (put env seekable data) s (fun _ t => t.file = s.file ++ data) (Ended env) := by
  unfold put
  split
  · rw [sat_bind]
    refine sat_access.mono (fun _ t ht => ?_) fun _ _ h hw => absurd hw h
    rw [sat_modify]
    exact congrArg (· ++ data) ht.file
  · refine sat_putPipe.mono (fun _ _ h => h) fun e t ht hw => .inr ?_
    have := ht hw
    omega

/-! ## The coins -/

/-- A coin as the store holds it. -/
def toRecord (x : OutPoint × Coin) : OutPoint × CoinRecord := (x.1, .coin x.2)

/-- The octets of one txid's coins. -/
def groupOctets (rules : SnapshotRules S) (group : List (OutPoint × Coin)) : Option Bytes :=
  serializeTxCoins rules (group.head?.elim [] fun x => txidOctets x.1.txid)
    (group.map fun x => (x.1.vout, x.2))

theorem parseRows_eq {group : List (OutPoint × CoinRecord)} {rows : List (ℕ × Bytes × Coin)}
    (h : parseRows (group.map rowOf) = some rows) :
    ∃ coins : List (OutPoint × Coin), group = coins.map toRecord ∧
      rows = coins.map fun x => (x.1.vout, serializeOutPoint x.1, x.2) := by
  induction group generalizing rows with
  | nil =>
    cases h
    exact ⟨[], rfl, rfl⟩
  | cons x group ih =>
    obtain ⟨o, record⟩ := x
    unfold parseRows at h ih
    rw [List.map_cons, List.mapM_cons, Option.bind_eq_bind, Option.bind_eq_some_iff] at h
    obtain ⟨row, hrow, h⟩ := h
    rw [Option.bind_eq_bind, Option.bind_eq_some_iff] at h
    obtain ⟨rest, hrest, h⟩ := h
    obtain ⟨coins, rfl, rfl⟩ := ih hrest
    cases record with
    | unreadable => cases hrow
    | coin coin =>
      cases hrow
      cases h
      exact ⟨(o, coin) :: coins, rfl, rfl⟩

/-- What the coins of `groups` are written as. -/
structure WritesGroups (rules : SnapshotRules S) (groups : List (List (OutPoint × CoinRecord)))
    (file file' : Bytes) (written written' : ℕ) (coins : List (List (OutPoint × Coin))) : Prop where
  groups_eq : groups = coins.map fun group => group.map toRecord
  written_eq : written' = written + coins.flatten.length
  octets : ∃ octets, coins.mapM (groupOctets rules) = some octets ∧ file' = file ++ octets.flatten

/-- **`_write` writes every coin of the cursor**, or raises. -/
theorem sat_writeGroups (seekable : Bool) (groups : List (List (OutPoint × CoinRecord)))
    (hashed : Bytes) (written : ℕ) :
    Sat (writeGroups rules env seekable (groups.map fun group => group.map rowOf) hashed written) s
      (fun r t => ∃ coins, WritesGroups rules groups s.file t.file written r.2 coins)
      (Ended env) := by
  induction groups generalizing s hashed written with
  | nil => exact ⟨[], rfl, rfl, [], rfl, (List.append_nil _).symm⟩
  | cons group groups ih =>
    rw [List.map_cons]
    unfold writeGroups
    rw [sat_bind]
    refine sat_access.mono (fun _ t ht => ?_) fun _ _ h hw => absurd hw h
    rw [sat_bind]
    refine sat_orRaise nofun fun rows hrows => ?_
    obtain ⟨coins, rfl, rfl⟩ := parseRows_eq hrows
    dsimp only
    rw [sat_bind]
    refine sat_orRaise nofun fun octets hoctets => ?_
    have hgroup : groupOctets rules coins = some octets := by
      rw [← hoctets, groupOctets, List.map_map, List.head?_map]
      cases coins with
      | nil => rfl
      | cons x coins =>
        rw [List.head?_cons, Option.map_some, Option.elim_some, Option.elim_some,
          take_serializeOutPoint]
        rfl
    rw [sat_bind]
    refine (sat_put seekable octets).mono (fun _ u hu => ?_) fun _ _ h => h
    rw [sat_bind]
    refine (sat_pauseWhen _).mono (fun _ v hv => ?_) fun _ _ h hw => absurd hw h
    refine (ih _ _).mono (fun r x hx => ?_) fun _ _ h => h
    obtain ⟨rest, hrest⟩ := hx
    obtain ⟨restOctets, hmapM, hfile⟩ := hrest.octets
    refine ⟨coins :: rest, ?_, ?_, octets :: restOctets, ?_, ?_⟩
    · rw [List.map_cons, hrest.groups_eq]
    · rw [hrest.written_eq, List.flatten_cons, List.length_append, List.length_map, Nat.add_assoc]
    · rw [List.mapM_cons, hgroup, hmapM]
      rfl
    · rw [hfile, hv.2, hu, ht.file, List.flatten_cons, List.append_assoc]

theorem length_serializeMetadata {baseHash : Hash} {count : ℕ} {metadata : Bytes}
    (h : serializeMetadata rules baseHash count = some metadata) :
    metadata.length = 47 + rules.magic.length := by
  unfold serializeMetadata at h
  split at h
  · obtain rfl := Option.some.inj h
    simp only [List.length_append, LittleEndian.length_encode, List.length_singleton]
    have : (ascii "utxo").length = 4 := by decide
    omega
  · cases h

/-- **`file` is the snapshot of the set `m`**: the metadata with the number of its
coins, then the coins, each once, in the order of the txids' octets and under a txid
by index. -/
structure SnapshotOf (rules : SnapshotRules S) (m : UtxoSet) (baseHash : Hash) (count : ℕ)
    (file : Bytes) (groups : List (List (OutPoint × Coin))) : Prop where
  grouped : ∀ group ∈ groups, group ≠ [] ∧ ∃ t, ∀ x ∈ group, x.1.txid = t
  ordered : groups.flatten.Pairwise fun x y => Before x.1 y.1
  coins : ∀ o coin, (o, coin) ∈ groups.flatten ↔ m[o]? = some coin
  count_eq : count = groups.flatten.length
  octets : ∃ metadata octets, serializeMetadata rules baseHash count = some metadata ∧
    groups.mapM (groupOctets rules) = some octets ∧ file = metadata ++ octets.flatten

/-- The records `f` are those of the set `m`, where they parse. -/
def Parses (f : OutPoint → Option CoinRecord) (m : UtxoSet) : Prop :=
  ∀ o, (f o).bind CoinRecord.coin? = m[o]?

/-- **`_write` writes the snapshot of the set its cursor walks.** -/
theorem sat_write {seekable : Bool} {baseHash : Hash} {baseHeight : ℕ}
    {rows : List (Bytes × CoinRecord)} {f : OutPoint → Option CoinRecord} {m : UtxoSet}
    {count : Option ℕ} (hfile : s.file = []) (hrows : Lists rows f) (hm : Parses f m)
    (hfits : ∀ o ∈ m, o.Fits) :
    Sat (write rules env seekable baseHash baseHeight rows count) s
      (fun r t => r.baseHash = baseHash ∧ r.baseHeight = baseHeight ∧
        ∃ groups, SnapshotOf rules m baseHash r.coinsWritten t.file groups) (Ended env) := by
  obtain ⟨l, rfl, hl, hord, hmem⟩ := exists_keyed hrows
  have hgroups : byTxid (l.map keyed) = (gather 0 [] l).map fun group => group.map rowOf :=
    byTxidFrom_eq (.inl rfl) hl
  unfold write
  rw [sat_bind]
  refine sat_orRaise nofun fun metadata hmetadata => ?_
  rw [sat_bind]
  refine (sat_put seekable metadata).mono (fun _ t ht => ?_) fun _ _ h => h
  rw [hfile, List.nil_append] at ht
  rw [hgroups, sat_bind]
  refine (sat_writeGroups seekable _ [] 0).mono (fun r u hu => ?_) fun _ _ h => h
  obtain ⟨coins, hcoins⟩ := hu
  obtain ⟨octets, hoctets, hbody⟩ := hcoins.octets
  have hwritten : r.2 = coins.flatten.length := by rw [hcoins.written_eq, Nat.zero_add]
  have hflat : (gather 0 [] l).flatten = coins.flatten.map toRecord := by
    rw [hcoins.groups_eq, List.map_flatten]
  -- the groups, whatever is done with the count
  have hof : ∀ {metadata' : Bytes} {file : Bytes},
      serializeMetadata rules baseHash r.2 = some metadata' → file = metadata' ++ octets.flatten →
        SnapshotOf rules m baseHash r.2 file coins := by
    intro metadata' file hmeta hfile'
    refine ⟨fun group hg => ?_, ?_, fun o coin => ?_, hwritten, metadata', octets, hmeta, hoctets,
      hfile'⟩
    · obtain ⟨hne, t', ht'⟩ := txid_of_gather (t := 0) (fun x hx => by cases hx)
        (hcoins.groups_eq ▸ List.mem_map_of_mem hg : group.map toRecord ∈ gather 0 [] l)
      exact ⟨fun h => hne (by rw [h]; rfl), t', fun x hx =>
        ht' (toRecord x) (List.mem_map_of_mem hx)⟩
    · have hpair := pairwise_gather (t := 0) (by rwa [List.nil_append]) (fun x hx => by cases hx)
        (by rwa [List.nil_append])
      rw [hflat] at hpair
      have hcoins := List.pairwise_map.mp hpair
      exact hcoins
    · have hin : (o, coin) ∈ coins.flatten ↔ (o, CoinRecord.coin coin) ∈ l := by
        have hperm := gather_perm 0 [] l
        rw [List.nil_append] at hperm
        rw [← hperm.mem_iff, hflat, List.mem_map]
        constructor
        · exact fun h => ⟨_, h, rfl⟩
        · rintro ⟨x, hx, heq⟩
          obtain ⟨rfl, hc⟩ := Prod.mk.inj heq
          obtain rfl := CoinRecord.coin.inj hc
          exact hx
      rw [hin, hmem, ← hm o]
      constructor
      · rintro ⟨-, hf⟩
        rw [hf]
        rfl
      · intro hf
        have hfits' : o.Fits := by
          refine hfits o ((FiniteMap.mem_iff_exists m o).mpr ⟨coin, ?_⟩)
          rw [← hm o, hf]
        obtain ⟨record, hrecord, hcoin⟩ := Option.bind_eq_some_iff.mp hf
        cases record with
        | unreadable => cases hcoin
        | coin c =>
          obtain rfl := Option.some.inj hcoin
          exact ⟨hfits', hrecord⟩
  dsimp only
  rw [sat_bind]
  cases count with
  | none =>
    unfold closeCount rewriteMetadata
    rw [sat_bind]
    refine sat_orRaise nofun fun metadata' hmetadata' => ?_
    rw [sat_bind]
    refine sat_access.mono (fun _ v hv => ?_) fun _ _ h hw => absurd hw h
    rw [sat_modify, sat_bind]
    refine sat_access.mono (fun _ x hx => ?_) fun _ _ h hw => absurd hw h
    refine ⟨rfl, rfl, coins, hof hmetadata' ?_⟩
    have hlen : metadata.length = metadata'.length := by
      rw [length_serializeMetadata hmetadata, length_serializeMetadata hmetadata']
    rw [hx.file]
    show metadata' ++ v.file.drop metadata'.length = _
    rw [hv.file, hbody, ht, ← hlen, List.drop_left]
  | some count =>
    dsimp only [closeCount]
    split
    · exact nofun
    · next heq =>
      rw [not_not] at heq
      rw [sat_pure, sat_bind]
      refine sat_access.mono (fun _ x hx => ?_) fun _ _ h hw => absurd hw h
      refine ⟨rfl, rfl, coins, hof (heq ▸ hmetadata) ?_⟩
      rw [hx.file, hbody, ht]

/-! ## The coins of the base -/

/-- A flushed store holds the set its index stands for. -/
theorem parses_flushed {db : CoinTable} {index : UtxoIndex S} {m : UtxoSet}
    (h : UtxoIndex.Agrees db index.data m) :
    Parses (fun o => (UtxoIndex.flushed db index)[o]?) m := by
  intro o
  dsimp only
  rw [UtxoIndex.getElem?_flushed]
  cases h o with
  | staged c notRemoved updated stored readable holds =>
    rw [holds, updated]
    rfl
  | removed c isRemoved notUpdated notStored record holds =>
    rw [holds, notUpdated, if_pos isRemoved]
    rfl
  | untouched notRemoved notUpdated notStored holds =>
    rw [holds, notUpdated, if_neg notRemoved]
    rfl

theorem fits_of_flushed {w : SnapshotWorld S} (hw : w.Consistent C b) :
    ∀ o ∈ UtxoIndex.flushed w.db w.utxoIndex, o.Fits := by
  intro o ho
  obtain ⟨record, hrecord⟩ := (FiniteMap.mem_iff_exists _ _).mp ho
  rw [UtxoIndex.getElem?_flushed] at hrecord
  cases hw.agrees o with
  | staged c notRemoved updated stored readable holds =>
    exact ChainBlocks.fits_of_replay ((FiniteMap.mem_iff_exists _ _).mpr ⟨c, holds⟩)
  | removed c isRemoved notUpdated notStored record holds =>
    rw [notUpdated, if_pos isRemoved] at hrecord
    cases hrecord
  | untouched notRemoved notUpdated notStored holds =>
    rw [notUpdated, if_neg notRemoved] at hrecord
    exact hw.keys o ((FiniteMap.mem_iff_exists _ _).mpr ⟨record, hrecord⟩)

/-- The changes that lead from one set to another, over the records of the first. -/
theorem parses_changed {f : OutPoint → Option CoinRecord}
    {g : OutPoint → Option (Option CoinRecord)} {m m' : UtxoSet} (hf : Parses f m)
    (hg : LeadsTo g m m') : Parses (changed f g) m' := by
  intro o
  rw [← hg o]
  unfold changed coinAt
  cases g o with
  | none => exact hf o
  | some record => rfl

theorem sat_countRows (count : ℕ) (rows : List (Bytes × CoinRecord)) :
    Sat (countRows env count rows) s (fun _ t => t.file = s.file) Failed := by
  induction rows generalizing count s with
  | nil => exact rfl
  | cons row rows ih =>
    unfold countRows
    rw [sat_bind]
    refine (sat_pauseWhen _).mono (fun _ t ht => ?_) fun _ _ h => h
    exact (ih (count + 1)).mono (fun _ u hu => hu.trans ht.2) fun _ _ h => h

theorem sat_countCoins (seekable : Bool) (rows : List (Bytes × CoinRecord)) :
    Sat (countCoins env seekable rows) s (fun _ t => t.file = s.file) Failed := by
  unfold countCoins
  split
  · exact rfl
  · rw [sat_bind]
    exact (sat_countRows 0 rows).mono (fun _ _ h => h) fun _ _ h => h

theorem sat_inMemory (options : List (String × Json)) :
    Sat (inMemory options) s (fun _ t => t = s) Failed := by
  unfold inMemory
  split
  · exact rfl
  · exact nofun

/-- **`_rolled_back_write` writes the set at the height** of the chain it finds. -/
theorem sat_rolledBackWrite (hworlds : ∀ k, (env.worlds k).Consistent C b) {seekable : Bool}
    {height : ℕ} {options : List (String × Json)} (hfile : s.file = [])
    (hheight : height < (chainAt env s.resumes).length) :
    Sat (rolledBackWrite rules env seekable height options) s
      (fun r t => (chainAt env s.resumes)[height]? = some r.baseHash ∧ r.baseHeight = height ∧
        ∃ groups, SnapshotOf rules (b.replay C ((chainAt env s.resumes).take (height + 1)))
          r.baseHash r.coinsWritten t.file groups) (Ended env) := by
  have hw := hworlds s.resumes
  have hstored := lists_cursor (fits_of_flushed hw)
  have hparses := parses_flushed hw.agrees
  unfold rolledBackWrite
  rw [sat_bind]
  refine sat_access.mono (fun _ t ht => ?_) fun _ _ h hw => absurd hw h
  rw [sat_bind]
  refine sat_world ?_
  rw [ht.resumes]
  dsimp only
  split
  · next htip =>
    rw [sat_bind]
    refine sat_orRaise nofun fun baseHash hbase => ?_
    have htake : (chainAt env s.resumes).take (height + 1) = chainAt env s.resumes :=
      List.take_of_length_le (by
        have : height = (chainAt env s.resumes).length - 1 := htip
        omega)
    rw [htake]
    refine (sat_write (ht.file.trans hfile) hstored hparses fun o ho =>
      ChainBlocks.fits_of_replay ho).mono (fun r u hu => ?_) fun _ _ h => h
    obtain ⟨hhash, hh, groups, hgroups⟩ := hu
    exact ⟨hhash ▸ hbase, hh, groups, hhash.symm ▸ hgroups⟩
  · split
    · exact nofun
    · rw [sat_bind]
      refine (sat_inMemory options).mono (fun memory u hu => ?_) fun _ _ h hw => absurd hw h
      subst hu
      rw [sat_bind]
      refine sat_orRaise nofun fun baseHash hbase => ?_
      rw [sat_bind]
      refine (sat_disconnected hw hheight memory).mono (fun changes v hv => ?_)
        fun _ _ h hw => absurd hw h
      obtain ⟨⟨g, hlists, hleads⟩, hsteady⟩ := hv
      rw [sat_bind]
      refine (sat_countCoins seekable _).mono (fun count x hx => ?_) fun _ _ h hw => absurd hw h
      have hempty : x.file = [] := hx.trans (hsteady.file.trans (ht.file.trans hfile))
      refine (sat_write hempty (lists_merged hstored hlists) (parses_changed hparses hleads)
        fun o ho => ChainBlocks.fits_of_replay ho).mono (fun r y hy => ?_) fun _ _ h => h
      obtain ⟨hhash, hh, groups, hgroups⟩ := hy
      exact ⟨hhash ▸ hbase, hh, groups, hhash.symm ▸ hgroups⟩

/-! ## The call -/

/-- **What a dump answers**: on the chain of some resume, the base at its height, in
the file the snapshot of the set of the blocks up to it, and the transactions of
those blocks. -/
def Dumped (C : CoinStats S) (b : ChainBlocks) (env : SnapshotEnv S) (rules : SnapshotRules S)
    (target : Option ℕ) (answer : Answer) (t : DumpState) : Prop :=
  ∃ k, (chainAt env k)[answer.baseHeight]? = some answer.baseHash ∧
    IsBase target (chainAt env k) answer.baseHeight ∧
    answer.nchaintx = b.txSum ((chainAt env k).take (answer.baseHeight + 1)) ∧
    ∃ groups, SnapshotOf rules (b.replay C ((chainAt env k).take (answer.baseHeight + 1)))
      answer.baseHash answer.coinsWritten t.file groups

/-- A count, then the coins, with no yield between the two. -/
theorem sat_countThenWrite (hworlds : ∀ k, (env.worlds k).Consistent C b) {target : Option ℕ}
    {r : ℕ × ℕ} {seekable : Bool} {options : List (String × Json)} {t : DumpState}
    (hfile : s.file = []) (hcounted : CountedAt b env r s)
    (hbase : IsBase target (chainAt env s.resumes) r.2) (hst : Steady s t) :
    Sat (rolledBackWrite rules env seekable r.2 options) t
      (fun result u => Dumped C b env rules target ⟨result, r.1⟩ u) (Ended env) := by
  obtain ⟨hlt, hsum⟩ := hcounted
  rw [← hst.resumes] at hlt hsum hbase
  refine (sat_rolledBackWrite hworlds (hst.file.trans hfile) hlt).mono (fun result u hu => ?_)
    fun _ _ h => h
  obtain ⟨hhash, hheight, hsnapshot⟩ := hu
  refine ⟨t.resumes, ?_, ?_, ?_, ?_⟩
  · show (chainAt env t.resumes)[result.baseHeight]? = some result.baseHash
    rw [hheight, hhash]
  · show IsBase target (chainAt env t.resumes) result.baseHeight
    rw [hheight]
    exact hbase
  · show r.1 = b.txSum ((chainAt env t.resumes).take (result.baseHeight + 1))
    rw [hheight, hsum]
  · show ∃ groups, SnapshotOf rules (b.replay C ((chainAt env t.resumes).take
      (result.baseHeight + 1))) result.baseHash result.coinsWritten u.file groups
    rw [hheight]
    exact hsnapshot

/-- A dump to a regular file. -/
theorem sat_dumpToFile (hworlds : ∀ k, (env.worlds k).Consistent C b) {target : Option ℕ}
    {options : List (String × Json)} (hfile : s.file = []) :
    Sat (dumpToFile rules env target options) s (Dumped C b env rules target) (Ended env) := by
  unfold dumpToFile
  rw [sat_bind]
  refine (sat_counted hworlds target).mono (fun r t ht => ?_) fun _ _ h hw => .inl (h hw)
  obtain ⟨hcounted, htfile, hbase⟩ := ht
  dsimp only
  rw [sat_bind]
  refine sat_access.mono (fun _ u hu => ?_) fun _ _ h hw => absurd hw h
  rw [sat_bind]
  refine (sat_countThenWrite hworlds (htfile.trans hfile) hcounted hbase hu).mono
    (fun result v hv => ?_) fun _ _ h => h
  rw [sat_bind]
  refine sat_access.mono (fun _ x hx => ?_) fun _ _ h hw => absurd hw h
  rw [sat_pure]
  unfold Dumped
  rw [hx.file]
  exact hv

theorem sat_openPipe {fuel : ℕ} : Sat (openPipe env fuel) s
    (fun _ t => s.resumes ≤ t.resumes ∧ t.file = s.file)
    (fun e t => e = .waiting → s.resumes + fuel ≤ t.resumes) := by
  induction fuel generalizing s with
  | zero => exact fun _ => Nat.le_refl _
  | succ fuel ih =>
    unfold openPipe
    rw [sat_bind]
    refine sat_interruptionPoint.mono (fun _ t ht => ?_) fun _ _ h hw => absurd hw h
    rw [sat_bind, sat_get, sat_bind]
    show Sat _ { t with tries := t.tries + 1 } _ _
    have hresumes := ht.resumes
    split
    · rw [sat_bind]
      refine (ih (s := { t with tries := t.tries + 1, resumes := t.resumes + 1 })).mono
        (fun _ u hu => ⟨?_, hu.2.trans ht.file⟩) fun e u hu hw => ?_
      · have := hu.1
        dsimp only at this
        omega
      · have := hu hw
        dsimp only at this
        omega
    · exact nofun
    · exact nofun
    · exact ⟨Nat.le_of_eq hresumes.symm, ht.file⟩

/-- A dump to a named pipe. -/
theorem sat_dumpToPipe (hworlds : ∀ k, (env.worlds k).Consistent C b) {target : Option ℕ}
    {options : List (String × Json)} (hfile : s.file = []) :
    Sat (dumpToPipe rules env target options) s
      (Dumped C b env rules (pipeTarget (chainAt env s.resumes) target)) (Ended env) := by
  unfold dumpToPipe
  rw [sat_bind]
  refine sat_world ?_
  dsimp only
  have hopen : Sat (openPipe env env.patience) s (fun _ t => t.file = []) (Ended env) :=
    sat_openPipe.mono (fun _ t ht => ht.2.trans hfile) fun _ _ h hw => .inl (by
      have := h hw
      omega)
  cases pipeTarget (env.worlds s.resumes).activeChain target with
  | none =>
    rw [sat_bind]
    refine hopen.mono (fun _ t ht => ?_) fun _ _ h => h
    rw [sat_bind]
    refine (sat_counted hworlds none).mono (fun r u hu => ?_) fun _ _ h hw => .inl (h hw)
    rw [sat_bind]
    exact sat_countThenWrite hworlds (hu.2.1.trans ht) hu.1 hu.2.2 (Steady.refl u)
  | some height =>
    dsimp only
    rw [sat_bind]
    refine sat_orRaise nofun fun block _ => ?_
    rw [sat_bind]
    refine hopen.mono (fun _ t ht => ?_) fun _ _ h => h
    rw [sat_bind]
    unfold requireBlock
    rw [sat_bind]
    refine sat_world ?_
    split
    · exact nofun
    · rw [sat_pure, sat_bind]
      refine (sat_counted hworlds (some height)).mono (fun r u hu => ?_) fun _ _ h hw => .inl (h hw)
      rw [sat_bind]
      exact sat_countThenWrite hworlds (hu.2.1.trans ht) hu.1 hu.2.2 (Steady.refl u)

end BtclibNode.Snapshot
