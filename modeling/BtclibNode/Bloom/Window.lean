/-
# What a rolling filter remembers

The keys since the last reset are numbered from zero, and key `i` belongs to generation
`i / perGeneration`.  At every position the planes hold, two bits long, the generation of the
latest key that picked it, as long as it is one of the three last.
-/
import BtclibNode.Bloom.Planes
import BtclibNode.Bloom.Positions

namespace BtclibNode.RollingBloom

variable {order : ByteOrder} {n size : ℕ} {key : Bytes} {p : ℕ × ℕ}

/-! ## Positions in range -/

/-- Whatever a mask of `m` bits a lane lets through is below `2 ^ m` once unpacked. -/
theorem unpack_masked_lt {m : ℕ} (hm : m ≤ 32) (x : ℕ) :
    ∀ y ∈ unpack n (LittleEndian.encode (8 * n) (x &&& ((2 ^ m - 1) * lanes n))),
      y < 2 ^ m := by
  have hlow : ∀ i, x / 2 ^ (64 * i) % 2 ^ m < 2 ^ m := fun i => Nat.mod_lt _ (Nat.two_pow_pos m)
  have hmask : x &&& ((2 ^ m - 1) * lanes n) =
      Lanes.pack 64 ((List.range n).map fun i => x / 2 ^ (64 * i) % 2 ^ m) := by
    refine and_mask (length_map_range _ _) hm (forall_map_range hlow) fun i hi b hb => ?_
    rw [getD_map_range _ hi, Nat.testBit_mod_two_pow, decide_eq_true hb, Bool.true_and,
      Nat.testBit_div_two_pow, Nat.add_comm]
  have hfit : ∀ i, x / 2 ^ (64 * i) % 2 ^ m < 2 ^ 32 := fun i =>
    (hlow i).trans_le (Nat.pow_le_pow_right (by decide) hm)
  rw [hmask, unpack_lanes hfit]
  exact forall_map_range hlow

/-- A position is one of the filter's, whatever its size. -/
theorem inRange_of_mem_positions {words : ℕ} (hwords : 0 < words) (tweak : ℤ)
    (hp : p ∈ positions n (words * 2) (seeds n tweak) key) : InRange words p := by
  obtain ⟨index, bit⟩ := p
  by_cases hsize : words * 2 < 2 ^ 32
  · rw [positions_eq _ _ _ _ hsize] at hp
    obtain ⟨i, -, hi⟩ := List.mem_map.mp hp
    obtain ⟨rfl, rfl⟩ := Prod.mk.inj hi
    have hlt := (MurmurHash3.hash (UInt32.ofNat (seedOf tweak i)) key).toNat_lt
    refine ⟨Nat.div_lt_of_lt_mul ?_, Nat.mod_lt _ (by decide)⟩
    calc _ < 2 ^ 32 * (words * 2) := Nat.mul_lt_mul_of_pos_right hlt (by omega)
      _ = 2 ^ 33 * words := by omega
  · -- the mask keeps 31 bits of an index, and a filter this large has as many words
    obtain ⟨hindex, hbit⟩ := List.of_mem_zip hp
    have hindex := unpack_masked_lt (m := 31) (by decide) _ index hindex
    have hbit := unpack_masked_lt (m := 6) (by decide) _ bit hbit
    exact ⟨by omega, hbit⟩

/-! ## The latest pick of a position -/

variable {picks : Bytes → List (ℕ × ℕ)} {keys : List Bytes} {i : ℕ}

/-- The number of the latest key that picks a position, the newest key standing first. -/
def latest (picks : Bytes → List (ℕ × ℕ)) (p : ℕ × ℕ) : List Bytes → Option ℕ
  | [] => none
  | key :: keys => if p ∈ picks key then some keys.length else latest picks p keys

theorem latest_lt (h : latest picks p keys = some i) : i < keys.length := by
  induction keys with
  | nil => cases h
  | cons key keys ih =>
    rw [latest] at h
    rw [List.length_cons]
    split_ifs at h with hp
    · cases h
      omega
    · exact Nat.lt_succ_of_lt (ih h)

theorem getElem?_reverse_cons (key : Bytes) (keys : List Bytes) (i : ℕ) :
    (key :: keys).reverse[i]? = if i = keys.length then some key else keys.reverse[i]? := by
  rw [List.reverse_cons]
  by_cases hi : i = keys.length
  · rw [if_pos hi, hi, ← List.length_reverse, List.getElem?_concat_length]
  · rw [if_neg hi]
    by_cases hlt : i < keys.reverse.length
    · exact List.getElem?_append_left hlt
    · rw [List.length_reverse] at hlt
      rw [List.getElem?_eq_none (by simp; omega), List.getElem?_eq_none (by simp; omega)]

theorem latest_picked (h : latest picks p keys = some i) :
    ∃ key, keys.reverse[i]? = some key ∧ p ∈ picks key := by
  induction keys with
  | nil => cases h
  | cons key keys ih =>
    rw [latest] at h
    split_ifs at h with hp
    · cases h
      exact ⟨key, by rw [getElem?_reverse_cons, if_pos rfl], hp⟩
    · obtain ⟨key', hkey', hp'⟩ := ih h
      have hlt := latest_lt h
      exact ⟨key', by rw [getElem?_reverse_cons, if_neg (by omega), hkey'], hp'⟩

/-- No key that picks the position is later. -/
theorem le_latest (hkey : keys.reverse[i]? = some key) (hp : p ∈ picks key) :
    ∃ j, latest picks p keys = some j ∧ i ≤ j := by
  induction keys with
  | nil => cases hkey
  | cons key' keys ih =>
    rw [getElem?_reverse_cons] at hkey
    rw [latest]
    split_ifs with hp'
    · refine ⟨keys.length, rfl, ?_⟩
      split_ifs at hkey with hi
      · exact hi.le
      · have hlt := (List.getElem?_eq_some_iff.mp hkey).1
        rw [List.length_reverse] at hlt
        exact hlt.le
    · split_ifs at hkey with hi
      · cases hkey
        exact absurd hp hp'
      · exact ih hkey

/-! ## The entry of a pick -/

/-- What the planes hold in generation `now` of a position that key `i` picked last. -/
def kept (perGeneration now : ℕ) : Option ℕ → ℕ
  | none => 0
  | some i => if now ≤ i / perGeneration + 2 then i / perGeneration % 3 + 1 else 0

variable {per now : ℕ}

theorem kept_some (per now i : ℕ) :
    kept per now (some i) = if now ≤ i / per + 2 then i / per % 3 + 1 else 0 := rfl

theorem kept_ne_zero {last : Option ℕ} :
    kept per now last ≠ 0 ↔ ∃ i, last = some i ∧ now ≤ i / per + 2 := by
  cases last with
  | none => simp [kept]
  | some i => simp [kept_some]

/-- What the generation that begins wipes is what the one three back wrote. -/
theorem kept_succ {last : Option ℕ} (h : ∀ i, last = some i → i / per ≤ now) :
    (if kept per now last = (now + 1) % 3 + 1 then 0 else kept per now last) =
      kept per (now + 1) last := by
  cases last with
  | none => rfl
  | some i =>
    have hle := h i rfl
    rw [kept_some, kept_some]
    generalize i / per = j at hle ⊢
    split_ifs <;> omega

/-! ## The invariant -/

namespace RollingBloomFilter

/-- The planes, which are zeros before the first key. -/
def planesOf (f : RollingBloomFilter) : List ℕ × List ℕ :=
  f.planes.getD (List.replicate f.words 0, List.replicate f.words 0)

/-- A filter in generation `now`, with the keys since its last reset, the newest first. -/
structure Remembers (f : RollingBloomFilter) (tweak : ℤ) (keys : List Bytes) (now : ℕ) :
    Prop where
  seeds : f.seeds = RollingBloom.seeds f.hashFuncs tweak
  unused : f.planes = none → keys = []
  isPlanes : IsPlanes f.words f.planesOf
  generation : f.generation = now % 3 + 1
  counted : keys.length = now * f.perGeneration + f.thisGeneration
  room : f.thisGeneration ≤ f.perGeneration
  begun : 0 < now → 0 < f.thisGeneration
  entries : ∀ p, InRange f.words p →
    entry f.planesOf p = kept f.perGeneration now (latest f.positions p keys)

variable {f : RollingBloomFilter} {tweak : ℤ}

/-- An empty filter. -/
theorem Remembers.empty (hseeds : f.seeds = RollingBloom.seeds f.hashFuncs tweak)
    (hplanes : f.planes = none) (hgen : f.generation = 1) (hthis : f.thisGeneration = 0) :
    f.Remembers tweak [] 0 where
  seeds := hseeds
  unused _ := rfl
  isPlanes := by
    rw [planesOf, hplanes]
    exact isPlanes_zero f.words
  generation := hgen
  counted := by rw [hthis, Nat.zero_mul]; rfl
  room := by rw [hthis]; exact Nat.zero_le _
  begun h := absurd h (Nat.lt_irrefl 0)
  entries p _ := by
    rw [planesOf, hplanes]
    exact entry_zero f.words p

/-- The generation of the key that comes next. -/
theorem Remembers.next (h : f.Remembers tweak keys now) (hper : 0 < f.perGeneration) :
    keys.length / f.perGeneration =
      if f.thisGeneration = f.perGeneration then now + 1 else now := by
  have hroom := h.room
  rw [h.counted]
  split_ifs with hfull
  · rw [hfull, ← Nat.succ_mul, Nat.mul_div_cancel _ hper]
  · rw [Nat.mul_comm, Nat.mul_add_div hper, Nat.div_eq_of_lt (by omega), Nat.add_zero]

/-- The generation that stands is the newest key's. -/
theorem Remembers.current (h : f.Remembers tweak keys now) (hper : 0 < f.perGeneration) :
    (keys.length - 1) / f.perGeneration = now := by
  have hroom := h.room
  have hbegun := h.begun
  rw [h.counted]
  by_cases hnow : 0 < now ∨ 0 < f.thisGeneration
  · have hthis : 0 < f.thisGeneration := hnow.elim hbegun id
    rw [Nat.add_sub_assoc hthis, Nat.mul_comm, Nat.mul_add_div hper,
      Nat.div_eq_of_lt (by omega), Nat.add_zero]
  · have hzero : now = 0 ∧ f.thisGeneration = 0 := by omega
    rw [hzero.1, hzero.2, Nat.zero_mul, Nat.zero_div]

/-- No key is of a later generation. -/
theorem Remembers.le_now (h : f.Remembers tweak keys now) (hper : 0 < f.perGeneration)
    (hi : i < keys.length) : i / f.perGeneration ≤ now := by
  rw [← h.current hper]
  exact Nat.div_le_div_right (Nat.le_sub_one_of_lt hi)

/-- `add` records one key more. -/
theorem Remembers.add (h : f.Remembers tweak keys now) (hwords : 0 < f.words)
    (hper : 0 < f.perGeneration) (order : ByteOrder) (key : Bytes) :
    ∃ f' now', f.add order key = some f' ∧ f'.words = f.words ∧
      f'.perGeneration = f.perGeneration ∧ f'.hashFuncs = f.hashFuncs ∧
      f'.Remembers tweak (key :: keys) now' := by
  have hrange : ∀ p ∈ f.positions key, InRange f.words p := by
    intro p hp
    rw [RollingBloomFilter.positions, h.seeds] at hp
    exact inRange_of_mem_positions hwords tweak hp
  -- the generation the key goes into, and the planes once it has begun
  set now' := if f.thisGeneration = f.perGeneration then now + 1 else now with hnow'
  set generation := if f.thisGeneration = f.perGeneration then f.generation % 3 + 1
    else f.generation with hgeneration
  set planes := if f.thisGeneration = f.perGeneration then
    wipe order f.words generation f.planesOf else f.planesOf with hplanes
  have hgen : generation = now' % 3 + 1 := by
    rw [hgeneration, hnow', h.generation]
    split_ifs <;> omega
  have hvalid : 1 ≤ generation ∧ generation ≤ 3 := by omega
  have hbegun : IsPlanes f.words planes ∧ ∀ p, InRange f.words p →
      entry planes p = kept f.perGeneration now' (latest f.positions p keys) := by
    rw [hplanes, hnow']
    split_ifs with hfull
    · refine ⟨isPlanes_wipe _ _ _ _, fun p hp => ?_⟩
      rw [entry_wipe h.isPlanes hp hvalid, h.entries p hp, hgen, hnow', if_pos hfull]
      exact kept_succ fun i hi => h.le_now hper (latest_lt hi)
    · exact ⟨h.isPlanes, h.entries⟩
  obtain ⟨planes', hfold, hisPlanes', hentries'⟩ :=
    foldlM_mark_spec hvalid (f.positions key) hbegun.1 hrange
  refine ⟨{ f with
    planes := some planes'
    generation := generation
    thisGeneration := (if f.thisGeneration = f.perGeneration then 0 else f.thisGeneration) + 1 },
    now', ?_, rfl, rfl, rfl, ?_⟩
  · change ((f.positions key).foldlM (mark generation) planes).bind _ = _
    rw [hfold]
    rfl
  · refine ⟨h.seeds, nofun, hisPlanes', hgen, ?_, ?_, fun _ => Nat.succ_pos _, fun p hp => ?_⟩
    · change keys.length + 1 = now' * f.perGeneration +
        ((if f.thisGeneration = f.perGeneration then 0 else f.thisGeneration) + 1)
      rw [h.counted, hnow']
      split_ifs with hfull
      · rw [hfull, Nat.succ_mul]
      · exact Nat.add_assoc _ _ _
    · change (if f.thisGeneration = f.perGeneration then 0 else f.thisGeneration) + 1 ≤
        f.perGeneration
      have hroom := h.room
      split_ifs <;> omega
    · change entry planes' p = kept f.perGeneration now' (latest f.positions p (key :: keys))
      rw [hentries', latest]
      split_ifs with hp'
      · rw [kept_some, h.next hper, ← hnow', if_pos (Nat.le_add_right _ _), hgen]
      · exact hbegun.2 p hp

/-- A filter after its calls remembers the keys since the last reset. -/
theorem Remembers.run (order : ByteOrder) (calls : List Call) (hwords : 0 < f.words)
    (hper : 0 < f.perGeneration) (past : ℤ × List Bytes)
    (h : f.Remembers past.1 past.2.reverse now) :
    ∃ f' now', RollingBloom.run order f calls = some f' ∧ f'.words = f.words ∧
      f'.perGeneration = f.perGeneration ∧ f'.hashFuncs = f.hashFuncs ∧
      f'.Remembers (calls.foldl record past).1 (calls.foldl record past).2.reverse now' := by
  induction calls generalizing f past now with
  | nil => exact ⟨f, now, rfl, rfl, rfl, rfl, h⟩
  | cons call calls ih =>
    obtain ⟨f₁, now₁, hcall, hwords₁, hper₁, hfuncs₁, h₁⟩ : ∃ f₁ now₁,
        Call.run order f call = some f₁ ∧ f₁.words = f.words ∧
        f₁.perGeneration = f.perGeneration ∧ f₁.hashFuncs = f.hashFuncs ∧
        f₁.Remembers (record past call).1 (record past call).2.reverse now₁ := by
      cases call with
      | add key =>
        have hkeys : (record past (.add key)).2.reverse = key :: past.2.reverse :=
          List.reverse_concat
        rw [hkeys]
        exact h.add hwords hper order key
      | reset tweak =>
        exact ⟨f.reset tweak, 0, rfl, rfl, rfl, rfl, Remembers.empty rfl rfl rfl rfl⟩
    rw [← hwords₁] at hwords
    rw [← hper₁] at hper
    obtain ⟨f₂, now₂, hrun, hwords₂, hper₂, hfuncs₂, h₂⟩ := ih hwords hper _ h₁
    refine ⟨f₂, now₂, ?_, hwords₂.trans hwords₁, hper₂.trans hper₁, hfuncs₂.trans hfuncs₁, h₂⟩
    rw [RollingBloom.run, List.foldlM_cons, hcall]
    exact hrun

/-! ## Answers -/

theorem allM_some {α : Type} {test : α → Option Bool} {xs : List α}
    (h : ∀ x ∈ xs, test x = some true) : xs.allM test = some true := by
  induction xs with
  | nil => rfl
  | cons x xs ih =>
    obtain ⟨hx, hxs⟩ := List.forall_mem_cons.mp h
    rw [List.allM, hx]
    exact ih hxs

/-- The bit `__contains__` looks at. -/
theorem entry_ne_zero_iff {planes : List ℕ × List ℕ} (p : ℕ × ℕ) :
    entry planes p ≠ 0 ↔
      (((planes.1.getD p.1 0 ||| planes.2.getD p.1 0) >>> p.2) &&& 1) ≠ 0 := by
  have hbit : ∀ x : ℕ, (x >>> p.2) &&& 1 = (x.testBit p.2).toNat := fun x => by
    rw [Nat.and_one_is_mod, Nat.shiftRight_eq_div_pow, Nat.toNat_testBit]
  rw [hbit, Nat.testBit_or, entry, bitAt, bitAt]
  cases (planes.1.getD p.1 0).testBit p.2 <;> cases (planes.2.getD p.1 0).testBit p.2 <;> decide

/-- A key is found when no entry of its positions is zero. -/
theorem contains_of_entries {planes : List ℕ × List ℕ} (hplanes : f.planes = some planes)
    (h : IsPlanes f.words planes)
    (hkey : ∀ p ∈ f.positions key, InRange f.words p ∧ entry planes p ≠ 0) :
    f.contains key = some true := by
  rw [contains, hplanes]
  refine allM_some fun p hp => ?_
  obtain ⟨hrange, hentry⟩ := hkey p hp
  have hlo : p.1 < planes.1.length := by rw [h.length_lo]; exact hrange.1
  have hhi : p.1 < planes.2.length := by rw [h.length_hi]; exact hrange.1
  rw [entry_ne_zero_iff, List.getD_eq_getElem _ _ hlo, List.getD_eq_getElem _ _ hhi] at hentry
  obtain ⟨index, bit⟩ := p
  dsimp only
  rw [List.getElem?_eq_getElem hlo, List.getElem?_eq_getElem hhi]
  exact congrArg some (decide_eq_true hentry)

/-- The non-zero entries, by the keys that picked them. -/
theorem Remembers.entry_ne_zero (h : f.Remembers tweak keys.reverse now)
    (hp : InRange f.words p) :
    entry f.planesOf p ≠ 0 ↔ ∃ i key, keys[i]? = some key ∧
      now ≤ i / f.perGeneration + 2 ∧ p ∈ f.positions key := by
  rw [h.entries p hp, kept_ne_zero]
  constructor
  · rintro ⟨i, hlast, hi⟩
    obtain ⟨key, hkey, hpick⟩ := latest_picked hlast
    rw [List.reverse_reverse] at hkey
    exact ⟨i, key, hkey, hi, hpick⟩
  · rintro ⟨i, key, hkey, hi, hpick⟩
    rw [← List.reverse_reverse keys] at hkey
    obtain ⟨j, hlast, hij⟩ := le_latest hkey hpick
    have hle : i / f.perGeneration ≤ j / f.perGeneration := Nat.div_le_div_right hij
    exact ⟨j, hlast, by omega⟩

/-- Of the latest keys, one for each of two generations, none is forgotten. -/
theorem Remembers.contains (h : f.Remembers tweak keys.reverse now) (hwords : 0 < f.words)
    (hper : 0 < f.perGeneration) (hi : keys[i]? = some key)
    (hwindow : keys.length ≤ i + 2 * f.perGeneration) : f.contains key = some true := by
  obtain ⟨hlt, -⟩ := List.getElem?_eq_some_iff.mp hi
  obtain ⟨planes, hplanes⟩ : ∃ planes, f.planes = some planes := by
    cases hf : f.planes with
    | some planes => exact ⟨planes, rfl⟩
    | none =>
      have hnil := h.unused hf
      rw [List.reverse_eq_nil_iff] at hnil
      rw [hnil] at hlt
      exact absurd hlt (Nat.not_lt_zero i)
  have hplanesOf : f.planesOf = planes := by rw [planesOf, hplanes]; rfl
  have hrecent : now ≤ i / f.perGeneration + 2 := by
    have hcurrent := h.current hper
    rw [List.length_reverse] at hcurrent
    rw [← hcurrent, ← Nat.add_mul_div_right _ _ hper]
    exact Nat.div_le_div_right (by omega)
  refine contains_of_entries hplanes (hplanesOf ▸ h.isPlanes) fun p hp => ?_
  have hrange : InRange f.words p := by
    have hmem := hp
    rw [RollingBloomFilter.positions, h.seeds] at hmem
    exact inRange_of_mem_positions hwords tweak hmem
  rw [← hplanesOf]
  exact ⟨hrange, (h.entry_ne_zero hrange).mpr ⟨i, key, hi, hrecent, hp⟩⟩

/-- Outside of the planes there is nothing. -/
theorem entry_of_not_inRange {planes : List ℕ × List ℕ} {words : ℕ} (h : IsPlanes words planes)
    (hp : ¬ InRange words p) : entry planes p = 0 := by
  have hbit : ∀ xs : List ℕ, xs.length = words → Words xs → bitAt xs p = false := by
    intro xs hlen hxs
    by_cases hindex : p.1 < words
    · have hle : 64 ≤ p.2 := by
        by_contra hlt
        exact hp ⟨hindex, by omega⟩
      exact Nat.testBit_lt_two_pow
        ((Lanes.getD_lt hxs).trans_le (Nat.pow_le_pow_right (by decide) hle))
    · rw [bitAt, List.getD_eq_default _ _ (by omega), Nat.zero_testBit]
  rw [entry, hbit _ h.length_lo h.lo, hbit _ h.length_hi h.hi]
  rfl

end RollingBloomFilter

open RollingBloomFilter in
/-- **A filter remembers its window.**  Key `i` since the last reset belongs to generation
`i / perGeneration`; the bits of the filter are a positive number rounded up. -/
theorem window_remembered (order : ByteOrder) {nElements filterBits : ℕ} (rounded tweak : ℤ)
    (calls : List Call) (hn : 1 ≤ nElements) (hbits : 0 < filterBits) :
    ∃ f, run order (init nElements rounded filterBits tweak) calls = some f ∧
      f.seeds = seeds f.hashFuncs (history tweak calls).1 ∧
      let keys := (history tweak calls).2
      let now := (keys.length - 1) / f.perGeneration
      (∀ key ∈ keys.drop (keys.length - nElements), f.contains key = some true) ∧
      f.generation = now % 3 + 1 ∧
      ∀ p, entry f.planesOf p ≠ 0 ↔ ∃ i key, keys[i]? = some key ∧
        now ≤ i / f.perGeneration + 2 ∧ p ∈ f.positions key := by
  have hwords : 0 < (init nElements rounded filterBits tweak).words := by
    change 0 < (filterBits + 63) / 64
    omega
  have hper : 0 < (init nElements rounded filterBits tweak).perGeneration := by
    change 0 < (nElements + 1) / 2
    omega
  have hstart : (init nElements rounded filterBits tweak).Remembers tweak [] 0 :=
    Remembers.empty rfl rfl rfl rfl
  obtain ⟨f, now, hrun, hwords', hper', -, h⟩ :=
    Remembers.run order calls hwords hper (tweak, []) hstart
  rw [← hwords'] at hwords
  rw [← hper'] at hper
  have hnow := h.current hper
  rw [List.length_reverse] at hnow
  refine ⟨f, hrun, h.seeds, fun key hkey => ?_, ?_, fun p => ?_⟩
  · obtain ⟨i, hi⟩ := List.mem_iff_getElem?.mp hkey
    rw [List.getElem?_drop] at hi
    refine h.contains hwords hper hi ?_
    have hdouble : nElements ≤ 2 * f.perGeneration := by
      rw [hper']
      change nElements ≤ 2 * ((nElements + 1) / 2)
      omega
    change (history tweak calls).2.length ≤ _
    omega
  · exact h.generation.trans (by rw [← hnow]; rfl)
  · by_cases hp : InRange f.words p
    · rw [h.entry_ne_zero hp, ← hnow]
      rfl
    · refine iff_of_false (not_not.mpr (entry_of_not_inRange h.isPlanes hp)) ?_
      rintro ⟨i, key, -, -, hpick⟩
      rw [RollingBloomFilter.positions, h.seeds] at hpick
      exact hp (inRange_of_mem_positions hwords _ hpick)

theorem window_remembered_sample :
    ∃ f, run .little (RollingBloomFilter.init 3 2 30 7)
        [.add [1], .add [2], .reset 9, .add [3], .add [4], .add [5], .add [6]] = some f ∧
      f.contains [4] = some true := by
  obtain ⟨f, hrun, -, hfound, -⟩ := window_remembered .little 2 7
    [.add [1], .add [2], .reset 9, .add [3], .add [4], .add [5], .add [6]]
    (show 1 ≤ 3 by decide) (show 0 < 30 by decide)
  exact ⟨f, hrun, hfound [4] (by decide)⟩

end BtclibNode.RollingBloom
