/-
# A count of addresses past its bound

`p2p/callbacks.py` reads the count of an `addrv2` ahead of btclib's parser, and punishes a
peer for one past the bound only where the entries are there.  The walk skips each entry by
its length fields; an offset of -1, or one past the end, says that there is none
(`skipAddrv2Entry_spec`).
-/
import Mathlib
import BtclibNode.Lib.CompactSize

namespace BtclibNode.Addrv2

open Octets

abbrev Bytes := List UInt8

inductive Bip155Network where
  | ipv4
  | ipv6
  | torv2
  | torv3
  | i2p
  | cjdns
  | yggdrasil
  deriving DecidableEq, Repr

/-- The octet a network has in BIP155. -/
def Bip155Network.value : Bip155Network → UInt8
  | ipv4 => 1
  | ipv6 => 2
  | torv2 => 3
  | torv3 => 4
  | i2p => 5
  | cjdns => 6
  | yggdrasil => 7

def maxAddrv2Size : ℕ := 512

/-- `_ADDRV2_MIN_ENTRY_SIZE`. -/
def addrv2MinEntrySize : ℕ := 9

/-- `_BIP155_ADDRESS_SIZE`. -/
def bip155AddressSize : List (UInt8 × ℕ) :=
  [(Bip155Network.ipv4.value, 4), (Bip155Network.ipv6.value, 16),
    (Bip155Network.torv2.value, 10), (Bip155Network.torv3.value, 32),
    (Bip155Network.i2p.value, 32), (Bip155Network.cjdns.value, 16),
    (Bip155Network.yggdrasil.value, 16)]

/-- What the scan raises, and what it is there to raise. -/
inductive ScanError where
  | indexError
  | misbehaving (message : String)
  deriving DecidableEq, Repr

/-- `msg[pos]`. -/
def octetAt (msg : Bytes) (pos : ℕ) : Except ScanError UInt8 :=
  match msg[pos]? with
  | some octet => .ok octet
  | none => .error .indexError

/-- `_compact_size`. -/
def compactSize (msg : Bytes) (pos : ℕ) : Except ScanError (ℕ × ℤ) := do
  if msg.length ≤ pos then .ok (0, -1)
  else
    let marker ← octetAt msg pos
    match CompactSize.wide marker with
    | none => .ok (marker.toNat, pos + 1)
    | some (width, least) =>
      let stop := pos + 1 + width
      -- the slice of a number cut short has fewer octets
      let value := LittleEndian.decode (slice msg (pos + 1) stop)
      .ok (value, if least ≤ value then stop else -1)

/-- `_skip_addrv2_entry`. -/
def skipAddrv2Entry (msg : Bytes) (pos : ℕ) : Except ScanError ℤ := do
  let (_, pos) ← compactSize msg (pos + 4)
  if pos < 0 ∨ msg.length ≤ pos then .ok (-1)
  else
    let network ← octetAt msg pos.toNat
    let (size, pos) ← compactSize msg (pos.toNat + 1)
    let fixed := bip155AddressSize.lookup network
    if pos < 0 ∨ maxAddrv2Size < size ∨ (fixed ≠ none ∧ fixed ≠ some size) then .ok (-1)
    else
      let pos := pos + size + 2
      .ok (if pos ≤ msg.length then pos else -1)

/-- The loop of `_addrv2_count_past` over the entries. -/
def walkAddrv2 (msg : Bytes) (count : ℕ) : ℕ → ℕ → Except ScanError ℕ
  | 0, _ => .ok count
  | n + 1, pos => do
    let pos ← skipAddrv2Entry msg pos
    if pos < 0 then .ok 0 else walkAddrv2 msg count n pos.toNat

/-- `_addrv2_count_past`. -/
def addrv2CountPast (msg : Bytes) (bound : ℕ) : Except ScanError ℕ := do
  let (count, pos) ← compactSize msg 0
  if pos < 0 ∨ count ≤ bound then .ok 0
  else if (msg.length : ℤ) - pos < count * addrv2MinEntrySize then .ok 0
  else walkAddrv2 msg count count pos.toNat

/-- `_refuse_past_bound`. -/
def refusePastBound (msgType : String) (count : ℕ) : Except ScanError Unit :=
  if count ≠ 0 then
    .error (.misbehaving (msgType ++ " message size = " ++ toString count))
  else .ok ()

/-! ## The form of a vector -/

/-- An address as it is sent. -/
structure Addrv2Entry where
  time : Bytes
  services : ℕ
  network : UInt8
  address : Bytes
  port : Bytes
  length_time : time.length = 4
  services_lt : services < 2 ^ 64
  length_port : port.length = 2

namespace Addrv2Entry

def serialize (e : Addrv2Entry) : Bytes :=
  e.time ++ (CompactSize.encode e.services ++ (e.network ::
    (CompactSize.encode e.address.length ++ (e.address ++ e.port))))

/-- An address of at most the largest size, and of its network's where it has one. -/
structure Readable (e : Addrv2Entry) : Prop where
  le_size : e.address.length ≤ maxAddrv2Size
  fits : ∀ size, bip155AddressSize.lookup e.network = some size → e.address.length = size

end Addrv2Entry

/-- The octets begin with a count and that many entries. -/
structure BeginsWith (msg : Bytes) (count : ℕ) : Prop where
  count_lt : count < 2 ^ 64
  entries : ∃ entries : List Addrv2Entry, entries.length = count ∧ (∀ e ∈ entries, e.Readable) ∧
    (CompactSize.encode count ++ entries.flatMap Addrv2Entry.serialize) <+: msg

/-! ## Numbers -/

variable {msg : Bytes} {i j n bound count : ℕ}

theorem compactSize_of_read (h : CompactSize.read? msg i = some (n, j)) :
    compactSize msg i = .ok (n, (j : ℤ)) := by
  unfold CompactSize.read? at h
  obtain ⟨marker, hmarker, h⟩ := Option.bind_eq_some_iff.mp h
  have hi := (List.getElem?_eq_some_iff.mp hmarker).1
  unfold compactSize octetAt
  rw [if_neg (by omega), hmarker]
  simp only [bind, Except.bind]
  cases hwide : CompactSize.wide marker with
  | none =>
    rw [hwide] at h
    cases h
    rfl
  | some r =>
    obtain ⟨width, least⟩ := r
    rw [hwide] at h
    dsimp only at h ⊢
    split_ifs at h with hok
    cases h
    rw [if_pos hok.2]

/-- A number that is not there, or not canonical, ends before or past every octet. -/
theorem compactSize_of_none (h : CompactSize.read? msg i = none) :
    ∃ (n : ℕ) (j : ℤ), compactSize msg i = .ok (n, j) ∧ (j < 0 ∨ msg.length < j) := by
  unfold CompactSize.read? at h
  unfold compactSize octetAt
  by_cases hi : msg.length ≤ i
  · rw [if_pos hi]
    exact ⟨0, -1, rfl, by omega⟩
  · rw [if_neg hi]
    have hmarker := List.getElem?_eq_getElem (Nat.not_le.mp hi)
    rw [hmarker] at h ⊢
    simp only [bind, Except.bind, Option.bind_some] at h ⊢
    cases hwide : CompactSize.wide msg[i] with
    | none =>
      rw [hwide] at h
      cases h
    | some r =>
      obtain ⟨width, least⟩ := r
      rw [hwide] at h
      dsimp only at h ⊢
      refine ⟨_, _, rfl, ?_⟩
      split_ifs at h with hok
      by_cases hleast : least ≤ LittleEndian.decode (slice msg (i + 1) (i + 1 + width))
      · rw [if_pos hleast]
        omega
      · rw [if_neg hleast]
        omega

/-! ## Entries -/

theorem Addrv2Entry.length_serialize (e : Addrv2Entry) :
    e.serialize.length = 4 + (CompactSize.encode e.services).length + 1 +
      (CompactSize.encode e.address.length).length + e.address.length + 2 := by
  unfold Addrv2Entry.serialize
  simp only [List.length_append, List.length_cons]
  rw [e.length_time, e.length_port]
  omega

theorem Addrv2Entry.min_le_length (e : Addrv2Entry) :
    addrv2MinEntrySize ≤ e.serialize.length := by
  have hservices := CompactSize.length_encode_pos e.services
  have haddress := CompactSize.length_encode_pos e.address.length
  unfold addrv2MinEntrySize
  rw [e.length_serialize]
  omega

/-- An address size other than the one its network fixes. -/
theorem not_misfit_iff {fixed : Option ℕ} :
    ¬(fixed ≠ none ∧ fixed ≠ some n) ↔ ∀ size, fixed = some size → n = size := by
  cases fixed with
  | none => simp
  | some size => simp [eq_comm]

/-- An entry that stands there is skipped. -/
theorem skipAddrv2Entry_of_at {e : Addrv2Entry} (he : e.Readable) (h : At msg i e.serialize) :
    skipAddrv2Entry msg i = .ok ((i + e.serialize.length : ℕ) : ℤ) := by
  have hend := h.le_length
  have hlen := e.length_serialize
  unfold Addrv2Entry.serialize at h
  rw [at_append, at_append, at_cons, at_append, e.length_time] at h
  obtain ⟨-, hservices, hnetwork, hsize, -⟩ := h
  have hnetworkAt := (List.getElem?_eq_some_iff.mp hnetwork).1
  have hlt : e.address.length < 2 ^ 64 := lt_of_le_of_lt he.le_size (by decide)
  have hfit : ¬(bip155AddressSize.lookup e.network ≠ none ∧
      bip155AddressSize.lookup e.network ≠ some e.address.length) := not_misfit_iff.mpr he.fits
  unfold skipAddrv2Entry
  rw [compactSize_of_read (CompactSize.read?_eq_some_iff.mpr ⟨e.services_lt, hservices, rfl⟩)]
  simp only [bind, Except.bind]
  rw [if_neg (by omega), Int.toNat_natCast, octetAt, hnetwork]
  dsimp only
  rw [compactSize_of_read (CompactSize.read?_eq_some_iff.mpr ⟨hlt, hsize, rfl⟩)]
  have hle := he.le_size
  dsimp only
  rw [if_neg (not_or.mpr ⟨by omega, not_or.mpr ⟨by omega, hfit⟩⟩), if_pos (by omega)]
  congr 1
  omega

/-- **A skip ends behind an entry, or says that there is none.** -/
theorem skipAddrv2Entry_spec (msg : Bytes) (i : ℕ) :
    skipAddrv2Entry msg i = .ok (-1) ∨
      ∃ e : Addrv2Entry, e.Readable ∧ At msg i e.serialize := by
  unfold skipAddrv2Entry
  cases hservices : CompactSize.read? msg (i + 4) with
  | none =>
    left
    obtain ⟨n, j, hread, hj⟩ := compactSize_of_none hservices
    rw [hread]
    simp only [bind, Except.bind]
    rw [if_pos (by omega)]
  | some r =>
    obtain ⟨services, j⟩ := r
    rw [compactSize_of_read hservices]
    simp only [bind, Except.bind, Int.toNat_natCast]
    by_cases hj : msg.length ≤ j
    · left
      rw [if_pos (by omega)]
    · have hnetwork := List.getElem?_eq_getElem (Nat.not_le.mp hj)
      rw [if_neg (by omega), octetAt, hnetwork]
      dsimp only
      cases hsize : CompactSize.read? msg (j + 1) with
      | none =>
        left
        obtain ⟨n, k, hread, hk⟩ := compactSize_of_none hsize
        rw [hread]
        dsimp only
        split_ifs with hrefused hend
        · rfl
        · omega
        · rfl
      | some r =>
        obtain ⟨size, k⟩ := r
        rw [compactSize_of_read hsize]
        dsimp only
        split_ifs with hrefused hend
        · left
          rfl
        · right
          obtain ⟨hlt, hservicesAt, rfl⟩ := CompactSize.read?_eq_some_iff.mp hservices
          obtain ⟨-, hsizeAt, rfl⟩ := CompactSize.read?_eq_some_iff.mp hsize
          generalize hk : i + 4 + (CompactSize.encode services).length + 1 +
            (CompactSize.encode size).length = k at hend hrefused hsize
          obtain ⟨-, hle, hfit⟩ : _ ∧ ¬maxAddrv2Size < size ∧ _ := by
            rw [not_or, not_or] at hrefused
            exact hrefused
          have htime : (slice msg i (i + 4)).length = 4 := length_slice_add (by omega)
          have haddress : (slice msg k (k + size)).length = size := length_slice_add (by omega)
          have hport : (slice msg (k + size) (k + size + 2)).length = 2 :=
            length_slice_add (by omega)
          refine ⟨⟨slice msg i (i + 4), services,
            msg[i + 4 + (CompactSize.encode services).length], slice msg k (k + size),
            slice msg (k + size) (k + size + 2), htime, hlt, hport⟩, ⟨?_, ?_⟩, ?_⟩
          · rw [haddress]
            omega
          · rw [haddress]
            exact not_misfit_iff.mp hfit
          · unfold Addrv2Entry.serialize
            dsimp only
            rw [haddress, at_append, at_append, at_cons, at_append, at_append, htime, hk, haddress]
            exact ⟨at_slice (by omega) (by omega), hservicesAt, hnetwork, hsizeAt,
              at_slice (by omega) (by omega), at_slice (by omega) (by omega)⟩
        · left
          rfl

/-- Two entries at one position are as long. -/
theorem length_eq_of_at {e e' : Addrv2Entry} (he : e.Readable) (h : At msg i e.serialize)
    (he' : e'.Readable) (h' : At msg i e'.serialize) :
    e.serialize.length = e'.serialize.length := by
  have heq := Except.ok.inj
    ((skipAddrv2Entry_of_at he h).symm.trans (skipAddrv2Entry_of_at he' h'))
  omega

/-! ## The walk over the entries -/

/-- `n` entries stand at a position. -/
def EntriesAt (msg : Bytes) (n i : ℕ) : Prop :=
  ∃ entries : List Addrv2Entry, entries.length = n ∧ (∀ e ∈ entries, e.Readable) ∧
    At msg i (entries.flatMap Addrv2Entry.serialize)

theorem entriesAt_zero (hi : i ≤ msg.length) : EntriesAt msg 0 i :=
  ⟨[], rfl, by simp, at_nil hi⟩

theorem entriesAt_succ_iff :
    EntriesAt msg (n + 1) i ↔ ∃ e : Addrv2Entry, e.Readable ∧ At msg i e.serialize ∧
      EntriesAt msg n (i + e.serialize.length) := by
  constructor
  · rintro ⟨entries, hlen, hread, hat⟩
    obtain ⟨e, entries, rfl⟩ := List.exists_cons_of_length_eq_add_one hlen
    rw [List.flatMap_cons, at_append] at hat
    obtain ⟨he, hread⟩ := List.forall_mem_cons.mp hread
    exact ⟨e, he, hat.1, entries, Nat.succ.inj hlen, hread, hat.2⟩
  · rintro ⟨e, he, hat, entries, hlen, hread, hrest⟩
    refine ⟨e :: entries, congrArg (· + 1) hlen, List.forall_mem_cons.mpr ⟨he, hread⟩, ?_⟩
    rw [List.flatMap_cons]
    exact at_append.mpr ⟨hat, hrest⟩

/-- Entries take at least the fewest octets each. -/
theorem EntriesAt.le_length (h : EntriesAt msg n i) :
    i + n * addrv2MinEntrySize ≤ msg.length := by
  induction n generalizing i with
  | zero =>
    obtain ⟨entries, -, -, hat⟩ := h
    have hle := hat.le_length
    omega
  | succ n ih =>
    obtain ⟨e, -, -, hrest⟩ := entriesAt_succ_iff.mp h
    have hmin := e.min_le_length
    have hle := ih hrest
    rw [Nat.succ_mul]
    omega

/-- **The walk counts the entries, or finds one that is not there.** -/
theorem walkAddrv2_eq (count : ℕ) (hi : i ≤ msg.length) [Decidable (EntriesAt msg n i)] :
    walkAddrv2 msg count n i = .ok (if EntriesAt msg n i then count else 0) := by
  induction n generalizing i with
  | zero =>
    rw [if_pos (entriesAt_zero hi)]
    rfl
  | succ n ih =>
    rw [walkAddrv2]
    rcases skipAddrv2Entry_spec msg i with hskip | ⟨e, he, hat⟩
    · have hnone : ¬EntriesAt msg (n + 1) i := by
        rw [entriesAt_succ_iff]
        rintro ⟨e, he, hat, -⟩
        have hends := Except.ok.inj (hskip.symm.trans (skipAddrv2Entry_of_at he hat))
        omega
      rw [hskip, if_neg hnone]
      rfl
    · have hrest : EntriesAt msg (n + 1) i ↔ EntriesAt msg n (i + e.serialize.length) := by
        rw [entriesAt_succ_iff]
        constructor
        · rintro ⟨e', he', hat', hrest⟩
          rw [length_eq_of_at he hat he' hat']
          exact hrest
        · exact fun hrest => ⟨e, he, hat, hrest⟩
      classical
      rw [skipAddrv2Entry_of_at he hat]
      simp only [bind, Except.bind, Int.toNat_natCast]
      rw [if_neg (by omega), ih hat.le_length]
      congr 1
      exact if_congr hrest.symm rfl rfl

/-! ## The count -/

theorem beginsWith_iff :
    BeginsWith msg count ↔ ∃ j, CompactSize.read? msg 0 = some (count, j) ∧
      EntriesAt msg count j := by
  constructor
  · rintro ⟨hlt, entries, hlen, hread, hprefix⟩
    have hat : At msg 0 (CompactSize.encode count ++ entries.flatMap Addrv2Entry.serialize) :=
      ⟨by simpa using hprefix.length_le, hprefix⟩
    rw [at_append] at hat
    exact ⟨_, CompactSize.read?_eq_some_iff.mpr ⟨hlt, hat.1, rfl⟩, entries, hlen, hread, hat.2⟩
  · rintro ⟨j, hcount, entries, hlen, hread, hat⟩
    obtain ⟨hlt, hcountAt, rfl⟩ := CompactSize.read?_eq_some_iff.mp hcount
    exact ⟨hlt, entries, hlen, hread, (at_append.mpr ⟨hcountAt, hat⟩).isPrefix⟩

/-- A vector past the bound is counted. -/
theorem addrv2CountPast_of_beginsWith (h : BeginsWith msg count) (hbound : bound < count) :
    addrv2CountPast msg bound = .ok count := by
  classical
  obtain ⟨j, hcount, hentries⟩ := beginsWith_iff.mp h
  have hle := hentries.le_length
  unfold addrv2CountPast
  rw [compactSize_of_read hcount]
  simp only [bind, Except.bind, Int.toNat_natCast]
  rw [if_neg (by omega), if_neg (by omega), walkAddrv2_eq count (by omega), if_pos hentries]

/-- Octets that begin with no such vector give zero. -/
theorem addrv2CountPast_of_none (h : ∀ count, bound < count → ¬BeginsWith msg count) :
    addrv2CountPast msg bound = .ok 0 := by
  classical
  unfold addrv2CountPast
  cases hcount : CompactSize.read? msg 0 with
  | none =>
    obtain ⟨n, j, hread, hj⟩ := compactSize_of_none hcount
    rw [hread]
    simp only [bind, Except.bind]
    split_ifs with hbound hshort
    · rfl
    · rfl
    · have := Int.mul_nonneg (Int.natCast_nonneg n) (Int.natCast_nonneg addrv2MinEntrySize)
      omega
  | some r =>
    obtain ⟨n, j⟩ := r
    rw [compactSize_of_read hcount]
    simp only [bind, Except.bind, Int.toNat_natCast]
    split_ifs with hbound hshort
    · rfl
    · rfl
    · have hj := (CompactSize.read?_eq_some_iff.mp hcount).2.1.le_length
      rw [← (CompactSize.read?_eq_some_iff.mp hcount).2.2] at hj
      have hnone : ¬EntriesAt msg n j := fun hentries =>
        h n (by omega) (beginsWith_iff.mpr ⟨j, hcount, hentries⟩)
      rw [walkAddrv2_eq n hj, if_neg hnone]

/-- **A count past the bound is that of a vector which is there**: the scan answers it, or
zero, and a peer is refused for such a vector only. -/
theorem addrv2CountPast_spec (msg : Bytes) (bound : ℕ) :
    (∀ count, bound < count →
      (addrv2CountPast msg bound = .ok count ↔ BeginsWith msg count)) ∧
    (addrv2CountPast msg bound = .ok 0 ∨
      ∃ count, bound < count ∧ addrv2CountPast msg bound = .ok count) ∧
    (((addrv2CountPast msg bound).bind (refusePastBound "addrv2") ≠ .ok ()) ↔
      ∃ count, bound < count ∧ BeginsWith msg count) := by
  by_cases h : ∃ count, bound < count ∧ BeginsWith msg count
  · obtain ⟨count, hbound, hvector⟩ := h
    have heq := addrv2CountPast_of_beginsWith hvector hbound
    refine ⟨fun count' hbound' => ?_, Or.inr ⟨count, hbound, heq⟩, ?_⟩
    · rw [heq]
      constructor
      · intro h
        cases h
        exact hvector
      · exact fun h => heq.symm.trans (addrv2CountPast_of_beginsWith h hbound')
    · rw [heq]
      refine iff_of_true ?_ ⟨count, hbound, hvector⟩
      rw [Except.bind, refusePastBound, if_pos (by omega)]
      exact fun h => by cases h
  · have hnone : ∀ count, bound < count → ¬BeginsWith msg count :=
      fun count hbound hvector => h ⟨count, hbound, hvector⟩
    have heq := addrv2CountPast_of_none hnone
    refine ⟨fun count hbound => ?_, Or.inl heq, ?_⟩
    · rw [heq]
      refine iff_of_false (fun h => ?_) (hnone count hbound)
      cases h
      omega
    · rw [heq]
      refine iff_of_false ?_ h
      exact not_not.mpr rfl

end BtclibNode.Addrv2
