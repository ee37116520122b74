/-
# A `mempool.dat` is read back as it was written

The stream shows, piece by piece and whatever is given back, the octets of the file with
the key taken off; a parser does on it what it does on those octets.
-/
import Mathlib
import BtclibNode.Mempool.Persist

namespace BtclibNode

open StateExcept StreamProgram

namespace Btclib

/-! ## The octets a stream shows -/

/-- `obfuscate` under `key` is an exclusive or with a pad of octets. -/
def PositionKeyed (b : Btclib) (key : Bytes) : Prop :=
  ∃ pad : ℕ → UInt8, ∀ data offset,
    b.obfuscate data key offset = data.mapIdx fun i c => c ^^^ pad (offset + i)

section Obfuscate

variable {b : Btclib} {key : Bytes} (hkey : b.PositionKeyed key)
include hkey

theorem length_obfuscate (data : Bytes) (offset : ℕ) :
    (b.obfuscate data key offset).length = data.length := by
  obtain ⟨pad, hpad⟩ := hkey
  rw [hpad, List.length_mapIdx]

theorem obfuscate_append (x y : Bytes) (offset : ℕ) :
    b.obfuscate (x ++ y) key offset =
      b.obfuscate x key offset ++ b.obfuscate y key (offset + x.length) := by
  obtain ⟨pad, hpad⟩ := hkey
  rw [hpad, hpad, hpad, List.mapIdx_append]
  congr 2
  funext i c
  rw [show offset + (i + x.length) = offset + x.length + i by omega]

/-- What is obfuscated twice at one position is as it was. -/
theorem obfuscate_obfuscate (data : Bytes) (offset : ℕ) :
    b.obfuscate (b.obfuscate data key offset) key offset = data := by
  obtain ⟨pad, hpad⟩ := hkey
  rw [hpad, hpad, List.mapIdx_mapIdx]
  apply List.ext_getElem
  · rw [List.length_mapIdx]
  · intro i _ _
    rw [List.getElem_mapIdx]
    show _ ^^^ _ ^^^ _ = _
    rw [UInt8.xor_assoc, UInt8.xor_self, UInt8.xor_zero]

end Obfuscate

/-- What is left of the file with the key taken off. -/
def plain (b : Btclib) (s : Stream) : Bytes :=
  match s.key with
  | none => s.file.content
  | some key => b.obfuscate s.file.content key s.position

/-- The plain string a stream shows. -/
def view (b : Btclib) (s : Stream) : Plain := ⟨s.last, s.givenBack ++ b.plain s⟩

/-- The key of a stream, once it is set, is an exclusive or by position. -/
def Keyed (b : Btclib) (s : Stream) : Prop := ∀ key, s.key = some key → b.PositionKeyed key

/-- The size of the file: what is read of it and what is left. -/
def Stream.size (s : Stream) : ℕ := s.position + s.file.content.length

section Fill

variable {b : Btclib}

theorem ReadFile.read_eq {f f' : ReadFile} {size : ℕ} {piece : Bytes}
    (h : f.read size = (piece, f')) (hsize : 0 < size) :
    f.content = piece ++ f'.content ∧ piece.length ≤ size ∧ (piece = [] → f.content = []) := by
  unfold ReadFile.read at h
  obtain ⟨rfl, rfl⟩ := Prod.mk.inj h
  refine ⟨(List.take_append_drop _ _).symm, ?_, ?_⟩
  · rw [List.length_take]
    omega
  · intro hnil
    have hlen := congrArg List.length hnil
    rw [List.length_take, List.length_nil] at hlen
    apply List.eq_nil_of_length_eq_zero
    omega

/-- The piece a read of the file shows, and what the stream shows after it. -/
theorem plain_read {s : Stream} {file : ReadFile} {piece shown : Bytes} (hs : b.Keyed s)
    (hcontent : s.file.content = piece ++ file.content)
    (hshown : shown = match s.key with
      | none => piece
      | some key => b.obfuscate piece key s.position) :
    shown.length = piece.length ∧ b.plain s = shown ++
      b.plain { s with file := file, position := s.position + shown.length } := by
  unfold plain
  cases hkey : s.key with
  | none =>
    rw [hkey] at hshown
    rw [hshown]
    exact ⟨rfl, hcontent⟩
  | some key =>
    rw [hkey] at hshown
    have hlen := length_obfuscate (hs key hkey) piece s.position
    rw [hshown]
    refine ⟨hlen, ?_⟩
    dsimp only
    rw [hcontent, obfuscate_append (hs key hkey), hlen]

/-- **The loop of `read` returns what the stream shows**, however the file is read. -/
theorem fill_eq (left : ℕ) (pieces : Bytes) (s : Stream) (hs : b.Keyed s) :
    (b.fill left pieces s).1 = pieces ++ (b.plain s).take left ∧
      b.plain (b.fill left pieces s).2 = (b.plain s).drop left ∧
      (b.fill left pieces s).2.key = s.key ∧
      (b.fill left pieces s).2.givenBack = s.givenBack ∧
      (b.fill left pieces s).2.size = s.size := by
  fun_induction fill b left pieces s with
  | case1 pieces s =>
    rw [List.take_zero, List.append_nil, List.drop_zero]
    exact ⟨rfl, rfl, rfl, rfl, rfl⟩
  | case2 left pieces s hleft file hread =>
    -- the file is at its end
    have hpos : 0 < min left chunk := by
      have hchunk : 0 < chunk := by decide
      omega
    obtain ⟨hcontent, -, hnil⟩ := ReadFile.read_eq hread hpos
    have hend := hnil rfl
    have hplain : ∀ t : Stream, t.key = s.key → t.file.content = [] → b.plain t = [] := by
      intro t hkey ht
      have hlen : (b.plain t).length = 0 := by
        unfold plain
        rw [ht]
        cases h : t.key with
        | none => rfl
        | some key => exact length_obfuscate (hs key (hkey ▸ h)) [] t.position
      exact List.eq_nil_of_length_eq_zero hlen
    have hend' : file.content = [] := by
      rw [hend] at hcontent
      exact hcontent.symm
    rw [hplain s rfl hend, hplain { s with file := file } rfl hend', List.take_nil,
      List.drop_nil, List.append_nil]
    refine ⟨rfl, rfl, rfl, rfl, ?_⟩
    show s.position + file.content.length = s.position + s.file.content.length
    rw [hend, hend']
  | case3 left pieces s hleft c cs file hread piece ih =>
    have hpos : 0 < min left chunk := by
      have hchunk : 0 < chunk := by decide
      omega
    obtain ⟨hcontent, hle, -⟩ := ReadFile.read_eq hread hpos
    have hpiece : piece = match s.key with
      | none => c :: cs
      | some key => b.obfuscate (c :: cs) key s.position := rfl
    obtain ⟨hlen, hplain⟩ := plain_read hs hcontent hpiece
    obtain ⟨hdata, hrest, hkey, hback, hsize⟩ := ih hs
    have hfits : piece.length ≤ left := by omega
    rw [hdata, hrest, hplain]
    refine ⟨?_, ?_, hkey, hback, hsize.trans ?_⟩
    · rw [List.take_append, List.take_of_length_le hfits, List.append_assoc]
    · rw [List.drop_append, List.drop_of_length_le hfits, List.nil_append]
    · show s.position + piece.length + file.content.length = s.position + s.file.content.length
      rw [hcontent, List.length_append]
      omega

end Fill

/-! ## Parsers on the stream -/

section Device

variable {b : Btclib} {s : Stream}

/-- **A read returns the front of what the stream shows.** -/
theorem sat_streamRead (size : ℤ) (hs : b.Keyed s) :
    Sat (b.streamRead size) s (fun octets s' =>
      octets = (b.view s).rest.take (amount sysMaxsize size) ∧
      b.view s' = (b.view s).read sysMaxsize size ∧ s'.key = s.key ∧
      (s.givenBack = [] → s'.givenBack = []) ∧ s'.size = s.size) fun _ _ => False := by
  generalize hleft : amount sysMaxsize size = left
  have hcut : left - (s.givenBack.take left).length = left - s.givenBack.length := by
    rw [List.length_take]
    omega
  obtain ⟨hdata, hrest, hkey, hback, hsize⟩ := fill_eq (b := b) (left - (s.givenBack.take left).length)
    (s.givenBack.take left) { s with givenBack := s.givenBack.drop left } hs
  have hplain : b.plain { s with givenBack := s.givenBack.drop left } = b.plain s := rfl
  rw [hplain, hcut] at hdata hrest
  rw [hcut] at hkey hback hsize
  rw [← List.take_append] at hdata
  have hrun : b.streamRead size s =
      .ok (b.fill (left - (s.givenBack.take left).length) (s.givenBack.take left)
          { s with givenBack := s.givenBack.drop left }).1
        { (b.fill (left - (s.givenBack.take left).length) (s.givenBack.take left)
            { s with givenBack := s.givenBack.drop left }).2 with
          last := (b.fill (left - (s.givenBack.take left).length) (s.givenBack.take left)
            { s with givenBack := s.givenBack.drop left }).1 } := by
    subst hleft
    rfl
  rw [hcut] at hrun
  rw [sat_of_ok hrun]
  refine ⟨hdata, ?_, hkey, ?_, hsize⟩
  · unfold Plain.read
    rw [hleft]
    refine Plain.ext hdata ?_
    show (b.fill _ _ _).2.givenBack ++ b.plain (b.fill _ _ _).2 = _
    rw [hback, hrest]
    exact List.drop_append.symm
  · intro hnil
    rw [hback]
    show s.givenBack.drop left = []
    rw [hnil, List.drop_nil]

/-- The streams of a key that is set. -/
def Under (b : Btclib) (key : Option Bytes) (s : Stream) : Prop := b.Keyed s ∧ s.key = key

/-- The streams of a file before its key, nothing being given back to them. -/
def Before (size : ℕ) (s : Stream) : Prop := s.key = none ∧ s.givenBack = [] ∧ s.size = size

theorem readsPlain_under (b : Btclib) (key : Option Bytes) :
    ReadsPlain b.stream sysMaxsize b.view (b.Under key) := by
  rintro size s ⟨hs, hkey⟩
  apply (sat_streamRead size hs).mono
  · rintro octets s' ⟨hdata, hview, hkey', -⟩
    refine ⟨hdata, hview, ?_, hkey'.trans hkey⟩
    intro k hk
    exact hs k (hkey'.symm.trans hk)
  · exact fun _ _ hfalse => hfalse

theorem keyed_of_none (hkey : s.key = none) : b.Keyed s := by
  intro k hk
  rw [hkey] at hk
  cases hk

theorem readsPlain_before (b : Btclib) (total : ℕ) :
    ReadsPlain b.stream sysMaxsize b.view (Before total) := by
  rintro size s ⟨hkey, hback, hsize⟩
  apply (sat_streamRead size (keyed_of_none hkey)).mono
  · rintro octets s' ⟨hdata, hview, hkey', hback', hsize'⟩
    exact ⟨hdata, hview, hkey'.trans hkey, hback' hback, hsize'.trans hsize⟩
  · exact fun _ _ hfalse => hfalse

theorem seeksPlain_under (b : Btclib) (key : Option Bytes) :
    SeeksPlain b.stream b.view (b.Under key) := by
  rintro offset s ⟨hs, hkey⟩ hsteps
  have hsteps' : StepsBack s.last offset := hsteps
  show Sat (streamSeek offset) s _ _
  unfold streamSeek
  rw [sat_bind]
  show Sat (if StepsBack s.last offset then _ else _) s _ _
  rw [if_pos hsteps']
  refine ⟨?_, hs, hkey⟩
  refine Plain.ext rfl ?_
  exact List.append_assoc _ _ _

/-- **A parser that steps back within its last read** does on the stream what it does on
the plain octets, and leaves the rest of them shown: the offset stays right. -/
theorem sat_parse {α : Type} {p : StreamProgram DumpError α} {a : α} {t : Plain}
    (hs : b.Keyed s) (h : p.runPlain sysMaxsize (b.view s) = some (a, t)) :
    Sat (p.run b.stream) s (fun a' s' => a' = a ∧ b.view s' = t ∧ b.Under s.key s')
      fun _ _ => False :=
  run_of_plain (readsPlain_under b s.key) (.inr (seeksPlain_under b s.key)) ⟨hs, rfl⟩ h

end Device

/-! ## Fields read back -/

/-- On the streams of `I`, a field is read back off its octets, whatever follows them. -/
def ReadsBack {α : Type} (b : Btclib) (I : Stream → Prop) (x : EStateM DumpError Stream α)
    (octets : Bytes) (a : α) : Prop :=
  ∀ rest s, I s → (b.view s).rest = octets ++ rest →
    Sat x s (fun a' s' => a' = a ∧ I s' ∧ (b.view s').rest = rest) fun _ _ => False

section Fields

variable {b : Btclib} {I : Stream → Prop} {α β : Type}

theorem ReadsBack.pure (a : α) : b.ReadsBack I (Pure.pure a) [] a := by
  intro rest s hs hview
  exact ⟨rfl, hs, hview⟩

theorem ReadsBack.bind {x : EStateM DumpError Stream α} {f : α → EStateM DumpError Stream β}
    {u v : Bytes} {a : α} {c : β} (hx : b.ReadsBack I x u a) (hf : b.ReadsBack I (f a) v c) :
    b.ReadsBack I (x >>= f) (u ++ v) c := by
  intro rest s hs hview
  rw [List.append_assoc] at hview
  rw [sat_bind]
  apply (hx (v ++ rest) s hs hview).mono
  · rintro a' s' ⟨rfl, hs', hview'⟩
    exact hf rest s' hs' hview'
  · exact fun _ _ hfalse => hfalse

theorem ReadsBack.map {x : EStateM DumpError Stream α} {u : Bytes} {a : α} (f : α → β)
    (hx : b.ReadsBack I x u a) : b.ReadsBack I (f <$> x) u (f a) := by
  intro rest s hs hview
  rw [sat_map]
  apply (hx rest s hs hview).mono
  · rintro a' s' ⟨rfl, hs', hview'⟩
    exact ⟨rfl, hs', hview'⟩
  · exact fun _ _ hfalse => hfalse

/-- Items read one after another. -/
theorem readsBack_times {x : EStateM DumpError Stream α} {octets : α → Bytes} (l : List α)
    (hx : ∀ a ∈ l, b.ReadsBack I x (octets a) a) :
    b.ReadsBack I (times x l.length) (l.map octets).flatten l := by
  induction l with
  | nil => exact ReadsBack.pure []
  | cons a l ih =>
    rw [List.forall_mem_cons] at hx
    rw [List.map_cons, List.flatten_cons]
    show b.ReadsBack I (x >>= fun a => times x l.length >>= fun rest => Pure.pure (a :: rest)) _ _
    apply hx.1.bind
    rw [← List.append_nil (l.map octets).flatten]
    apply (ih hx.2).bind
    exact ReadsBack.pure (a :: l)

section Plain

variable (hread : ReadsPlain b.stream sysMaxsize b.view I)
include hread

theorem readsBack_exact (data : Bytes) :
    b.ReadsBack I (b.readExact data.length) data data := by
  intro rest s hs hview
  have hamount : amount sysMaxsize data.length = data.length := by
    unfold amount
    rw [if_neg (by omega), Int.toNat_natCast]
  unfold readExact
  rw [sat_bind]
  apply (hread data.length s hs).mono
  · rintro octets s' ⟨hdata, hview', hs'⟩
    rw [hamount, hview, List.take_left' rfl] at hdata
    rw [hdata, if_neg (not_not_intro rfl)]
    refine ⟨rfl, hs', ?_⟩
    rw [hview']
    show (b.view s).rest.drop (amount sysMaxsize data.length) = rest
    rw [hamount, hview, List.drop_left' rfl]
  · exact fun _ _ hfalse => hfalse

theorem readsBack_u64 {n : ℕ} (hn : n < 2 ^ 64) :
    b.ReadsBack I b.readU64 (LittleEndian.encode 8 n) n := by
  have hdata := readsBack_exact hread (LittleEndian.encode 8 n)
  rw [LittleEndian.length_encode] at hdata
  have hback := hdata.map LittleEndian.decode
  rwa [LittleEndian.decode_encode hn] at hback

theorem readsBack_i64 (n : Int64) : b.ReadsBack I b.readI64 (packI64 n) n := by
  have hdata := readsBack_exact hread (packI64 n)
  unfold packI64 at hdata ⊢
  rw [LittleEndian.length_encode] at hdata
  have hback := hdata.map fun data =>
    Int64.ofBitVec (BitVec.ofNat 64 (LittleEndian.decode data))
  rwa [LittleEndian.decode_encode n.toBitVec.isLt, BitVec.ofNat_toNat, BitVec.setWidth_eq,
    Int64.ofBitVec_toBitVec] at hback

theorem readsBack_txid (txid : Txid) : b.ReadsBack I b.readTxid txid.internal txid := by
  have hlen : txid.internal.length = 32 := by
    unfold Txid.internal
    rw [List.length_reverse, txid.length_eq]
  have hdata := readsBack_exact hread txid.internal
  rw [hlen] at hdata
  unfold readTxid
  rw [← List.append_nil txid.internal]
  apply hdata.bind
  rw [dif_pos hlen]
  have hback : txid.internal.reverse = txid.octets := List.reverse_reverse txid.octets
  have htxid : (⟨txid.internal.reverse, by rw [List.length_reverse, hlen]⟩ : Txid) = txid :=
    Txid.ext hback
  rw [htxid]
  exact ReadsBack.pure txid

/-- The deltas are set in the order they are read. -/
theorem readsBack_deltas (value : Txid → Int64) (txids : List Txid) (deltas : Dict Txid Int64) :
    b.ReadsBack I (b.readDeltas txids.length deltas)
      (txids.map fun txid => txid.internal ++ packI64 (value txid)).flatten
      (txids.foldl (fun deltas txid => deltas.set txid (value txid)) deltas) := by
  induction txids generalizing deltas with
  | nil => exact ReadsBack.pure deltas
  | cons txid txids ih =>
    rw [List.map_cons, List.flatten_cons, List.append_assoc, List.length_cons, readDeltas]
    apply (readsBack_txid hread txid).bind
    apply (readsBack_i64 hread (value txid)).bind
    exact ih (deltas.set txid (value txid))

/-- A parser that steps back only where the stream lets it. -/
theorem readsBack_parse {p : StreamProgram DumpError α} {octets : Bytes} {a : α}
    (hseek : p.NoSeek ∨ SeeksPlain b.stream b.view I) (h : Inverts p octets a) :
    b.ReadsBack I (p.run b.stream) octets a := by
  intro rest s hs hview
  obtain ⟨last, hrun⟩ := h (b.view s).last rest
  have hplain : b.view s = ⟨(b.view s).last, octets ++ rest⟩ := Plain.ext rfl hview
  rw [← hplain] at hrun
  apply (run_of_plain hread hseek hs hrun).mono
  · rintro a' s' ⟨rfl, hview', hs'⟩
    exact ⟨rfl, hs', by rw [hview']⟩
  · exact fun _ _ hfalse => hfalse

end Plain

/-- An entry, the marker of its transaction given back on the way. -/
theorem readsBack_entry (hb : b.Lawful) (key : Option Bytes) (entry : b.Tx × Int64 × Int64) :
    b.ReadsBack (b.Under key) b.readEntry
      (b.serialize entry.1 ++ packI64 entry.2.1 ++ packI64 entry.2.2) entry := by
  have hread := readsPlain_under b key
  obtain ⟨tx, time, delta⟩ := entry
  rw [List.append_assoc]
  apply (readsBack_parse hread (.inr (seeksPlain_under b key)) (hb.tx tx)).bind
  apply (readsBack_i64 hread time).bind
  rw [← List.append_nil (packI64 delta)]
  apply (readsBack_i64 hread delta).bind
  exact ReadsBack.pure (tx, time, delta)

end Fields

/-! ## The head of the file -/

/-- A `mempool.dat` of a payload. -/
def fileOf (b : Btclib) (key : Option Bytes) (payload : Bytes) : Bytes :=
  match key with
  | none => LittleEndian.encode 8 1 ++ payload
  | some key =>
    let head := LittleEndian.encode 8 2 ++ b.serializeKey key
    head ++ b.obfuscate payload key head.length

section Head

variable {b : Btclib} {file : ReadFile} {count : ℕ} {rest : Bytes}

theorem sat_readHead_one (hcount : count < 2 ^ 64)
    (hfile : file.content = b.fileOf none (LittleEndian.encode 8 count ++ rest)) :
    Sat b.readHead (.init file) (fun head s => head = some (none, count) ∧
      b.Under none s ∧ (b.view s).rest = rest) fun _ _ => False := by
  have hread := readsPlain_under b none
  have hinit : b.Under none (.init file) := ⟨keyed_of_none rfl, rfl⟩
  unfold readHead
  rw [sat_bind]
  have hversion : (1 : ℕ) < 2 ^ 64 := by decide
  apply (readsBack_u64 hread hversion _ _ hinit hfile).mono
  · rintro version s ⟨rfl, hs, hview⟩
    rw [if_pos rfl, sat_bind]
    apply (readsBack_u64 hread hcount _ _ hs hview).mono
    · rintro count' s' ⟨rfl, hs', hview'⟩
      exact ⟨rfl, hs', hview'⟩
    · exact fun _ _ hfalse => hfalse
  · exact fun _ _ hfalse => hfalse

/-- Once the head is read nothing is given back, so the key is set at the offset the
payload was obfuscated from. -/
theorem sat_readHead_two {key : Bytes} (hb : b.Lawful) (hkey : b.ValidKey key)
    (hcount : count < 2 ^ 64)
    (hfile : file.content = b.fileOf (some key) (LittleEndian.encode 8 count ++ rest)) :
    Sat b.readHead (.init file) (fun head s => head = some (some key, count) ∧
      b.Under (some key) s ∧ (b.view s).rest = rest) fun _ _ => False := by
  have hpad : b.PositionKeyed key := hb.obfuscate key hkey
  generalize hpayload : LittleEndian.encode 8 count ++ rest = payload at hfile
  generalize hhead : LittleEndian.encode 8 2 ++ b.serializeKey key = head
  have hcontent : file.content = head ++ b.obfuscate payload key head.length := by
    rw [← hhead]
    exact hfile
  have hread := readsPlain_before b file.content.length
  have hinit : Before file.content.length (.init file) := ⟨rfl, rfl, Nat.zero_add _⟩
  have hview : (b.view (.init file)).rest =
      LittleEndian.encode 8 2 ++ (b.serializeKey key ++ b.obfuscate payload key head.length) := by
    rw [← List.append_assoc, hhead]
    exact hcontent
  unfold readHead
  rw [sat_bind]
  have hversion : (2 : ℕ) < 2 ^ 64 := by decide
  apply (readsBack_u64 hread hversion _ _ hinit hview).mono
  · rintro version s ⟨rfl, hs, hview⟩
    rw [if_neg (by decide), if_pos rfl, sat_bind]
    apply (readsBack_parse hread (.inl hb.noSeek) (hb.key key hkey) _ _ hs hview).mono
    · rintro key' s' ⟨rfl, ⟨hnone, hback, hsize⟩, hview'⟩
      have hleft : s'.file.content = b.obfuscate payload key' head.length := by
        rw [← hview']
        unfold view plain
        rw [hnone, hback]
        rfl
      have hposition : s'.position = head.length := by
        unfold Stream.size at hsize
        rw [hcontent, List.length_append, hleft] at hsize
        omega
      rw [sat_bind, sat_modify, sat_bind]
      have hunder : b.Under (some key') { s' with key := some key' } := by
        refine ⟨?_, rfl⟩
        intro k hk
        cases hk
        exact hpad
      have hshown : (b.view { s' with key := some key' }).rest =
          LittleEndian.encode 8 count ++ rest := by
        show s'.givenBack ++ b.obfuscate s'.file.content key' s'.position = _
        rw [hback, hleft, hposition, obfuscate_obfuscate hpad, hpayload]
        rfl
      have hread' := readsPlain_under b (some key')
      apply (readsBack_u64 hread' hcount _ _ hunder hshown).mono
      · rintro count' s'' ⟨rfl, hs'', hview''⟩
        exact ⟨rfl, hs'', hview''⟩
      · exact fun _ _ hfalse => hfalse
    · exact fun _ _ hfalse => hfalse
  · exact fun _ _ hfalse => hfalse

end Head

/-! ## The round trip -/

section RoundTrip

variable {b : Btclib}

theorem sortOctets_perm {α : Type} (key : α → Bytes) (l : List α) :
    (sortOctets key l).Perm l := List.mergeSort_perm l _

theorem pairwise_sortOctets {α : Type} (key : α → Bytes) (l : List α) :
    (sortOctets key l).Pairwise fun x y => (compare (key x) (key y)).isLE := by
  apply List.pairwise_mergeSort
  · exact fun x y z hxy hyz => Std.TransOrd.isLE_trans hxy hyz
  · intro x y
    rw [Std.OrientedOrd.eq_swap (a := key y)]
    cases compare (key x) (key y) <;> decide

theorem sortOctets_map {α : Type} (key : α → Bytes) (l : List α) :
    sortOctets id (l.map key) = (sortOctets key l).map key := by
  unfold sortOctets
  rw [List.map_mergeSort]
  exact fun _ _ _ _ => rfl

/-- Keys set in any order, each to its own value. -/
theorem get?_foldl_set (value : Txid → Int64) (txids : List Txid) (deltas : Dict Txid Int64)
    (x : Txid) :
    (txids.foldl (fun deltas txid => deltas.set txid (value txid)) deltas).get? x =
      if x ∈ txids then some (value x) else deltas.get? x := by
  induction txids generalizing deltas with
  | nil => rw [if_neg List.not_mem_nil]; rfl
  | cons txid txids ih =>
    rw [List.foldl_cons, ih, Dict.get?_set]
    by_cases hx : x ∈ txids
    · rw [if_pos hx, if_pos (List.mem_cons_of_mem txid hx)]
    · rw [if_neg hx]
      by_cases heq : txid = x
      · rw [if_pos heq, heq, if_pos List.mem_cons_self]
      · rw [if_neg heq, if_neg]
        rw [List.mem_cons]
        rintro (rfl | hmem)
        · exact heq rfl
        · exact hx hmem

/-- The payload, its three counts being given. -/
def payloadOf (b : Btclib) (entries : List (b.Tx × Int64 × Int64)) (deltas : Dict Txid Int64)
    (unbroadcast : List Txid) (count deltaCount heldCount : Bytes) : Bytes :=
  count ++ ((entries.map fun (tx, time, delta) =>
      b.serialize tx ++ packI64 time ++ packI64 delta).flatten ++
    (deltaCount ++ (((sortOctets Txid.internal deltas.keys).map fun txid =>
        txid.internal ++ packI64 ((deltas.get? txid).getD 0)).flatten ++
      (heldCount ++ ((sortOctets Txid.internal unbroadcast).map Txid.internal).flatten))))

/-- What `serialize_mempool` writes. -/
theorem serializeMempool_eq (entries : List (b.Tx × Int64 × Int64)) (deltas : Dict Txid Int64)
    (unbroadcast : List Txid) (key : Option Bytes) :
    b.serializeMempool entries deltas unbroadcast key =
      packU64 entries.length >>= fun count =>
        b.varIntSerialize (sortOctets Txid.internal deltas.keys).length >>= fun deltaCount =>
          b.varIntSerialize (sortOctets Txid.internal unbroadcast).length >>= fun heldCount =>
            .ok (b.fileOf key (b.payloadOf entries deltas unbroadcast count deltaCount
              heldCount)) := by
  unfold serializeMempool payloadOf
  rw [(sortOctets_perm Txid.internal deltas.keys).length_eq]
  simp only [sortOctets_map, List.length_map, ← List.append_assoc]
  cases key with
  | none => rfl
  | some key => rfl

/-- A Python list is no longer than `sys.maxsize`; such lists are written. -/
theorem exists_serializeMempool (hb : b.Lawful) {entries : List (b.Tx × Int64 × Int64)}
    {deltas : Dict Txid Int64} {unbroadcast : List Txid} (key : Option Bytes)
    (hentries : entries.length ≤ sysMaxsize) (hdeltas : deltas.keys.length ≤ sysMaxsize)
    (hheld : unbroadcast.length ≤ sysMaxsize) :
    ∃ data, b.serializeMempool entries deltas unbroadcast key = .ok data := by
  have hlen : ∀ l : List Txid, (sortOctets Txid.internal l).length = l.length :=
    fun l => (sortOctets_perm Txid.internal l).length_eq
  have hmax : sysMaxsize < 2 ^ 64 := by decide
  obtain ⟨deltaCount, hdeltaCount⟩ := hb.varInt_returns deltas.keys.length (by omega)
  obtain ⟨heldCount, hheldCount⟩ := hb.varInt_returns unbroadcast.length (by omega)
  rw [serializeMempool_eq, hlen, hlen, hdeltaCount, hheldCount]
  unfold packU64
  rw [if_pos (by omega)]
  exact ⟨_, rfl⟩

theorem serializeMempool_ok {entries : List (b.Tx × Int64 × Int64)} {deltas : Dict Txid Int64}
    {unbroadcast : List Txid} {key : Option Bytes} {data : Bytes}
    (h : b.serializeMempool entries deltas unbroadcast key = .ok data) :
    ∃ deltaCount heldCount, entries.length < 2 ^ 64 ∧
      b.varIntSerialize (sortOctets Txid.internal deltas.keys).length = .ok deltaCount ∧
      b.varIntSerialize (sortOctets Txid.internal unbroadcast).length = .ok heldCount ∧
      data = b.fileOf key (b.payloadOf entries deltas unbroadcast
        (LittleEndian.encode 8 entries.length) deltaCount heldCount) := by
  rw [serializeMempool_eq] at h
  unfold packU64 at h
  by_cases hcount : entries.length < 2 ^ 64
  · rw [if_pos hcount] at h
    cases hdeltas : b.varIntSerialize (sortOctets Txid.internal deltas.keys).length with
    | error e =>
      rw [hdeltas] at h
      cases h
    | ok deltaCount =>
      cases hheld : b.varIntSerialize (sortOctets Txid.internal unbroadcast).length with
      | error e =>
        rw [hdeltas, hheld] at h
        cases h
      | ok heldCount =>
        rw [hdeltas, hheld] at h
        exact ⟨deltaCount, heldCount, hcount, rfl, rfl, (Except.ok.inj h).symm⟩
  · rw [if_neg hcount] at h
    cases h

theorem sat_readHead {key : Option Bytes} {file : ReadFile} {count : ℕ} {rest : Bytes}
    (hb : b.Lawful) (hkey : ∀ k, key = some k → b.ValidKey k) (hcount : count < 2 ^ 64)
    (hfile : file.content = b.fileOf key (LittleEndian.encode 8 count ++ rest)) :
    Sat b.readHead (.init file) (fun head s => head = some (key, count) ∧
      b.Under key s ∧ (b.view s).rest = rest) fun _ _ => False := by
  cases key with
  | none => exact sat_readHead_one hcount hfile
  | some key => exact sat_readHead_two hb (hkey key rfl) hcount hfile

/-- The deltas that are read are those that were written. -/
theorem get?_deltas_read (deltas : Dict Txid Int64) (x : Txid) :
    ((sortOctets Txid.internal deltas.keys).foldl
      (fun (read : Dict Txid Int64) txid => read.set txid ((deltas.get? txid).getD 0))
        .empty).get? x = deltas.get? x := by
  have hmem := (sortOctets_perm Txid.internal deltas.keys).mem_iff (a := x)
  rw [get?_foldl_set fun txid => (deltas.get? txid).getD 0, Dict.get?_empty]
  cases hx : deltas.get? x with
  | none =>
    rw [if_neg]
    rw [hmem, deltas.mem_keys_iff]
    rintro ⟨value, hvalue⟩
    rw [hx] at hvalue
    cases hvalue
  | some value =>
    rw [if_pos (hmem.mpr (Dict.mem_keys_of_get? hx))]
    rfl

/-- What follows the head of the file. -/
theorem readsBack_body (hb : b.Lawful) (key : Option Bytes)
    (entries : List (b.Tx × Int64 × Int64)) (value : Txid → Int64) (txids sorted : List Txid)
    {deltaCount heldCount : Bytes} (hdeltas : b.varIntSerialize txids.length = .ok deltaCount)
    (hheld : b.varIntSerialize sorted.length = .ok heldCount) :
    b.ReadsBack (b.Under key) (do
        let entries ← times b.readEntry entries.length
        let deltaCount ← b.varIntParse.run b.stream
        let deltas ← b.readDeltas deltaCount .empty
        let heldCount ← b.varIntParse.run b.stream
        let unbroadcast ← times b.readTxid heldCount
        return { key, entries, deltas, unbroadcast : b.MempoolFile })
      ((entries.map fun (tx, time, delta) =>
          b.serialize tx ++ packI64 time ++ packI64 delta).flatten ++
        (deltaCount ++ ((txids.map fun txid => txid.internal ++ packI64 (value txid)).flatten ++
          (heldCount ++ (sorted.map Txid.internal).flatten))))
      { key, entries, unbroadcast := sorted
        deltas := txids.foldl (fun deltas txid => deltas.set txid (value txid)) .empty } := by
  have hread := readsPlain_under b key
  have hseek : b.varIntParse.NoSeek ∨ SeeksPlain b.stream b.view (b.Under key) :=
    .inr (seeksPlain_under b key)
  apply (readsBack_times entries fun entry _ => readsBack_entry hb key entry).bind
  apply (readsBack_parse hread hseek (hb.varInt _ _ hdeltas)).bind
  apply (readsBack_deltas hread value txids .empty).bind
  apply (readsBack_parse hread hseek (hb.varInt _ _ hheld)).bind
  rw [← List.append_nil (sorted.map Txid.internal).flatten]
  apply (readsBack_times sorted fun txid _ => readsBack_txid hread txid).bind
  exact ReadsBack.pure _

/-- What `read_mempool_file` returns of a file that was written. -/
theorem exists_readFrom (hb : b.Lawful) {entries : List (b.Tx × Int64 × Int64)}
    {deltas : Dict Txid Int64} {unbroadcast : List Txid} {key : Option Bytes}
    (hkey : ∀ k, key = some k → b.ValidKey k) {file : ReadFile}
    (h : b.serializeMempool entries deltas unbroadcast key = .ok file.content) :
    ∃ m, b.readFrom file = .ok m ∧ m.key = key ∧ m.entries = entries ∧
      (∀ x, m.deltas.get? x = deltas.get? x) ∧
      m.unbroadcast = sortOctets Txid.internal unbroadcast := by
  obtain ⟨deltaCount, heldCount, hcount, hdeltas, hheld, hdata⟩ := serializeMempool_ok h
  have hsat : Sat b.readMempool (.init file) (fun m _ => m.key = key ∧ m.entries = entries ∧
      (∀ x, m.deltas.get? x = deltas.get? x) ∧
      m.unbroadcast = sortOctets Txid.internal unbroadcast) fun _ _ => False := by
    unfold readMempool
    rw [sat_bind]
    apply (sat_readHead hb hkey hcount hdata).mono
    · rintro head s ⟨rfl, hs, hview⟩
      have hbody := readsBack_body hb key entries (fun txid => (deltas.get? txid).getD 0) _ _
        hdeltas hheld
      apply (hbody [] s hs (by rw [List.append_nil]; exact hview)).mono
      · rintro m - ⟨rfl, -, -⟩
        exact ⟨rfl, rfl, get?_deltas_read deltas, rfl⟩
      · exact fun _ _ hfalse => hfalse
    · exact fun _ _ hfalse => hfalse
  obtain ⟨m, s, hrun, hm⟩ := hsat.exists_ok
  refine ⟨m, ?_, hm⟩
  unfold readFrom
  rw [hrun]

end RoundTrip

end Btclib

open Btclib in
/-- **A `mempool.dat` is read back as it was written**, whole or piece by piece, and the
key stays at its offset through the steps back of the parser. -/
theorem mempool_dat_round_trip (b : Btclib) (hb : b.Lawful)
    (entries : List (b.Tx × Int64 × Int64)) (deltas : Dict Txid Int64) (unbroadcast : List Txid)
    (key : Option Bytes) (hkey : ∀ k, key = some k → b.ValidKey k) :
    (entries.length ≤ sysMaxsize → deltas.keys.length ≤ sysMaxsize →
      unbroadcast.length ≤ sysMaxsize →
        ∃ data, b.serializeMempool entries deltas unbroadcast key = .ok data) ∧
    (∀ data, b.serializeMempool entries deltas unbroadcast key = .ok data →
      ∀ result, (result = b.readMempoolFile data ∨
          ∃ file : ReadFile, file.content = data ∧ result = b.readFrom file) →
        ∃ m, result = .ok m ∧ m.key = key ∧ m.entries = entries ∧
          (∀ txid, m.deltas.get? txid = deltas.get? txid) ∧ m.unbroadcast.Perm unbroadcast ∧
          m.unbroadcast.Pairwise fun x y => (compare x.internal y.internal).isLE) ∧
    ∀ (s : Stream) (tx : b.Tx) (t : Plain), (∀ k, s.key = some k → b.ValidKey k) →
      b.parse.runPlain sysMaxsize (b.view s) = some (tx, t) →
        ∃ s', b.parse.run b.stream s = .ok tx s' ∧ b.view s' = t ∧ s'.key = s.key := by
  refine ⟨exists_serializeMempool hb key, ?_, ?_⟩
  · intro data hdata result hresult
    have hfile : ∃ file : ReadFile, file.content = data ∧ result = b.readFrom file := by
      rcases hresult with rfl | hfile
      · exact ⟨.ofBytes data, rfl, rfl⟩
      · exact hfile
    obtain ⟨file, rfl, rfl⟩ := hfile
    obtain ⟨m, hm, hmkey, hentries, hdeltas, hheld⟩ := exists_readFrom hb hkey hdata
    refine ⟨m, hm, hmkey, hentries, hdeltas, ?_, ?_⟩
    · rw [hheld]
      exact sortOctets_perm Txid.internal unbroadcast
    · rw [hheld]
      exact pairwise_sortOctets Txid.internal unbroadcast
  · intro s tx t hs hplain
    have hkeyed : b.Keyed s := fun k hk => hb.obfuscate k (hs k hk)
    obtain ⟨tx', s', hrun, rfl, hview, -, hsame⟩ := (sat_parse hkeyed hplain).exists_ok
    exact ⟨s', hrun, hview, hsame⟩

/-! ## A codec -/

namespace OneInput

/-- A transaction of one input and one output, both scripts empty: 60 octets, and no segwit
marker after the version. -/
structure Tx where
  version : Bytes
  body : Bytes
  version_length : version.length = 4
  body_length : body.length = 56
  noMarker : body.take 2 ≠ [0, 1]

/-- The parser of such a transaction; it gives back what it read of a marker. -/
def parse : StreamProgram DumpError Tx :=
  .read (4 : ℕ) fun version => .read (2 : ℕ) fun marker => .seek (-(2 : ℕ)) <|
    .read (56 : ℕ) fun body =>
      if h : version.length = 4 ∧ body.length = 56 ∧ marker ≠ [0, 1] ∧ body.take 2 = marker then
        .pure ⟨version, body, h.1, h.2.1, h.2.2.2 ▸ h.2.2.1⟩
      else .raise (.btclib "not a transaction of one input")

def serialize (tx : Tx) : Bytes := tx.version ++ tx.body

theorem inverts_parse (tx : Tx) : Inverts parse (serialize tx) tx := by
  intro last rest
  have hmarker : (tx.body.take 2).length = 2 := by
    rw [List.length_take, tx.body_length]
    decide
  have hbody : tx.body.take 2 ++ (tx.body.drop 2 ++ rest) = tx.body ++ rest := by
    rw [← List.append_assoc, List.take_append_drop]
  unfold parse serialize
  rw [List.append_assoc, runPlain_read tx.version_length, ← hbody, runPlain_read hmarker,
    runPlain_seek hmarker (by decide), hbody, runPlain_read tx.body_length,
    dif_pos ⟨tx.version_length, tx.body_length, tx.noMarker, rfl⟩]
  exact ⟨tx.body, rfl⟩

/-- `var_int`: the width is in the first octet. -/
def varIntSerialize (n : ℕ) : Except DumpError Bytes :=
  if n < 0xfd then .ok [UInt8.ofNat n]
  else if n < 2 ^ 16 then .ok (0xfd :: LittleEndian.encode 2 n)
  else if n < 2 ^ 32 then .ok (0xfe :: LittleEndian.encode 4 n)
  else if n < 2 ^ 64 then .ok (0xff :: LittleEndian.encode 8 n)
  else .error (.btclib "integer too big for a var_int")

/-- The octets after the first one that a `var_int` takes. -/
def varIntWidth (first : UInt8) : ℕ :=
  if first = 0xfd then 2 else if first = 0xfe then 4 else if first = 0xff then 8 else 0

def varIntParse : StreamProgram DumpError ℕ :=
  .read (1 : ℕ) fun first =>
    match first.head? with
    | none => .raise (.btclib "no var_int")
    | some first =>
      if varIntWidth first = 0 then .pure first.toNat
      else .read (varIntWidth first : ℕ) fun data =>
        if data.length = varIntWidth first then .pure (LittleEndian.decode data)
        else .raise (.btclib "not enough data")

theorem inverts_varIntParse_wide {first : UInt8} {n width : ℕ} (hwidth : varIntWidth first = width)
    (hpos : width ≠ 0) (hn : n < 256 ^ width) :
    Inverts varIntParse (first :: LittleEndian.encode width n) n := by
  intro last rest
  unfold varIntParse
  rw [← List.singleton_append, List.append_assoc, runPlain_read List.length_singleton]
  dsimp only [List.head?_cons]
  rw [hwidth, if_neg hpos, runPlain_read (LittleEndian.length_encode width n),
    if_pos (LittleEndian.length_encode width n), LittleEndian.decode_encode hn]
  exact ⟨LittleEndian.encode width n, rfl⟩

theorem inverts_varIntParse {n : ℕ} {octets : Bytes} (h : varIntSerialize n = .ok octets) :
    Inverts varIntParse octets n := by
  unfold varIntSerialize at h
  by_cases hone : n < 0xfd
  · rw [if_pos hone] at h
    rw [← Except.ok.inj h]
    have hoctet : (UInt8.ofNat n).toNat = n := by
      rw [UInt8.toNat_ofNat']
      omega
    have hnarrow : varIntWidth (UInt8.ofNat n) = 0 := by
      have hne : ∀ m : UInt8, 0xfd ≤ m.toNat → UInt8.ofNat n ≠ m := by
        rintro m hm rfl
        omega
      unfold varIntWidth
      rw [if_neg (hne _ (by decide)), if_neg (hne _ (by decide)), if_neg (hne _ (by decide))]
    intro last rest
    unfold varIntParse
    rw [runPlain_read List.length_singleton]
    dsimp only [List.head?_cons]
    rw [if_pos hnarrow, hoctet]
    exact ⟨_, rfl⟩
  · rw [if_neg hone] at h
    by_cases htwo : n < 2 ^ 16
    · rw [if_pos htwo] at h
      rw [← Except.ok.inj h]
      exact inverts_varIntParse_wide rfl (by decide) htwo
    · rw [if_neg htwo] at h
      by_cases hfour : n < 2 ^ 32
      · rw [if_pos hfour] at h
        rw [← Except.ok.inj h]
        exact inverts_varIntParse_wide rfl (by decide) hfour
      · rw [if_neg hfour] at h
        by_cases height : n < 2 ^ 64
        · rw [if_pos height] at h
          rw [← Except.ok.inj h]
          exact inverts_varIntParse_wide rfl (by decide) height
        · rw [if_neg height] at h
          cases h

/-- A key is written behind its length. -/
def parseKey : StreamProgram DumpError Bytes :=
  .read (1 : ℕ) fun size =>
    if size = [8] then .read (8 : ℕ) fun key =>
      if key.length = 8 then .pure key else .raise (.btclib "invalid key")
    else .raise (.btclib "invalid key size")

theorem inverts_parseKey {key : Bytes} (hkey : key.length = 8) :
    Inverts parseKey (8 :: key) key := by
  intro last rest
  unfold parseKey
  rw [show (8 : UInt8) :: key = [8] ++ key from rfl, List.append_assoc,
    runPlain_read List.length_singleton, if_pos rfl, runPlain_read hkey, if_pos hkey]
  exact ⟨key, rfl⟩

theorem noSeek_parseKey : parseKey.NoSeek := by
  intro size
  dsimp only
  split_ifs
  · intro key
    dsimp only
    split_ifs
    · trivial
    · trivial
  · trivial

/-- The codec of such transactions. -/
def codec : Btclib where
  Tx := Tx
  serialize := serialize
  parse := parse
  varIntSerialize := varIntSerialize
  varIntParse := varIntParse
  ValidKey key := key.length = 8
  serializeKey key := 8 :: key
  parseKey := parseKey
  obfuscate data key offset := data.mapIdx fun i c => c ^^^ key.getD ((offset + i) % 8) 0

theorem lawful_codec : codec.Lawful where
  tx := inverts_parse
  varInt _ _ := inverts_varIntParse
  varInt_returns n hn := by
    show ∃ octets, varIntSerialize n = .ok octets
    unfold varIntSerialize
    split_ifs
    · exact ⟨_, rfl⟩
    · exact ⟨_, rfl⟩
    · exact ⟨_, rfl⟩
    · exact ⟨_, rfl⟩
  key _ := inverts_parseKey
  noSeek := noSeek_parseKey
  obfuscate key _ := ⟨fun i => key.getD (i % 8) 0, fun _ _ => rfl⟩

def tx : Tx where
  version := [2, 0, 0, 0]
  body := 1 :: List.replicate 55 0
  version_length := by decide
  body_length := by decide
  noMarker := by decide

def txid : Txid := ⟨List.range 32 |>.map UInt8.ofNat, by decide⟩

end OneInput

theorem mempool_dat_round_trip_one_input :
    ∃ data m, OneInput.codec.serializeMempool [(OneInput.tx, 1600000000, -7)]
        (.singleton OneInput.txid 5) [OneInput.txid] (some [1, 2, 3, 4, 5, 6, 7, 8]) = .ok data ∧
      OneInput.codec.readMempoolFile data = .ok m ∧
      m.entries = [(OneInput.tx, 1600000000, -7)] := by
  have hkey : ∀ k, some [1, 2, 3, 4, 5, 6, 7, 8] = some k → OneInput.codec.ValidKey k := by
    rintro k hk
    rw [← Option.some.inj hk]
    show List.length _ = 8
    decide
  obtain ⟨hwrites, hreads, -⟩ := mempool_dat_round_trip OneInput.codec OneInput.lawful_codec
    [(OneInput.tx, 1600000000, -7)] (.singleton OneInput.txid 5) [OneInput.txid]
    (some [1, 2, 3, 4, 5, 6, 7, 8]) hkey
  obtain ⟨data, hdata⟩ := hwrites (by decide) (by decide) (by decide)
  obtain ⟨m, hm, -, hentries, -⟩ := hreads data hdata _ (.inl rfl)
  exact ⟨data, m, hdata, hm, hentries⟩

end BtclibNode
