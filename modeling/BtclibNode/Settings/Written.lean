/-
# What is written

What `_write` writes is a text of the grammar with the same value, whatever the platform's line
end and in UTF-8.
-/
import Mathlib.Data.List.Basic
import Mathlib.Data.List.Induction
import Mathlib.Data.Nat.Bitwise
import BtclibNode.Settings.File
import BtclibNode.Settings.ParseSound

namespace BtclibNode.Settings

variable {text s : List Char} {v : Json} {d : ℕ} {lineEnd : LineEnd} {c : Char}

/-! ## Octets -/

/-- The octets a text is written as, read back as characters. -/
def asRead (lineEnd : LineEnd) (text : List Char) : List Char :=
  latin1 (text.flatMap (written lineEnd))

theorem latin1_append (a b : List UInt8) : latin1 (a ++ b) = latin1 a ++ latin1 b :=
  List.map_append ..

theorem asRead_append (text text' : List Char) :
    asRead lineEnd (text ++ text') = asRead lineEnd text ++ asRead lineEnd text' := by
  rw [asRead, List.flatMap_append, latin1_append]
  rfl

theorem asRead_nil : asRead lineEnd [] = [] := rfl

theorem asRead_cons (c : Char) (text : List Char) :
    asRead lineEnd (c :: text) = latin1 (written lineEnd c) ++ asRead lineEnd text := by
  rw [asRead, List.flatMap_cons, latin1_append]
  rfl

/-- An ASCII character that ends no line is its octet. -/
theorem latin1_written_ascii (hc : c ≠ '\n') (hascii : c.toNat < 0x80) :
    latin1 (written lineEnd c) = [c] := by
  have hoctet : c.toNat.toUInt8.toNat = c.toNat := by
    rw [Nat.toUInt8, UInt8.toNat_ofNat']
    omega
  rw [written, if_neg hc, utf8, if_pos hascii, latin1, List.map_cons, List.map_nil, hoctet,
    Char.ofNat_toNat]

theorem asRead_ascii (text : List Char) (h : ∀ c ∈ text, c ≠ '\n' ∧ c.toNat < 0x80) :
    asRead lineEnd text = text := by
  induction text with
  | nil => rfl
  | cons c text ih =>
    obtain ⟨hc, hascii⟩ := h c List.mem_cons_self
    rw [asRead_cons, latin1_written_ascii hc hascii,
      ih fun d hd => h d (List.mem_cons_of_mem _ hd)]
    rfl

/-- Whitespace is whitespace with any line end. -/
theorem ws_asRead (h : ∀ c ∈ text, c = ' ' ∨ c = '\n') : Ws (asRead lineEnd text) := by
  induction text with
  | nil => exact ws_nil
  | cons c text ih =>
    rw [asRead_cons]
    refine Ws.append ?_ (ih fun d hd => h d (List.mem_cons_of_mem _ hd))
    rcases h c List.mem_cons_self with rfl | rfl
    · exact fun d hd => by rw [List.mem_singleton.mp hd]; rfl
    · cases lineEnd with
      | lf => exact fun d hd => by rw [List.mem_singleton.mp hd]; rfl
      | crlf =>
        intro d hd
        rcases List.mem_cons.mp hd with rfl | hd
        · rfl
        · rw [List.mem_singleton.mp hd]
          rfl

/-! ## Strings -/

theorem toNat_octet {n : ℕ} (h : n < 256) : (Char.ofNat n.toUInt8.toNat).toNat = n := by
  have hoctet : n.toUInt8.toNat = n := by
    rw [Nat.toUInt8, UInt8.toNat_ofNat']
    omega
  have hvalid : n.isValidChar := .inl (by omega)
  rw [hoctet, Char.ofNat, dif_pos hvalid]
  rfl

theorem inside_octet {k : ℕ} (h : k < 64) : Inside (Char.ofNat (0x80 + k).toUInt8.toNat) := by
  rw [Inside, toNat_octet (by omega)]
  revert k
  decide

theorem payload_octet {k : ℕ} (h : k < 64) :
    payload (Char.ofNat (0x80 + k).toUInt8.toNat) = k := by
  rw [payload, toNat_octet (by omega), Nat.and_two_pow_sub_one_eq_mod _ 6]
  omega

theorem shift_or {a b k : ℕ} (h : b < 2 ^ k) : a <<< k ||| b = a * 2 ^ k + b := by
  rw [← Nat.shiftLeft_add_eq_or_of_lt h, Nat.shiftLeft_eq]

/-- The bits of a sequence of three, and of four. -/
theorem shift_or_three {a b e : ℕ} (hb : b < 64) (he : e < 64) :
    a <<< 12 ||| b <<< 6 ||| e = a * 4096 + b * 64 + e := by
  have hlow : b <<< 6 < 2 ^ 12 := by
    rw [Nat.shiftLeft_eq]
    omega
  have hhigh : a <<< 12 ||| b <<< 6 = (a * 64 + b) <<< 6 := by
    rw [shift_or hlow, Nat.shiftLeft_eq, Nat.shiftLeft_eq]
    omega
  rw [hhigh, shift_or he]
  omega

theorem shift_or_four {a b e f : ℕ} (hb : b < 64) (he : e < 64) (hf : f < 64) :
    a <<< 18 ||| b <<< 12 ||| e <<< 6 ||| f = a * 262144 + b * 4096 + e * 64 + f := by
  have hlow : b <<< 12 < 2 ^ 18 := by
    rw [Nat.shiftLeft_eq]
    omega
  have hhigh : a <<< 18 ||| b <<< 12 = (a * 64 + b) <<< 12 := by
    rw [shift_or hlow, Nat.shiftLeft_eq, Nat.shiftLeft_eq]
    omega
  rw [hhigh, shift_or_three he hf]
  omega

/-- A piece in front. -/
theorem StringText.cons {p : List Char} {m : Char ⊕ ℕ} (hp : Piece p m)
    (hm : m = .inl c ∨ m = .inr c.toNat) (h : StringText text s) :
    StringText (p ++ text) (c :: s) := by
  obtain ⟨ms, hpieces, hspells⟩ := h
  refine ⟨m :: ms, .cons hp hpieces, ?_⟩
  rcases hm with rfl | rfl
  · exact .char hspells
  · have hvalid : c.toNat < 0xD800 ∨ 0xDFFF < c.toNat ∧ c.toNat < 0x110000 := c.valid
    have hcode := @Spells.code c.toNat _ _ (fun h => by have := h.1; have := h.2; omega)
      (fun h => by have := h.1; have := h.2; omega) (by omega) hspells
    rwa [Char.ofNat_toNat] at hcode

/-- A character of two, three or four octets is a sequence of UTF-8. -/
theorem piece_utf8 (h : 0x80 ≤ c.toNat) : Piece (latin1 (utf8 c)) (.inr c.toNat) := by
  have hvalid : c.toNat < 0xD800 ∨ 0xDFFF < c.toNat ∧ c.toNat < 0x110000 := c.valid
  generalize hn : c.toNat = n at h hvalid
  have hlast : n % 64 < 64 := Nat.mod_lt _ (by decide)
  have hthird : n / 64 % 64 < 64 := Nat.mod_lt _ (by decide)
  have hsecond : n / 4096 % 64 < 64 := Nat.mod_lt _ (by decide)
  rw [utf8, hn]
  by_cases htwo : n < 0x800
  · rw [if_neg (by omega), if_pos htwo]
    have hlead := toNat_octet (n := 0xC0 + n / 64) (by omega)
    have hpiece := @Piece.two (Char.ofNat (0xC0 + n / 64).toUInt8.toNat) _
      (by rw [hlead]; omega) (inside_octet hlast)
    rw [hlead, payload_octet hlast, Nat.and_two_pow_sub_one_eq_mod _ 5, shift_or (by omega)]
      at hpiece
    rwa [show (0xC0 + n / 64) % 2 ^ 5 * 2 ^ 6 + n % 64 = n by omega] at hpiece
  by_cases hthree : n < 0x10000
  · rw [if_neg (by omega), if_neg htwo, if_pos hthree]
    have hlead := toNat_octet (n := 0xE0 + n / 4096) (by omega)
    have hpiece := @Piece.three (Char.ofNat (0xE0 + n / 4096).toUInt8.toNat) _ _
      (by rw [hlead]; omega) (inside_octet hthird) (inside_octet hlast)
    rw [hlead, payload_octet hthird, payload_octet hlast, Nat.and_two_pow_sub_one_eq_mod _ 4,
      shift_or_three hthird hlast] at hpiece
    rwa [show (0xE0 + n / 4096) % 2 ^ 4 * 4096 + n / 64 % 64 * 64 + n % 64 = n by omega] at hpiece
  · rw [if_neg (by omega), if_neg htwo, if_neg hthree]
    have hlead := toNat_octet (n := 0xF0 + n / 262144) (by omega)
    have hpiece := @Piece.four (Char.ofNat (0xF0 + n / 262144).toUInt8.toNat) _ _ _
      (by rw [hlead]; omega) (inside_octet hsecond) (inside_octet hthird) (inside_octet hlast)
    rw [hlead, payload_octet hsecond, payload_octet hthird, payload_octet hlast,
      Nat.and_two_pow_sub_one_eq_mod _ 3, shift_or_four hsecond hthird hlast] at hpiece
    rwa [show (0xF0 + n / 262144) % 2 ^ 3 * 262144 + n / 4096 % 64 * 4096 + n / 64 % 64 * 64 +
      n % 64 = n by omega] at hpiece

/-- The escapes with four digits. -/
theorem hex4_escape : ∀ n < 128,
    hex4 '0' '0' (Nat.digitChar (n / 16)) (Nat.digitChar (n % 16)) = some n := by
  decide

theorem digitChar_ascii : ∀ n < 16, Nat.digitChar n ≠ '\n' ∧ (Nat.digitChar n).toNat < 0x80 := by
  decide

/-- An escape with a letter. -/
theorem piece_escape {e : Char} (h : escaped e = some c) (he : e ≠ '\n' ∧ e.toNat < 0x80) :
    ∃ m, Piece (asRead lineEnd ['\\', e]) m ∧ (m = .inl c ∨ m = .inr c.toNat) := by
  refine ⟨_, ?_, .inl rfl⟩
  rw [asRead_ascii _ (fun d hd => ?_)]
  · exact .escape h
  · rcases List.mem_cons.mp hd with rfl | hd
    · decide
    · rw [List.mem_singleton.mp hd]
      exact he

/-- **What is written for a character** is a piece that stands for it. -/
theorem piece_of_char (lineEnd : LineEnd) (c : Char) :
    ∃ m, Piece (asRead lineEnd (escapeChar c)) m ∧ (m = .inl c ∨ m = .inr c.toNat) := by
  rw [escapeChar]
  split_ifs with hquote hescape hb ht hn hf hr hcontrol
  · exact piece_escape (by rw [hquote]; rfl) (by decide)
  · exact piece_escape (by rw [hescape]; rfl) (by decide)
  · exact piece_escape (by rw [hb]; rfl) (by decide)
  · exact piece_escape (by rw [ht]; rfl) (by decide)
  · exact piece_escape (by rw [hn]; rfl) (by decide)
  · exact piece_escape (by rw [hf]; rfl) (by decide)
  · exact piece_escape (by rw [hr]; rfl) (by decide)
  · refine ⟨_, ?_, .inr rfl⟩
    rw [asRead_ascii _ (fun d hd => ?_)]
    · exact .unicode (hex4_escape _ (by omega))
    · simp only [List.mem_cons, List.not_mem_nil, or_false] at hd
      rcases hd with rfl | rfl | rfl | rfl | rfl | rfl
      · decide
      · decide
      · decide
      · decide
      · exact digitChar_ascii _ (by omega)
      · exact digitChar_ascii _ (by omega)
  · by_cases hascii : c.toNat < 0x80
    · refine ⟨.inl c, ?_, .inl rfl⟩
      rw [asRead_ascii _ (fun d hd => by rw [List.mem_singleton.mp hd]; exact ⟨hn, hascii⟩)]
      exact .ascii (not_lt_space (by omega)) hquote hescape hascii
    · refine ⟨.inr c.toNat, ?_, .inr rfl⟩
      rw [asRead, List.flatMap_singleton, written, if_neg hn]
      exact piece_utf8 (by omega)

/-- **A string that is written is a string of the grammar.** -/
theorem stringText_escape (lineEnd : LineEnd) (s : List Char) :
    StringText (asRead lineEnd (escape s)) s := by
  induction s with
  | nil => exact ⟨[], .nil, .nil⟩
  | cons c s ih =>
    obtain ⟨m, hp, hm⟩ := piece_of_char lineEnd c
    rw [escape, List.flatMap_cons, asRead_append]
    exact ih.cons hp hm

theorem asRead_quoted (lineEnd : LineEnd) (s : List Char) :
    asRead lineEnd (quoted s) = '"' :: asRead lineEnd (escape s) ++ ['"'] := by
  rw [quoted, asRead_append, asRead_cons]
  rfl

/-! ## Numbers -/

theorem digit_ascii (h : c.isDigit = true) : c ≠ '\n' ∧ c.toNat < 0x80 := by
  rw [Char.isDigit, Bool.and_eq_true, decide_eq_true_eq, decide_eq_true_eq] at h
  have hle : c.toNat ≤ 57 := h.2
  refine ⟨?_, by omega⟩
  rintro rfl
  exact absurd h.1 (by decide)

/-- Numbers are ASCII. -/
theorem numberText_ascii {n : List Char} (h : NumberText n) :
    ∀ c ∈ n, c ≠ '\n' ∧ c.toNat < 0x80 := by
  obtain ⟨hsign, hwhole, hfraction, hexponent⟩ := h
  intro c hc
  simp only [List.mem_append] at hc
  rcases hc with ((hc | hc) | hc) | hc
  · rcases hsign with rfl | rfl
    · cases hc
    · rw [List.mem_singleton.mp hc]
      decide
  · cases hwhole with
    | zero =>
      rw [List.mem_singleton.mp hc]
      decide
    | digits hdigit hzero hcs =>
      rcases List.mem_cons.mp hc with rfl | hc
      · exact digit_ascii hdigit
      · exact digit_ascii (hcs c hc)
  · cases hfraction with
    | none => cases hc
    | point hds =>
      rcases List.mem_cons.mp hc with rfl | hc
      · decide
      · exact digit_ascii (hds.2 c hc)
  · cases hexponent with
    | none => cases hc
    | some he hsign hds =>
      simp only [List.cons_append, List.mem_cons, List.mem_append] at hc
      rcases hc with rfl | hc | hc
      · rcases he with rfl | rfl <;> decide
      · rcases hsign with rfl | rfl | rfl
        · cases hc
        · rw [List.mem_singleton.mp hc]
          decide
        · rw [List.mem_singleton.mp hc]
          decide
      · exact digit_ascii (hds.2 c hc)

/-! ## Values -/

variable {indent level : ℕ}

theorem ws_newline (lineEnd : LineEnd) (indent : ℕ) :
    Ws (asRead lineEnd (newline indent)) := by
  refine ws_asRead fun c hc => ?_
  rw [newline] at hc
  split_ifs at hc
  · cases hc
  · exact .inr (List.mem_singleton.mp hc)

theorem ws_space (lineEnd : LineEnd) (indent : ℕ) :
    Ws (asRead lineEnd (space indent)) := by
  refine ws_asRead fun c hc => ?_
  rw [space] at hc
  split_ifs at hc
  · cases hc
  · exact .inl (List.mem_singleton.mp hc)

theorem ws_margin (lineEnd : LineEnd) (indent level : ℕ) :
    Ws (asRead lineEnd (margin indent level)) :=
  ws_asRead fun _ hc => .inl (List.eq_of_mem_replicate hc)

/-- The end of a line and what stands before an item on the next. -/
theorem ws_lineStart (lineEnd : LineEnd) (indent level : ℕ) :
    Ws (asRead lineEnd (newline indent ++ margin indent level)) := by
  rw [asRead_append]
  exact (ws_newline lineEnd indent).append (ws_margin lineEnd indent level)

/-- Whitespace behind elements, and behind members. -/
theorem derives_elements_behind {vs : List Json} {ws : List Char}
    (h : Derives d (.elements vs) text) (hws : Ws ws) : Derives d (.elements vs) (text ++ ws) :=
  @Items.behind _ _ ⟨false, vs, [], []⟩ _ h hws

theorem derives_members_behind {ps : List (List Char × Json)} {ws : List Char}
    (h : Derives d (.members ps) text) (hws : Ws ws) : Derives d (.members ps) (text ++ ws) :=
  @Items.behind _ _ ⟨true, [], ps, []⟩ _ h hws

/-- The line of an element, and of a member, behind the end of the line before it. -/
def elementLine (indent level : ℕ) (v : Json) : List Char :=
  newline indent ++ margin indent level ++ write indent (level + 1) v

def memberLine (indent level : ℕ) (p : List Char × Json) : List Char :=
  newline indent ++ margin indent level ++ quoted p.1 ++ ':' :: space indent ++
    write indent (level + 1) p.2

/-- The items are their lines with commas between them. -/
theorem newline_writeValues (init : List Json) (v : Json) :
    newline indent ++ writeValues indent level (init ++ [v]) =
      (init.flatMap fun w => elementLine indent level w ++ [',']) ++ elementLine indent level v ++
        newline indent := by
  induction init with
  | nil =>
    simp only [List.nil_append, writeValues, comma, List.isEmpty_nil, if_true, List.flatMap_nil,
      elementLine, List.append_assoc, List.append_nil]
  | cons w init ih =>
    have hcomma : comma (init ++ [v]) = [','] := by
      cases init <;> rfl
    rw [List.cons_append, writeValues, hcomma, List.flatMap_cons, List.append_assoc _ _
      (writeValues indent level (init ++ [v])), ih]
    simp only [elementLine, List.append_assoc]

theorem newline_writePairs (init : List (List Char × Json)) (p : List Char × Json) :
    newline indent ++ writePairs indent level (init ++ [p]) =
      (init.flatMap fun q => memberLine indent level q ++ [',']) ++ memberLine indent level p ++
        newline indent := by
  induction init with
  | nil =>
    simp only [List.nil_append, writePairs, comma, List.isEmpty_nil, if_true, List.flatMap_nil,
      memberLine, List.append_assoc, List.append_nil, List.cons_append]
  | cons q init ih =>
    have hcomma : comma (init ++ [p]) = [','] := by
      cases init <;> rfl
    rw [List.cons_append, writePairs, hcomma, List.flatMap_cons, List.append_assoc _ _
      (writePairs indent level (init ++ [p])), ih]
    simp only [memberLine, List.append_assoc, List.cons_append, List.nil_append]

/-- What stands between two ASCII characters. -/
theorem asRead_between {c c' : Char} (hc : c ≠ '\n' ∧ c.toNat < 0x80)
    (hc' : c' ≠ '\n' ∧ c'.toNat < 0x80) (body : List Char) :
    asRead lineEnd (c :: (body ++ [c'])) = c :: asRead lineEnd body ++ [c'] := by
  rw [asRead_cons, asRead_append, latin1_written_ascii hc.1 hc.2,
    asRead_ascii [c'] fun d hd => by rw [List.mem_singleton.mp hd]; exact hc']
  rfl

/-- An array and an object are what stands between their brackets. -/
theorem asRead_array (level : ℕ) (vs : List Json) :
    asRead lineEnd (write indent level (.array vs)) =
      '[' :: (asRead lineEnd (newline indent ++ writeValues indent level vs) ++
        asRead lineEnd (margin indent (level - 1))) ++ [']'] := by
  rw [write, ← asRead_append, ← asRead_between (by decide) (by decide)]
  rfl

theorem asRead_object (level : ℕ) (ps : List (List Char × Json)) :
    asRead lineEnd (write indent level (.object ps)) =
      '{' :: (asRead lineEnd (newline indent ++ writePairs indent level ps) ++
        asRead lineEnd (margin indent (level - 1))) ++ ['}'] := by
  rw [write, ← asRead_append, ← asRead_between (by decide) (by decide)]
  rfl

/-- A value whose text has been written. -/
def Writes (lineEnd : LineEnd) (indent d : ℕ) (v : Json) : Prop :=
  ∀ level, Derives d (.value v) (asRead lineEnd (write indent level v))

/-- The elements of an array are written. -/
theorem derives_elementLines (level : ℕ) (init : List Json) (v : Json)
    (h : ∀ w ∈ init ++ [v], Writes lineEnd indent d w) :
    Derives d (.elements (init ++ [v])) (asRead lineEnd
      ((init.flatMap fun w => elementLine indent level w ++ [',']) ++
        elementLine indent level v)) := by
  have hstart := ws_lineStart lineEnd indent level
  have helement : asRead lineEnd (elementLine indent level v) =
      asRead lineEnd (newline indent ++ margin indent level) ++
        asRead lineEnd (write indent (level + 1) v) ++ [] := by
    rw [elementLine, asRead_append, List.append_nil]
  rw [asRead_append, helement]
  induction init using List.reverseRecOn generalizing v with
  | nil => exact .element hstart (h v List.mem_cons_self (level + 1)) ws_nil
  | append_singleton init w ih =>
    have hinit := ih w (fun x hx => h x (List.mem_append_left _ hx)) (by
      rw [elementLine, asRead_append, List.append_nil])
    have hv := h v (List.mem_append_right _ List.mem_cons_self) (level + 1)
    have hline := Derives.moreElements hinit hstart hv ws_nil
    rw [List.flatMap_append, List.flatMap_singleton, elementLine]
    simp only [asRead_append, List.append_assoc, List.append_nil] at hline ⊢
    exact hline

/-- The members of an object are written. -/
theorem derives_memberLines (level : ℕ) (init : List (List Char × Json)) (p : List Char × Json)
    (h : ∀ q ∈ init ++ [p], Writes lineEnd indent d q.2) :
    Derives d (.members (init ++ [p])) (asRead lineEnd
      ((init.flatMap fun q => memberLine indent level q ++ [',']) ++
        memberLine indent level p)) := by
  have hstart := ws_lineStart lineEnd indent level
  have hmember : ∀ p : List Char × Json, asRead lineEnd (memberLine indent level p) =
      asRead lineEnd (newline indent ++ margin indent level) ++ '"' :: (asRead lineEnd (escape p.1)
        ++ '"' :: ([] ++ ':' :: (asRead lineEnd (space indent) ++
          asRead lineEnd (write indent (level + 1) p.2) ++ []))) := by
    intro p
    rw [memberLine]
    simp only [asRead_append, asRead_cons, asRead_quoted, List.append_assoc, List.append_nil]
    rfl
  rw [asRead_append]
  induction init using List.reverseRecOn generalizing p with
  | nil =>
    rw [hmember]
    exact Derives.member hstart (stringText_escape lineEnd p.1) ws_nil (ws_space lineEnd indent)
      (h p List.mem_cons_self (level + 1)) ws_nil
  | append_singleton init q ih =>
    have hinit := ih q fun x hx => h x (List.mem_append_left _ hx)
    have hv := h p (List.mem_append_right _ List.mem_cons_self) (level + 1)
    have hline := Derives.moreMembers hinit hstart (stringText_escape lineEnd p.1) ws_nil
      (ws_space lineEnd indent) hv ws_nil
    rw [← hmember] at hline
    rw [List.flatMap_append, List.flatMap_singleton]
    simp only [asRead_append, List.append_assoc] at hline ⊢
    exact hline

/-- An array of values that are written, and an object of them. -/
theorem writes_array {vs : List Json} (hne : vs ≠ [])
    (h : ∀ v ∈ vs, Writes lineEnd indent d v) : Writes lineEnd indent (d + 1) (.array vs) := by
  intro level
  obtain ⟨init, v, rfl⟩ := List.eq_nil_or_concat' vs |>.resolve_left hne
  have hitems := derives_elements_behind (derives_elements_behind
    (derives_elementLines level init v h) (ws_newline lineEnd indent))
    (ws_margin lineEnd indent (level - 1))
  rw [asRead_array, newline_writeValues, asRead_append _ (newline indent)]
  exact .array hitems

theorem writes_object {ps : List (List Char × Json)} (hne : ps ≠ [])
    (h : ∀ p ∈ ps, Writes lineEnd indent d p.2) : Writes lineEnd indent (d + 1) (.object ps) := by
  intro level
  obtain ⟨init, p, rfl⟩ := List.eq_nil_or_concat' ps |>.resolve_left hne
  have hitems := derives_members_behind (derives_members_behind
    (derives_memberLines level init p h) (ws_newline lineEnd indent))
    (ws_margin lineEnd indent (level - 1))
  rw [asRead_object, newline_writePairs, asRead_append _ (newline indent)]
  exact .object hitems

/-- What is written of a part of the grammar. -/
def WritesPart (lineEnd : LineEnd) (indent d : ℕ) : Part → Prop
  | .value v => Writes lineEnd indent d v
  | .elements vs => vs ≠ [] ∧ ∀ v ∈ vs, Writes lineEnd indent d v
  | .members ps => ps ≠ [] ∧ ∀ p ∈ ps, Writes lineEnd indent d p.2

/-- **What is written is a text of the grammar**, with the value and under the same bound. -/
theorem writes_of_derives (lineEnd : LineEnd) (indent : ℕ) {p : Part} (h : Derives d p text) :
    WritesPart lineEnd indent d p := by
  induction h with
  | null => exact fun _ => .null
  | true => exact fun _ => .true
  | false => exact fun _ => .false
  | number hn =>
    intro level
    rw [write, asRead_ascii _ (numberText_ascii hn)]
    exact .number hn
  | @string d body s hs =>
    intro level
    rw [write, asRead_quoted]
    exact .string (stringText_escape lineEnd s)
  | emptyArray hws =>
    intro level
    have hws := (ws_newline lineEnd indent).append (ws_margin lineEnd indent (level - 1))
    rw [asRead_array, writeValues, List.append_nil]
    exact .emptyArray hws
  | array hs ih => exact writes_array ih.1 ih.2
  | emptyObject hws =>
    intro level
    have hws := (ws_newline lineEnd indent).append (ws_margin lineEnd indent (level - 1))
    rw [asRead_object, writePairs, List.append_nil]
    exact .emptyObject hws
  | object hs ih => exact writes_object ih.1 ih.2
  | element hbefore hv hbehind ih =>
    refine ⟨List.cons_ne_nil _ _, fun w hw => ?_⟩
    rw [List.mem_singleton.mp hw]
    exact ih
  | moreElements hs hbefore hv hbehind ihs ih =>
    refine ⟨List.append_ne_nil_of_right_ne_nil _ (List.cons_ne_nil _ _), fun w hw => ?_⟩
    rcases List.mem_append.mp hw with hw | hw
    · exact ihs.2 w hw
    · rw [List.mem_singleton.mp hw]
      exact ih
  | member hbefore hname hcolon hgap hv hbehind ih =>
    refine ⟨List.cons_ne_nil _ _, fun w hw => ?_⟩
    rw [List.mem_singleton.mp hw]
    exact ih
  | moreMembers hs hbefore hname hcolon hgap hv hbehind ihs ih =>
    refine ⟨List.append_ne_nil_of_right_ne_nil _ (List.cons_ne_nil _ _), fun w hw => ?_⟩
    rcases List.mem_append.mp hw with hw | hw
    · exact ihs.2 w hw
    · rw [List.mem_singleton.mp hw]
      exact ih

end BtclibNode.Settings
