/-
# Options that differ in a secret

Two lists of arguments that differ in the values of sensitive options alone: they are refused
alike, or give tables that differ in those values alone.
-/
import BtclibNode.Cli.Quoted
import Mathlib.Data.List.DropRight

namespace BtclibNode.Cli

open RelationalExcept

variable {name key : Str} {option : Opt} {v v' : Str}

/-! ## What is the same but for a secret -/

/-- A key whose value is a secret: its name is that of a sensitive option, or of no option, which
may be one misspelled. -/
def Secret (key : Str) : Prop :=
  ∀ option, option? (interpretKey key).name = some option → option.sensitive = true

/-- Two values of a key, which are read as one boolean where the name is negated. -/
def ReadAlike (key v v' : Str) : Prop :=
  (interpretKey key).negated = true → ∃ b, interpretBool v = .ok b ∧ interpretBool v' = .ok b

/-- Two arguments that are the same but for the value of a secret. -/
inductive SameArg : Str → Str → Prop where
  | same (arg : Str) : SameArg arg arg
  | value {key v v' : Str} (hdash : key.take 1 = str "-") (hkey : ord '=' ∉ key)
      (hsecret : Secret (keyOf key)) (hread : ReadAlike (keyOf key) v v') :
      SameArg (key ++ ord '=' :: v) (key ++ ord '=' :: v')

/-- Two values of an option that are the same, or two strings where it is sensitive. -/
def SameValue (name : Str) (v v' : Value) : Prop :=
  v = v' ∨ (sensitive name = true ∧ ∃ s s', v = .text s ∧ v' = .text s')

/-- The same options with as many values each, the same but for secrets. -/
def SameEntry (e e' : Str × List Value) : Prop :=
  e.1 = e'.1 ∧ List.Forall₂ (SameValue e.1) e.2 e'.2

def SameTable : Table → Table → Prop := List.Forall₂ SameEntry

theorem sameValue_refl (name : Str) (v : Value) : SameValue name v v := .inl rfl

theorem sameEntry_refl (e : Str × List Value) : SameEntry e e :=
  ⟨rfl, List.forall₂_same.mpr fun v _ => sameValue_refl e.1 v⟩

theorem sameTable_refl (t : Table) : SameTable t t :=
  List.forall₂_same.mpr fun e _ => sameEntry_refl e

/-- The sensitive options are those of the table. -/
theorem sensitive_of_option (h : option? name = some option) :
    option.sensitive = sensitive name := by
  rw [option?] at h
  split_ifs at h with hsensitive hnetwork hdatadir hplain
  · obtain rfl := Option.some.inj h
    exact (decide_eq_true hsensitive).symm
  all_goals
    obtain rfl := Option.some.inj h
    exact (decide_eq_false hsensitive).symm

theorem secret_of_sensitive (h : sensitive (interpretKey key).name = true) : Secret key :=
  fun _ hoption => (sensitive_of_option hoption).trans h

/-! ## Tables -/

theorem SameTable.appendValue {t t' : Table} {x x' : Value} (h : SameTable t t')
    (hx : SameValue name x x') : SameTable (appendValue name x t) (appendValue name x' t') := by
  induction h with
  | nil => exact .cons ⟨rfl, .cons hx .nil⟩ .nil
  | @cons e e' t t' he ht ih =>
    obtain ⟨key, values⟩ := e
    obtain ⟨key', values'⟩ := e'
    obtain ⟨hkey, hvalues⟩ := he
    obtain rfl : key = key' := hkey
    rw [Cli.appendValue, Cli.appendValue]
    split_ifs with hname
    · subst hname
      exact .cons ⟨rfl, List.rel_append hvalues (.cons hx .nil)⟩ ht
    · exact .cons ⟨rfl, hvalues⟩ ih

/-- The values of an option that is not sensitive are the same. -/
theorem SameTable.valuesOf {t t' : Table} (h : SameTable t t') (hname : sensitive name = false) :
    valuesOf name t = valuesOf name t' := by
  have hsame : ∀ {l l' : List Value}, List.Forall₂ (SameValue name) l l' → l = l' := by
    intro l l' hl
    induction hl with
    | nil => rfl
    | cons hv _ ih =>
      rcases hv with rfl | ⟨htrue, -⟩
      · rw [ih]
      · rw [hname] at htrue
        cases htrue
  induction h with
  | nil => rfl
  | @cons e e' t t' he ht ih =>
    obtain ⟨key, values⟩ := e
    obtain ⟨key', values'⟩ := e'
    obtain ⟨hkey, hvalues⟩ := he
    obtain rfl : key = key' := hkey
    rw [Cli.valuesOf, Cli.valuesOf, List.find?_cons, List.find?_cons]
    by_cases heq : key = name
    · subst heq
      rw [decide_eq_true rfl]
      exact hsame hvalues
    · rw [decide_eq_false heq]
      exact ih

/-! ## Values -/

/-- **A secret is read alike.** -/
theorem agree_interpretValue (hoption : option? (interpretKey key).name = some option)
    (hsecret : Secret key) (hread : ReadAlike key v v') :
    Agree (SameValue (interpretKey key).name)
      (interpretValue (interpretKey key) (some v) option)
      (interpretValue (interpretKey key) (some v') option) := by
  have hsensitive := hsecret option hoption
  rw [interpretValue, interpretValue]
  refine Agree.ite (fun hnegated => ?_) fun hnegated =>
    Agree.ite (fun _ => agree_throw _) fun _ => ?_
  · refine agree_pure (.inr ⟨?_, _, _, rfl, rfl⟩)
    rw [← sensitive_of_option hoption, hsensitive]
  · obtain ⟨b, hb, hb'⟩ := hread (by rwa [Bool.not_eq_false] at hnegated)
    rw [hb, hb', shownDouble, shownDouble, hsensitive]
    exact agree_refl (sameValue_refl _) _

theorem agree_asParseError {α β : Type} {R : α → β → Prop} {x : M α} {y : M β}
    (h : Agree R x y) : Agree R (asParseError x) (asParseError y) := by
  intro log
  rcases h log with ⟨a, b, t, hx, hy, hab⟩ | ⟨e, t, hx, hy⟩
  · refine .inl ⟨a, b, t, ?_, ?_, hab⟩
    · rw [asParseError, hx]
    · rw [asParseError, hy]
  · refine .inr ⟨parseError ++ e, t, ?_, ?_⟩
    · rw [asParseError, hx]
    · rw [asParseError, hy]

/-! ## The command line -/

theorem keyOf_value (hkey : ord '=' ∉ key) (v : Str) : keyOf (key ++ ord '=' :: v) = keyOf key := by
  rw [keyOf, keyOf, before_eq hkey, before_of_not_mem hkey]

theorem valueOf_value (hkey : ord '=' ∉ key) (v : Str) :
    valueOf (key ++ ord '=' :: v) = some v := by
  rw [valueOf, if_pos (List.mem_append_right _ List.mem_cons_self), behind_eq hkey]

/-- A refusal quotes nothing of the value. -/
theorem invalidParameter_value (hkey : ord '=' ∉ key) (v v' : Str) :
    invalidParameter (key ++ ord '=' :: v) = invalidParameter (key ++ ord '=' :: v') := by
  rw [invalidParameter, invalidParameter, (Alike.equals hkey).quotedLine]

/-- **The loop over the arguments.** -/
theorem agree_parseLoop {argv argv' : List Str} (h : List.Forall₂ SameArg argv argv')
    {t t' : Table} (ht : SameTable t t') :
    Agree SameTable (parseLoop argv t) (parseLoop argv' t') := by
  induction h generalizing t t' with
  | nil => exact agree_pure ht
  | @cons arg arg' argv argv' harg hargv ih =>
    rw [parseLoop, parseLoop]
    cases harg with
    | same =>
      refine Agree.ite (fun _ => agree_pure ht) fun _ =>
        Agree.ite (fun _ => agree_pure ht) fun _ => ?_
      dsimp only
      cases option? (interpretKey (keyOf arg)).name with
      | none => exact agree_throw _
      | some option =>
        refine Agree.ite (fun _ => agree_throw _) fun _ => agree_bind_same _ fun x => ?_
        exact ih (ht.appendValue (sameValue_refl _ x))
    | @value key v v' _ hkey hsecret hread =>
      have hdash : ∀ v, key ++ ord '=' :: v ≠ str "-" := by
        intro v heq
        have hmem : ord '=' ∈ str "-" := heq ▸ List.mem_append_right _ List.mem_cons_self
        revert hmem
        decide
      rw [if_neg (hdash v), if_neg (hdash v'), before_eq hkey, before_eq hkey, keyOf_value hkey,
        keyOf_value hkey, valueOf_value hkey, valueOf_value hkey,
        invalidParameter_value hkey v v']
      refine Agree.ite (fun _ => agree_pure ht) fun _ => ?_
      dsimp only
      cases hoption : option? (interpretKey (keyOf key)).name with
      | none => exact agree_throw _
      | some option =>
        refine Agree.ite (fun _ => agree_throw _) fun _ => ?_
        refine (agree_asParseError (agree_interpretValue hoption hsecret hread)).bind
          fun x x' hx => ?_
        exact ih (ht.appendValue hx)

/-- The first argument without a dash holds no secret. -/
theorem find_dash_eq {argv argv' : List Str} (h : List.Forall₂ SameArg argv argv') :
    argv.find? (fun arg => arg.take 1 ≠ str "-") = argv'.find? fun arg => arg.take 1 ≠ str "-" := by
  induction h with
  | nil => rfl
  | @cons arg arg' argv argv' harg _ ih =>
    rw [List.find?_cons, List.find?_cons, ih]
    cases harg with
    | same => rfl
    | @value key v v' hdash _ _ _ =>
      have htake : ∀ v, (key ++ ord '=' :: v).take 1 = str "-" := by
        intro v
        cases key with
        | nil => cases hdash
        | cons c key => exact hdash
      have hdashes : decide (str "-" ≠ str "-") = false := by simp
      rw [htake v, htake v', hdashes]

/-- **The arguments.** -/
theorem agree_parseParameters {argv argv' : List Str} (h : List.Forall₂ SameArg argv argv') :
    Agree (fun a b => SameTable a.1 b.1 ∧ a.2 = b.2) (parseParameters argv)
      (parseParameters argv') := by
  rw [parseParameters, parseParameters]
  refine (agree_parseLoop h (sameTable_refl [])).bind fun t t' ht => ?_
  dsimp only
  rw [SameTable.valuesOf ht (by decide : sensitive (str "includeconf") = false)]
  cases (valuesOf (str "includeconf") t').drop
      (negatedCount (valuesOf (str "includeconf") t')) with
  | nil => exact agree_pure ⟨ht, find_dash_eq h⟩
  | cons first rest => exact agree_throw _

end BtclibNode.Cli

/-!
# Configuration files that differ in a secret

Two sets of configuration files that differ in the values of secrets alone: they are refused
alike, or give trees that differ in those values alone, under the same warnings.
-/

namespace BtclibNode.Cli

open RelationalExcept

variable {name key sectionPrefix filepath path : Str} {k v v' tail : Str}

/-! ## What is the same but for a secret -/

/-- The section prefix behind a line. -/
def nextPrefix (sectionPrefix raw : Str) : Str :=
  if isHeading (lineOf raw) then heading (lineOf raw) ++ str "." else sectionPrefix

/-- The lines of two files under a section prefix: each the same, or two that give a secret two
values, with the same comment if any. -/
inductive SameLines : Str → List Str → List Str → Prop where
  | nil {sectionPrefix : Str} : SameLines sectionPrefix [] []
  | same {sectionPrefix : Str} (raw : Str) {lines lines' : List Str}
      (h : SameLines (nextPrefix sectionPrefix raw) lines lines') :
      SameLines sectionPrefix (raw :: lines) (raw :: lines')
  | value {sectionPrefix k v v' tail : Str} {lines lines' : List Str}
      (hk : ord '=' ∉ k ∧ ord '#' ∉ k) (hv : ord '#' ∉ v ∧ ord '#' ∉ v')
      (htail : tail = [] ∨ tail.head? = some (ord '#'))
      (hheading : isHeading (lineOf (k ++ ord '=' :: (v ++ tail))) = false ∧
        isHeading (lineOf (k ++ ord '=' :: (v' ++ tail))) = false)
      (hsecret : Secret (sectionPrefix ++ strip blanks k))
      (hread : ReadAlike (sectionPrefix ++ strip blanks k) (strip blanks v) (strip blanks v'))
      (h : SameLines sectionPrefix lines lines') :
      SameLines sectionPrefix ((k ++ ord '=' :: (v ++ tail)) :: lines)
        ((k ++ ord '=' :: (v' ++ tail)) :: lines')

/-- What two paths hold. -/
inductive SameFile : Entry → Entry → Prop where
  | same (entry : Entry) : SameFile entry entry
  | text {text text' : Str}
      (h : SameLines [] (text.splitOn (ord '\n')) (text'.splitOn (ord '\n'))) :
      SameFile (.text text) (.text text')

/-- A name and a value read from a line. -/
def SameOption (o o' : Str × Str × ℕ) : Prop :=
  o.1 = o'.1 ∧ o.2.2 = o'.2.2 ∧
    (o.2.1 = o'.2.1 ∨ (Secret o.1 ∧ ReadAlike o.1 o.2.1 o'.2.1))

/-- The same sections with the same options, but for secrets. -/
def SameSection (e e' : Str × Table) : Prop := e.1 = e'.1 ∧ SameTable e.2 e'.2

def SameTree : Tree → Tree → Prop := List.Forall₂ SameSection

/-! ## The parts of a line -/

theorem strip_blanks_eq (s : Str) :
    strip blanks s = rstrip blanks (s.dropWhile (· ∈ blanks)) := rfl

theorem dropWhile_value (k s : Str) :
    (k ++ ord '=' :: s).dropWhile (· ∈ blanks) = k.dropWhile (· ∈ blanks) ++ ord '=' :: s := by
  induction k with
  | nil => exact List.dropWhile_cons_of_neg (by decide)
  | cons c k ih =>
    rw [List.cons_append, List.dropWhile_cons, List.dropWhile_cons]
    split_ifs with hc
    · exact ih
    · rfl

theorem rstrip_value (k s : Str) :
    rstrip blanks (k ++ ord '=' :: s) = k ++ ord '=' :: rstrip blanks s := by
  rw [rstrip, rstrip]
  have hreverse : (k ++ ord '=' :: s).reverse = s.reverse ++ ord '=' :: k.reverse := by simp
  rw [hreverse, dropWhile_value]
  simp

/-- A line that gives a value, without its comment. -/
theorem lineOf_value (hk : ord '#' ∉ k) (hv : ord '#' ∉ v)
    (htail : tail = [] ∨ tail.head? = some (ord '#')) :
    lineOf (k ++ ord '=' :: (v ++ tail)) =
      k.dropWhile (· ∈ blanks) ++ ord '=' :: rstrip blanks v := by
  have hfree : ord '#' ∉ k ++ ord '=' :: v := by
    intro hmem
    rcases List.mem_append.mp hmem with hmem | hmem
    · exact hk hmem
    · rcases List.mem_cons.mp hmem with hmem | hmem
      · exact absurd hmem (by decide)
      · exact hv hmem
  have hbefore : before (ord '#') (k ++ ord '=' :: (v ++ tail)) = k ++ ord '=' :: v := by
    rcases htail with rfl | hhead
    · rw [List.append_nil]
      exact before_of_not_mem hfree
    · obtain ⟨rest, rfl⟩ : ∃ rest, tail = ord '#' :: rest := by
        cases tail with
        | nil => cases hhead
        | cons c rest =>
          obtain rfl := Option.some.inj hhead
          exact ⟨rest, rfl⟩
      rw [← List.cons_append, ← List.append_assoc]
      exact before_eq hfree rest
  rw [lineOf, hbefore, strip_blanks_eq, dropWhile_value, rstrip_value]

theorem not_mem_dropWhile {c : ℕ} (hk : c ∉ k) : c ∉ k.dropWhile (· ∈ blanks) :=
  fun hmem => hk ((List.dropWhile_suffix _).subset hmem)

theorem dropWhile_rstrip_of_all (hv : v.dropWhile (· ∈ blanks) = []) :
    rstrip blanks v = [] := by
  rw [rstrip, List.reverse_eq_nil_iff, List.dropWhile_eq_nil_iff]
  rw [List.dropWhile_eq_nil_iff] at hv
  intro c hc
  exact hv c (List.mem_reverse.mp hc)

theorem rstrip_append {blank : Str} (hblank : ∀ c ∈ blank, decide (c ∈ blanks) = true) (s : Str) :
    rstrip blanks (s ++ blank) = rstrip blanks s := by
  rw [rstrip, rstrip, List.reverse_append, List.dropWhile_append_of_pos]
  intro c hc
  exact hblank c (List.mem_reverse.mp hc)

/-- Stripping the end first comes to the same. -/
theorem strip_rstrip (v : Str) : strip blanks (rstrip blanks v) = strip blanks v := by
  obtain ⟨blank, hblank, hv⟩ : ∃ blank, (∀ c ∈ blank, decide (c ∈ blanks) = true) ∧
      v = rstrip blanks v ++ blank := by
    refine ⟨(v.reverse.takeWhile (· ∈ blanks)).reverse, ?_, ?_⟩
    · intro c hc
      have hc := List.mem_reverse.mp hc
      exact @List.mem_takeWhile_imp _ (fun c => decide (c ∈ blanks)) _ _ hc
    · rw [rstrip, ← List.reverse_append, List.takeWhile_append_dropWhile, List.reverse_reverse]
  conv_rhs => rw [hv]
  rw [strip_blanks_eq, strip_blanks_eq, List.dropWhile_append]
  split_ifs with hempty
  · rw [List.isEmpty_iff.mp hempty, List.dropWhile_eq_nil_iff.mpr hblank]
  · rw [rstrip_append hblank]

/-- The value of a line. -/
theorem valueOf_line (hk : ord '=' ∉ k) (v : Str) :
    strip blanks (behind (ord '=') (k.dropWhile (· ∈ blanks) ++ ord '=' :: rstrip blanks v)) =
      strip blanks v := by
  rw [behind_eq (not_mem_dropWhile hk), strip_rstrip]

theorem nameOf_line (hk : ord '=' ∉ k) (v : Str) :
    strip blanks (before (ord '=') (k.dropWhile (· ∈ blanks) ++ ord '=' :: rstrip blanks v)) =
      strip blanks k := by
  rw [before_eq (not_mem_dropWhile hk), strip_blanks_eq, strip_blanks_eq,
    List.dropWhile_idempotent]

theorem equals_mem_line (k v : Str) :
    ord '=' ∈ k.dropWhile (· ∈ blanks) ++ ord '=' :: rstrip blanks v :=
  List.mem_append_right _ List.mem_cons_self

/-! ## A line -/

/-- **The refusal of a line** that gives a value quotes nothing of it. -/
theorem refuseLine_value (hk : ord '=' ∉ k) (v v' : Str) (lineno : ℕ) :
    refuseLine lineno (k.dropWhile (· ∈ blanks) ++ ord '=' :: rstrip blanks v) =
      refuseLine lineno (k.dropWhile (· ∈ blanks) ++ ord '=' :: rstrip blanks v') := by
  have hquoted := (Alike.equals (not_mem_dropWhile hk) :
    Alike (_ ++ ord '=' :: rstrip blanks v) (_ ++ ord '=' :: rstrip blanks v')).quotedLine
  have htake : ∀ s, (k.dropWhile (· ∈ blanks) ++ ord '=' :: s).take 1 =
      (k.dropWhile (· ∈ blanks) ++ [ord '=']).take 1 := by
    intro s
    cases k.dropWhile (· ∈ blanks) with
    | nil => rfl
    | cons c k => rfl
  rw [refuseLine, refuseLine, hquoted, htake (rstrip blanks v), htake (rstrip blanks v'),
    if_neg (not_not_intro (equals_mem_line k v)), if_neg (not_not_intro (equals_mem_line k v'))]

theorem mem_value_iff (hk : ord '#' ∉ k) (hv : ord '#' ∉ v) :
    ord '#' ∈ k ++ ord '=' :: (v ++ tail) ↔ ord '#' ∈ tail := by
  rw [List.mem_append, List.mem_cons, List.mem_append]
  constructor
  · rintro (hmem | hmem | hmem | hmem)
    · exact absurd hmem hk
    · exact absurd hmem (by decide)
    · exact absurd hmem hv
    · exact hmem
  · exact fun hmem => .inr (.inr (.inr hmem))

/-- **A line that gives a value.** -/
theorem agree_configLine (hk : ord '=' ∉ k ∧ ord '#' ∉ k) (hv : ord '#' ∉ v ∧ ord '#' ∉ v')
    (htail : tail = [] ∨ tail.head? = some (ord '#'))
    (hsecret : Secret (sectionPrefix ++ strip blanks k))
    (hread : ReadAlike (sectionPrefix ++ strip blanks k) (strip blanks v) (strip blanks v'))
    (lineno : ℕ) :
    Agree SameOption (configLine filepath sectionPrefix (k ++ ord '=' :: (v ++ tail)) lineno)
      (configLine filepath sectionPrefix (k ++ ord '=' :: (v' ++ tail)) lineno) := by
  rw [configLine, configLine, lineOf_value hk.2 hv.1 htail, lineOf_value hk.2 hv.2 htail,
    refuseLine_value hk.1 v v' lineno, nameOf_line hk.1 v, nameOf_line hk.1 v',
    valueOf_line hk.1 v, valueOf_line hk.1 v']
  cases refuseLine lineno (k.dropWhile (· ∈ blanks) ++ ord '=' :: rstrip blanks v') with
  | some message => exact agree_throw _
  | none =>
    dsimp only
    simp only [mem_value_iff hk.2 hv.1, mem_value_iff hk.2 hv.2]
    refine Agree.ite (fun _ => agree_throw _) fun _ => agree_bind_same _ fun _ => ?_
    exact agree_pure ⟨rfl, rfl, .inr ⟨hsecret, hread⟩⟩

theorem sameOption_refl (o : Str × Str × ℕ) : SameOption o o := ⟨rfl, rfl, .inl rfl⟩

/-- **The lines of a file.** -/
theorem agree_configLines {lines lines' : List Str} (h : SameLines sectionPrefix lines lines')
    (lineno : ℕ) :
    Agree (List.Forall₂ SameOption) (configLines filepath lines lineno sectionPrefix)
      (configLines filepath lines' lineno sectionPrefix) := by
  induction h generalizing lineno with
  | nil => exact agree_pure .nil
  | @same sectionPrefix raw lines lines' _ ih =>
    rw [nextPrefix] at ih
    rw [configLines, configLines]
    by_cases hempty : lineOf raw = []
    · rw [if_pos hempty, if_pos hempty]
      rw [hempty, if_neg (by decide)] at ih
      exact ih _
    · rw [if_neg hempty, if_neg hempty]
      by_cases hheading : isHeading (lineOf raw) = true
      · rw [if_pos hheading] at ih
        rw [if_pos hheading, if_pos hheading]
        exact agree_bind_same _ fun _ => ih _
      · rw [if_neg hheading] at ih
        rw [if_neg hheading, if_neg hheading]
        refine agree_bind_same _ fun o => (ih _).bind fun os os' hos => ?_
        exact agree_pure (.cons (sameOption_refl o) hos)
  | @value sectionPrefix k v v' tail lines lines' hk hv htail hheading hsecret hread _ ih =>
    have hempty : ∀ v, ord '#' ∉ v → lineOf (k ++ ord '=' :: (v ++ tail)) ≠ [] := by
      intro v hv hnil
      rw [lineOf_value hk.2 hv htail] at hnil
      have hmem := equals_mem_line k v
      rw [hnil] at hmem
      cases hmem
    rw [configLines, configLines, if_neg (hempty v hv.1), if_neg (hempty v' hv.2),
      if_neg (Bool.eq_false_iff.mp hheading.1), if_neg (Bool.eq_false_iff.mp hheading.2)]
    refine (agree_configLine hk hv htail hsecret hread lineno).bind fun o o' ho => ?_
    exact (ih _).bind fun os os' hos => agree_pure (.cons ho hos)

/-! ## The sections -/

theorem sameSection_refl (e : Str × Table) : SameSection e e := ⟨rfl, sameTable_refl e.2⟩

theorem sameTree_refl (t : Tree) : SameTree t t :=
  List.forall₂_same.mpr fun e _ => sameSection_refl e

theorem SameTree.modifySection {t t' : Tree} {f f' : Table → Table} (h : SameTree t t')
    (hf : ∀ a b, SameTable a b → SameTable (f a) (f' b)) :
    SameTree (modifySection name f t) (modifySection name f' t') := by
  induction h with
  | nil => exact .cons ⟨rfl, hf _ _ (sameTable_refl [])⟩ .nil
  | @cons e e' t t' he ht ih =>
    obtain ⟨key, table⟩ := e
    obtain ⟨key', table'⟩ := e'
    obtain ⟨hkey, htable⟩ := he
    obtain rfl : key = key' := hkey
    rw [Cli.modifySection, Cli.modifySection]
    split_ifs
    · exact .cons ⟨rfl, hf _ _ htable⟩ ht
    · exact .cons ⟨rfl, htable⟩ ih

theorem SameTree.sectionOf {t t' : Tree} (h : SameTree t t') (name : Str) :
    SameTable (sectionOf name t) (sectionOf name t') := by
  induction h with
  | nil => exact .nil
  | @cons e e' t t' he ht ih =>
    obtain ⟨key, table⟩ := e
    obtain ⟨key', table'⟩ := e'
    obtain ⟨hkey, htable⟩ := he
    obtain rfl : key = key' := hkey
    rw [Cli.sectionOf, Cli.sectionOf, List.find?_cons, List.find?_cons]
    by_cases heq : key = name
    · rw [decide_eq_true heq]
      exact htable
    · rw [decide_eq_false heq]
      exact ih

/-! ## A file -/

/-- **A name and its value.** -/
theorem agree_configValue {t t' : Tree} (h : SameTree t t') {value value' : Str} (lineno : ℕ)
    (hvalue : value = value' ∨ (Secret key ∧ ReadAlike key value value')) :
    Agree SameTree (configValue filepath t key value lineno)
      (configValue filepath t' key value' lineno) := by
  rw [configValue, configValue]
  refine Agree.ite (fun _ => agree_throw _) fun _ => ?_
  cases hoption : option? (interpretKey key).name with
  | none => exact agree_bind_same _ fun _ => agree_pure h
  | some option =>
    have hread : Agree (SameValue (interpretKey key).name)
        (interpretValue (interpretKey key) (some value) option)
        (interpretValue (interpretKey key) (some value') option) := by
      rcases hvalue with rfl | ⟨hsecret, hread⟩
      · exact agree_refl (sameValue_refl _) _
      · exact agree_interpretValue hoption hsecret hread
    refine hread.bind fun x x' hx => ?_
    refine Agree.ite (fun _ => agree_bind_same _ fun _ => agree_pure h) fun _ => ?_
    exact agree_pure (h.modifySection fun a b hab => hab.appendValue hx)

theorem agree_configValues {os os' : List (Str × Str × ℕ)} (hos : List.Forall₂ SameOption os os')
    {t t' : Tree} (h : SameTree t t') :
    Agree SameTree (configValues filepath os t) (configValues filepath os' t') := by
  induction hos generalizing t t' with
  | nil => exact agree_pure h
  | @cons o o' os os' ho _ ih =>
    obtain ⟨key, value, lineno⟩ := o
    obtain ⟨key', value', lineno'⟩ := o'
    obtain ⟨hkey, hlineno, hvalue⟩ := ho
    obtain rfl : key = key' := hkey
    obtain rfl : lineno = lineno' := hlineno
    exact (agree_configValue h lineno hvalue).bind fun t t' ht => ih ht

/-- **A file.** -/
theorem agree_readConfFile {entry entry' : Entry} (h : SameFile entry entry') (path : Str)
    (required : Bool) (included : Option Str) (filepath : Str) :
    Agree SameTree (readConfFile entry path required included filepath)
      (readConfFile entry' path required included filepath) := by
  cases h with
  | same => exact agree_refl sameTree_refl _
  | text h => exact (agree_configLines h 1).bind fun os os' hos => agree_configValues hos .nil

end BtclibNode.Cli
