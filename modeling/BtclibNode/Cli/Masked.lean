/-
# Secrets are masked

Two runs whose arguments, configuration files and settings differ in the values of secrets alone:
neither what is raised, nor what is warned of, nor what is logged tells them apart.  And a refusal
quotes nothing of a line behind the first end of a sensitive option's name, nor from its first `=`
on.
-/
import BtclibNode.Cli.SameFiles

namespace BtclibNode.Cli

open RelationalExcept

variable {name : Str}

/-! ## Included files -/

theorem SameTable.extendValues {t t' : Table} {vs vs' : List Value} (h : SameTable t t')
    (hvs : List.Forall₂ (SameValue name) vs vs') :
    SameTable (extendValues name vs t) (extendValues name vs' t') := by
  induction h with
  | nil => exact .cons ⟨rfl, hvs⟩ .nil
  | @cons e e' t t' he ht ih =>
    obtain ⟨key, values⟩ := e
    obtain ⟨key', values'⟩ := e'
    obtain ⟨hkey, hvalues⟩ := he
    obtain rfl : key = key' := hkey
    rw [Cli.extendValues, Cli.extendValues]
    split_ifs with hname
    · subst hname
      exact .cons ⟨rfl, List.rel_append hvalues hvs⟩ ht
    · exact .cons ⟨rfl, hvalues⟩ ih

theorem sameTable_foldl {keys keys' : Table} (hkeys : SameTable keys keys') {t t' : Table}
    (h : SameTable t t') :
    SameTable (keys.foldl (fun dest key => extendValues key.1 key.2 dest) t)
      (keys'.foldl (fun dest key => extendValues key.1 key.2 dest) t') := by
  induction hkeys generalizing t t' with
  | nil => exact h
  | @cons e e' keys keys' he _ ih =>
    obtain ⟨key, values⟩ := e
    obtain ⟨key', values'⟩ := e'
    obtain ⟨hkey, hvalues⟩ := he
    obtain rfl : key = key' := hkey
    exact ih (h.extendValues hvalues)

theorem SameTree.mergeTree {i i' t t' : Tree} (hi : SameTree i i') (h : SameTree t t') :
    SameTree (mergeTree i t) (mergeTree i' t') := by
  induction hi generalizing t t' with
  | nil => exact h
  | @cons e e' i i' he _ ih =>
    obtain ⟨sectionName, keys⟩ := e
    obtain ⟨sectionName', keys'⟩ := e'
    obtain ⟨hsection, hkeys⟩ := he
    obtain rfl : sectionName = sectionName' := hsection
    exact ih (h.modifySection fun a b hab => sameTable_foldl hkeys hab)

theorem SameTree.addIncludes {t t' : Tree} (h : SameTree t t') (network : Str) (skip : ℕ) :
    addIncludes t network skip = addIncludes t' network skip := by
  rw [Cli.addIncludes, Cli.addIncludes, (h.sectionOf network).valuesOf (by decide)]

/-- **The included files.** -/
theorem agree_readIncludes {files files' : Str → Entry}
    (hfiles : ∀ path, SameFile (files path) (files' path)) (resolve : Str → Str)
    (names : List Str) {t t' : Tree} (h : SameTree t t') :
    Agree SameTree (readIncludes files resolve names t) (readIncludes files' resolve names t') := by
  induction names generalizing t t' with
  | nil => exact agree_pure h
  | cons name names ih =>
    rw [readIncludes, readIncludes]
    exact (agree_readConfFile (hfiles _) _ _ _ _).bind fun i i' hi => ih (hi.mergeTree h)

/-! ## The chain -/

theorem getSetting_eq {c c' : Table} {t t' : Tree} (hc : SameTable c c') (ht : SameTree t t')
    (hname : sensitive name = false) (chainType : Bool) :
    getSetting c t name chainType = getSetting c' t' name chainType := by
  rw [getSetting, getSetting, sources, sources, hc.valuesOf hname,
    (ht.sectionOf []).valuesOf hname]

theorem chainSection_eq {c c' : Table} {t t' : Tree} (hc : SameTable c c') (ht : SameTree t t') :
    chainSection c t = chainSection c' t' := by
  have hnet : ∀ name, sensitive name = false → getNet c t name = getNet c' t' name := by
    intro name hname
    rw [getNet, getNet, getSetting_eq hc ht hname]
  rw [chainSection, chainSection, chainArg, chainArg, hnet _ (by decide), hnet _ (by decide),
    hnet _ (by decide), hnet _ (by decide), getSetting_eq hc ht (by decide)]

/-- **The configuration files.** -/
theorem agree_loadConfTree {files files' : Str → Entry}
    (hfiles : ∀ path, SameFile (files path) (files' path)) (resolve : Str → Str) (confPath : Str)
    (confExplicit useIncludes : Bool) {c c' : Table} (hc : SameTable c c') :
    Agree SameTree (loadConfTree files resolve confPath confExplicit useIncludes c)
      (loadConfTree files' resolve confPath confExplicit useIncludes c') := by
  rw [loadConfTree, loadConfTree]
  refine (agree_readConfFile (hfiles _) _ _ _ _).bind fun root root' hroot => ?_
  refine Agree.ite (fun _ => agree_pure hroot) fun _ => ?_
  rw [chainSection_eq hc hroot]
  refine agree_bind_same _ fun chain => ?_
  rw [hroot.addIncludes chain 0, hroot.addIncludes [] 0]
  refine (agree_readIncludes hfiles resolve _ hroot).bind fun t t' ht => ?_
  rw [chainSection_eq hc ht]
  refine agree_bind_same _ fun finalChain => ?_
  rw [ht.addIncludes chain, ht.addIncludes [], ht.addIncludes finalChain]
  exact agree_bind_same _ fun _ => agree_pure ht

/-! ## The lines that log what was read -/

section Sorted

variable {α β : Type} {R : α → β → Prop} {r : α → α → Prop} {r' : β → β → Prop} [DecidableRel r]
  [DecidableRel r']

theorem forall₂_orderedInsert (hr : ∀ a a' b b', R a a' → R b b' → (r a b ↔ r' a' b')) {a : α}
    {a' : β} {l : List α} {l' : List β} (ha : R a a') (h : List.Forall₂ R l l') :
    List.Forall₂ R (l.orderedInsert r a) (l'.orderedInsert r' a') := by
  induction h with
  | nil => exact .cons ha .nil
  | @cons b b' l l' hb hl ih =>
    rw [List.orderedInsert_cons, List.orderedInsert_cons]
    by_cases hab : r a b
    · rw [if_pos hab, if_pos ((hr _ _ _ _ ha hb).mp hab)]
      exact .cons ha (.cons hb hl)
    · rw [if_neg hab, if_neg fun hab' => hab ((hr _ _ _ _ ha hb).mpr hab')]
      exact .cons hb ih

/-- Lists that a relation holds of are sorted alike where the orders are. -/
theorem forall₂_insertionSort (hr : ∀ a a' b b', R a a' → R b b' → (r a b ↔ r' a' b'))
    {l : List α} {l' : List β} (h : List.Forall₂ R l l') :
    List.Forall₂ R (l.insertionSort r) (l'.insertionSort r') := by
  induction h with
  | nil => exact .nil
  | cons ha _ ih => exact forall₂_orderedInsert hr ha ih

end Sorted

/-- Items sorted by their keys. -/
theorem forall₂_sortItems {α : Type} {R : Str × α → Str × α → Prop}
    (hR : ∀ e e', R e e' → e.1 = e'.1) {items items' : List (Str × α)}
    (h : List.Forall₂ R items items') : List.Forall₂ R (sortItems items) (sortItems items') := by
  refine forall₂_insertionSort (fun a a' b b' ha hb => ?_) h
  rw [hR a a' ha, hR b b' hb]

theorem flatMap_eq {α β : Type} {R : α → α → Prop} {f g : α → List β}
    (hfg : ∀ a b, R a b → f a = g b) {l l' : List α} (h : List.Forall₂ R l l') :
    l.flatMap f = l'.flatMap g := by
  induction h with
  | nil => rfl
  | cons hab _ ih => rw [List.flatMap_cons, List.flatMap_cons, hfg _ _ hab, ih]

theorem shownValue_eq {v v' : Value} (h : SameValue name v v') :
    shownValue name v = shownValue name v' := by
  rcases h with rfl | ⟨hsensitive, -⟩
  · rfl
  · rw [shownValue, shownValue, if_pos hsensitive, if_pos hsensitive]

theorem logSection_eq (kind : Str) {t t' : Table} (h : SameTable t t') :
    logSection kind t = logSection kind t' := by
  refine flatMap_eq (fun e e' he => ?_) (forall₂_sortItems (fun _ _ he => he.1) h)
  obtain ⟨key, values⟩ := e
  obtain ⟨key', values'⟩ := e'
  obtain ⟨hkey, hvalues⟩ := he
  obtain rfl : key = key' := hkey
  dsimp only at hvalues ⊢
  induction hvalues with
  | nil => rfl
  | cons hv _ ih => rw [List.map_cons, List.map_cons, shownValue_eq hv, ih]

/-- The settings, the same but for the values of secrets. -/
def SameSettings : RwSettings → RwSettings → Prop :=
  List.Forall₂ fun e e' => e.1 = e'.1 ∧ (e.2 = e'.2 ∨ Secret e.1)

theorem logSettings_eq {s s' : RwSettings} (h : SameSettings s s') :
    s.map logSetting = s'.map logSetting := by
  induction h with
  | nil => rfl
  | @cons e e' s s' he _ ih =>
    obtain ⟨key, value⟩ := e
    obtain ⟨key', value'⟩ := e'
    obtain ⟨hkey, hvalue⟩ := he
    obtain rfl : key = key' := hkey
    have hline : logSetting (key, value) = logSetting (key, value') := by
      rcases hvalue with hvalue | hsecret
      · obtain rfl : value = value' := hvalue
        rfl
      · rw [logSetting, logSetting]
        dsimp only
        cases hoption : option? (interpretKey key).name with
        | none => rfl
        | some option =>
          dsimp only
          rw [if_pos (hsecret option hoption), if_pos (hsecret option hoption)]
    rw [List.map_cons, List.map_cons, hline, ih]

/-- **The log lines.** -/
theorem logArgs_eq {c c' : Table} {t t' : Tree} {s s' : RwSettings} (hc : SameTable c c')
    (ht : SameTree t t') (hs : SameSettings s s') : logArgs c t s = logArgs c' t' s' := by
  have hconfig := flatMap_eq (f := fun entry => logSection (str "Config file arg: " ++
      if entry.1 = [] then [] else str "[" ++ quotedLine entry.1 ++ str "] ") entry.2)
    (fun e e' (he : SameSection e e') => by rw [he.1, logSection_eq _ he.2])
    (forall₂_sortItems (fun _ _ he => he.1) ht)
  rw [logArgs, logArgs, hconfig, logSettings_eq hs, logSection_eq _ hc]

/-! ## What is quoted -/

/-- What a refusal shows of a line: what the line begins with, and little of it, or a length. -/
def Quotes (line shown : Str) : Prop :=
  (shown <+: line ∧ shown.length ≤ maxQuotedName) ∨
    ∃ n, shown = str "<" ++ decimal n ++ str " characters>"

theorem quotes_quotedLine (line : Str) : Quotes line (quotedLine line) := by
  rcases quotedLine_cases line with ⟨heq, hbegin, hlength⟩ | heq
  · rw [heq]
    exact .inl ⟨hbegin, hlength⟩
  · exact .inr ⟨_, heq⟩

/-- The start of the refusal of a line. -/
def refusal (lineno : ℕ) : Str := str "parse error on line " ++ decimal lineno ++ str ": "

theorem refuseLine_quotes {lineno : ℕ} {line message : Str}
    (h : refuseLine lineno line = some message) :
    ∃ shown, Quotes line shown ∧
      (message = refusal lineno ++ shown ++
          str ", options in configuration file must be specified without leading -" ∨
        message = refusal lineno ++ shown ∨
        message = refusal lineno ++ shown ++
          str ", if you intended to specify a negated option, use " ++ shown ++
            str "=1 instead") := by
  refine ⟨quotedLine line, quotes_quotedLine line, ?_⟩
  rw [refuseLine] at h
  split_ifs at h with hdash hequals hhint
  · exact .inl (Option.some.inj h).symm
  · refine .inr (.inr ?_)
    rw [← Option.some.inj h, refusal]
    simp only [List.append_assoc]
  · refine .inr (.inl ?_)
    rw [← Option.some.inj h, refusal, List.append_nil]

theorem firstEnd_nil : firstEnd [] = none := by decide

/-- **A refusal tells two lines apart** by nothing that stands behind the first end of a
sensitive option's name, nor by what stands from the first `=` on. -/
theorem refuseLine_alike {lineno : ℕ} {line line' message message' : Str}
    (h : Alike line line') (hline : refuseLine lineno line = some message)
    (hline' : refuseLine lineno line' = some message') : message = message' := by
  have hquoted := h.quotedLine
  have hname := h.nameOf
  cases h with
  | @name p s s' hp =>
    have hlong : 2 ≤ p.length := by
      obtain ⟨⟨name, hmem, hend⟩, -⟩ := firstEnd_eq_some_iff.mp hp
      have hshort : ∀ name ∈ sensitiveNames, 2 ≤ name.length := by decide
      exact (hshort name hmem).trans (le_findEnd hend)
    have htake : ∀ s, (p ++ s).take 1 = p.take 1 :=
      fun s => List.take_append_of_le_length (by omega)
    have hno : ∀ s, (str "no").isPrefixOf (p ++ s) = (str "no").isPrefixOf p := by
      intro s
      obtain ⟨a, b, q, rfl⟩ : ∃ a b q, p = a :: b :: q := by
        match p, hlong with
        | a :: b :: q, _ => exact ⟨a, b, q, rfl⟩
      rfl
    rw [refuseLine, htake, hno] at hline hline'
    rw [hquoted, hname] at hline
    split_ifs at hline hline' <;> exact (Option.some.inj hline).symm.trans (Option.some.inj hline')
  | @equals p s s' hp =>
    have hmem : ∀ s, ord '=' ∈ p ++ ord '=' :: s :=
      fun s => List.mem_append_right _ List.mem_cons_self
    rw [refuseLine, if_neg (not_not_intro (hmem _))] at hline hline'
    rw [hquoted] at hline
    split_ifs at hline hline'
    exact (Option.some.inj hline).symm.trans (Option.some.inj hline')

end BtclibNode.Cli
