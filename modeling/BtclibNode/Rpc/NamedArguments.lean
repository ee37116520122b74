/-
# Named arguments land on their positions

`transform_named_arguments` position by position: what a position is given under its names, what
is left of the arguments behind it, and the list that is built with a running count of holes.
-/
import Mathlib
import BtclibNode.Rpc.JsonRpc

namespace BtclibNode.NamedArguments

variable {namedOnly : List String} {args params : List (String × Json)} {pattern key : String}
  {f g : String → Option Json} {names' : List String}

/-! ## What a position is given -/

/-- The names of a position. -/
def names (pattern : String) : List String := pattern.splitToList (· = '|')

/-- The names of its argument, which are no options. -/
def own (namedOnly : List String) (pattern : String) : List String :=
  (names pattern).filter fun name => name ∉ namedOnly

/-- The options among the names that are given, `f` being what a key is given. -/
def optionsOf (namedOnly : List String) (f : String → Option Json) (names : List String) :
    List (String × Json) :=
  names.filterMap fun name => if name ∈ namedOnly then (f name).map (name, ·) else none

/-- The first name of the argument that is given. -/
def firstOwn (namedOnly : List String) (f : String → Option Json) (pattern : String) :
    Option String :=
  (own namedOnly pattern).find? fun name => (f name).isSome

/-- What the position is given: its argument, or the object of its options. -/
def given (namedOnly : List String) (f : String → Option Json) (pattern : String) : Option Json :=
  match firstOwn namedOnly f pattern with
  | some name => f name
  | none =>
    if (optionsOf namedOnly f (names pattern)).isEmpty then none
    else some (.obj (optionsOf namedOnly f (names pattern)))

/-- An option given together with the argument. -/
def Conflict (namedOnly : List String) (f : String → Option Json) (pattern : String) : Prop :=
  (firstOwn namedOnly f pattern).isSome ∧ optionsOf namedOnly f (names pattern) ≠ []

/-- The keys that the position pops. -/
def Taken (namedOnly : List String) (f : String → Option Json) (pattern key : String) : Prop :=
  key ∈ names pattern ∧ key ∈ namedOnly ∨ firstOwn namedOnly f pattern = some key

instance : Decidable (Taken namedOnly f pattern key) := inferInstanceAs (Decidable (_ ∨ _))

theorem mem_own {name : String} : name ∈ own namedOnly pattern ↔
    name ∈ names pattern ∧ name ∉ namedOnly := by
  rw [own, List.mem_filter, decide_eq_true_eq]

theorem firstOwn_mem {name : String} (h : firstOwn namedOnly f pattern = some name) :
    name ∈ own namedOnly pattern ∧ (f name).isSome := by
  rw [firstOwn] at h
  have hsome := List.find?_some h
  exact ⟨List.mem_of_find?_eq_some h, hsome⟩

theorem Taken.mem_names (h : Taken namedOnly f pattern key) : key ∈ names pattern :=
  h.elim And.left fun hfirst => (mem_own.mp (firstOwn_mem hfirst).1).1

theorem optionsOf_congr (h : ∀ name ∈ names', f name = g name) :
    optionsOf namedOnly f names' = optionsOf namedOnly g names' := by
  refine List.filterMap_congr fun name hname => ?_
  rw [h name hname]

theorem firstOwn_congr (h : ∀ name ∈ own namedOnly pattern, f name = g name) :
    firstOwn namedOnly f pattern = firstOwn namedOnly g pattern := by
  rw [firstOwn, firstOwn, ← List.head?_filter, ← List.head?_filter]
  refine congrArg List.head? (List.filter_congr fun name hname => ?_)
  rw [h name hname]

theorem given_congr (h : ∀ name ∈ names pattern, f name = g name) :
    given namedOnly f pattern = given namedOnly g pattern := by
  have hfirst : firstOwn namedOnly f pattern = firstOwn namedOnly g pattern :=
    firstOwn_congr fun name hname => h name (mem_own.mp hname).1
  rw [given, given, hfirst, optionsOf_congr h]
  cases hname : firstOwn namedOnly g pattern with
  | none => rfl
  | some name => exact h name (mem_own.mp (firstOwn_mem hname).1).1

theorem mem_optionsOf {option : String} {value : Json} :
    (option, value) ∈ optionsOf namedOnly f names' ↔
      option ∈ names' ∧ option ∈ namedOnly ∧ f option = some value := by
  rw [optionsOf, List.mem_filterMap]
  constructor
  · rintro ⟨name, hname, heq⟩
    split_ifs at heq with hmem
    obtain ⟨v, hv, hpair⟩ := Option.map_eq_some_iff.mp heq
    cases hpair
    exact ⟨hname, hmem, hv⟩
  · rintro ⟨hname, hmem, hv⟩
    exact ⟨option, hname, by rw [if_pos hmem, hv, Option.map_some]⟩

/-! ## Taking a position -/

/-- What a key is given. -/
abbrev valueOf (args : List (String × Json)) (key : String) : Option Json := args.lookup key

theorem lookup_popField (args : List (String × Json)) (key key' : String) :
    (popField args key).lookup key' = if key' = key then none else args.lookup key' := by
  induction args with
  | nil => exact (ite_self _).symm
  | cons pair args ih =>
    obtain ⟨k, v⟩ := pair
    by_cases hk : k = key
    · have hstep : popField ((k, v) :: args) key = popField args key :=
        List.filter_cons_of_neg (by simp [hk])
      rw [hstep, ih]
      split_ifs with hkey
      · rfl
      · have hne : (key' == k) = false := beq_eq_false_iff_ne.mpr fun h => hkey (h.trans hk)
        rw [List.lookup_cons, hne]
    · have hstep : popField ((k, v) :: args) key = (k, v) :: popField args key :=
        List.filter_cons_of_pos (by simp [hk])
      rw [hstep, List.lookup_cons, List.lookup_cons, ih]
      by_cases hkey : key' = k
      · have hne : key' ≠ key := fun h => hk (hkey.symm.trans h)
        rw [if_neg hne, if_neg hne]
      · have hne : (key' == k) = false := beq_eq_false_iff_ne.mpr hkey
        simp only [hne]

theorem takeOptions_lookup (namedOnly names' : List String) (args : List (String × Json))
    (key : String) :
    (takeOptions namedOnly names' args).2.lookup key =
      if key ∈ names' ∧ key ∈ namedOnly then none else args.lookup key := by
  induction names' generalizing args with
  | nil => simp [takeOptions]
  | cons name names' ih =>
    rw [takeOptions]
    cases hlookup : args.lookup name with
    | none =>
      dsimp only
      rw [ih]
      by_cases hkey : key = name
      · subst hkey
        simp [hlookup]
      · simp [hkey]
    | some value =>
      dsimp only
      by_cases hmem : name ∈ namedOnly
      · rw [if_pos hmem]
        dsimp only
        rw [ih, lookup_popField]
        by_cases hkey : key = name
        · subst hkey
          simp [hmem]
        · simp only [List.mem_cons, hkey, false_or, if_false]
      · rw [if_neg hmem, ih]
        by_cases hkey : key = name
        · subst hkey
          simp [hmem]
        · simp only [List.mem_cons, hkey, false_or]

theorem takeOptions_options (hnodup : names'.Nodup) (args : List (String × Json)) :
    (takeOptions namedOnly names' args).1 = optionsOf namedOnly (valueOf args) names' := by
  induction names' generalizing args with
  | nil => rfl
  | cons name names' ih =>
    obtain ⟨hname, hnodup⟩ := List.nodup_cons.mp hnodup
    have hcons : optionsOf namedOnly (valueOf args) (name :: names') =
        ((if name ∈ namedOnly then (valueOf args name).map (name, ·) else none).toList ++
          optionsOf namedOnly (valueOf args) names') := by
      rw [optionsOf, List.filterMap_cons]
      split <;> rename_i heq <;> rw [heq] <;> rfl
    rw [takeOptions, hcons]
    cases hlookup : args.lookup name with
    | none =>
      dsimp only
      rw [ih hnodup, valueOf, hlookup, Option.map_none, ite_self]
      rfl
    | some value =>
      dsimp only
      rw [valueOf, hlookup, Option.map_some]
      split_ifs with hmem
      · have hrest : ∀ other ∈ names', valueOf (popField args name) other = valueOf args other := by
          intro other hother
          have hne : other ≠ name := fun h => hname (h ▸ hother)
          rw [valueOf, lookup_popField, if_neg hne]
        dsimp only
        rw [ih hnodup, optionsOf_congr hrest]
        rfl
      · rw [ih hnodup]
        rfl

theorem takePosition_eq (args : List (String × Json)) (pattern : String) :
    takePosition args pattern namedOnly =
      match (own namedOnly pattern).find? (fun name =>
          ((takeOptions namedOnly (names pattern) args).2.lookup name).isSome),
        (takeOptions namedOnly (names pattern) args).1 with
      | none, [] => .ok (none, (takeOptions namedOnly (names pattern) args).2)
      | none, _ :: _ => .ok (some ("|".intercalate (own namedOnly pattern),
          [.obj (takeOptions namedOnly (names pattern) args).1]),
          (takeOptions namedOnly (names pattern) args).2)
      | some name, (option, _) :: _ => .error ⟨RPCErrorCode.invalidParameter,
          "Parameter " ++ name ++ " conflicts with parameter " ++ option⟩
      | some name, [] => .ok (some ("|".intercalate (own namedOnly pattern),
          [getField (takeOptions namedOnly (names pattern) args).2 name]),
          popField (takeOptions namedOnly (names pattern) args).2 name) := rfl

/-- **What `_take_position` takes**, and what it leaves. -/
theorem takePosition_spec (namedOnly : List String) (hnodup : (names pattern).Nodup)
    (args : List (String × Json)) :
    (Conflict namedOnly (valueOf args) pattern →
      ∃ e, takePosition args pattern namedOnly = .error e) ∧
    (¬ Conflict namedOnly (valueOf args) pattern → ∃ args',
      takePosition args pattern namedOnly = .ok ((given namedOnly (valueOf args) pattern).map
        fun value => ("|".intercalate (own namedOnly pattern), [value]), args') ∧
      ∀ key, args'.lookup key =
        if Taken namedOnly (valueOf args) pattern key then none else args.lookup key) := by
  have hoptions : (takeOptions namedOnly (names pattern) args).1 =
      optionsOf namedOnly (valueOf args) (names pattern) := takeOptions_options hnodup args
  have hlookup := takeOptions_lookup namedOnly (names pattern) args
  rw [takePosition_eq, hoptions]
  generalize (takeOptions namedOnly (names pattern) args).2 = rest at hlookup ⊢
  have hown : ∀ name ∈ own namedOnly pattern, valueOf rest name = valueOf args name := by
    intro name hname
    rw [valueOf, hlookup, if_neg fun h => (mem_own.mp hname).2 h.2]
  have hfirst : (own namedOnly pattern).find? (fun name => (rest.lookup name).isSome) =
      firstOwn namedOnly (valueOf args) pattern := firstOwn_congr hown
  rw [hfirst]
  cases hname : firstOwn namedOnly (valueOf args) pattern with
  | none =>
    refine ⟨fun hconflict => ?_, fun _ => ?_⟩
    · rw [Conflict, hname] at hconflict
      exact absurd hconflict.1 Bool.false_ne_true
    · have hrest : ∀ key, rest.lookup key =
          if Taken namedOnly (valueOf args) pattern key then none else args.lookup key := by
        intro key
        rw [hlookup]
        refine if_congr ?_ rfl rfl
        rw [Taken, hname]
        simp
      cases hopts : optionsOf namedOnly (valueOf args) (names pattern) with
      | nil => exact ⟨rest, by rw [given, hname, hopts]; rfl, hrest⟩
      | cons option options => exact ⟨rest, by rw [given, hname, hopts]; rfl, hrest⟩
  | some name =>
    obtain ⟨hmem, hsome⟩ := firstOwn_mem hname
    cases hopts : optionsOf namedOnly (valueOf args) (names pattern) with
    | cons option options =>
      refine ⟨fun _ => ⟨_, rfl⟩, fun hno => absurd ?_ hno⟩
      rw [Conflict, hname, hopts]
      exact ⟨rfl, List.cons_ne_nil _ _⟩
    | nil =>
      refine ⟨fun hconflict => absurd hopts hconflict.2, fun _ => ⟨popField rest name, ?_, ?_⟩⟩
      · obtain ⟨value, hvalue⟩ := Option.isSome_iff_exists.mp hsome
        have hrest : rest.lookup name = some value := (hown name hmem).trans hvalue
        have hget : getField rest name = value := by rw [getField, hrest, Option.getD_some]
        rw [given, hname]
        dsimp only
        rw [hvalue, hget]
        rfl
      · intro key
        rw [lookup_popField, hlookup]
        by_cases hkey : key = name
        · have htaken : Taken namedOnly (valueOf args) pattern key := Or.inr (hkey ▸ hname)
          rw [if_pos hkey, if_pos htaken]
        · rw [if_neg hkey]
          refine if_congr ?_ rfl rfl
          rw [Taken, hname, Option.some.injEq]
          simp [Ne.symm hkey]

/-! ## The list -/

/-- The list stands where the positions `gs` are done: up to the last of them that is given, the
others of them being the hole behind it. -/
structure Filled (gs : List (Option Json)) (s : NamedArguments) : Prop where
  out : s.out = (gs.rdropWhile Option.isNone).map (·.getD .null)
  hole : (gs.rdropWhile Option.isNone).length + s.hole = gs.length
  started : s.initialParam.isSome ↔ ∃ g ∈ gs, g.isSome
  first : s.initialHoleSize = (gs.takeWhile Option.isNone).length

variable {gs : List (Option Json)} {s : NamedArguments} {value : Json} {label : String}

/-- The positions done, as values: what is listed, and nulls for the hole. -/
theorem Filled.values (h : Filled gs s) :
    gs.map (·.getD .null) = s.out ++ List.replicate s.hole .null := by
  have hsplit := List.rdropWhile_append_rtakeWhile (p := Option.isNone) (l := gs)
  have hlen : (gs.rtakeWhile Option.isNone).length = s.hole := by
    have hsum := congrArg List.length hsplit
    rw [List.length_append] at hsum
    have hhole := h.hole
    omega
  have hnulls : (gs.rtakeWhile Option.isNone).map (·.getD Json.null) =
      List.replicate s.hole .null := by
    refine List.eq_replicate_iff.mpr ⟨by rw [List.length_map, hlen], fun v hv => ?_⟩
    obtain ⟨g, hg, rfl⟩ := List.mem_map.mp hv
    have hnone := List.mem_rtakeWhile_imp hg
    rw [Option.isNone_iff_eq_none] at hnone
    rw [hnone, Option.getD_none]
  rw [h.out, ← hnulls, ← List.map_append, hsplit]

/-- A position that is given nothing makes the hole larger. -/
theorem Filled.skip (h : Filled gs s) (args : List (String × Json)) :
    Filled (gs ++ [none]) { s with
      args
      hole := s.hole + 1
      initialHoleSize := if s.out = [] then s.hole + 1 else s.initialHoleSize } := by
  have hdrop : (gs ++ [none]).rdropWhile Option.isNone = gs.rdropWhile Option.isNone :=
    List.rdropWhile_concat_pos _ _ _ rfl
  have hout : s.out = [] ↔ gs.all Option.isNone = true := by
    rw [h.out, List.map_eq_nil_iff, List.rdropWhile_eq_nil_iff, List.all_eq_true]
  refine ⟨?_, ?_, ?_, ?_⟩
  · rw [hdrop]
    exact h.out
  · have hhole := h.hole
    rw [hdrop, List.length_append, List.length_singleton]
    dsimp only
    omega
  · refine h.started.trans ?_
    simp
  · dsimp only
    by_cases hall : gs.all Option.isNone = true
    · have htake : (gs ++ [none]).takeWhile Option.isNone = gs ++ [none] :=
        List.takeWhile_eq_self_iff.mpr fun g hg => by
          rcases List.mem_append.mp hg with hg | hg
          · exact List.all_eq_true.mp hall g hg
          · rw [List.mem_singleton.mp hg]
            rfl
      have hhole := h.hole
      rw [List.rdropWhile_eq_nil_iff.mpr (List.all_eq_true.mp hall), List.length_nil] at hhole
      rw [if_pos (hout.mpr hall), htake, List.length_append, List.length_singleton]
      omega
    · have htake : (gs ++ [none]).takeWhile Option.isNone = gs.takeWhile Option.isNone := by
        rw [List.takeWhile_append, if_neg]
        intro hlen
        exact hall (List.all_eq_true.mpr
          (List.takeWhile_eq_self_iff.mp (( List.takeWhile_prefix _).eq_of_length hlen)))
      rw [if_neg fun h => hall (hout.mp h), htake]
      exact h.first

/-- A position that is given a value is listed behind the hole. -/
theorem Filled.put (h : Filled gs s) (args : List (String × Json)) (value : Json)
    (label : String) :
    Filled (gs ++ [some value]) { s with
      args
      out := s.out ++ List.replicate s.hole .null ++ [value]
      hole := 0
      initialParam := s.initialParam.or (some label) } := by
  have hdrop : (gs ++ [some value]).rdropWhile Option.isNone = gs ++ [some value] :=
    List.rdropWhile_concat_neg _ _ _ Bool.false_ne_true
  refine ⟨?_, ?_, ?_, ?_⟩
  · dsimp only
    rw [hdrop, ← h.values, List.map_append]
    rfl
  · rw [hdrop]
    rfl
  · dsimp only
    rw [Option.isSome_or]
    simp
  · dsimp only
    rw [h.first, List.takeWhile_append]
    split_ifs with hlen
    · rw [List.takeWhile_cons_of_neg Bool.false_ne_true, List.append_nil, hlen]
    · rfl

theorem conflict_congr (h : ∀ name ∈ names pattern, f name = g name) :
    Conflict namedOnly f pattern ↔ Conflict namedOnly g pattern := by
  rw [Conflict, Conflict, firstOwn_congr fun name hname => h name (mem_own.mp hname).1,
    optionsOf_congr h]

theorem taken_congr (h : ∀ name ∈ names pattern, f name = g name) :
    Taken namedOnly f pattern key ↔ Taken namedOnly g pattern key := by
  rw [Taken, Taken, firstOwn_congr fun name hname => h name (mem_own.mp hname).1]

/-- **The loop over the positions**, where no two of them share a name. -/
theorem fillPositions_spec (namedOnly : List String) {patterns : List String}
    (hnodup : (patterns.flatMap names).Nodup) (h : Filled gs s) :
    ((∃ pattern ∈ patterns, Conflict namedOnly (valueOf s.args) pattern) →
      ∃ e, fillPositions namedOnly patterns s = .error e) ∧
    ((∀ pattern ∈ patterns, ¬ Conflict namedOnly (valueOf s.args) pattern) →
      ∃ s', fillPositions namedOnly patterns s = .ok s' ∧
        Filled (gs ++ patterns.map (given namedOnly (valueOf s.args))) s' ∧
        ∀ key, s'.args.lookup key =
          if ∃ pattern ∈ patterns, Taken namedOnly (valueOf s.args) pattern key then none
          else s.args.lookup key) := by
  induction patterns generalizing gs s with
  | nil =>
    refine ⟨fun ⟨_, hmem, _⟩ => absurd hmem List.not_mem_nil, fun _ => ⟨s, rfl, ?_, fun key => ?_⟩⟩
    · rw [List.map_nil, List.append_nil]
      exact h
    · simp
  | cons pattern patterns ih =>
    rw [List.flatMap_cons, List.nodup_append] at hnodup
    obtain ⟨hpattern, hrest, hdisjoint⟩ := hnodup
    obtain ⟨htakeError, htakeOk⟩ := takePosition_spec namedOnly hpattern s.args
    rw [fillPositions]
    by_cases hconflict : Conflict namedOnly (valueOf s.args) pattern
    · obtain ⟨e, he⟩ := htakeError hconflict
      rw [he]
      exact ⟨fun _ => ⟨e, rfl⟩, fun hno => absurd hconflict (hno pattern List.mem_cons_self)⟩
    · obtain ⟨args, htake, hargs⟩ := htakeOk hconflict
      -- the positions behind have none of the names that are taken here
      have hagree : ∀ other ∈ patterns, ∀ name ∈ names other,
          valueOf args name = valueOf s.args name := by
        intro other hother name hname
        rw [valueOf, hargs, if_neg]
        intro htaken
        exact hdisjoint name htaken.mem_names name (List.mem_flatMap.mpr ⟨other, hother, hname⟩) rfl
      have hconflicts : (∃ other ∈ pattern :: patterns, Conflict namedOnly (valueOf s.args) other) ↔
          ∃ other ∈ patterns, Conflict namedOnly (valueOf args) other := by
        rw [List.exists_mem_cons_iff, or_iff_right hconflict]
        exact exists_congr fun other => and_congr_right fun hother =>
          (conflict_congr (hagree other hother)).symm
      have hno : (∀ other ∈ pattern :: patterns, ¬ Conflict namedOnly (valueOf s.args) other) ↔
          ∀ other ∈ patterns, ¬ Conflict namedOnly (valueOf args) other := by
        simpa only [not_exists, not_and] using not_congr hconflicts
      have hgivens : patterns.map (given namedOnly (valueOf args)) =
          patterns.map (given namedOnly (valueOf s.args)) :=
        List.map_congr_left fun other hother => given_congr (hagree other hother)
      have hleft : ∀ key, (if ∃ other ∈ patterns, Taken namedOnly (valueOf args) other key then none
          else args.lookup key) =
          if ∃ other ∈ pattern :: patterns, Taken namedOnly (valueOf s.args) other key then none
          else s.args.lookup key := by
        intro key
        have hlater : (∃ other ∈ patterns, Taken namedOnly (valueOf args) other key) ↔
            ∃ other ∈ patterns, Taken namedOnly (valueOf s.args) other key :=
          exists_congr fun other => and_congr_right fun hother =>
            taken_congr (hagree other hother)
        rw [hargs]
        by_cases hhere : Taken namedOnly (valueOf s.args) pattern key
        · rw [if_pos hhere, ite_self, if_pos ⟨pattern, List.mem_cons_self, hhere⟩]
        · rw [if_neg hhere]
          refine if_congr ?_ rfl rfl
          rw [hlater, List.exists_mem_cons_iff, or_iff_right hhere]
      rw [hconflicts, hno]
      cases hgiven : given namedOnly (valueOf s.args) pattern with
      | none =>
        rw [hgiven] at htake
        rw [htake]
        obtain ⟨herror, hok⟩ := ih hrest (h.skip args)
        refine ⟨herror, fun hnone => ?_⟩
        obtain ⟨s', hs', hfilled, hlookup⟩ := hok hnone
        refine ⟨s', hs', ?_, fun key => (hlookup key).trans (hleft key)⟩
        rw [List.map_cons, hgiven, ← hgivens]
        simpa using hfilled
      | some value =>
        rw [hgiven] at htake
        rw [htake]
        obtain ⟨herror, hok⟩ := ih hrest
          (h.put args value ("|".intercalate (own namedOnly pattern)))
        refine ⟨herror, fun hnone => ?_⟩
        obtain ⟨s', hs', hfilled, hlookup⟩ := hok hnone
        refine ⟨s', hs', ?_, fun key => (hlookup key).trans (hleft key)⟩
        rw [List.map_cons, hgiven, ← hgivens]
        simpa using hfilled

/-! ## The transformation -/

/-- The leading positions: those of an `args` array. -/
def positional (params : List (String × Json)) : List Json :=
  match getField params "args" with
  | .arr members => members
  | _ => []

/-- Whether a position is given under one of its names. -/
def Named (params : List (String × Json)) (pattern : String) : Prop :=
  ∃ name ∈ names pattern, (params.lookup name).isSome

/-- What is refused. -/
inductive Refused (params : List (String × Json)) (argNames namedOnly : List String) : Prop
  | repeated (h : ¬ (params.map (·.1)).Nodup)
  | both {i : ℕ} {pattern : String} (hpattern : argNames[i]? = some pattern)
      (hi : i < (positional params).length) (hnamed : Named params pattern)
  | twoNames {pattern name other : String} (hpattern : pattern ∈ argNames)
      (hname : name ∈ own namedOnly pattern) (hother : other ∈ own namedOnly pattern)
      (hne : name ≠ other) (hgiven : (params.lookup name).isSome)
      (hgivenOther : (params.lookup other).isSome)
  | option {pattern name option : String} (hpattern : pattern ∈ argNames)
      (hname : name ∈ own namedOnly pattern) (hoption : option ∈ names pattern)
      (honly : option ∈ namedOnly) (hgiven : (params.lookup name).isSome)
      (hgivenOption : (params.lookup option).isSome)
  | unknown {key : String} (hkey : (params.lookup key).isSome) (hargs : key ≠ "args")
      (hnone : ∀ pattern ∈ argNames, key ∉ names pattern)

/-- Where everything stands in the list. -/
structure Placed (params : List (String × Json)) (argNames namedOnly : List String)
    (out : List Json) : Prop where
  leading : ∀ (i : ℕ) (value : Json), (positional params)[i]? = some value → out[i]? = some value
  named : ∀ (i : ℕ) (pattern : String), argNames[i]? = some pattern →
    ∀ name ∈ own namedOnly pattern, ∀ value, params.lookup name = some value → out[i]? = some value
  options : ∀ (i : ℕ) (pattern : String), argNames[i]? = some pattern →
    optionsOf namedOnly (valueOf params) (names pattern) ≠ [] →
      out[i]? = some (.obj (optionsOf namedOnly (valueOf params) (names pattern)))
  unfilled : ∀ i < out.length, (positional params).length ≤ i →
    (∀ pattern, argNames[i]? = some pattern → ¬ Named params pattern) → out[i]? = some .null
  last : ∀ i : ℕ, i + 1 = out.length → (positional params).length ≤ i →
    ∃ pattern, argNames[i]? = some pattern ∧ Named params pattern

theorem isSome_given : (given namedOnly f pattern).isSome ↔
    ∃ name ∈ names pattern, (f name).isSome := by
  constructor
  · intro hsome
    rw [given] at hsome
    cases hfirst : firstOwn namedOnly f pattern with
    | some name =>
      obtain ⟨hmem, hname⟩ := firstOwn_mem hfirst
      exact ⟨name, (mem_own.mp hmem).1, hname⟩
    | none =>
      rw [hfirst] at hsome
      dsimp only at hsome
      have hempty : ¬ (optionsOf namedOnly f (names pattern)).isEmpty = true := by
        intro hempty
        rw [if_pos hempty] at hsome
        exact Bool.false_ne_true hsome
      obtain ⟨⟨option, value⟩, hmem⟩ := List.exists_mem_of_ne_nil _
        fun hnil => hempty (List.isEmpty_iff.mpr hnil)
      obtain ⟨hname, -, hvalue⟩ := mem_optionsOf.mp hmem
      exact ⟨option, hname, Option.isSome_iff_exists.mpr ⟨value, hvalue⟩⟩
  · rintro ⟨name, hname, hsome⟩
    rw [given]
    cases hfirst : firstOwn namedOnly f pattern with
    | some other => exact (firstOwn_mem hfirst).2
    | none =>
      have honly : name ∈ namedOnly := by
        by_contra hnot
        rw [firstOwn, List.find?_eq_none] at hfirst
        exact hfirst name (mem_own.mpr ⟨hname, hnot⟩) hsome
      obtain ⟨value, hvalue⟩ := Option.isSome_iff_exists.mp hsome
      have hmem := mem_optionsOf.mpr ⟨hname, honly, hvalue⟩
      dsimp only
      rw [if_neg fun hempty => List.ne_nil_of_mem hmem (List.isEmpty_iff.mp hempty)]
      rfl

theorem collectNamed_spec (pairs args : List (String × Json)) (hargs : (args.map (·.1)).Nodup) :
    (((args ++ pairs).map (·.1)).Nodup → collectNamed pairs args = .ok (args ++ pairs)) ∧
      (¬ ((args ++ pairs).map (·.1)).Nodup → ∃ e, collectNamed pairs args = .error e) := by
  induction pairs generalizing args with
  | nil =>
    rw [List.append_nil]
    exact ⟨fun _ => rfl, fun hnot => absurd hargs hnot⟩
  | cons pair pairs ih =>
    obtain ⟨key, value⟩ := pair
    rw [collectNamed]
    by_cases hkey : key ∈ args.map (·.1)
    · have hsome : (args.lookup key).isSome = true := by
        rw [List.lookup_isSome_iff]
        obtain ⟨p, hp, hpkey⟩ := List.mem_map.mp hkey
        exact ⟨p, hp, beq_iff_eq.mpr hpkey.symm⟩
      rw [if_pos hsome]
      refine ⟨fun hnodup => ?_, fun _ => ⟨_, rfl⟩⟩
      rw [List.map_append, List.nodup_append] at hnodup
      exact absurd rfl (hnodup.2.2 key hkey key List.mem_cons_self)
    · have hnone : ¬ (args.lookup key).isSome = true := by
        rw [List.lookup_isSome_iff]
        rintro ⟨p, hp, hpkey⟩
        exact hkey (List.mem_map.mpr ⟨p, hp, (beq_iff_eq.mp hpkey).symm⟩)
      have hnext : ((args ++ [(key, value)]).map (·.1)).Nodup := by
        rw [List.map_append, List.map_singleton]
        refine List.nodup_append.mpr
          ⟨hargs, List.nodup_cons.mpr ⟨List.not_mem_nil, List.nodup_nil⟩, fun k hk k' hk' heq => ?_⟩
        have heq' : k = key := heq.trans (List.mem_singleton.mp hk')
        exact hkey (heq' ▸ hk)
      have happend : args ++ [(key, value)] ++ pairs = args ++ (key, value) :: pairs := by
        rw [List.append_assoc, List.singleton_append]
      rw [if_neg hnone, ← happend]
      exact ih _ hnext

/-- The pairs that are left are none exactly where no key is left. -/
theorem getLast?_eq_none_iff {rest : List (String × Json)} :
    rest.getLast? = none ↔ ∀ key, rest.lookup key = none := by
  rw [List.getLast?_eq_none_iff]
  constructor
  · rintro rfl key
    rfl
  · intro h
    cases rest with
    | nil => rfl
    | cons pair rest =>
      have hnone := h pair.1
      rw [List.lookup_cons, beq_self_eq_true] at hnone
      cases hnone

/-- What is merged with the leading positions, and whether it is refused. -/
theorem transform_eq {argNames : List String} {s : NamedArguments}
    (hcollect : collectNamed params [] = .ok params)
    (hfill : fillPositions namedOnly argNames ⟨params, [], 0, 0, none⟩ = .ok s)
    (hargs : getField s.args "args" = getField params "args") :
    transformNamedArguments params argNames namedOnly =
      if s.initialParam.isSome ∧ s.initialHoleSize < (positional params).length then
        .error ⟨RPCErrorCode.invalidParameter, "Parameter " ++ s.initialParam.getD "" ++
          " specified twice both as positional and named argument"⟩
      else
        match (popField s.args "args").getLast? with
        | some (unknown, _) =>
          .error ⟨RPCErrorCode.invalidParameter, "Unknown named parameter " ++ unknown⟩
        | none => .ok (positional params ++ s.out.drop (positional params).length) := by
  have hpositional : positional params = match getField s.args "args" with
      | .arr members => members
      | _ => [] := by
    rw [hargs]
    rfl
  rw [transformNamedArguments, hcollect]
  change (fillPositions namedOnly argNames ⟨params, [], 0, 0, none⟩ >>= _) = _
  rw [hfill, hpositional]
  obtain ⟨args, out, hole, size, initial⟩ := s
  dsimp only [bind, Except.bind]
  cases getField args "args" with
  | arr members =>
    cases initial with
    | none =>
      rw [if_neg fun h => Bool.false_ne_true h.1]
      rfl
    | some initial =>
      dsimp only
      by_cases hlt : size < members.length
      · rw [if_pos hlt, if_pos ⟨rfl, hlt⟩]
        rfl
      · rw [if_neg hlt, if_neg fun h => hlt h.2]
        rfl
  | _ =>
    -- no array: there are no leading positions
    rw [if_neg fun h => Nat.not_lt_zero _ h.2]
    rfl

/-- The first position that is given, against a count of positions. -/
theorem takeWhile_lt_iff {α : Type} {p : α → Bool} {l : List α} {n : ℕ} :
    (∃ x ∈ l, p x = false) ∧ (l.takeWhile p).length < n ↔
      ∃ i x, l[i]? = some x ∧ i < n ∧ p x = false := by
  constructor
  · rintro ⟨⟨x, hx, hpx⟩, hlt⟩
    cases hdrop : l.dropWhile p with
    | nil =>
      have hall := List.dropWhile_eq_nil_iff.mp hdrop x hx
      rw [hpx] at hall
      exact absurd hall Bool.false_ne_true
    | cons y ys =>
      refine ⟨(l.takeWhile p).length, y, ?_, hlt, ?_⟩
      · have hsplit := List.takeWhile_append_dropWhile (p := p) (l := l)
        rw [hdrop] at hsplit
        have hget : (l.takeWhile p ++ y :: ys)[(l.takeWhile p).length]? = some y := by
          rw [List.getElem?_append_right (Nat.le_refl _), Nat.sub_self]
          rfl
        rwa [hsplit] at hget
      · have hhead := List.head?_dropWhile_not p l
        rw [hdrop] at hhead
        exact hhead
  · rintro ⟨i, x, hx, hi, hpx⟩
    refine ⟨⟨x, List.mem_of_getElem? hx, hpx⟩, lt_of_le_of_lt (Nat.not_lt.mp fun hlt => ?_) hi⟩
    have hstart := (List.prefix_iff_getElem?.mp ( List.takeWhile_prefix p (l := l))) i hlt
    rw [hx, Option.some.injEq] at hstart
    have hall := List.mem_takeWhile_imp (List.getElem_mem hlt)
    rw [← hstart, hpx] at hall
    exact Bool.false_ne_true hall

theorem Filled.getElem? (h : Filled gs s) {i : ℕ} (hi : i < s.out.length) :
    s.out[i]? = gs[i]?.map (·.getD .null) := by
  have hlen : i < (gs.rdropWhile Option.isNone).length := by
    rwa [h.out, List.length_map] at hi
  have hstart := (List.prefix_iff_getElem?.mp ( List.rdropWhile_prefix Option.isNone gs)) i hlen
  rw [h.out, List.getElem?_map, List.getElem?_eq_getElem hlen, hstart]

/-- What is given is listed. -/
theorem Filled.lt_length (h : Filled gs s) {i : ℕ} (hi : gs[i]? = some (some value)) :
    i < s.out.length := by
  by_contra hge
  have hlen : (gs.rdropWhile Option.isNone).length ≤ i := by
    rw [h.out, List.length_map] at hge
    omega
  have hsplit := List.rdropWhile_append_rtakeWhile (p := Option.isNone) (l := gs)
  rw [← hsplit, List.getElem?_append_right hlen] at hi
  have hnone := List.mem_rtakeWhile_imp (List.mem_of_getElem? hi)
  exact Bool.false_ne_true hnone

theorem Filled.last (h : Filled gs s) {i : ℕ} (hi : i + 1 = s.out.length) :
    ∃ value, gs[i]? = some (some value) := by
  have hlen : i + 1 = (gs.rdropWhile Option.isNone).length := by
    rwa [h.out, List.length_map] at hi
  have hne : gs.rdropWhile Option.isNone ≠ [] := List.ne_nil_of_length_pos (by omega)
  have hlast := List.rdropWhile_last_not Option.isNone gs hne
  rw [List.getLast_eq_getElem] at hlast
  have hstart := (List.prefix_iff_getElem?.mp ( List.rdropWhile_prefix Option.isNone gs)) i
    (by omega)
  have hindex : (gs.rdropWhile Option.isNone).length - 1 = i := by omega
  simp only [hindex] at hlast
  rw [hstart]
  cases hget : (gs.rdropWhile Option.isNone)[i] with
  | none =>
    rw [hget] at hlast
    exact absurd rfl hlast
  | some value => exact ⟨value, rfl⟩

/-- A position given both ways is one that the first hole does not reach. -/
theorem Filled.both_iff {argNames : List String}
    (h : Filled (argNames.map (given namedOnly (valueOf params))) s) :
    s.initialParam.isSome ∧ s.initialHoleSize < (positional params).length ↔
      ∃ (i : ℕ) (pattern : String), argNames[i]? = some pattern ∧
        i < (positional params).length ∧ Named params pattern := by
  have hgiven : s.initialParam.isSome ↔
      ∃ g ∈ argNames.map (given namedOnly (valueOf params)), g.isNone = false := by
    simp only [h.started, Option.isNone_eq_false_iff]
  rw [hgiven, h.first, takeWhile_lt_iff]
  constructor
  · rintro ⟨i, g, hget, hi, hg⟩
    rw [List.getElem?_map] at hget
    obtain ⟨pattern, hpattern, rfl⟩ := Option.map_eq_some_iff.mp hget
    exact ⟨i, pattern, hpattern, hi, isSome_given.mp (Option.isNone_eq_false_iff.mp hg)⟩
  · rintro ⟨i, pattern, hpattern, hi, hnamed⟩
    have hsome : (given namedOnly (valueOf params) pattern).isSome := isSome_given.mpr hnamed
    refine ⟨i, _, ?_, hi, Option.isNone_eq_false_iff.mpr hsome⟩
    rw [List.getElem?_map, hpattern, Option.map_some]

/-- What is left of the keys, where no position takes them. -/
theorem left_iff {argNames : List String} (hargs : ∀ pattern ∈ argNames, "args" ∉ names pattern)
    (hnames : (argNames.flatMap names).Nodup)
    (hlookup : ∀ key, s.args.lookup key =
      if ∃ pattern ∈ argNames, Taken namedOnly (valueOf params) pattern key then none
      else params.lookup key) :
    (∃ key, (popField s.args "args").lookup key ≠ none) ↔
      (∃ key, (params.lookup key).isSome ∧ key ≠ "args" ∧
        ∀ pattern ∈ argNames, key ∉ names pattern) ∨
      ∃ pattern ∈ argNames, ∃ name ∈ own namedOnly pattern, ∃ other ∈ own namedOnly pattern,
        name ≠ other ∧ (params.lookup name).isSome ∧ (params.lookup other).isSome := by
  have hkey : ∀ key, (popField s.args "args").lookup key ≠ none ↔
      key ≠ "args" ∧ (¬ ∃ pattern ∈ argNames, Taken namedOnly (valueOf params) pattern key) ∧
        (params.lookup key).isSome := by
    intro key
    rw [lookup_popField, hlookup, ← Option.isSome_iff_ne_none]
    split_ifs with h1 h2
    · simp [h1]
    · simp [h2]
    · simp [h1, h2]
  constructor
  · rintro ⟨key, hne⟩
    obtain ⟨hkeyArgs, huntaken, hsome⟩ := (hkey key).mp hne
    by_cases hnone : ∀ pattern ∈ argNames, key ∉ names pattern
    · exact Or.inl ⟨key, hsome, hkeyArgs, hnone⟩
    · obtain ⟨pattern, hpattern, hmem⟩ : ∃ pattern ∈ argNames, key ∈ names pattern := by
        simpa only [not_forall, not_not, exists_prop] using hnone
      -- a name that its position does not take stands behind another that is given
      have hnot : ¬ Taken namedOnly (valueOf params) pattern key :=
        fun htaken => huntaken ⟨pattern, hpattern, htaken⟩
      rw [Taken, not_or, not_and] at hnot
      have hown : key ∈ own namedOnly pattern := mem_own.mpr ⟨hmem, hnot.1 hmem⟩
      cases hfirst : firstOwn namedOnly (valueOf params) pattern with
      | none =>
        rw [firstOwn, List.find?_eq_none] at hfirst
        exact absurd hsome (hfirst key hown)
      | some name =>
        obtain ⟨hname, hnameSome⟩ := firstOwn_mem hfirst
        have hdistinct : name ≠ key := fun heq => hnot.2 (heq ▸ hfirst)
        exact Or.inr ⟨pattern, hpattern, name, hname, key, hown, hdistinct, hnameSome, hsome⟩
  · rintro (⟨key, hsome, hkeyArgs, hnone⟩ | ⟨pattern, hpattern, name, hname, other, hother,
      hdistinct, hsome, hsomeOther⟩)
    · exact ⟨key, (hkey key).mpr ⟨hkeyArgs, fun ⟨pattern, hpattern, htaken⟩ =>
        hnone pattern hpattern htaken.mem_names, hsome⟩⟩
    · have huntaken : ∀ key ∈ own namedOnly pattern,
          firstOwn namedOnly (valueOf params) pattern ≠ some key →
          ¬ ∃ q ∈ argNames, Taken namedOnly (valueOf params) q key := by
        rintro key hown hnotFirst ⟨q, hq, htaken⟩
        have hmem := (mem_own.mp hown).1
        have hsame : q = pattern := by
          by_contra hneq
          have hpair := (List.nodup_flatMap.mp hnames).2
          rcases List.pairwise_iff_getElem.mp hpair with hpairs
          obtain ⟨i, hi, rfl⟩ := List.getElem_of_mem hq
          obtain ⟨j, hj, rfl⟩ := List.getElem_of_mem hpattern
          rcases Nat.lt_trichotomy i j with hlt | heq | hgt
          · exact hpairs i j hi hj hlt htaken.mem_names hmem
          · subst heq
            exact hneq rfl
          · exact hpairs j i hj hi hgt hmem htaken.mem_names
        subst hsame
        rcases htaken with ⟨-, honly⟩ | hfirst
        · exact (mem_own.mp hown).2 honly
        · exact hnotFirst hfirst
      by_cases hfirst : firstOwn namedOnly (valueOf params) pattern = some name
      · have hnotFirst : firstOwn namedOnly (valueOf params) pattern ≠ some other := by
          rw [hfirst, Ne, Option.some.injEq]
          exact hdistinct
        refine ⟨other, (hkey other).mpr ⟨?_, huntaken other hother hnotFirst, hsomeOther⟩⟩
        exact fun heq => hargs pattern hpattern (heq ▸ (mem_own.mp hother).1)
      · refine ⟨name, (hkey name).mpr ⟨?_, huntaken name hname hfirst, hsome⟩⟩
        exact fun heq => hargs pattern hpattern (heq ▸ (mem_own.mp hname).1)

theorem filled_nil (params : List (String × Json)) : Filled [] ⟨params, [], 0, 0, none⟩ :=
  ⟨rfl, rfl, by simp, rfl⟩

/-- What is not refused is placed. -/
theorem placed_of_filled {argNames : List String}
    (h : Filled (argNames.map (given namedOnly (valueOf params))) s)
    (hrefused : ¬ Refused params argNames namedOnly) :
    Placed params argNames namedOnly
      (positional params ++ s.out.drop (positional params).length) := by
  have hbehind : ∀ (i : ℕ) (pattern : String), argNames[i]? = some pattern →
      Named params pattern → (positional params).length ≤ i := fun i pattern hpattern hnamed =>
    Nat.not_lt.mp fun hlt => hrefused (.both hpattern hlt hnamed)
  have hout : ∀ i, (positional params).length ≤ i →
      (positional params ++ s.out.drop (positional params).length)[i]? = s.out[i]? := by
    intro i hi
    rw [List.getElem?_append_right hi, List.getElem?_drop]
    congr 1
    omega
  have hgiven : ∀ (i : ℕ) (pattern : String) (value : Json), argNames[i]? = some pattern →
      given namedOnly (valueOf params) pattern = some value →
      (positional params ++ s.out.drop (positional params).length)[i]? = some value := by
    intro i pattern value hpattern hvalue
    have hnamed : Named params pattern :=
      isSome_given.mp (Option.isSome_iff_exists.mpr ⟨value, hvalue⟩)
    have hget : (argNames.map (given namedOnly (valueOf params)))[i]? = some (some value) := by
      rw [List.getElem?_map, hpattern, Option.map_some, hvalue]
    rw [hout i (hbehind i pattern hpattern hnamed), h.getElem? (h.lt_length hget), hget]
    rfl
  have hshort : ∀ i, (positional params).length ≤ i →
      (i < (positional params ++ s.out.drop (positional params).length).length ↔
        i < s.out.length) := by
    intro i hi
    rw [List.length_append, List.length_drop]
    omega
  refine ⟨fun i value hvalue => ?_, fun i pattern hpattern name hname value hvalue => ?_,
    fun i pattern hpattern hoptions => ?_, fun i hi hlen hunnamed => ?_, fun i hi hlen => ?_⟩
  · rw [List.getElem?_append_left (List.getElem?_eq_some_iff.mp hvalue).1, hvalue]
  · refine hgiven i pattern value hpattern ?_
    have hmem := List.mem_of_getElem? hpattern
    rw [given]
    cases hfirst : firstOwn namedOnly (valueOf params) pattern with
    | none =>
      rw [firstOwn, List.find?_eq_none] at hfirst
      exact absurd (Option.isSome_iff_exists.mpr ⟨value, hvalue⟩) (hfirst name hname)
    | some first =>
      obtain ⟨hown, hsome⟩ := firstOwn_mem hfirst
      have hsame : first = name := by
        by_contra hne
        exact hrefused (.twoNames hmem hown hname hne hsome
          (Option.isSome_iff_exists.mpr ⟨value, hvalue⟩))
      rw [hsame]
      exact hvalue
  · refine hgiven i pattern _ hpattern ?_
    have hmem := List.mem_of_getElem? hpattern
    rw [given]
    cases hfirst : firstOwn namedOnly (valueOf params) pattern with
    | none => exact if_neg fun hempty => hoptions (List.isEmpty_iff.mp hempty)
    | some first =>
      obtain ⟨hown, hsome⟩ := firstOwn_mem hfirst
      obtain ⟨⟨option, value⟩, hoption⟩ := List.exists_mem_of_ne_nil _ hoptions
      obtain ⟨hname, honly, hvalue⟩ := mem_optionsOf.mp hoption
      exact absurd (.option hmem hown hname honly hsome
        (Option.isSome_iff_exists.mpr ⟨value, hvalue⟩)) hrefused
  · have hlt := (hshort i hlen).mp hi
    rw [hout i hlen, h.getElem? hlt, List.getElem?_map]
    have hposition : i < argNames.length := by
      have hbound := h.hole
      rw [h.out, List.length_map] at hlt
      rw [List.length_map] at hbound
      omega
    rw [List.getElem?_eq_getElem hposition]
    have hnone : given namedOnly (valueOf params) argNames[i] = none := by
      rw [← Option.not_isSome_iff_eq_none, isSome_given]
      exact hunnamed _ (List.getElem?_eq_getElem hposition)
    rw [Option.map_some, hnone]
    rfl
  · have hend : i + 1 = s.out.length := by
      have hlt := (hshort i hlen).mp (by omega)
      have hge := mt (hshort (i + 1) (by omega)).mpr (by omega)
      omega
    obtain ⟨value, hvalue⟩ := h.last hend
    rw [List.getElem?_map] at hvalue
    obtain ⟨pattern, hpattern, hsome⟩ := Option.map_eq_some_iff.mp hvalue
    exact ⟨pattern, hpattern, isSome_given.mp (Option.isSome_iff_exists.mpr ⟨value, hsome⟩)⟩

/-- **Named arguments land on their positions**, where no two names are the same and none of
them is `args`. -/
theorem transform_named (params : List (String × Json)) (argNames namedOnly : List String)
    (hnames : (argNames.flatMap names).Nodup)
    (hargs : ∀ pattern ∈ argNames, "args" ∉ names pattern) :
    ((∃ e, transformNamedArguments params argNames namedOnly = .error e) ↔
        Refused params argNames namedOnly) ∧
      ∀ out, transformNamedArguments params argNames namedOnly = .ok out →
        Placed params argNames namedOnly out := by
  obtain ⟨hcollectOk, hcollectError⟩ := collectNamed_spec params [] List.nodup_nil
  rw [List.nil_append] at hcollectOk hcollectError
  -- an error is one refusal, and shows the list is not there
  have hcase : ∀ e, transformNamedArguments params argNames namedOnly = .error e →
      Refused params argNames namedOnly →
      ((∃ e, transformNamedArguments params argNames namedOnly = .error e) ↔
        Refused params argNames namedOnly) ∧
      ∀ out, transformNamedArguments params argNames namedOnly = .ok out →
        Placed params argNames namedOnly out := fun e he hrefused =>
    ⟨iff_of_true ⟨e, he⟩ hrefused, fun out hok => by
      rw [he] at hok
      cases hok⟩
  by_cases hnodup : (params.map (·.1)).Nodup
  swap
  · obtain ⟨e, he⟩ := hcollectError hnodup
    refine hcase e ?_ (.repeated hnodup)
    rw [transformNamedArguments, he]
    rfl
  have hcollect := hcollectOk hnodup
  obtain ⟨hconflictError, hfillOk⟩ :=
    fillPositions_spec namedOnly hnames (filled_nil params)
  by_cases hconflict : ∃ pattern ∈ argNames, Conflict namedOnly (valueOf params) pattern
  · obtain ⟨e, he⟩ := hconflictError hconflict
    obtain ⟨pattern, hpattern, hfirst, hoptions⟩ := hconflict
    obtain ⟨name, hname⟩ := Option.isSome_iff_exists.mp hfirst
    obtain ⟨hown, hsome⟩ := firstOwn_mem hname
    obtain ⟨⟨option, value⟩, hoption⟩ := List.exists_mem_of_ne_nil _ hoptions
    obtain ⟨hmem, honly, hvalue⟩ := mem_optionsOf.mp hoption
    refine hcase e ?_ (.option hpattern hown hmem honly hsome
      (Option.isSome_iff_exists.mpr ⟨value, hvalue⟩))
    rw [transformNamedArguments, hcollect]
    change (fillPositions namedOnly argNames ⟨params, [], 0, 0, none⟩ >>= _) = _
    rw [he]
    rfl
  have hno : ∀ pattern ∈ argNames, ¬ Conflict namedOnly (valueOf params) pattern :=
    fun pattern hpattern h => hconflict ⟨pattern, hpattern, h⟩
  obtain ⟨s, hfill, hfilled, hlookup⟩ := hfillOk hno
  rw [List.nil_append] at hfilled
  have hargsField : getField s.args "args" = getField params "args" := by
    rw [getField, getField, hlookup, if_neg]
    rintro ⟨pattern, hpattern, htaken⟩
    exact hargs pattern hpattern htaken.mem_names
  have heq := transform_eq hcollect hfill hargsField
  by_cases hboth : s.initialParam.isSome ∧ s.initialHoleSize < (positional params).length
  · rw [if_pos hboth] at heq
    obtain ⟨i, pattern, hpattern, hi, hnamed⟩ := hfilled.both_iff.mp hboth
    exact hcase _ heq (.both hpattern hi hnamed)
  rw [if_neg hboth] at heq
  have hleft := left_iff hargs hnames hlookup
  cases hrest : (popField s.args "args").getLast? with
  | some pair =>
    rw [hrest] at heq
    refine hcase _ heq ?_
    have hsomeKey : ∃ key, (popField s.args "args").lookup key ≠ none := by
      by_contra hall
      have hempty := getLast?_eq_none_iff.mpr fun key => not_not.mp (not_exists.mp hall key)
      rw [hrest] at hempty
      cases hempty
    rcases hleft.mp hsomeKey with ⟨key, hsome, hne, hnone⟩ | ⟨pattern, hpattern, name, hname,
      other, hother, hdistinct, hsome, hsomeOther⟩
    · exact .unknown hsome hne hnone
    · exact .twoNames hpattern hname hother hdistinct hsome hsomeOther
  | none =>
    rw [hrest] at heq
    have hnoKey : ¬ ∃ key, (popField s.args "args").lookup key ≠ none := by
      rintro ⟨key, hne⟩
      exact hne (getLast?_eq_none_iff.mp hrest key)
    have hrefused : ¬ Refused params argNames namedOnly := by
      intro hrefused
      cases hrefused with
      | repeated h => exact h hnodup
      | both hpattern hi hnamed => exact hboth (hfilled.both_iff.mpr ⟨_, _, hpattern, hi, hnamed⟩)
      | twoNames hpattern hname hother hne hgiven hgivenOther =>
        exact hnoKey (hleft.mpr
          (Or.inr ⟨_, hpattern, _, hname, _, hother, hne, hgiven, hgivenOther⟩))
      | option hpattern hname hoption honly hgiven hgivenOption =>
        obtain ⟨value, hvalue⟩ := Option.isSome_iff_exists.mp hgivenOption
        refine hno _ hpattern ⟨?_, List.ne_nil_of_mem (mem_optionsOf.mpr ⟨hoption, honly, hvalue⟩)⟩
        by_contra hnone
        rw [Option.not_isSome_iff_eq_none, firstOwn, List.find?_eq_none] at hnone
        exact hnone _ hname hgiven
      | unknown hkey hne hnone => exact hnoKey (hleft.mpr (Or.inl ⟨_, hkey, hne, hnone⟩))
    refine ⟨iff_of_false ?_ hrefused, fun out hok => ?_⟩
    · rintro ⟨e, he⟩
      rw [heq] at he
      cases he
    · rw [heq] at hok
      cases hok
      exact placed_of_filled hfilled hrefused

theorem names_x : names "x" = ["x"] := by
  rw [names, String.splitToList_of_valid]
  decide

theorem names_args : names "args" = ["args"] := by
  rw [names, String.splitToList_of_valid]
  decide

theorem names_alias : names "a|b" = ["a", "b"] := by
  rw [names, String.splitToList_of_valid]
  decide

/-- A position that is itself named `args` takes the array. -/
theorem transform_named_args : (["x", "args"].flatMap names).Nodup ∧
    transformNamedArguments [("args", .arr [.int 1])] ["x", "args"] [] =
      .ok [.null, .arr [.int 1]] ∧
    ¬ Placed [("args", .arr [.int 1])] ["x", "args"] [] [.null, .arr [.int 1]] := by
  have hx : takePosition [("args", .arr [.int 1])] "x" [] =
      .ok (none, [("args", .arr [.int 1])]) := by
    rw [takePosition_eq, own, names_x]
    rfl
  have hargs : takePosition [("args", .arr [.int 1])] "args" [] =
      .ok (some ("args", [.arr [.int 1]]), []) := by
    rw [takePosition_eq, own, names_args]
    rfl
  refine ⟨?_, ?_, fun h => ?_⟩
  · rw [List.flatMap_cons, List.flatMap_cons, names_x, names_args]
    decide
  · rw [transformNamedArguments]
    have hfill : fillPositions [] ["x", "args"] ⟨[("args", .arr [.int 1])], [], 0, 0, none⟩ =
        .ok ⟨[], [.null, .arr [.int 1]], 0, 1, some "args"⟩ := by
      rw [fillPositions, hx]
      change fillPositions [] ["args"] ⟨[("args", .arr [.int 1])], [], 1, 1, none⟩ = _
      rw [fillPositions, hargs]
      rfl
    change (fillPositions [] ["x", "args"] ⟨[("args", .arr [.int 1])], [], 0, 0, none⟩ >>= _) = _
    rw [hfill]
    rfl
  · have hleading := h.leading 0 (.int 1) rfl
    cases hleading

/-- The second position by its second name, and the first from the array. -/
theorem transform_named_alias : Placed [("b", .int 2), ("args", .arr [.int 1])] ["x", "a|b"] []
    [.int 1, .int 2] := by
  refine (transform_named [("b", .int 2), ("args", .arr [.int 1])] ["x", "a|b"] [] ?_ ?_).2 _ ?_
  · rw [List.flatMap_cons, List.flatMap_cons, names_x, names_alias]
    decide
  · rw [List.forall_mem_cons, List.forall_mem_singleton, names_x, names_alias]
    decide
  · have hx : takePosition [("b", .int 2), ("args", .arr [.int 1])] "x" [] =
        .ok (none, [("b", .int 2), ("args", .arr [.int 1])]) := by
      rw [takePosition_eq, own, names_x]
      rfl
    have halias : takePosition [("b", .int 2), ("args", .arr [.int 1])] "a|b" [] =
        .ok (some ("a|b", [.int 2]), [("args", .arr [.int 1])]) := by
      rw [takePosition_eq, own, names_alias]
      rfl
    have hfill : fillPositions [] ["x", "a|b"]
        ⟨[("b", .int 2), ("args", .arr [.int 1])], [], 0, 0, none⟩ =
        .ok ⟨[("args", .arr [.int 1])], [.null, .int 2], 0, 1, some "a|b"⟩ := by
      rw [fillPositions, hx]
      change fillPositions [] ["a|b"]
        ⟨[("b", .int 2), ("args", .arr [.int 1])], [], 1, 1, none⟩ = _
      rw [fillPositions, halias]
      rfl
    rw [transformNamedArguments]
    change (fillPositions [] ["x", "a|b"]
      ⟨[("b", .int 2), ("args", .arr [.int 1])], [], 0, 0, none⟩ >>= _) = _
    rw [hfill]
    rfl

end BtclibNode.NamedArguments
