import TermNet.Proofs.Code.Resolved
import TermNet.Proofs.Emission
import TermNet.Proofs.Source.Scanned

namespace TermNet

/-!
# Emitted modules are closed and have no name twice

The names in a module come from different sides: static items and the types of matchers are
numbered in the order in which they are emitted, functions are named after the states of their
nets, and the name of the public function is chosen freely, unless it is reserved.  So the items
have different names if the public function without the mark `r#` is not named like one of the
others.

* `Code.names_perm` — the names of the values of a module;
* `Code.nodup_identifiers` — all of them are different;
* `Code.references_subset` — whatever a module refers to is defined;
* `modules_are_closed` — modules for the nets of patterns.
-/

namespace Code

open Text (withoutRawMark)
open Source (withoutRawMark_eq_self)

/-! ### Identifiers -/

/-- Without its mark an identifier has no `#`. -/
theorem hash_not_mem_withoutRawMark {text name : String}
    (h : Source.identifier? text = some name) : '#' ∉ (withoutRawMark name).toList :=
  (Source.isPlainWord_withoutRawMark (Source.isWord_of_identifier? h)).hash_not_mem

/-- Digits are no marks. -/
theorem hash_not_mem_digits (n : Nat) : '#' ∉ Nat.toDigits 10 n := fun h =>
  absurd (Nat.isDigit_of_mem_toDigits (by decide) (by decide) h) (by decide)

/-- The name of the function of a state has no `#` if what it begins with has none. -/
theorem hash_not_mem_stateFunctionName {stem : String} (h : '#' ∉ stem.toList) (id : StateId) :
    '#' ∉ (stateFunctionName stem id).toList := by
  rw [toList_stateFunctionName]
  simp [h, hash_not_mem_digits]

/-! ### The names of numbered items -/

/-- The character in front of the number at the end of a name. -/
def numberMark (name : String) : Option Char := (name.toList.reverse.dropWhile Char.isDigit).head?

/-- The character in front of the digits that a name ends in. -/
theorem numberMark_of_toList {name : String} (before : List Char) {c : Char} {n : Nat}
    (h : name.toList = before ++ c :: Nat.toDigits 10 n) (hc : c.isDigit = false) :
    numberMark name = some c := by
  have hdigits : ∀ d ∈ (Nat.toDigits 10 n).reverse, d.isDigit = true := fun d hd =>
    Nat.isDigit_of_mem_toDigits (by decide) (by decide) (List.mem_reverse.mp hd)
  rw [numberMark, h, List.reverse_append, List.reverse_cons, List.append_assoc,
    List.dropWhile_append_of_pos hdigits]
  simp [hc]

/-- In the name of the function of a state that is an `s`. -/
theorem numberMark_stateFunctionName (stem : String) (id : StateId) :
    numberMark (stateFunctionName stem id) = some 's' := by
  have hlist : (stateFunctionName stem id).toList =
      (stem.toList ++ ['_']) ++ 's' :: Nat.toDigits 10 id := by
    rw [toList_stateFunctionName]
    simp
  exact numberMark_of_toList _ hlist (by decide)

/-- The names that are numbered, and the name of the function that is imported. -/
def numberedNames (heads expressions : Nat) (indices : List Nat) : List String :=
  importedFunction :: ((List.range heads).map headName ++
    ((List.range expressions).map expressionName ++ indices.map operandFunctionName))

variable {heads expressions : Nat} {indices : List Nat} {name : String}

/-- What the names are that items get by their numbers. -/
theorem mem_numberedNames (h : name ∈ numberedNames heads expressions indices) :
    name = importedFunction ∨ ∃ n, name = headName n ∨ name = expressionName n ∨
      name = operandFunctionName n := by
  simp only [numberedNames, List.mem_cons, List.mem_append, List.mem_map] at h
  rcases h with h | ⟨n, -, rfl⟩ | ⟨n, -, rfl⟩ | ⟨n, -, rfl⟩
  · exact .inl h
  · exact .inr ⟨n, .inl rfl⟩
  · exact .inr ⟨n, .inr (.inl rfl)⟩
  · exact .inr ⟨n, .inr (.inr rfl)⟩

/-- **These names are reserved.** -/
theorem isReservedName_of_mem (h : name ∈ numberedNames heads expressions indices) :
    isReservedName name = true := by
  rcases mem_numberedNames h with rfl | ⟨n, rfl | rfl | rfl⟩ <;>
    simp [isReservedName, importedFunction, headName, expressionName, operandFunctionName]

/-- Names that items get by their numbers have no `#`. -/
theorem hash_not_mem_of_mem (h : name ∈ numberedNames heads expressions indices) :
    '#' ∉ name.toList := by
  rcases mem_numberedNames h with rfl | ⟨n, rfl | rfl | rfl⟩
  · decide
  all_goals
    simp [headName, expressionName, operandFunctionName, hash_not_mem_digits]

/-- They are not the names of functions of states. -/
theorem numberMark_of_mem (h : name ∈ numberedNames heads expressions indices) :
    numberMark name ≠ some 's' := by
  have hunderscore : some '_' ≠ some 's' := by decide
  rcases mem_numberedNames h with rfl | ⟨n, rfl | rfl | rfl⟩
  · decide
  · have hlist : (headName n).toList = "HEAD".toList ++ '_' :: Nat.toDigits 10 n := by
      simp [headName]
    exact numberMark_of_toList _ hlist (by decide) ▸ hunderscore
  · have hlist : (expressionName n).toList = "EXPR".toList ++ '_' :: Nat.toDigits 10 n := by
      simp [expressionName]
    exact numberMark_of_toList _ hlist (by decide) ▸ hunderscore
  · have hlist : (operandFunctionName n).toList =
        "match_operands".toList ++ '_' :: Nat.toDigits 10 n := by
      simp [operandFunctionName]
    exact numberMark_of_toList _ hlist (by decide) ▸ hunderscore

/-- **They are different:** their kinds are told apart by one of the first characters. -/
theorem nodup_numberedNames (h : indices.Nodup) :
    (numberedNames heads expressions indices).Nodup := by
  have hdiffer {a b : String} (k : Nat) (h : a.toList[k]? ≠ b.toList[k]?) : a ≠ b :=
    fun heq => h (heq ▸ rfl)
  have hheads := List.nodup_range.map (fun _ _ => headName_injective) (l := List.range heads)
  have hexpressions := List.nodup_range.map (fun _ _ => expressionName_injective)
    (l := List.range expressions)
  have hoperands := h.map fun _ _ => operandFunctionName_injective
  refine List.nodup_cons.mpr ⟨fun hmem => ?_, hheads.append (hexpressions.append hoperands ?_) ?_⟩
  · simp only [List.mem_append, List.mem_map] at hmem
    rcases hmem with ⟨n, -, heq⟩ | ⟨n, -, heq⟩ | ⟨n, -, heq⟩
    · exact hdiffer 0 (by simp [headName, importedFunction]) heq
    · exact hdiffer 0 (by simp [expressionName, importedFunction]) heq
    · exact hdiffer 6 (by simp [operandFunctionName, importedFunction]) heq
  · intro name hexpression hoperand
    obtain ⟨n, -, rfl⟩ := List.mem_map.mp hexpression
    obtain ⟨k, -, heq⟩ := List.mem_map.mp hoperand
    exact hdiffer 0 (by simp [operandFunctionName, expressionName]) heq
  · intro name hhead hother
    obtain ⟨n, -, rfl⟩ := List.mem_map.mp hhead
    rcases List.mem_append.mp hother with hexpression | hoperand
    · obtain ⟨k, -, heq⟩ := List.mem_map.mp hexpression
      exact hdiffer 0 (by simp [expressionName, headName]) heq
    · obtain ⟨k, -, heq⟩ := List.mem_map.mp hoperand
      exact hdiffer 0 (by simp [operandFunctionName, headName]) heq

/-! ### The names of a module -/

/-- The name of the type of a matcher. -/
def Reference.type? : Reference → Option String
  | head _ | expression _ | function _ => none
  | matcher name => some name

/-- Definitions are different if those of values have different names, and those of types. -/
theorem nodup_of_names {definitions : List Reference}
    (hvalues : (definitions.filterMap Reference.value?).Nodup)
    (htypes : (definitions.filterMap Reference.type?).Nodup) : definitions.Nodup := by
  refine ((List.pairwise_filterMap.mp hvalues).and (List.pairwise_filterMap.mp htypes)).imp ?_
  rintro r _ ⟨hvalue, htype⟩ rfl
  cases r with
  | head name => exact hvalue name rfl name rfl rfl
  | expression name => exact hvalue name rfl name rfl rfl
  | function name => exact hvalue name rfl name rfl rfl
  | matcher name => exact htype name rfl name rfl rfl

/-- The functions of a net define themselves and those of their states. -/
theorem filterMap_value?_definitions (function : MatcherFunction) :
    function.definitions.filterMap Reference.value? =
      function.name :: function.states.map StateFunction.name := by
  rw [MatcherFunction.definitions, List.filterMap_cons, List.filterMap_map]
  exact congrArg (function.name :: ·) (List.filterMap_eq_map ▸ rfl)

/-- **The names of values among items,** by their kinds. -/
theorem names_perm (items : List Item) :
    ((items.flatMap Item.definitions).filterMap Reference.value?).Perm
      ((headsIn items).map Prod.fst ++ ((expressionsIn items).map Prod.fst ++
        ((typesIn items).map (·.function.name) ++
          ((typesIn items).flatMap (·.function.states)).map StateFunction.name))) := by
  induction items with
  | nil => exact .refl _
  | cons item rest ih =>
    rw [List.flatMap_cons, List.filterMap_append]
    -- An item adds its names in the place of its kind, so it is enough to count.
    refine (ih.append_left _).trans (List.perm_iff_count.mpr fun name => ?_)
    cases item with
    | head own head =>
      simp only [Item.definitions, headsIn, expressionsIn, typesIn, List.filterMap_cons,
        List.filterMap_nil, List.map_cons, List.count_append, List.count_cons, List.count_nil,
        Reference.value?]
      omega
    | expression own constructor =>
      simp only [Item.definitions, headsIn, expressionsIn, typesIn, List.filterMap_cons,
        List.filterMap_nil, List.map_cons, List.count_append, List.count_cons, List.count_nil,
        Reference.value?]
      omega
    | matcher type =>
      have hown : type.definitions.filterMap Reference.value? =
          type.function.name :: type.function.states.map StateFunction.name :=
        filterMap_value?_definitions type.function
      simp only [Item.definitions, hown, headsIn, expressionsIn, typesIn, List.filterMap_cons,
        List.map_cons, List.flatMap_cons, List.map_append, List.count_append, List.count_cons]
      omega

/-- The types of a module are those of its matchers. -/
theorem filterMap_type?_definitions (m : Module) :
    m.definitions.filterMap Reference.type? = m.matcherTypes.map MatcherType.name := by
  have hfunction (function : MatcherFunction) :
      function.definitions.filterMap Reference.type? = [] := by
    simp [MatcherFunction.definitions, Reference.type?]
  rw [Module.definitions, List.filterMap_append, hfunction, List.append_nil, Module.matcherTypes]
  induction m.items with
  | nil => rfl
  | cons item rest ih =>
    rw [List.flatMap_cons, List.filterMap_append, ih]
    cases item with
    | head name head => rfl
    | expression name constructor => rfl
    | matcher type =>
      rw [Item.definitions, MatcherType.definitions, List.filterMap_cons, hfunction]
      rfl

section Generated

variable {m : Module} {e emission : Emission} {main : MatcherFunction} {net : Net}

/-- The names of the static items and of the functions of matchers. -/
theorem numberedNames_perm (hlisted : e.Listed) {types : List MatcherType} {indices : List Nat}
    (htypes : typesIn e.items = types) (h : List.Forall₂ MatcherType.Numbered types indices) :
    (importedFunction :: (e.items.flatMap Item.definitions).filterMap Reference.value?).Perm
      (numberedNames e.heads.length e.expressions.length indices ++
        (types.flatMap (·.function.states)).map StateFunction.name) := by
  have hheads : (headsIn e.items).map Prod.fst = (List.range e.heads.length).map headName := by
    rw [hlisted.heads, List.map_map, List.range_eq_range', ← List.zipIdx_map_snd 0 e.heads,
      List.map_map]
    rfl
  have hexpressions : (expressionsIn e.items).map Prod.fst =
      (List.range e.expressions.length).map expressionName := by
    rw [(map_fst_of_builds hlisted.expressions).1, List.range_eq_range',
      ← List.zipIdx_map_snd 0 e.expressions, List.map_map]
    rfl
  have hfunctions : types.map (·.function.name) = indices.map operandFunctionName := by
    clear htypes
    induction h with
    | nil => rfl
    | cons hnumbered _ ih => rw [List.map_cons, List.map_cons, hnumbered.function, ih]
  have hperm := (names_perm e.items).cons importedFunction
  rw [hheads, hexpressions, htypes, hfunctions] at hperm
  refine hperm.trans (.of_eq ?_)
  simp [numberedNames]

/-- The names of the functions of states are never reserved for something else. -/
theorem ne_stateFunctionName {stem owner : String} (hstem : isReservedName stem = false)
    (howner : owner = stem ∨ ∃ index, owner = operandFunctionName index) (id : StateId) :
    stem ≠ stateFunctionName owner id := by
  intro heq
  rcases howner with rfl | ⟨index, rfl⟩
  · have hlength := congrArg List.length (congrArg String.toList heq)
    rw [toList_stateFunctionName, List.length_append] at hlength
    simp at hlength
  · rw [heq] at hstem
    simp [isReservedName, stateFunctionName, operandFunctionName] at hstem

/-- **All values of a module have different identifiers,** if the public function without its mark
    has no reserved name. -/
theorem nodup_identifiers (hformed : net.Formed)
    (h : Emits (emitNet name true net) {} main emission)
    (hhash : '#' ∉ (withoutRawMark name).toList)
    (hname : isReservedName (withoutRawMark name) = false) :
    (Module.mk emission.items main).identifiers.Nodup := by
  obtain rfl := name_of_emits h
  obtain ⟨hgrows, -, ids, hids, hmain⟩ := netEmitted_emitNet hformed h
  obtain ⟨types, indices, htypes, hnumbered, hnodup, -⟩ := hgrows.types
  let m : Module := ⟨emission.items, main⟩
  have hstates : m.states.map StateFunction.name =
      (types.flatMap (·.function.states)).map StateFunction.name ++
        main.states.map StateFunction.name := by
    rw [m.states_eq, List.map_append]
    exact congrArg (fun all : List MatcherType =>
      (all.flatMap (·.function.states)).map StateFunction.name ++ _) htypes
  have hfrom : ∀ other ∈ m.states.map StateFunction.name, ∃ owner id,
      other = stateFunctionName owner id ∧
        (owner = withoutRawMark main.name ∨ ∃ index, owner = operandFunctionName index) := by
    intro other hother
    rcases List.mem_append.mp (hstates ▸ hother) with hother | hother
    · obtain ⟨index, -, id, rfl⟩ := (nodup_names_of_numbered hnumbered hnodup).2 other hother
      exact ⟨_, id, rfl, .inr ⟨index, rfl⟩⟩
    · obtain ⟨id, -, rfl⟩ := List.mem_map.mp (hmain ▸ hother)
      exact ⟨_, id, rfl, .inl rfl⟩
  have hnames : (importedFunction :: m.definitions.filterMap Reference.value?).Perm
      (numberedNames emission.heads.length emission.expressions.length indices ++
        (main.name :: m.states.map StateFunction.name)) := by
    rw [Module.definitions, List.filterMap_append, filterMap_value?_definitions, hstates]
    refine
      ((numberedNames_perm (hgrows.listed ⟨rfl, .nil⟩) htypes hnumbered).append_right _).trans ?_
    rw [List.append_assoc]
    exact List.perm_middle.append_left _
  -- Only the name of the public function may have a mark.
  have hunmarked : ∀ other ∈ m.states.map StateFunction.name, withoutRawMark other = other := by
    intro other hother
    obtain ⟨owner, id, rfl, howner⟩ := hfrom other hother
    refine withoutRawMark_eq_self (hash_not_mem_stateFunctionName ?_ id)
    rcases howner with rfl | ⟨index, rfl⟩
    · exact hhash
    · simp [operandFunctionName, hash_not_mem_digits]
  have hidentifiers : m.identifiers.Perm
      (numberedNames emission.heads.length emission.expressions.length indices ++
        (withoutRawMark main.name :: m.states.map StateFunction.name)) := by
    refine (hnames.map withoutRawMark).trans (.of_eq ?_)
    rw [List.map_append, List.map_cons, List.map_congr_left hunmarked, List.map_id',
      List.map_congr_left fun other hother => withoutRawMark_eq_self (hash_not_mem_of_mem hother),
      List.map_id']
  have hdistinct := (distinct_of_emits hformed h fun index _ =>
    ne_operandFunctionName hname index).states
  -- The public name is not reserved, and the numbers of states stand behind another character.
  refine hidentifiers.nodup_iff.mpr ((nodup_numberedNames hnodup).append
    (List.nodup_cons.mpr ⟨fun hmem => ?_, hdistinct⟩) fun other hnumber hother => ?_)
  · obtain ⟨owner, id, heq, howner⟩ := hfrom _ hmem
    exact ne_stateFunctionName hname howner id heq
  · rcases List.mem_cons.mp hother with rfl | hother
    · rw [isReservedName_of_mem hnumber] at hname
      cases hname
    · obtain ⟨owner, id, rfl, -⟩ := hfrom other hother
      exact numberMark_of_mem hnumber (numberMark_stateFunctionName owner id)

/-! ### References -/

/-- A module with the items of an emission defines whatever has been emitted. -/
theorem Emission.Listed.defines (hlisted : e.Listed) (hitems : m.items = e.items) :
    m.Defines e := by
  have hmem {item : Item} (hitem : item ∈ e.items) {r : Reference} (hr : r ∈ item.definitions) :
      r ∈ m.definitions :=
    List.mem_append_left _ (List.mem_flatMap.mpr ⟨item, hitems ▸ hitem, hr⟩)
  refine ⟨fun index hindex => ?_, fun index hindex => ?_, fun type htype r hr =>
    hmem (mem_typesIn.mp htype) hr⟩
  · have hentry : (headName index, e.heads[index]) ∈ headsIn e.items := by
      rw [hlisted.heads]
      exact List.mem_map.mpr ⟨(e.heads[index], index),
        List.mem_zipIdx_iff_getElem?.mpr (List.getElem?_eq_getElem hindex), rfl⟩
    exact hmem (mem_headsIn.mp hentry) List.mem_cons_self
  · obtain ⟨item, hitem, hbuilds⟩ := (map_fst_of_builds hlisted.expressions).2
      (e.expressions[index], index)
      (List.mem_zipIdx_iff_getElem?.mpr (List.getElem?_eq_getElem hindex))
    have hname : item.1 = expressionName index := hbuilds.name
    exact hmem (mem_expressionsIn.mp hitem) (hname ▸ List.mem_cons_self)

/-- **Whatever a module refers to is defined.** -/
theorem references_subset (hformed : net.Formed)
    (h : Emits (emitNet name true net) {} main emission) :
    (Module.mk emission.items main).references ⊆ (Module.mk emission.items main).definitions := by
  let m : Module := ⟨emission.items, main⟩
  have hlisted := (netEmitted_emitNet hformed h).grows.listed ⟨rfl, .nil⟩
  have hm : m.Defines emission := hlisted.defines rfl
  obtain ⟨hmain, hadds⟩ := references_emitNet hformed h hm (List.subset_append_right _ _)
  refine List.append_subset.mpr ⟨fun r hr => ?_, hmain⟩
  obtain ⟨item, hitem, hr⟩ := List.mem_flatMap.mp hr
  cases item with
  | head name head => exact absurd hr List.not_mem_nil
  | expression name constructor =>
    obtain ⟨other, hother, rfl⟩ := List.mem_map.mp hr
    obtain ⟨index, hindex, rfl⟩ := refers_of_builds hlisted.expressions (name, constructor)
      (mem_expressionsIn.mpr hitem) other hother
    exact hm.heads index hindex
  | matcher type =>
    exact (hadds type (mem_typesIn.mpr hitem)).elim
      (fun hnone => absurd hnone List.not_mem_nil) (· hr)

end Generated

end Code

/-- **Emitted modules are closed, and have no name twice.**  Whatever the patterns, all functions
    of states and of matchers, static items and types of matchers that a module for their net
    refers to are defined exactly once, and no two values of the module have the same identifier, if
    the name of the public function is not reserved without its mark either. -/
theorem modules_are_closed {functionName : String} {patterns : List Pattern}
    {generated : Code.GeneratedModule}
    (hgenerate : Code.generate functionName (Net.ofPatterns patterns) = .ok generated)
    (hname : Code.isReservedName (Text.withoutRawMark generated.code.main.name) = false) :
    (∀ r ∈ generated.code.references, generated.code.definitions.count r = 1) ∧
      generated.code.identifiers.Nodup := by
  have hformed := Net.formed_ofPatterns patterns
  have hhash := Code.hash_not_mem_withoutRawMark (Code.identifier_of_generate hgenerate)
  obtain ⟨name, main, emission, -, hemits, rfl⟩ := Code.emits_of_generate hgenerate
  obtain rfl := Code.name_of_emits hemits
  have hidentifiers := Code.nodup_identifiers hformed hemits hhash hname
  have htypes := (Code.distinct_of_emits hformed hemits fun index _ =>
    Code.ne_operandFunctionName hname index).types
  have hdefinitions : (Code.Module.mk emission.items main).definitions.Nodup :=
    Code.nodup_of_names (List.nodup_cons.mp hidentifiers.of_map).2
      (Code.filterMap_type?_definitions _ ▸ htypes)
  exact ⟨fun r hr => List.count_eq_one_of_mem hdefinitions
    (Code.references_subset hformed hemits hr), hidentifiers⟩

/-- The module for two patterns of sums refers to its items, and defines what it refers to. -/
theorem modules_are_closed_for_sums :
    ∃ generated, Code.generate Code.defaultFunctionName
        (Net.ofPatterns [sampleSum, sampleSuccessor]) = .ok generated ∧
      Code.isReservedName (Text.withoutRawMark generated.code.main.name) = false ∧
      (∀ r ∈ generated.code.references, generated.code.definitions.count r = 1) ∧
      generated.code.identifiers.Nodup ∧
      .matcher "CommutativeMatcher0" ∈ generated.code.references := by
  obtain ⟨generated, hgenerate, hfound⟩ := Code.exists_of_map_toOption (b := ("match_root", true))
    (show (Code.generate Code.defaultFunctionName
      (Net.ofPatterns [sampleSum, sampleSuccessor])).toOption.map (fun generated =>
        (generated.code.main.name,
          decide (.matcher "CommutativeMatcher0" ∈ generated.code.references))) = _ by
        decide +kernel)
  obtain ⟨hmain, hmatcher⟩ := Prod.mk.inj hfound
  have hname : Code.isReservedName (Text.withoutRawMark generated.code.main.name) = false :=
    hmain ▸ by decide +kernel
  obtain ⟨hreferences, hidentifiers⟩ := modules_are_closed hgenerate hname
  exact ⟨generated, hgenerate, hname, hreferences, hidentifiers, of_decide_eq_true hmatcher⟩

/-- **A raw name may be that of a static item.**  Then a function and a static item have the same
    identifier. -/
theorem raw_names_collide :
    ∃ generated, Code.generate "r#HEAD_0" (Net.ofPatterns [sampleIncrease]) = .ok generated ∧
      ¬ generated.code.identifiers.Nodup := by
  obtain ⟨generated, hgenerate, hfound⟩ := Code.exists_of_map_toOption (b := false)
    (show (Code.generate "r#HEAD_0" (Net.ofPatterns [sampleIncrease])).toOption.map
      (fun generated => decide generated.code.identifiers.Nodup) = _ by decide +kernel)
  exact ⟨generated, hgenerate, of_decide_eq_false hfound⟩

end TermNet
