import TermNet.Proofs.Code.Nets
import TermNet.Proofs.Pattern.Built

namespace TermNet

/-!
# Emitted modules match like their nets

A module is run as a structured program.  The functions of the states of its nets are called by
their names, and static items and the types of matchers are found by theirs, each among those of
its own kind.  So a module matches like the net that it was emitted for, with all matches in the
same order, as long as no two of these functions have one name.

The functions of states are named after the function of their net, without the mark `r#` of a raw
identifier.  So two of them have one name only if the public function is a raw identifier for the
name of an operand function, such as `r#match_operands_0`, which is not reserved because of its
mark.  A raw identifier may as well be the name of a static item (`r#HEAD_0`), of the function of
a state (`r#match_operands_0_s0`) or of the imported `match_commutative`.  Such names are found
among different kinds, and change nothing here; `modules_are_closed` asks for a public function
without them.  Whether it hides a name of the prelude, such as `Some`, is not looked at.

* `Code.distinct_of_emits` — different functions of states have different names;
* `Code.matches_of_generate` — a module matches like its net;
* `emitted_modules_agree` — modules for the nets of patterns.
-/

namespace Code

open Text (withoutRawMark)

variable {functionName name : String} {net : Net} {generated : GeneratedModule}
variable {main : MatcherFunction} {emission : Emission}
variable {checks : Source.Path → List Binding → Bool}

/-- What has been emitted for a module. -/
theorem emits_of_generate (h : generate functionName net = .ok generated) :
    ∃ name main emission, isReservedName name = false ∧
      Emits (emitNet name true net) {} main emission ∧
      generated = ⟨⟨emission.items, main⟩, net.patternCount, emission.matcherCount⟩ := by
  unfold generate at h
  split at h
  · exact nomatch h
  · rename_i name _
    split at h
    · exact nomatch h
    · rename_i hreserved
      split at h
      · exact nomatch h
      · rename_i main emission hemits
        split at h
        · exact ⟨name, main, emission, Bool.not_eq_true _ ▸ hreserved, hemits,
            (Except.ok.inj h).symm⟩
        · exact nomatch h

/-- What has been read as the name of the public function. -/
theorem identifier_of_generate (h : generate functionName net = .ok generated) :
    Source.identifier? functionName = some generated.code.main.name := by
  unfold generate at h
  split at h
  · exact nomatch h
  · rename_i name hname
    split at h
    · exact nomatch h
    · split at h
      · exact nomatch h
      · rename_i main emission hemits
        split at h
        · obtain rfl := Except.ok.inj h
          rw [hname, name_of_emits hemits]
        · exact nomatch h

/-- What is known of the module if there is one. -/
theorem exists_of_map_toOption {α β ε : Type} {x : Except ε α} {f : α → β} {b : β}
    (h : x.toOption.map f = some b) : ∃ a, x = .ok a ∧ f a = b := by
  cases x with
  | error error => exact nomatch h
  | ok a => exact ⟨a, rfl, Option.some.inj h⟩

/-! ### Names -/

/-- **Without the mark of a raw identifier** no accepted name is that of an operand function. -/
theorem ne_operandFunctionName_of_generate (h : generate functionName net = .ok generated)
    (hraw : withoutRawMark generated.code.main.name = generated.code.main.name) (index : Nat) :
    withoutRawMark generated.code.main.name ≠ operandFunctionName index := by
  obtain ⟨name, main, emission, hreserved, hemits, rfl⟩ := emits_of_generate h
  obtain rfl := name_of_emits hemits
  rw [hraw]
  exact ne_operandFunctionName hreserved index

/-- The names of the functions of matchers: they are different, and each begins with the name of
    an operand function. -/
theorem nodup_names_of_numbered {types : List MatcherType} {indices : List Nat}
    (h : List.Forall₂ MatcherType.Numbered types indices) (hnodup : indices.Nodup) :
    ((types.flatMap (·.function.states)).map StateFunction.name).Nodup ∧
      ∀ name ∈ (types.flatMap (·.function.states)).map StateFunction.name,
        ∃ index ∈ indices, ∃ id, name = stateFunctionName (operandFunctionName index) id := by
  induction h with
  | nil => exact ⟨List.nodup_nil, fun _ hname => absurd hname List.not_mem_nil⟩
  | @cons type index types indices hnumbered _ ih =>
    obtain ⟨hfirst, hrest⟩ := List.nodup_cons.mp hnodup
    obtain ⟨hothers, hfrom⟩ := ih hrest
    obtain ⟨ids, hids, hnames⟩ := hnumbered.states
    rw [List.flatMap_cons, List.map_append, hnames]
    constructor
    · refine List.Nodup.append
        (hids.map fun id id' hsame => (stateFunctionName_injective hsame).2) hothers
        fun name hname hname' => ?_
      obtain ⟨id, -, rfl⟩ := List.mem_map.mp hname
      obtain ⟨other, hother, id', hsame⟩ := hfrom _ hname'
      -- The number of a matcher can be read off the names of its functions.
      exact hfirst (operandFunctionName_injective (stateFunctionName_injective hsame).1 ▸ hother)
    · intro name hname
      rcases List.mem_append.mp hname with hname | hname
      · obtain ⟨id, -, rfl⟩ := List.mem_map.mp hname
        exact ⟨index, List.mem_cons_self, id, rfl⟩
      · obtain ⟨other, hother, id, rfl⟩ := hfrom name hname
        exact ⟨other, List.mem_cons_of_mem _ hother, id, rfl⟩

/-- **All functions of the states of a module have different names,** unless those of its net are
    named like those of a matcher.  Types of matchers have different names in any case. -/
theorem distinct_of_emits (hformed : net.Formed)
    (h : Emits (emitNet name true net) {} main emission)
    (hname : ∀ index < emission.matcherCount, withoutRawMark name ≠ operandFunctionName index) :
    (Module.mk emission.items main).Distinct := by
  obtain ⟨hgrows, -, ids, hids, hmain⟩ := netEmitted_emitNet hformed h
  obtain ⟨types, indices, htypes, hnumbered, hnodup, hrange⟩ := hgrows.types
  have hall : (Module.mk emission.items main).matcherTypes = types := htypes
  obtain ⟨hmatchers, hfrom⟩ := nodup_names_of_numbered hnumbered hnodup
  constructor
  · rw [Module.states_eq, hall, List.map_append, hmain]
    refine List.Nodup.append hmatchers
      (hids.map fun id id' hsame => (stateFunctionName_injective hsame).2)
      fun other hother hother' => ?_
    obtain ⟨index, hindex, id, rfl⟩ := hfrom other hother
    obtain ⟨id', -, hsame⟩ := List.mem_map.mp hother'
    -- A clash would mean that the net is named like the matcher.
    exact hname index (hrange index hindex).2 (stateFunctionName_injective hsame).1
  · have hnames : types.map MatcherType.name = indices.map matcherTypeName := by
      clear htypes hall hnodup hrange hmatchers hfrom
      induction hnumbered with
      | nil => rfl
      | cons hnumbered _ ih => rw [List.map_cons, List.map_cons, hnumbered.name, ih]
    rw [hall, hnames]
    exact hnodup.map fun index other hsame => matcherTypeName_injective hsame

/-! ### Matching -/

/-- **A module matches like the net** that it was emitted for. -/
theorem matches_of_generate (hformed : net.Formed) (hplain : net.Plain (Denotes checks))
    (hgenerate : generate functionName net = .ok generated)
    (hname : ∀ index < generated.matcherCount,
      withoutRawMark generated.code.main.name ≠ operandFunctionName index) :
    generated.code.matches checks = net.matches := by
  obtain ⟨name, main, emission, -, hemits, rfl⟩ := emits_of_generate hgenerate
  obtain rfl := name_of_emits hemits
  have hdistinct := distinct_of_emits hformed hemits hname
  have hnet := netEmitted_emitNet hformed hemits
  have hlisted : Emission.Listed {} := ⟨rfl, .nil⟩
  let m : Module := ⟨emission.items, main⟩
  have hholds : m.Holds emission :=
    ⟨(hnet.grows.listed hlisted).knownTo m rfl, fun type htype => htype⟩
  have hstates : m.states = (typesIn emission.items).flatMap (·.function.states) ++ main.states :=
    m.states_eq
  -- calls are nested as deep as there are functions
  have hdepth : m.states.length = net.functionCount := by
    have hcount : functionsIn emission.items + main.states.length = 0 + net.functionCount :=
      hnet.functions
    rw [hstates, List.length_append, ← functionsIn, hcount, Nat.zero_add]
  exact matches_emitNet hformed hplain hdistinct hemits hholds
    (fun f hf => hstates ▸ List.mem_append_right _ hf) hdepth.ge

end Code

/-- **Emitted modules agree with the nets of patterns.**  Whatever the patterns and the subject,
    a module for their net finds the matches of the net in the same order, if custom constraints
    denote the functions that they are checked by and the public function is no raw identifier for
    the name of an operand function, so that no two functions of states have one name. -/
theorem emitted_modules_agree {functionName : String} {patterns : List Pattern}
    {generated : Code.GeneratedModule} {checks : Source.Path → List Binding → Bool}
    (hterms : ∀ p ∈ patterns, ∀ t ∈ p.tree.terms, t.Canonical)
    (hchecks : ∀ p ∈ patterns, ∀ c ∈ p.constraints ++ p.globals, Code.Denotes checks c.check)
    (hgenerate : Code.generate functionName (Net.ofPatterns patterns) = .ok generated)
    (hname : ∀ index < generated.matcherCount,
      Text.withoutRawMark generated.code.main.name ≠ Code.operandFunctionName index)
    (subject : Term) :
    generated.code.matches checks subject = (Net.ofPatterns patterns).matches subject := by
  have hplain : ∀ p ∈ patterns, p.Plain (Code.Denotes checks) := fun p hp =>
    ⟨hterms p hp, fun c hc => hchecks p hp c (List.mem_append_left _ hc),
      fun c hc => hchecks p hp c (List.mem_append_right _ hc)⟩
  exact congrFun (Code.matches_of_generate (Net.formed_ofPatterns patterns)
    (Net.plain_ofPatterns hplain) hgenerate hname) subject

/-- The terms of the two patterns are canonical. -/
theorem canonical_terms_samples :
    ∀ p ∈ [sampleSum, sampleSuccessor], ∀ t ∈ p.tree.terms, t.Canonical := by
  intro p hp t ht
  rcases List.mem_pair.mp hp with rfl | rfl
  · exact absurd ht List.not_mem_nil
  · have hterms : sampleSuccessor.tree.terms = [.integer 1] := by decide +kernel
    rw [hterms] at ht
    exact List.mem_singleton.mp ht ▸ .integer 1

/-- A module for two patterns of sums finds the two ways to see `1 + 1` as one of them. -/
theorem emitted_modules_agree_for_sums :
    ∃ generated, Code.generate Code.defaultFunctionName
        (Net.ofPatterns [sampleSum, sampleSuccessor]) = .ok generated ∧
      generated.code.matches (fun _ _ => true) (.build .sum [.integer 1, .integer 1]) =
        (Net.ofPatterns [sampleSum, sampleSuccessor]).matches
          (.build .sum [.integer 1, .integer 1]) ∧
      (generated.code.matches (fun _ _ => true)
        (.build .sum [.integer 1, .integer 1])).length = 2 := by
  obtain ⟨generated, hgenerate, hmain⟩ := Code.exists_of_map_toOption (b := "match_root")
    (show (Code.generate Code.defaultFunctionName
      (Net.ofPatterns [sampleSum, sampleSuccessor])).toOption.map (·.code.main.name) = _ by
        decide +kernel)
  have hchecks : ∀ p ∈ [sampleSum, sampleSuccessor], ∀ c ∈ p.constraints ++ p.globals,
      Code.Denotes (fun _ _ => true) c.check := by
    intro p hp c hc
    rcases List.mem_pair.mp hp with rfl | rfl <;>
      exact List.mem_singleton.mp hc ▸ fun _ _ => rfl
  have hagree := emitted_modules_agree canonical_terms_samples hchecks hgenerate
    (fun index _ => Code.ne_operandFunctionName_of_generate hgenerate (hmain ▸ by decide +kernel)
      index) (.build .sum [.integer 1, .integer 1])
  exact ⟨generated, hgenerate, hagree, hagree ▸ by decide +kernel⟩

/-- The sum of a variable and a symbol. -/
def sampleIncrease : Pattern where
  tree := .sum [.wildcard (.fixed "x"), .symbol "a"]
  variableKinds := .ofList [("x", .single)]

/-- **A raw name may be that of an operand function.**  Then two functions of states have one name,
    and where the one is called the other runs. -/
theorem raw_names_clash :
    ∃ generated, Code.generate "r#match_operands_0" (Net.ofPatterns [sampleIncrease]) =
        .ok generated ∧
      (∀ t ∈ sampleIncrease.tree.terms, t.Canonical) ∧
      sampleIncrease.constraints ++ sampleIncrease.globals = [] ∧
      generated.code.matches (fun _ _ => true) (.ofName "a") ≠
        (Net.ofPatterns [sampleIncrease]).matches (.ofName "a") := by
  obtain ⟨generated, hgenerate, hfound⟩ := Code.exists_of_map_toOption (b := 1)
    (show (Code.generate "r#match_operands_0" (Net.ofPatterns [sampleIncrease])).toOption.map
      (fun generated => (generated.code.matches (fun _ _ => true) (.ofName "a")).length) = _ by
        decide +kernel)
  refine ⟨generated, hgenerate, fun t ht => ?_, rfl, fun heq => ?_⟩
  · have hterms : sampleIncrease.tree.terms = [.ofName "a"] := by decide +kernel
    rw [hterms] at ht
    exact List.mem_singleton.mp ht ▸ .symbol _
  · have hnone : ((Net.ofPatterns [sampleIncrease]).matches (.ofName "a")).length = 0 := by
      decide +kernel
    rw [← heq, hfound] at hnone
    exact absurd hnone (by decide)

end TermNet
