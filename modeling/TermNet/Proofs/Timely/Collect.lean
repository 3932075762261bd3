import TermNet.Proofs.Timely.Insert
import TermNet.Proofs.Pattern.Scope
import TermNet.Proofs.Net.Patterns

namespace TermNet

/-!
# The steps of a pattern say what they bind

The step of a wildcard binds its variable.  The step of a commutative pattern is said to bind all
variables of the operation; they are those of the operands that the matcher has for it and of its
sequence variables, however many patterns share the operands.

* `mem_binds_collectSteps` — the steps of a tree bind all its variables;
* `continues_collectSteps` — the matchers go on with what they have;
* `mem_boundBy_registerOperation` — the variables of a registered operation;
* `announced_collectSteps`, `collectsTimely` — by induction on the tree;
* `Net.timely_ofPatterns` — the nets of patterns.
-/

variable {matchers : List CommutativeMatcher} {constraints : List Constraint}

/-! ### What the steps bind -/

/-- **The steps of a tree** bind all its variables. -/
theorem mem_binds_collectSteps {p : PatternTerm} {x : String} (hx : x ∈ p.variableNames)
    (constraints : List Constraint) (parent : Option Head) (matchers : List CommutativeMatcher) :
    x ∈ (collectSteps constraints parent p matchers).1.flatMap Step.binds := by
  induction p using PatternTerm.inductionOn generalizing constraints parent matchers with
  | atom t =>
    obtain ⟨w, hw, -⟩ := PatternTerm.mem_variableNames.mp hx
    exact absurd hw (by simp [PatternTerm.wildcards])
  | wildcard w =>
    have hname := PatternTerm.mem_variableNames_wildcard.mp hx
    show x ∈ [wildcardStep parent w].flatMap Step.binds
    simp [wildcardStep, hname]
  | node head args ih =>
    cases hcomm : head.isCommutative with
    | true =>
      rw [collectSteps_commutative hcomm]
      simp [hx]
    | false =>
      -- A part of the arguments, since the matchers change from one to the next.
      have hall : ∀ (qs : List PatternTerm) (matchers : List CommutativeMatcher),
          (∀ q ∈ qs, q ∈ args) → (∃ q ∈ qs, x ∈ q.variableNames) →
          x ∈ (collectStepsAll constraints head qs matchers).1.flatMap Step.binds := by
        intro qs
        induction qs with
        | nil =>
          rintro _ _ ⟨q, hq, -⟩
          exact absurd hq List.not_mem_nil
        | cons q rest ihrest =>
          rintro matchers hsub ⟨r, hr, hxr⟩
          rw [collectStepsAll, List.flatMap_append, List.mem_append]
          rcases List.mem_cons.mp hr with rfl | hr
          · exact .inl (ih r (hsub r List.mem_cons_self) hxr _ _ _)
          · exact .inr (ihrest _ (fun s hs => hsub s (List.mem_cons_of_mem _ hs)) ⟨r, hr, hxr⟩)
      rw [collectSteps_ordered hcomm]
      have hbinds := hall args matchers (fun _ => id) (PatternTerm.mem_variableNames_node.mp hx)
      simpa using hbinds

/-! ### The matchers -/

/-- Changing the matcher of a head continues the matchers if it continues that one. -/
theorem continues_change {α : Type} {head : Head}
    {f : CommutativeMatcher → α × CommutativeMatcher}
    (hf : ∀ m : CommutativeMatcher, m.ContinuedBy (f m).2) (matchers : List CommutativeMatcher) :
    Continues matchers (CommutativeMatcher.change head f matchers).2.2 := by
  intro position m hm
  rcases getElem?_change matchers hm with hsame | ⟨-, hchanged⟩
  · exact ⟨m, hsame, .refl m⟩
  · exact ⟨_, hchanged, hf m⟩

/-- The operands that are collected come after those that are there. -/
theorem continuedBy_collectOperands (constraints : List Constraint) (head : Head)
    (args : List PatternTerm) (m : CommutativeMatcher) :
    m.ContinuedBy (collectOperands constraints head args m).2 := by
  induction args generalizing m with
  | nil => exact .refl m
  | cons p ps ih =>
    rw [collectOperands]
    split
    · exact ih m
    · dsimp only
      split
      · exact ih m
      · refine .trans ?_ (ih _)
        rw [CommutativeMatcher.withOperand_eq]
        exact ⟨rfl, List.prefix_refl _, List.prefix_append _ _⟩

/-- One more pattern continues a matcher. -/
theorem continuedBy_register (m : CommutativeMatcher) (pattern : CommutativePattern) :
    m.ContinuedBy (m.register pattern).2 := by
  obtain ⟨-, more, -, hregister⟩ := m.register_eq pattern
  rw [hregister]
  exact ⟨rfl, List.prefix_append _ _, List.prefix_refl _⟩

/-- One more operation continues a matcher. -/
theorem continuedBy_registerOperation (constraints : List Constraint) (head : Head)
    (args : List PatternTerm) (m : CommutativeMatcher) :
    m.ContinuedBy (registerOperation constraints head args m).2 := by
  rw [registerOperation_eq]
  exact (continuedBy_collectOperands constraints head args m).trans (continuedBy_register _ _)

/-- The steps of ordered arguments continue the matchers. -/
theorem continues_collectStepsAll {args : List PatternTerm}
    (hargs : ∀ p ∈ args, ∀ parent matchers,
      Continues matchers (collectSteps constraints parent p matchers).2)
    (head : Head) (matchers : List CommutativeMatcher) :
    Continues matchers (collectStepsAll constraints head args matchers).2 := by
  induction args generalizing matchers with
  | nil => exact .refl matchers
  | cons p ps ih =>
    rw [collectStepsAll]
    exact (hargs p List.mem_cons_self (some head) matchers).trans
      (ih (fun q hq => hargs q (List.mem_cons_of_mem p hq)) _)

/-- **The matchers go on with what they have** when the steps of a tree are collected. -/
theorem continues_collectSteps (constraints : List Constraint) (parent : Option Head)
    (p : PatternTerm) (matchers : List CommutativeMatcher) :
    Continues matchers (collectSteps constraints parent p matchers).2 := by
  induction p using PatternTerm.inductionOn generalizing parent matchers with
  | atom t => exact .refl matchers
  | wildcard w => exact .refl matchers
  | node head args ih =>
    cases hcomm : head.isCommutative with
    | true =>
      rw [collectSteps_commutative hcomm]
      exact continues_change (continuedBy_registerOperation constraints head args) matchers
    | false =>
      rw [collectSteps_ordered hcomm]
      exact continues_collectStepsAll (fun p hp => ih p hp) head matchers

/-! ### The variables of an operation -/

/-- **The operands that are collected** have the variables of those arguments that are not
    sequence variables: an operand that is there already has the same tree. -/
theorem mem_names_collectOperands {head : Head} {args : List PatternTerm} {m : CommutativeMatcher}
    {x : String} :
    (∃ o ∈ (collectOperands constraints head args m).1, ∃ operand,
      (collectOperands constraints head args m).2.operands[o]? = some operand ∧
        x ∈ operand.tree.variableNames) ↔
      ∃ p ∈ args, p.sequenceVariable? head = none ∧ x ∈ p.variableNames := by
  induction args generalizing m with
  | nil => simp [collectOperands]
  | cons p ps ih =>
    rw [collectOperands]
    cases hvar : p.sequenceVariable? head with
    | some var =>
      rw [ih]
      simp [hvar]
    | none =>
      -- Wherever the operand is found, its tree is that of the argument.
      have hfinish : ∀ (index : Nat) (next : CommutativeMatcher) (operand : OperandPattern),
          next.operands[index]? = some operand → operand.tree = p →
          ((∃ o ∈ index :: (collectOperands constraints head ps next).1, ∃ operand,
            (collectOperands constraints head ps next).2.operands[o]? = some operand ∧
              x ∈ operand.tree.variableNames) ↔
            ∃ q ∈ p :: ps, q.sequenceVariable? head = none ∧ x ∈ q.variableNames) := by
        intro index next operand hoperand htree
        have hkept : (collectOperands constraints head ps next).2.operands[index]? =
            some operand := by
          rw [(continuedBy_collectOperands constraints head ps next).operand
            (List.getElem?_eq_some_iff.mp hoperand).1, hoperand]
        have hrest := ih (m := next)
        simp only [List.exists_mem_cons_iff, hkept, Option.some.injEq, exists_eq_left', htree,
          hvar, true_and, hrest]
      dsimp only
      cases hfind : m.operands.findIdx?
          (OperandPattern.same ⟨p, operandConstraints constraints p⟩) with
      | some index =>
        obtain ⟨hlt, hsame, -⟩ := List.findIdx?_eq_some_iff_getElem.mp hfind
        refine hfinish index m m.operands[index] (List.getElem?_eq_getElem hlt) ?_
        simp only [OperandPattern.same, Bool.and_eq_true, decide_eq_true_eq] at hsame
        exact hsame.1.1.symm
      | none =>
        refine hfinish m.operands.length _ ⟨p, operandConstraints constraints p⟩ ?_ rfl
        exact List.getElem?_concat_length

/-- **The variables of a registered operation** are those of its pattern in the matcher. -/
theorem mem_boundBy_registerOperation (constraints : List Constraint) (head : Head)
    (args : List PatternTerm) (m : CommutativeMatcher) : ∃ pattern,
      (registerOperation constraints head args m).2.patterns[
        (registerOperation constraints head args m).1]? = some pattern ∧
      ∀ x, x ∈ (registerOperation constraints head args m).2.boundBy pattern ↔
        x ∈ (PatternTerm.node head args).variableNames := by
  rw [registerOperation_eq]
  let collected := collectOperands constraints head args m
  let pattern : CommutativePattern :=
    ⟨sortBy (· ≤ ·) collected.1, sequenceVariables head args⟩
  obtain ⟨hpattern, more, -, hregister⟩ := collected.2.register_eq pattern
  refine ⟨pattern, hpattern, fun x => ?_⟩
  have hoperands : (collected.2.register pattern).2.operands = collected.2.operands := by
    rw [hregister]
  have hnames : (∃ o ∈ sortBy (· ≤ ·) collected.1, ∃ operand,
      collected.2.operands[o]? = some operand ∧ x ∈ operand.tree.variableNames) ↔
        ∃ p ∈ args, p.sequenceVariable? head = none ∧ x ∈ p.variableNames := by
    simp only [(sortBy_perm _ _).mem_iff]
    exact mem_names_collectOperands
  have hbound : x ∈ (collected.2.register pattern).2.boundBy pattern ↔
      (∃ o ∈ sortBy (· ≤ ·) collected.1, ∃ operand, collected.2.operands[o]? = some operand ∧
        x ∈ operand.tree.variableNames) ∨ ∃ v ∈ sequenceVariables head args, v.name = some x := by
    simp only [CommutativeMatcher.boundBy, hoperands, List.mem_append, List.mem_flatMap,
      List.mem_filterMap, pattern]
    refine or_congr ⟨?_, ?_⟩ Iff.rfl
    · rintro ⟨operand, ⟨o, ho, hoperand⟩, hx⟩
      exact ⟨o, ho, operand, hoperand, hx⟩
    · rintro ⟨o, ho, operand, hoperand, hx⟩
      exact ⟨operand, ⟨o, ho, hoperand⟩, hx⟩
  rw [hbound, hnames, PatternTerm.mem_variableNames_node]
  constructor
  · rintro (⟨p, hp, -, hx⟩ | ⟨v, hv, hname⟩)
    · exact ⟨p, hp, hx⟩
    · exact PatternTerm.mem_variableNames_node.mp (mem_of_name_sequenceVariable hv hname)
  · rintro ⟨p, hp, hx⟩
    -- An argument is an operand or a sequence variable.
    cases hvar : p.sequenceVariable? head with
    | none => exact .inl ⟨p, hp, hvar, hx⟩
    | some var =>
      obtain ⟨w, rfl, hw⟩ := PatternTerm.sequenceVariable?_eq_some hvar
      obtain ⟨v, hv, hname⟩ := exists_sequenceVariable hp hvar
      refine .inr ⟨v, hv, ?_⟩
      rw [hname, sequenceVariable?_name hw, PatternTerm.mem_variableNames_wildcard.mp hx]

/-! ### The steps of a tree -/

/-- One step that says what it binds. -/
theorem announced_single {stage : Stage} {step : Step} (h : step.Announces matchers stage) :
    Announced matchers stage [step] := ⟨h, fun _ _ => trivial⟩

/-- A step that binds nothing says so. -/
theorem announces_of_binds_nil {stage : Stage} {step : Step} (hbinds : step.binds = [])
    (h : ∀ state : State, step.label.binds matchers state step.variableName = []) :
    step.Announces matchers stage := by
  intro state _ x
  rw [h, hbinds]

/-- The step of a wildcard binds its variable, and says so. -/
theorem announces_wildcardStep (parent : Option Head) (w : Wildcard) (stage : Stage) :
    (wildcardStep parent w).Announces matchers stage := by
  intro state _ x
  rcases label_wildcardStep parent w with ⟨kind, hlabel⟩ | ⟨minCount, wrap, hlabel⟩ <;>
    rw [hlabel] <;> exact Iff.rfl

/-- Behind the label of an operation, the state knows the variables of its pattern. -/
theorem announces_operands (constraints : List Constraint) (head : Head)
    (args : List PatternTerm) (depth : Nat) (hmatchers : ∀ m ∈ matchers, m.Formed) :
    let changed :=
      CommutativeMatcher.change head (registerOperation constraints head args) matchers
    Step.Announces changed.2.2 (.choosing depth head)
      { label := .operands changed.2.1, binds := (PatternTerm.node head args).variableNames } := by
  intro changed state hstands x
  obtain ⟨-, -, hposition, m, -, -, hresult, hget⟩ :=
    formed_change (f := registerOperation constraints head args)
      (fun m hm _ => (changes_registerOperation (fun p _ => hasShape p) head hm).1) hmatchers
  obtain ⟨pattern, hpattern, hnames⟩ :=
    mem_boundBy_registerOperation constraints head args m
  cases state with
  | branch edges => exact absurd rfl (hstands depth head)
  | accept markers => exact Stage.noConfusion hstands
  | commutative position edges =>
    obtain ⟨d, other, heq, hother⟩ := hstands
    obtain ⟨rfl, rfl⟩ := Stage.choosing.inj heq
    obtain rfl : changed.1 = position := Option.some.inj (hposition.symm.trans hother)
    -- The pattern that the label names is the one that has been registered.
    have hget : changed.2.2[changed.1]? = some (registerOperation constraints head args m).2 := hget
    have hresult : changed.2.1 = (registerOperation constraints head args m).1 := hresult
    simp only [Label.binds, hget, hresult, Option.bind_some, hpattern, Option.map_some,
      Option.getD_some, hnames]

/-- The steps of ordered arguments say what they bind. -/
theorem announced_collectStepsAll {args : List PatternTerm}
    (hargs : ∀ p ∈ args, ∀ parent matchers, (∀ m ∈ matchers, CommutativeMatcher.Formed m) →
      ∀ depth, Announced (collectSteps constraints parent p matchers).2 (.within depth)
        (collectSteps constraints parent p matchers).1)
    (head : Head) (hmatchers : ∀ m ∈ matchers, m.Formed) (depth : Nat) :
    Announced (collectStepsAll constraints head args matchers).2 (.within (depth + 1))
      (collectStepsAll constraints head args matchers).1 := by
  induction args generalizing matchers with
  | nil => trivial
  | cons p ps ih =>
    have hshaped := hasShape p constraints (some head) matchers hmatchers
    -- Later arguments only add to the matchers, so the first steps still say what they bind.
    have hcontinues : Continues _ (collectStepsAll constraints head ps _).2 :=
      continues_collectStepsAll
        (fun q _ parent matchers => continues_collectSteps constraints parent q matchers) head
        (collectSteps constraints (some head) p matchers).2
    rw [collectStepsAll]
    refine Announced.append ((hshaped.runs (depth + 1)).enlarge hcontinues.enlarges) ?_
      (ih (fun q hq => hargs q (List.mem_cons_of_mem p hq)) hshaped.formed)
    exact (hargs p List.mem_cons_self _ _ hmatchers (depth + 1)).continued
      (hshaped.runs (depth + 1))
      (fun m hm => (hshaped.formed m hm).listed) hcontinues

/-- **The steps of a tree say what they bind.** -/
theorem announced_collectSteps (constraints : List Constraint) (parent : Option Head)
    (p : PatternTerm) (hmatchers : ∀ m ∈ matchers, m.Formed) (depth : Nat) :
    Announced (collectSteps constraints parent p matchers).2 (.within depth)
      (collectSteps constraints parent p matchers).1 := by
  induction p using PatternTerm.inductionOn generalizing parent matchers depth with
  | atom t => exact announced_single (announces_of_binds_nil rfl fun _ => rfl)
  | wildcard w => exact announced_single (announces_wildcardStep parent w _)
  | node head args ih =>
    cases hcomm : head.isCommutative with
    | true =>
      have hoperands := announces_operands constraints head args depth hmatchers
      rw [collectSteps_commutative hcomm]
      refine ⟨announces_of_binds_nil rfl fun _ => rfl, fun next hnext => ?_⟩
      obtain rfl : Stage.choosing depth head = next := Option.some.inj hnext
      exact announced_single hoperands
    | false =>
      have hall : ShapedAll constraints head args matchers _ :=
        shapedAll_collectStepsAll (fun q _ => hasShape q) constraints head hmatchers
      have hsteps := announced_collectStepsAll
        (fun p hp parent _ hm depth => ih p hp parent hm depth)
        head hmatchers depth
      rw [collectSteps_ordered hcomm]
      refine ⟨announces_of_binds_nil rfl fun _ => rfl, fun next hnext => ?_⟩
      obtain rfl : Stage.within (depth + 1) = next := Option.some.inj hnext
      exact hsteps.append (hall.runs depth)
        (announced_single (announces_of_binds_nil rfl fun _ => rfl))

/-! ### The matchers check in time -/

/-- What is true of the matchers with the operations of a tree, wherever it stands. -/
def CollectsTimely (p : PatternTerm) : Prop :=
  ∀ constraints parent matchers, (∀ m ∈ matchers, CommutativeMatcher.Formed m) →
    (∀ m ∈ matchers, CommutativeMatcher.Timely m) →
      ∀ m ∈ (collectSteps constraints parent p matchers).2, m.Timely

/-- **One more operand,** whose constraints are about its variables. -/
theorem CommutativeMatcher.Timely.withOperand {m : CommutativeMatcher} (h : m.Timely)
    (hm : m.Formed) {p : PatternTerm} (hp : CollectsTimely p) (constraints : List Constraint) :
    let operand : OperandPattern := ⟨p, operandConstraints constraints p⟩
    let collected := collectSteps operand.constraints none p m.net.matchers
    (m.withOperand operand collected.1 collected.2).2.Timely := by
  intro operand collected
  have hbinds : ∀ c ∈ (m.entryOf operand).locals,
      c.variableNames ≠ [] ∧ ∀ x ∈ c.variableNames, x ∈ collected.1.flatMap Step.binds := by
    intro c hc
    -- An operand gets the constraints about its variables, which its steps bind.
    have hselected := (List.mem_filter.mp hc).2
    simp only [Bool.and_eq_true, Bool.not_eq_true', List.isEmpty_eq_false_iff, Constraint.isAbout,
      List.all_eq_true, List.contains_eq_mem, decide_eq_true_eq] at hselected
    exact ⟨hselected.1, fun x hx => mem_binds_collectSteps (hselected.2 x hx) _ _ _⟩
  rw [CommutativeMatcher.withOperand_eq]
  unfold CommutativeMatcher.Timely
  rw [List.map_append]
  exact Net.Timely.insertSteps h hm.net hm.listed.count.symm hbinds (continues_collectSteps _ _ _ _)
    (hp _ _ _ hm.net.matcher h.matcher)
    ((hasShape p operand.constraints none m.net.matchers hm.net.matcher).runs 0)
    (announced_collectSteps _ _ _ hm.net.matcher 0)

/-- The operands of a commutative operation are checked in time. -/
theorem timely_collectOperands {args : List PatternTerm} (hargs : ∀ p ∈ args, CollectsTimely p)
    (constraints : List Constraint) (head : Head) {m : CommutativeMatcher} (hm : m.Formed)
    (h : m.Timely) : (collectOperands constraints head args m).2.Timely := by
  induction args generalizing m with
  | nil => exact h
  | cons p ps ih =>
    have hps : ∀ q ∈ ps, CollectsTimely q := fun q hq => hargs q (List.mem_cons_of_mem p hq)
    rw [collectOperands]
    split
    · exact ih hps hm h
    · dsimp only
      split
      · exact ih hps hm h
      · have hformed := (hm.withOperand ⟨p, operandConstraints constraints p⟩
          (hasShape p (operandConstraints constraints p) none m.net.matchers
            hm.net.matcher)).1.formed
        exact ih hps hformed (h.withOperand hm (hargs p List.mem_cons_self) constraints)

/-- Registering an operation adds a pattern and no constraints. -/
theorem timely_registerOperation {args : List PatternTerm} (hargs : ∀ p ∈ args, CollectsTimely p)
    (constraints : List Constraint) (head : Head) {m : CommutativeMatcher} (hm : m.Formed)
    (h : m.Timely) : (registerOperation constraints head args m).2.Timely := by
  rw [registerOperation_eq]
  obtain ⟨-, more, -, hregister⟩ := (collectOperands constraints head args m).2.register_eq
    ⟨sortBy (· ≤ ·) (collectOperands constraints head args m).1, sequenceVariables head args⟩
  rw [hregister]
  exact timely_collectOperands hargs constraints head hm h

/-- The matchers of ordered arguments check in time. -/
theorem timely_collectStepsAll {args : List PatternTerm} (hargs : ∀ p ∈ args, CollectsTimely p)
    (constraints : List Constraint) (head : Head) (hmatchers : ∀ m ∈ matchers, m.Formed)
    (h : ∀ m ∈ matchers, m.Timely) :
    ∀ m ∈ (collectStepsAll constraints head args matchers).2, m.Timely := by
  induction args generalizing matchers with
  | nil => exact h
  | cons p ps ih =>
    rw [collectStepsAll]
    exact ih (fun q hq => hargs q (List.mem_cons_of_mem p hq))
      (hasShape p constraints (some head) matchers hmatchers).formed
      (hargs p List.mem_cons_self _ _ _ hmatchers h)

/-- **The matchers with the operations of a tree** check in time. -/
theorem collectsTimely (p : PatternTerm) : CollectsTimely p := by
  induction p using PatternTerm.inductionOn with
  | atom t => exact fun _ _ _ _ h => h
  | wildcard w => exact fun _ _ _ _ h => h
  | node head args ih =>
    intro constraints parent matchers hmatchers h
    cases hcomm : head.isCommutative with
    | true =>
      rw [collectSteps_commutative hcomm]
      intro m hm
      rcases mem_change hm with hm | ⟨old, hold, -, rfl⟩
      · exact h m hm
      · rcases hold with hold | rfl
        · exact timely_registerOperation ih constraints head (hmatchers old hold) (h old hold)
        · exact timely_registerOperation ih constraints head
            (CommutativeMatcher.formed_ofHead head) Net.timely_empty
    | false =>
      rw [collectSteps_ordered hcomm]
      exact timely_collectStepsAll ih constraints head hmatchers h

/-! ### Nets of patterns -/

/-- **One more pattern** is checked in time, and the others still are. -/
theorem Net.Timely.add {net : Net} {locals : List (List Constraint)} (h : net.Timely locals)
    (hformed : net.Formed) {pattern : Pattern} (hpattern : pattern.Built) :
    (net.add pattern).Timely (locals ++ [pattern.positionalLocals]) := by
  have hbinds : ∀ c ∈ (net.entryFor pattern).locals, c.variableNames ≠ [] ∧
      ∀ x ∈ c.variableNames, x ∈ (net.collectedFor pattern).1.flatMap Step.binds := by
    intro c hc
    obtain ⟨hnames, hvariables⟩ := Net.bound_positionalLocals hpattern c hc
    exact ⟨hnames, fun x hx => mem_binds_collectSteps (hvariables x hx) _ _ _⟩
  rw [Net.add_eq]
  exact h.insertSteps hformed rfl hbinds (continues_collectSteps _ _ _ _)
    (collectsTimely _ _ _ _ hformed.matcher h.matcher) ((hasShape _ _ _ _ hformed.matcher).runs 0)
    (announced_collectSteps _ _ _ hformed.matcher 0)

/-- **The nets of patterns check their constraints in time.** -/
theorem Net.timely_ofPatterns {patterns : List Pattern} (hbuilt : ∀ p ∈ patterns, p.Built) :
    (Net.ofPatterns patterns).Timely (patterns.map Pattern.positionalLocals) := by
  induction patterns using List.reverseRecOn with
  | nil => exact Net.timely_empty
  | append_singleton patterns pattern ih =>
    rw [Net.ofPatterns_append, List.map_append]
    exact (ih fun p hp => hbuilt p (List.mem_append_left _ hp)).add
      (Net.formed_ofPatterns patterns)
      (hbuilt pattern (List.mem_append_right _ (List.mem_singleton_self _)))

end TermNet
