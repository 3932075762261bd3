import TermNet.Proofs.Net.Interpreted
import TermNet.Proofs.Pattern.Positional

namespace TermNet

/-!
# Which function a custom constraint stands for

Custom constraints with the same path and the same variables are registered once.  So a net
asks the function of the first of them, and never those of the others.

* `firstMeaning` — the functions that come first in a list of constraints;
* `Leads` — constraints that follow a meaning, or come after one like them;
* `Net.Follows` — nets whose registries follow a meaning, at every level;
* `Pattern.resolved`, `Pattern.matches_resolved` — a pattern with the functions that come
  first finds what the pattern finds.
-/

/-! ### Constraints that are the same -/

/-- The function of a custom constraint with this path and these variables. -/
def Constraint.function? (path : String) (names : List String) (c : Constraint) :
    Option (List Binding → Bool) :=
  match c.check with
  | .builtin _ => none
  | .custom own function =>
    if own = path ∧ c.variableNames = names then some function else none

/-- **The functions that come first.** -/
def firstMeaning (cs : List Constraint) : Meaning := fun path names =>
  (cs.findSome? (Constraint.function? path names)).getD fun _ => true

namespace Constraint

variable {d : Constraint}

/-- The function of a custom constraint is found under its own path and variables. -/
theorem function?_custom (path : String) (names : List String) (f : List Binding → Bool) :
    function? path names ⟨.custom path f, names⟩ = some f := by
  simp [function?]

/-- A constraint that has the function for a path counts as one with that path. -/
theorem same_of_function? {path : String} {names : List String} {f g : List Binding → Bool}
    (h : d.function? path names = some g) : d.same ⟨.custom path f, names⟩ = true := by
  obtain ⟨check, own⟩ := d
  cases check with
  | builtin predicate => simp [function?] at h
  | custom other function =>
    simp only [function?, Option.ite_none_right_eq_some] at h
    simp [same, Check.same, h.1.1, h.1.2]

end Constraint

/-! ### Constraints one after the other -/

variable {meaning : Meaning}

/-- Behind the constraints `seen`, those of the list follow the meaning, or come after one
    that is the same. -/
def Leads (meaning : Meaning) : (seen cs : List Constraint) → Prop
  | _, [] => True
  | seen, c :: rest =>
    (c.Follows meaning ∨ ∃ d ∈ seen, d.same c = true) ∧ Leads meaning (seen ++ [c]) rest

variable {seen cs more : List Constraint}

/-- A list of constraints leads if its beginning does, and the rest does behind it. -/
theorem leads_append :
    Leads meaning seen (cs ++ more) ↔ Leads meaning seen cs ∧ Leads meaning (seen ++ cs) more := by
  induction cs generalizing seen with
  | nil => simp [Leads]
  | cons c rest ih =>
    rw [List.cons_append, Leads, Leads, ih, List.append_assoc, List.singleton_append, and_assoc]

/-- Leaving out constraints together with all that are the same. -/
theorem Leads.filter {keep : Constraint → Bool} {kept : List Constraint}
    (h : Leads meaning seen cs) (hkeep : ∀ c d : Constraint, d.same c = true → keep d = keep c)
    (hkept : ∀ d ∈ seen, keep d = true → d ∈ kept) : Leads meaning kept (cs.filter keep) := by
  induction cs generalizing seen kept with
  | nil => trivial
  | cons c rest ih =>
    obtain ⟨hfirst, hrest⟩ := h
    cases hc : keep c with
    | false =>
      rw [List.filter_cons_of_neg (by simp [hc])]
      refine ih hrest fun d hd hkeepd => ?_
      rcases List.mem_append.mp hd with hd | hd
      · exact hkept d hd hkeepd
      · rw [List.mem_singleton.mp hd, hc] at hkeepd
        simp at hkeepd
    | true =>
      rw [List.filter_cons_of_pos hc]
      refine ⟨hfirst.imp_right fun ⟨d, hd, hsame⟩ =>
        ⟨d, hkept d hd (hkeep c d hsame ▸ hc), hsame⟩, ih hrest fun d hd hkeepd => ?_⟩
      exact (List.mem_append.mp hd).elim (fun hd => List.mem_append_left _ (hkept d hd hkeepd))
        fun hd => List.mem_append_right _ hd

/-- **The functions that come first** are followed, or come after one that is the same. -/
theorem leads_firstMeaning (seen cs : List Constraint) :
    Leads (firstMeaning (seen ++ cs)) seen cs := by
  induction cs generalizing seen with
  | nil => trivial
  | cons c rest ih =>
    have hrest := ih (seen ++ [c])
    rw [List.append_assoc, List.singleton_append] at hrest
    refine ⟨?_, hrest⟩
    obtain ⟨check, names⟩ := c
    cases check with
    | builtin predicate => exact .inl trivial
    | custom path f =>
      -- Another one with the same path and variables may have come before.
      cases hseen : seen.findSome? (Constraint.function? path names) with
      | some g =>
        obtain ⟨d, hd, hfunction⟩ := List.exists_of_findSome?_eq_some hseen
        exact .inr ⟨d, hd, Constraint.same_of_function? hfunction⟩
      | none =>
        refine .inl ?_
        show f = firstMeaning _ path names
        rw [firstMeaning, List.findSome?_append, hseen, Option.none_or, List.findSome?_cons,
          Constraint.function?_custom]
        rfl

/-- Constraints of an operand. -/
theorem Leads.operandConstraints (h : Leads meaning [] cs) (p : PatternTerm) :
    Leads meaning [] (operandConstraints cs p) := by
  refine h.filter (fun c d hsame => ?_) fun d hd => absurd hd List.not_mem_nil
  rw [Constraint.isAbout, Constraint.isAbout, Constraint.variableNames_eq_of_same hsame]

/-! ### Registries -/

namespace ConstraintRegistry

variable {registry : ConstraintRegistry}

/-- **Registering keeps the functions that come first.** -/
theorem follows_registerAll (hregistry : ∀ c ∈ registry.constraints, c.Follows meaning)
    (hseen : ∀ d ∈ seen, ∃ e ∈ registry.constraints, e.same d = true)
    (hcs : Leads meaning seen cs) (owner : Nat) :
    (∀ c ∈ (registry.registerAll owner cs).1.constraints, c.Follows meaning) ∧
      ∀ d ∈ seen ++ cs, ∃ e ∈ (registry.registerAll owner cs).1.constraints, e.same d = true := by
  induction cs generalizing registry seen with
  | nil =>
    rw [List.append_nil]
    exact ⟨hregistry, hseen⟩
  | cons c rest ih =>
    obtain ⟨hfirst, hrest⟩ := hcs
    have hnew := constraints_register registry c owner
    rw [← List.singleton_append, ← List.append_assoc]
    refine @ih (seen ++ [c]) (registry.register c owner).1 ?_ ?_ hrest
    · intro e he
      rw [hnew] at he
      split at he
      · exact hregistry e he
      · rename_i hany
        rcases List.mem_append.mp he with he | he
        · exact hregistry e he
        · rw [List.mem_singleton.mp he]
          -- A constraint that is registered anew is like none before, and so it is the first one.
          refine hfirst.resolve_right fun ⟨d, hd, hsame⟩ => hany ?_
          obtain ⟨e, he, hed⟩ := hseen d hd
          exact List.any_eq_true.mpr ⟨e, he, Constraint.same_trans hed hsame⟩
    · intro d hd
      rw [hnew]
      split
      · rename_i hany
        rcases List.mem_append.mp hd with hd | hd
        · exact hseen d hd
        · rw [List.mem_singleton.mp hd]
          exact List.any_eq_true.mp hany
      · rcases List.mem_append.mp hd with hd | hd
        · obtain ⟨e, he, hsame⟩ := hseen d hd
          exact ⟨e, List.mem_append_left _ he, hsame⟩
        · rw [List.mem_singleton.mp hd]
          exact ⟨c, List.mem_append_right _ (List.mem_singleton.mpr rfl), Constraint.same_self c⟩

/-- A registry that follows a meaning has its functions already. -/
theorem interpret_eq_self (h : ∀ c ∈ registry.constraints, c.Follows meaning) :
    registry.interpret meaning = registry := by
  obtain ⟨entries⟩ := registry
  refine congrArg ConstraintRegistry.mk ((List.map_congr_left fun entry hentry => ?_).trans
    (List.map_id entries))
  have hfollows := h entry.constraint (List.mem_map_of_mem hentry)
  rw [hfollows.interpret_eq]
  rfl

end ConstraintRegistry

/-! ### Nets -/

/-- **The registries of a net follow a meaning,** at every level. -/
inductive Net.Follows (meaning : Meaning) : Net → Prop
  | intro {net : Net} (registry : ∀ c ∈ net.registry.constraints, c.Follows meaning)
    (matchers : ∀ m ∈ net.matchers, Follows meaning m.net) : Follows meaning net

/-- Such a net matches like the one in which all constraints follow the meaning. -/
theorem Net.Follows.matches_interpret {net : Net} (h : net.Follows meaning) (t : Term) :
    (net.interpret meaning).matches t = net.matches t := by
  induction h generalizing t with
  | @intro net hregistry _ ih =>
    have hmatchers : operandMatchers (net.matchers.map (CommutativeMatcher.interpret meaning)) =
        operandMatchers net.matchers := by
      rw [operandMatchers_eq, operandMatchers_eq, List.map_map]
      refine List.map_congr_left fun m hm => ?_
      rw [Function.comp_apply, CommutativeMatcher.operandMatcher_eq,
        CommutativeMatcher.operandMatcher_eq, CommutativeMatcher.interpret_eq]
      exact congrArg (OperandMatcher.mk m.head m.patterns) (funext (ih m hm))
    rw [Net.interpret_eq, ConstraintRegistry.interpret_eq_self hregistry]
    obtain ⟨root, stateCount, registry, matchers, patternCount⟩ := net
    rw [Net.matches, Net.matches, hmatchers]

/-- The nets of the matchers follow the meaning, too. -/
theorem Net.Follows.of_mem {net : Net} (h : net.Follows meaning) :
    ∀ m ∈ net.matchers, m.net.Follows meaning := by
  cases h with
  | intro _ matchers => exact matchers

/-- The net without patterns. -/
theorem Net.follows_empty : Net.empty.Follows meaning :=
  .intro (fun _ hc => absurd hc List.not_mem_nil) fun _ hm => absurd hm List.not_mem_nil

/-- **Inserting a pattern** whose constraints lead keeps the registry in line with the meaning. -/
theorem Net.Follows.insertSteps {net : Net} (h : net.Follows meaning) {entry : Entry}
    (hentry : Leads meaning [] (entry.locals ++ entry.globals)) (steps : List Step)
    {matchers : List CommutativeMatcher} (hmatchers : ∀ m ∈ matchers, m.net.Follows meaning) :
    (net.insertSteps entry steps matchers).Follows meaning := by
  have hregistry : ∀ c ∈ net.registry.constraints, c.Follows meaning := by
    cases h with
    | intro registry _ => exact registry
  obtain ⟨hlocals, hglobals⟩ := leads_append.mp hentry
  obtain ⟨hfirst, hseen⟩ := ConstraintRegistry.follows_registerAll hregistry
    (fun d hd => absurd hd List.not_mem_nil) hlocals entry.index
  have hregistered := ConstraintRegistry.follows_registerAll hfirst hseen hglobals entry.index
  exact .intro hregistered.1 hmatchers

/-! ### Steps -/

/-- All matchers of a tree follow the meaning. -/
def CollectsFollowing (meaning : Meaning) (p : PatternTerm) : Prop :=
  ∀ constraints parent matchers, Leads meaning [] constraints →
    (∀ m ∈ matchers, m.net.Follows meaning) →
      ∀ m ∈ (collectSteps constraints parent p matchers).2, m.net.Follows meaning

/-- The matchers of ordered arguments follow the meaning. -/
theorem collectStepsAll_following {args : List PatternTerm}
    (hargs : ∀ p ∈ args, CollectsFollowing meaning p) (hcs : Leads meaning [] cs) (head : Head)
    {matchers : List CommutativeMatcher} (hmatchers : ∀ m ∈ matchers, m.net.Follows meaning) :
    ∀ m ∈ (collectStepsAll cs head args matchers).2, m.net.Follows meaning := by
  induction args generalizing matchers with
  | nil => exact hmatchers
  | cons p ps ih =>
    rw [collectStepsAll]
    exact ih (fun q hq => hargs q (List.mem_cons_of_mem p hq))
      (hargs p List.mem_cons_self cs (some head) matchers hcs hmatchers)

/-- The matcher of a commutative operation follows the meaning. -/
theorem collectOperands_following {args : List PatternTerm}
    (hargs : ∀ p ∈ args, CollectsFollowing meaning p) (hcs : Leads meaning [] cs) (head : Head)
    {matcher : CommutativeMatcher} (hmatcher : matcher.net.Follows meaning) :
    (collectOperands cs head args matcher).2.net.Follows meaning := by
  induction args generalizing matcher with
  | nil => exact hmatcher
  | cons p ps ih =>
    have hps := fun {matcher : CommutativeMatcher} =>
      @ih (fun q hq => hargs q (List.mem_cons_of_mem p hq)) matcher
    rw [collectOperands]
    cases p.sequenceVariable? head with
    | some var => exact hps hmatcher
    | none =>
      dsimp only
      cases matcher.operands.findIdx? (OperandPattern.same ⟨p, operandConstraints cs p⟩) with
      | some index => exact hps hmatcher
      -- Only operands that are new insert anything.
      | none =>
        refine hps ?_
        rw [CommutativeMatcher.withOperand_eq]
        have hleads := hcs.operandConstraints p
        refine hmatcher.insertSteps ?_ _
          (hargs p List.mem_cons_self _ none _ hleads hmatcher.of_mem)
        show Leads meaning [] (operandConstraints cs p ++ [])
        rwa [List.append_nil]

/-- Changing the matcher of a head keeps the others as they are. -/
theorem change_following {α : Type} {head : Head} {f : CommutativeMatcher → α × CommutativeMatcher}
    (hf : ∀ m : CommutativeMatcher, m.net.Follows meaning → (f m).2.net.Follows meaning)
    {matchers : List CommutativeMatcher} (hmatchers : ∀ m ∈ matchers, m.net.Follows meaning) :
    ∀ m ∈ (CommutativeMatcher.change head f matchers).2.2, m.net.Follows meaning := by
  induction matchers with
  | nil =>
    rw [CommutativeMatcher.change]
    simpa using hf (.ofHead head) Net.follows_empty
  | cons matcher rest ih =>
    have hfirst := hmatchers matcher List.mem_cons_self
    have hrest := ih fun m hm => hmatchers m (List.mem_cons_of_mem _ hm)
    rw [CommutativeMatcher.change]
    split
    · exact List.forall_mem_cons.mpr ⟨hf matcher hfirst,
        fun m hm => hmatchers m (List.mem_cons_of_mem _ hm)⟩
    · exact List.forall_mem_cons.mpr ⟨hfirst, hrest⟩

/-- **The matchers of a tree** follow the functions that come first. -/
theorem collectSteps_following (p : PatternTerm) : CollectsFollowing meaning p := by
  induction p using PatternTerm.inductionOn with
  | atom t => exact fun _ _ _ _ hmatchers => hmatchers
  | wildcard w => exact fun _ _ _ _ hmatchers => hmatchers
  | node head args ih =>
    intro constraints parent matchers hleads hmatchers
    cases hcomm : head.isCommutative with
    | true =>
      rw [collectSteps_commutative hcomm]
      refine change_following (fun m hm => ?_) hmatchers
      have hoperands := collectOperands_following ih hleads head hm
      rw [registerOperation_eq, CommutativeMatcher.register]
      split <;> exact hoperands
    | false =>
      rw [collectSteps_ordered hcomm]
      exact collectStepsAll_following ih hleads head hmatchers

/-! ### Patterns -/

namespace Pattern

variable {pattern : Pattern}

/-- What the custom constraints of a pattern stand for, on its positional variables. -/
def ownMeaning (pattern : Pattern) : Meaning :=
  firstMeaning (pattern.positionalLocals ++ pattern.positionalGlobals)

/-- A constraint of the pattern with the function that it stands for. -/
def resolve (pattern : Pattern) (c : Constraint) : Constraint :=
  { c with
    check := c.check.interpret (pattern.ownMeaning · (c.variableNames.map pattern.position)) }

/-- **The pattern with the functions** that its custom constraints stand for. -/
def resolved (pattern : Pattern) : Pattern :=
  { pattern with
    constraints := pattern.constraints.map pattern.resolve
    globals := pattern.globals.map pattern.resolve }

/-- A pattern with the functions that come first has the same paths and variables. -/
theorem interprets_resolved (pattern : Pattern) :
    pattern.Interprets pattern.ownMeaning pattern.resolved where
  tree := rfl
  locals := by
    unfold positionalLocals resolved
    rw [List.map_map, List.map_map]
    rfl
  globals := by
    unfold positionalGlobals resolved
    rw [List.map_map, List.map_map]
    rfl

/-- A pattern with the functions that come first follows its own meaning. -/
theorem follows_resolved (pattern : Pattern) : pattern.resolved.Follows pattern.ownMeaning := by
  intro c hc
  have h := pattern.interprets_resolved
  rw [h.locals, h.globals, ← List.map_append] at hc
  obtain ⟨d, -, rfl⟩ := List.mem_map.mp hc
  exact d.follows_interpret

/-- Constraints do not matter to how a pattern is built. -/
theorem Built.resolved (h : pattern.Built) : pattern.resolved.Built := by
  refine built_of_constraint h.variableKinds fun c hc => ?_
  rw [Pattern.resolved, ← List.map_append] at hc
  obtain ⟨d, hd, rfl⟩ := List.mem_map.mp hc
  exact h.constraint d hd

/-- **A net asks the functions that come first:** with them alone it finds the same. -/
theorem matches_resolved (pattern : Pattern) (t : Term) :
    (Net.ofPatterns [pattern.resolved]).matches t = (Net.ofPatterns [pattern]).matches t := by
  have hleads : Leads pattern.ownMeaning []
      (pattern.positionalLocals ++ pattern.positionalGlobals) := leads_firstMeaning [] _
  have hfollows : (Net.ofPatterns [pattern]).Follows pattern.ownMeaning := by
    show (Net.empty.add pattern).Follows pattern.ownMeaning
    rw [Net.add_eq]
    refine Net.follows_empty.insertSteps hleads _ ?_
    exact collectSteps_following _ _ none _ (leads_append.mp hleads).1
      fun m hm => absurd hm List.not_mem_nil
  rw [Net.ofPatterns_interpret (.cons pattern.interprets_resolved .nil)]
  exact hfollows.matches_interpret t

end Pattern

end TermNet
