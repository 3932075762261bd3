import TermNet.Proofs.Net.Patterns

namespace TermNet

/-!
# Other functions for custom constraints

Nothing in a net depends on what its custom constraints compute: they are told apart by
paths and variables.  So the net of patterns with other functions is the same net, with
other functions in its registries.

* `Constraint.interpret`, `Net.interpret` — constraints and nets with the functions of a
  meaning;
* `collectSteps_interpret` — the steps of a tree stay the same;
* `Net.ofPatterns_interpret` — the net of interpreted patterns is the interpreted net.
-/

variable {meaning : Meaning}

/-! ### Constraints -/

/-- The check with the function that its path stands for. -/
def Check.interpret (functions : String → List Binding → Bool) : Check → Check
  | builtin predicate => builtin predicate
  | custom path _ => custom path (functions path)

/-- The constraint with the function that its path and its variables stand for. -/
def Constraint.interpret (meaning : Meaning) (c : Constraint) : Constraint :=
  { c with check := c.check.interpret (meaning · c.variableNames) }

/-- Another function keeps the variables of a constraint. -/
@[simp] theorem Constraint.variableNames_interpret (c : Constraint) :
    (c.interpret meaning).variableNames = c.variableNames := rfl

/-- What a constraint is about does not depend on its function. -/
@[simp] theorem Constraint.isAbout_interpret (c : Constraint) (names : List String) :
    (c.interpret meaning).isAbout names = c.isAbout names := rfl

/-- A constraint with the function of a meaning follows that meaning. -/
theorem Constraint.follows_interpret (c : Constraint) : (c.interpret meaning).Follows meaning := by
  obtain ⟨check, names⟩ := c
  cases check with
  | builtin predicate => trivial
  | custom path f => rfl

/-- A constraint that follows a meaning is as the meaning says. -/
theorem Constraint.Follows.interpret_eq {c : Constraint} (h : c.Follows meaning) :
    c.interpret meaning = c := by
  obtain ⟨check, names⟩ := c
  cases check with
  | builtin predicate => rfl
  | custom path f =>
    obtain rfl : f = meaning path names := h
    rfl

/-- Functions make no difference to what constraints are the same. -/
@[simp] theorem Constraint.same_interpret (c d : Constraint) :
    (c.interpret meaning).same (d.interpret meaning) = c.same d := by
  obtain ⟨check, names⟩ := c
  obtain ⟨check', names'⟩ := d
  cases check <;> cases check' <;> rfl

/-- The constraints of an operand are chosen by their variables. -/
theorem operandConstraints_interpret (constraints : List Constraint) (p : PatternTerm) :
    operandConstraints (constraints.map (Constraint.interpret meaning)) p =
      (operandConstraints constraints p).map (Constraint.interpret meaning) :=
  List.filter_map

/-! ### Registries -/

namespace ConstraintRegistry

/-- The registry with interpreted constraints. -/
def interpret (meaning : Meaning) (registry : ConstraintRegistry) : ConstraintRegistry :=
  ⟨registry.entries.map fun entry =>
    { entry with constraint := entry.constraint.interpret meaning }⟩

variable {registry : ConstraintRegistry}

/-- **Registering** looks at paths and variables only, and gives the same number. -/
theorem register_interpret (c : Constraint) (owner : Nat) :
    (registry.interpret meaning).register (c.interpret meaning) owner =
      ((registry.register c owner).1.interpret meaning, (registry.register c owner).2) := by
  have hfind : ((registry.interpret meaning).entries.findIdx? fun entry =>
      entry.constraint.same (c.interpret meaning)) =
        registry.entries.findIdx? fun entry => entry.constraint.same c := by
    rw [interpret, List.findIdx?_map]
    refine congrArg (registry.entries.findIdx? ·) (funext fun entry => ?_)
    exact Constraint.same_interpret entry.constraint c
  unfold register
  rw [hfind]
  cases registry.entries.findIdx? fun entry => entry.constraint.same c with
  | none => simp [interpret]
  | some id =>
    refine Prod.ext (congrArg ConstraintRegistry.mk ?_) rfl
    refine List.ext_getElem? fun i => ?_
    simp only [interpret, List.getElem?_modify, List.getElem?_map]
    cases registry.entries[i]? with
    | none => simp
    | some entry => by_cases hid : id = i <;> simp [hid]

/-- Registering constraints one after the other gives the same numbers. -/
theorem registerAll_interpret (owner : Nat) (constraints : List Constraint) :
    (registry.interpret meaning).registerAll owner
        (constraints.map (Constraint.interpret meaning)) =
      ((registry.registerAll owner constraints).1.interpret meaning,
        (registry.registerAll owner constraints).2) := by
  induction constraints generalizing registry with
  | nil => rfl
  | cons c rest ih =>
    rw [List.map_cons, registerAll, registerAll, register_interpret]
    dsimp only
    rw [ih]

/-- The registered constraints with their numbers, each with its other function. -/
theorem toList_interpret :
    (registry.interpret meaning).toList =
      registry.toList.map fun (id, c) => (id, c.interpret meaning) := by
  rw [toList, toList, interpret, List.zipIdx_map, List.map_map, List.map_map]
  rfl

/-- The owners of a constraint stay the same. -/
@[simp] theorem owners_interpret (id : ConstraintId) :
    (registry.interpret meaning).owners id = registry.owners id := by
  unfold owners
  rw [interpret, List.getElem?_map, Option.map_map]
  rfl

/-- Under each number the same constraint is registered, with its other function. -/
theorem get?_interpret (id : ConstraintId) :
    (registry.interpret meaning).get? id =
      (registry.get? id).map (Constraint.interpret meaning) := by
  unfold get?
  rw [interpret, List.getElem?_map, Option.map_map, Option.map_map]
  rfl

/-- Constraints become checkable at the same step. -/
theorem readyConstraints_interpret (locals : List ConstraintId) (fresh bound : List String) :
    readyConstraints (registry.interpret meaning) locals fresh bound =
      readyConstraints registry locals fresh bound := by
  unfold readyConstraints
  rw [toList_interpret, List.filterMap_map]
  rfl

/-- Constraints are scheduled at the same steps. -/
theorem schedule_interpret (locals : List ConstraintId) (bound : List String) (steps : List Step) :
    schedule (registry.interpret meaning) locals bound steps =
      schedule registry locals bound steps := by
  induction steps generalizing bound with
  | nil => rfl
  | cons step rest ih => rw [schedule, schedule, ih, readyConstraints_interpret]

end ConstraintRegistry

/-! ### Nets -/

/-- The operand with interpreted constraints. -/
def OperandPattern.interpret (meaning : Meaning) (operand : OperandPattern) : OperandPattern :=
  { operand with constraints := operand.constraints.map (Constraint.interpret meaning) }

/-- Operands count as the same whatever their constraints compute. -/
@[simp] theorem OperandPattern.same_interpret (operand other : OperandPattern) :
    (operand.interpret meaning).same (other.interpret meaning) = operand.same other := by
  unfold same interpret
  dsimp only
  rw [List.length_map, List.length_map, List.zip_map, List.all_map]
  refine congrArg _ (congrArg (List.all _) (funext fun (c, d) => ?_))
  exact Constraint.same_interpret c d

mutual

/-- The net with interpreted constraints. -/
def Net.interpret (meaning : Meaning) : Net → Net
  | ⟨root, stateCount, registry, matchers, patternCount⟩ =>
    ⟨root, stateCount, registry.interpret meaning, interpretAll meaning matchers, patternCount⟩
termination_by structural net => net

/-- The matchers with interpreted constraints. -/
def interpretAll (meaning : Meaning) : List CommutativeMatcher → List CommutativeMatcher
  | [] => []
  | matcher :: rest => CommutativeMatcher.interpret meaning matcher :: interpretAll meaning rest
termination_by structural matchers => matchers

/-- The matcher with interpreted constraints. -/
def CommutativeMatcher.interpret (meaning : Meaning) : CommutativeMatcher → CommutativeMatcher
  | ⟨head, net, operands, patterns⟩ =>
    ⟨head, Net.interpret meaning net, operands.map (OperandPattern.interpret meaning), patterns⟩
termination_by structural matcher => matcher

end

/-- Matchers are interpreted one by one. -/
theorem interpretAll_eq (matchers : List CommutativeMatcher) :
    interpretAll meaning matchers = matchers.map (CommutativeMatcher.interpret meaning) := by
  induction matchers with
  | nil => rfl
  | cons matcher rest ih => rw [interpretAll, List.map_cons, ih]

/-- Of a net only the registries change, its own and those of its matchers. -/
theorem Net.interpret_eq (net : Net) :
    net.interpret meaning = ⟨net.root, net.stateCount, net.registry.interpret meaning,
      net.matchers.map (CommutativeMatcher.interpret meaning), net.patternCount⟩ := by
  obtain ⟨root, stateCount, registry, matchers, patternCount⟩ := net
  rw [interpret, interpretAll_eq]

/-- Of a matcher only its net and the constraints of its operands change. -/
theorem CommutativeMatcher.interpret_eq (matcher : CommutativeMatcher) :
    matcher.interpret meaning = ⟨matcher.head, matcher.net.interpret meaning,
      matcher.operands.map (OperandPattern.interpret meaning), matcher.patterns⟩ := by
  obtain ⟨head, net, operands, patterns⟩ := matcher
  rfl

/-- The entry with interpreted constraints. -/
def Entry.interpret (meaning : Meaning) (entry : Entry) : Entry :=
  { entry with
    locals := entry.locals.map (Constraint.interpret meaning)
    globals := entry.globals.map (Constraint.interpret meaning) }

/-- **Inserting steps** makes the same states. -/
theorem Net.insertSteps_interpret (net : Net) (entry : Entry) (steps : List Step)
    (matchers : List CommutativeMatcher) :
    (net.interpret meaning).insertSteps (entry.interpret meaning) steps
        (matchers.map (CommutativeMatcher.interpret meaning)) =
      (net.insertSteps entry steps matchers).interpret meaning := by
  rw [interpret_eq, interpret_eq]
  unfold insertSteps Entry.interpret
  dsimp only
  rw [ConstraintRegistry.registerAll_interpret]
  dsimp only
  rw [ConstraintRegistry.registerAll_interpret, ConstraintRegistry.schedule_interpret]

/-! ### Steps -/

namespace CommutativeMatcher

/-- A matcher without operands has no constraints. -/
theorem ofHead_interpret (head : Head) : (ofHead head).interpret meaning = ofHead head := rfl

/-- A matcher keeps its head. -/
@[simp] theorem head_interpret (matcher : CommutativeMatcher) :
    (matcher.interpret meaning).head = matcher.head := by
  rw [interpret_eq]

/-- A pattern gets the same position among those of a matcher. -/
theorem register_interpret (matcher : CommutativeMatcher) (pattern : CommutativePattern) :
    (matcher.interpret meaning).register pattern =
      ((matcher.register pattern).1, (matcher.register pattern).2.interpret meaning) := by
  rw [interpret_eq]
  unfold register
  dsimp only
  cases matcher.patterns.findIdx? fun p => decide (p = pattern) with
  | none => rw [interpret_eq]
  | some index => rw [interpret_eq]

/-- An operand gets the same position among those of a matcher. -/
theorem withOperand_interpret (matcher : CommutativeMatcher) (operand : OperandPattern)
    (steps : List Step) (matchers : List CommutativeMatcher) :
    (matcher.interpret meaning).withOperand (operand.interpret meaning) steps
        (matchers.map (interpret meaning)) =
      ((matcher.withOperand operand steps matchers).1,
        (matcher.withOperand operand steps matchers).2.interpret meaning) := by
  have hentry : (matcher.interpret meaning).entryOf (operand.interpret meaning) =
      (matcher.entryOf operand).interpret meaning := by
    rw [interpret_eq]
    simp [entryOf, Entry.interpret, OperandPattern.interpret]
  rw [withOperand_eq, withOperand_eq, hentry, interpret_eq, interpret_eq]
  dsimp only
  rw [Net.insertSteps_interpret, List.length_map, List.map_append, List.map_singleton]

/-- Changing the matcher of a head, in both nets. -/
theorem change_interpret {α : Type} {head : Head}
    {f g : CommutativeMatcher → α × CommutativeMatcher}
    (hfg : ∀ m, g (m.interpret meaning) = ((f m).1, (f m).2.interpret meaning))
    (matchers : List CommutativeMatcher) :
    change head g (matchers.map (interpret meaning)) =
      ((change head f matchers).1, (change head f matchers).2.1,
        (change head f matchers).2.2.map (interpret meaning)) := by
  induction matchers with
  | nil =>
    have hnew := hfg (ofHead head)
    rw [ofHead_interpret] at hnew
    rw [List.map_nil, change, change, hnew]
    rfl
  | cons matcher rest ih =>
    rw [List.map_cons, change, change, head_interpret]
    by_cases hsame : matcher.head = head
    · rw [if_pos hsame, if_pos hsame, hfg]
      rfl
    · rw [if_neg hsame, if_neg hsame, ih]
      rfl

end CommutativeMatcher

/-- The steps of a tree, and its matchers, under interpreted constraints. -/
def CollectsInterpreted (meaning : Meaning) (p : PatternTerm) : Prop :=
  ∀ constraints parent matchers,
    collectSteps (constraints.map (Constraint.interpret meaning)) parent p
        (matchers.map (CommutativeMatcher.interpret meaning)) =
      ((collectSteps constraints parent p matchers).1,
        (collectSteps constraints parent p matchers).2.map (CommutativeMatcher.interpret meaning))

/-- The steps of ordered arguments stay the same. -/
theorem collectStepsAll_interpret {args : List PatternTerm}
    (hargs : ∀ p ∈ args, CollectsInterpreted meaning p) (constraints : List Constraint)
    (parent : Head) (matchers : List CommutativeMatcher) :
    collectStepsAll (constraints.map (Constraint.interpret meaning)) parent args
        (matchers.map (CommutativeMatcher.interpret meaning)) =
      ((collectStepsAll constraints parent args matchers).1,
        (collectStepsAll constraints parent args matchers).2.map
          (CommutativeMatcher.interpret meaning)) := by
  induction args generalizing matchers with
  | nil => rfl
  | cons p ps ih =>
    rw [collectStepsAll, collectStepsAll, hargs p List.mem_cons_self]
    dsimp only
    rw [ih fun q hq => hargs q (List.mem_cons_of_mem p hq)]

/-- The operands of a commutative operation get the same positions. -/
theorem collectOperands_interpret {args : List PatternTerm}
    (hargs : ∀ p ∈ args, CollectsInterpreted meaning p) (constraints : List Constraint)
    (head : Head) (matcher : CommutativeMatcher) :
    collectOperands (constraints.map (Constraint.interpret meaning)) head args
        (matcher.interpret meaning) =
      ((collectOperands constraints head args matcher).1,
        (collectOperands constraints head args matcher).2.interpret meaning) := by
  induction args generalizing matcher with
  | nil => rfl
  | cons p ps ih =>
    have hps := ih fun q hq => hargs q (List.mem_cons_of_mem p hq)
    rw [collectOperands, collectOperands]
    cases p.sequenceVariable? head with
    | some var => exact hps matcher
    | none =>
      have hoperand : (⟨p, operandConstraints (constraints.map (Constraint.interpret meaning)) p⟩ :
            OperandPattern) =
          OperandPattern.interpret meaning ⟨p, operandConstraints constraints p⟩ := by
        rw [operandConstraints_interpret]
        rfl
      -- Whether an operand is known does not depend on what custom constraints compute.
      have hfind : (matcher.interpret meaning).operands.findIdx?
            (OperandPattern.interpret meaning ⟨p, operandConstraints constraints p⟩).same =
          matcher.operands.findIdx?
            (OperandPattern.same ⟨p, operandConstraints constraints p⟩) := by
        rw [CommutativeMatcher.interpret_eq]
        dsimp only
        rw [List.findIdx?_map]
        refine congrArg (matcher.operands.findIdx? ·) (funext fun other => ?_)
        exact OperandPattern.same_interpret _ _
      have hinner : (matcher.interpret meaning).net.matchers =
          matcher.net.matchers.map (CommutativeMatcher.interpret meaning) := by
        rw [CommutativeMatcher.interpret_eq, Net.interpret_eq]
      dsimp only
      rw [hoperand, hfind]
      cases matcher.operands.findIdx?
          (OperandPattern.same ⟨p, operandConstraints constraints p⟩) with
      | some index =>
        dsimp only
        rw [hps]
      | none =>
        dsimp only
        rw [operandConstraints_interpret, hinner, hargs p List.mem_cons_self]
        dsimp only
        rw [CommutativeMatcher.withOperand_interpret]
        dsimp only
        rw [hps]

/-- **The steps of a tree stay the same,** whatever custom constraints compute. -/
theorem collectSteps_interpret (p : PatternTerm) : CollectsInterpreted meaning p := by
  induction p using PatternTerm.inductionOn with
  | atom t => exact fun _ _ _ => rfl
  | wildcard w => exact fun _ _ _ => rfl
  | node head args ih =>
    intro constraints parent matchers
    cases hcomm : head.isCommutative with
    | true =>
      have hregister : ∀ m : CommutativeMatcher,
          registerOperation (constraints.map (Constraint.interpret meaning)) head args
              (m.interpret meaning) =
            ((registerOperation constraints head args m).1,
              (registerOperation constraints head args m).2.interpret meaning) := by
        intro m
        rw [registerOperation_eq, registerOperation_eq, collectOperands_interpret ih,
          CommutativeMatcher.register_interpret]
      rw [collectSteps_commutative hcomm, collectSteps_commutative hcomm,
        CommutativeMatcher.change_interpret hregister]
    | false =>
      rw [collectSteps_ordered hcomm, collectSteps_ordered hcomm, collectStepsAll_interpret ih]

/-! ### Patterns -/

/-- A pattern that differs from another one in the functions of its custom constraints. -/
structure Pattern.Interprets (meaning : Meaning) (pattern other : Pattern) : Prop where
  tree : other.tree = pattern.tree
  locals : other.positionalLocals = pattern.positionalLocals.map (Constraint.interpret meaning)
  globals : other.positionalGlobals = pattern.positionalGlobals.map (Constraint.interpret meaning)

/-- **Adding a pattern** to the interpreted net, with interpreted constraints. -/
theorem Net.add_interpret (net : Net) {pattern other : Pattern}
    (h : pattern.Interprets meaning other) :
    (net.interpret meaning).add other = (net.add pattern).interpret meaning := by
  have htree : other.positionalTree = pattern.positionalTree := by
    unfold Pattern.positionalTree
    rw [h.tree]
  have hmatchers : (net.interpret meaning).matchers =
      net.matchers.map (CommutativeMatcher.interpret meaning) := by
    rw [interpret_eq]
  have hcollected : (net.interpret meaning).collectedFor other =
      ((net.collectedFor pattern).1,
        (net.collectedFor pattern).2.map (CommutativeMatcher.interpret meaning)) := by
    unfold collectedFor
    rw [htree, h.locals, hmatchers, collectSteps_interpret]
  have hentry : (net.interpret meaning).entryFor other =
      (net.entryFor pattern).interpret meaning := by
    unfold entryFor Entry.interpret
    rw [h.tree, h.locals, h.globals, interpret_eq]
  rw [add_eq, add_eq, hcollected, hentry, insertSteps_interpret]

/-- **The net of interpreted patterns is the interpreted net.** -/
theorem Net.ofPatterns_interpret {patterns others : List Pattern}
    (h : List.Forall₂ (Pattern.Interprets meaning) patterns others) :
    ofPatterns others = (ofPatterns patterns).interpret meaning := by
  have hfold : ∀ net : Net, others.foldl add (net.interpret meaning) =
      (patterns.foldl add net).interpret meaning := by
    induction h with
    | nil => exact fun net => rfl
    | cons hfirst _ ih =>
      intro net
      rw [List.foldl_cons, List.foldl_cons, add_interpret net hfirst, ih]
  exact hfold empty

end TermNet
