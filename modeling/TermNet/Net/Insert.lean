import TermNet.Net.Basic

namespace TermNet

/-!
# Inserting patterns into nets

A pattern is renamed to positional variables, so that patterns which differ only
in names share edges; it is spelled out as steps from left to right; each local
constraint is attached to the step that binds its last variable; and the steps
are followed from the root, adding edges where there are none.

* `PatternTerm.positionalNames` — the positional name of each variable;
* `wildcardStep`, `sequenceVariable?` — what becomes of a wildcard among ordered
  and among commutative arguments;
* `collectSteps` — the steps of a tree, registering commutative operations;
* `schedule` — the constraints at each step;
* `State.extend` — following steps;
* `Net.add`, `Net.ofPatterns` — the nets of patterns.
-/

/-! ### Positional names -/

namespace PatternTerm

/-- The name of a variable that first occurs at this path of argument positions. -/
def positionalName (path : List Nat) : String := "i" ++ joinWith "." (path.map toString)

mutual

/-- The named wildcards from left to right, with the names of their positions. -/
def occurrences (path : List Nat) : PatternTerm → List (String × String)
  | .atom _ => []
  | .wildcard w =>
    match w.name with
    | some name => [(name, positionalName path)]
    | none => []
  | .node _ args => occurrencesFrom path 0 args
termination_by structural p => p

/-- The named wildcards of arguments that stand from `position` on. -/
def occurrencesFrom (path : List Nat) (position : Nat) : List PatternTerm → List (String × String)
  | [] => []
  | p :: ps => occurrences (path ++ [position]) p ++ occurrencesFrom path (position + 1) ps
termination_by structural ps => ps

end

/-- The positional name of each variable, that of its first occurrence. -/
def positionalNames (p : PatternTerm) : NameMap String :=
  (p.occurrences []).foldl (fun names (name, position) => names.insertNew name position) .empty

end PatternTerm

/-! ### Wildcards -/

/-- One step of a pattern. -/
structure Step where
  label : Label
  /-- The variable that is bound to what the step consumes. -/
  variableName : Option String := none
  /-- The variables that are bound once the step is taken. -/
  binds : List String := []
  /-- What an edge for the step leads to when it is new. -/
  fresh : State := .branch []

/-- **A wildcard among ordered arguments.**  Where arguments may be regrouped, a
    fixed wildcard takes a run that becomes one operation. -/
def wildcardStep (parent : Option Head) (w : Wildcard) : Step :=
  let associative := parent.filter Head.isAssociative
  let label := match w.extent, associative with
    | .run minCount, wrap => .run minCount wrap w.default
    | .one none, some head => .run 1 (some head) w.default
    | .one kind, _ => .one kind w.default
  { label, variableName := w.name, binds := w.name.toList }

/-- **A wildcard among commutative arguments** becomes a sequence variable, unless it
    takes exactly one argument. -/
def sequenceVariable? (head : Head) (w : Wildcard) : Option SequenceVariable :=
  match w.extent with
  | .run minCount =>
    some { name := w.name, minCount, default := w.default, wrap := head.isAssociative }
  | .one kind =>
    if head.isAssociative && kind.isNone then
      some { name := w.name, minCount := 1, default := w.default, wrap := true }
    else if w.isOptional then
      some { name := w.name, minCount := 1, default := w.default, fixed := true }
    else none

/-- The sequence variable that a commutative argument becomes. -/
def PatternTerm.sequenceVariable? (head : Head) : PatternTerm → Option SequenceVariable
  | wildcard w => TermNet.sequenceVariable? head w
  | _ => none

/-- Add a sequence variable.  A named one that differs from a known one in nothing
    but how often it occurs is counted there. -/
def addSequenceVariable (var : SequenceVariable) : List SequenceVariable → List SequenceVariable
  | [] => [var]
  | known :: rest =>
    if known.name.isSome && { var with count := known.count } = known then
      { known with count := known.count + 1 } :: rest
    else known :: addSequenceVariable var rest

/-- The sequence variables among commutative arguments. -/
def sequenceVariables (head : Head) (args : List PatternTerm) : List SequenceVariable :=
  (args.filterMap (PatternTerm.sequenceVariable? head)).foldl
    (fun known var => addSequenceVariable var known) []

/-! ### Scheduling constraints -/

/-- The local constraints that become checkable when `fresh` variables are added to
    those that are bound, in the order of their registration. -/
def readyConstraints (registry : ConstraintRegistry) (locals : List ConstraintId)
    (fresh bound : List String) : List ConstraintId :=
  registry.toList.filterMap fun (id, c) =>
    if locals.contains id && c.variableNames.any fresh.contains && c.isAbout bound then some id
    else none

/-- The steps, each with the constraints that it makes checkable. -/
def schedule (registry : ConstraintRegistry) (locals : List ConstraintId) (bound : List String) :
    List Step → List (Step × List ConstraintId)
  | [] => []
  | step :: rest =>
    let fresh := step.binds.filter fun name => !bound.contains name
    let bound := bound ++ fresh
    (step, readyConstraints registry locals fresh bound) :: schedule registry locals bound rest

/-! ### Following steps -/

/-- Whether an edge is one for the step. -/
def Step.fits (step : Step) (edge : Edge) : Bool :=
  edge.label = step.label && edge.variableName = step.variableName

/-- The new edge for a step. -/
def Step.edge (step : Step) (id : StateId) : Edge :=
  ⟨step.label, step.variableName, [], [], id, step.fresh⟩

/-- An edge that one more pattern uses, with the constraints that it adds. -/
def Edge.usedBy (edge : Edge) (index : Nat) (constraints : List ConstraintId) (target : State) :
    Edge :=
  { edge with
    patterns := insertUnique index edge.patterns
    constraints := constraints.foldl (fun known id => insertUnique id known) edge.constraints
    target }

/-- **Follow the steps of a pattern,** adding edges where none fits, and mark their
    end.  `next` is the number of the next state. -/
def State.extend (marker : Marker) :
    List (Step × List ConstraintId) → State → (next : StateId) → State × StateId
  | [], state, next => (state.withMarker marker, next)
  | (step, constraints) :: rest, state, next =>
    match state.edges.span fun edge => !step.fits edge with
    | (before, edge :: after) =>
      let (target, next) := State.extend marker rest edge.target next
      (state.withEdges (before ++ edge.usedBy marker.pattern constraints target :: after), next)
    | (before, []) =>
      let edge := step.edge next
      let (target, next) := State.extend marker rest edge.target (next + 1)
      (state.withEdges (before ++ [edge.usedBy marker.pattern constraints target]), next)

/-- A pattern that is to be inserted; its variables have their names in the net. -/
structure Entry where
  index : Nat
  /-- The declared name of each variable and its name in the net. -/
  pairs : List (String × String)
  locals : List Constraint
  globals : List Constraint

/-- The net with the steps of one more pattern, and with the matchers that these
    steps refer to. -/
def Net.insertSteps (net : Net) (entry : Entry) (steps : List Step)
    (matchers : List CommutativeMatcher) : Net :=
  let (registry, locals) := net.registry.registerAll entry.index entry.locals
  let (registry, globals) := registry.registerAll entry.index entry.globals
  let marker : Marker := ⟨entry.index, entry.pairs, globals.eraseDups⟩
  let (root, stateCount) :=
    net.root.extend marker (schedule registry locals [] steps) net.stateCount
  ⟨root, stateCount, registry, matchers, max net.patternCount (entry.index + 1)⟩

/-! ### Commutative operations -/

namespace CommutativeMatcher

/-- Change the matcher of a head, adding it if there is none; gives its position and
    the result of the change. -/
def change {α : Type} (head : Head) (f : CommutativeMatcher → α × CommutativeMatcher) :
    List CommutativeMatcher → Nat × α × List CommutativeMatcher
  | [] =>
    let (result, matcher) := f (ofHead head)
    (0, result, [matcher])
  | matcher :: rest =>
    if matcher.head = head then
      let (result, matcher) := f matcher
      (0, result, matcher :: rest)
    else
      let (position, result, rest) := change head f rest
      (position + 1, result, matcher :: rest)

/-- The matcher with one more operand pattern, whose steps in its net are given. -/
def withOperand (matcher : CommutativeMatcher) (operand : OperandPattern) (steps : List Step)
    (matchers : List CommutativeMatcher) : Nat × CommutativeMatcher :=
  let index := matcher.operands.length
  let pairs := operand.tree.variableNames.map fun name => (name, name)
  let net := matcher.net.insertSteps ⟨index, pairs, operand.constraints, []⟩ steps matchers
  (index, { matcher with net, operands := matcher.operands ++ [operand] })

/-- The position of a commutative pattern, which is added if it is new. -/
def register (matcher : CommutativeMatcher) (pattern : CommutativePattern) :
    Nat × CommutativeMatcher :=
  match matcher.patterns.findIdx? (· = pattern) with
  | some index => (index, matcher)
  | none => (matcher.patterns.length, { matcher with patterns := matcher.patterns ++ [pattern] })

end CommutativeMatcher

/-- The constraints that have variables and are about those of one operand only. -/
def operandConstraints (constraints : List Constraint) (operand : PatternTerm) : List Constraint :=
  constraints.filter fun c => !c.variableNames.isEmpty && c.isAbout operand.variableNames

mutual

/-- **The steps of a tree** below `parent`, and the matchers with its commutative
    operations. -/
def collectSteps (constraints : List Constraint) (parent : Option Head) :
    PatternTerm → List CommutativeMatcher → List Step × List CommutativeMatcher
  | .atom t, matchers => ([{ label := .atom t }], matchers)
  | .wildcard w, matchers => ([wildcardStep parent w], matchers)
  | .node head args, matchers =>
    if head.isCommutative then
      let (position, pattern, matchers) := CommutativeMatcher.change head
        (fun matcher =>
          let (operands, matcher) := collectOperands constraints head args matcher
          matcher.register ⟨sortBy (· ≤ ·) operands, sequenceVariables head args⟩)
        matchers
      ([{ label := .commutative head, fresh := .commutative position [] },
        { label := .operands pattern
          binds := (PatternTerm.node head args).variableNames }], matchers)
    else
      let (steps, matchers) := collectStepsAll constraints head args matchers
      ({ label := .enter head } :: steps ++ [{ label := .close }], matchers)
termination_by structural p => p

/-- The steps of ordered arguments, one after the other. -/
def collectStepsAll (constraints : List Constraint) (parent : Head) :
    List PatternTerm → List CommutativeMatcher → List Step × List CommutativeMatcher
  | [], matchers => ([], matchers)
  | p :: ps, matchers =>
    let (first, matchers) := collectSteps constraints (some parent) p matchers
    let (rest, matchers) := collectStepsAll constraints parent ps matchers
    (first ++ rest, matchers)
termination_by structural ps => ps

/-- The operand patterns among commutative arguments, as positions in the matcher,
    and the matcher with those that were new. -/
def collectOperands (constraints : List Constraint) (head : Head) :
    List PatternTerm → CommutativeMatcher → List Nat × CommutativeMatcher
  | [], matcher => ([], matcher)
  | p :: ps, matcher =>
    match p.sequenceVariable? head with
    | some _ => collectOperands constraints head ps matcher
    | none =>
      let locals := operandConstraints constraints p
      let operand : OperandPattern := ⟨p, locals⟩
      let (index, matcher) := match matcher.operands.findIdx? operand.same with
        | some index => (index, matcher)
        | none =>
          let (steps, matchers) := collectSteps locals none p matcher.net.matchers
          matcher.withOperand operand steps matchers
      let (indices, matcher) := collectOperands constraints head ps matcher
      (index :: indices, matcher)
termination_by structural ps => ps

end

/-! ### Nets of patterns -/

namespace Net

/-- **The net with one more pattern,** whose index is the number of patterns so far. -/
def add (net : Net) (pattern : Pattern) : Net :=
  let names := pattern.tree.positionalNames
  let tree := pattern.tree.mapVariables fun name => (names.find? name).getD name
  let locals := pattern.constraints.map (·.renamed names)
  let globals := pattern.globals.map (·.renamed names)
  let (steps, matchers) := collectSteps locals none tree net.matchers
  net.insertSteps ⟨net.patternCount, names.entries, locals, globals⟩ steps matchers

/-- The net of a list of patterns. -/
def ofPatterns (patterns : List Pattern) : Net := patterns.foldl add empty

end Net

end TermNet
