import TermNet.Net.Match

namespace TermNet

/-!
# Building and matching, with the cases that must not happen

Building a net and matching with it pass over some cases because no net has them: a pattern
that ends where another one goes on, an edge out of an accepting state, a commutative state
behind an ordinary edge, an ordinary state behind a commutative one, and a branch for a pattern
of a matcher out of an ordinary state.  Here building and matching stop in each of these cases.

* `State.extend?`, `collectSteps?`, `Net.add?`, `Net.ofPatterns?` — building;
* `CheckedWalk`, `State.walk?`, `Net.matches?` — matching.
-/

/-! ### Building -/

/-- Accept one more pattern; not in a state with edges. -/
def State.withMarker? (marker : Marker) : State → Option State
  | branch [] | commutative _ [] => some (accept [marker])
  | accept markers => some (accept (markers ++ [marker]))
  | _ => none

/-- Replace the edges of a state; not of an accepting one. -/
def State.withEdges? (edges : List Edge) : State → Option State
  | branch _ => some (branch edges)
  | commutative matcher _ => some (commutative matcher edges)
  | accept _ => none

/-- Follow the steps of a pattern. -/
def State.extend? (marker : Marker) :
    List (Step × List ConstraintId) → State → (next : StateId) → Option (State × StateId)
  | [], state, next => do return (← state.withMarker? marker, next)
  | (step, constraints) :: rest, state, next =>
    match state.edges.span fun edge => !step.fits edge with
    | (before, edge :: after) => do
      let (target, next) ← State.extend? marker rest edge.target next
      return (← state.withEdges?
        (before ++ edge.usedBy marker.pattern constraints target :: after), next)
    | (before, []) => do
      let edge := step.edge next
      let (target, next) ← State.extend? marker rest edge.target (next + 1)
      return (← state.withEdges? (before ++ [edge.usedBy marker.pattern constraints target]), next)

/-- The net with the steps of one more pattern. -/
def Net.insertSteps? (net : Net) (entry : Entry) (steps : List Step)
    (matchers : List CommutativeMatcher) : Option Net := do
  let (registry, locals) := net.registry.registerAll entry.index entry.locals
  let (registry, globals) := registry.registerAll entry.index entry.globals
  let marker : Marker := ⟨entry.index, entry.pairs, globals.eraseDups⟩
  let (root, stateCount) ←
    net.root.extend? marker (schedule registry locals [] steps) net.stateCount
  return ⟨root, stateCount, registry, matchers, max net.patternCount (entry.index + 1)⟩

namespace CommutativeMatcher

/-- Change the matcher of a head, if the change is possible. -/
def change? {α : Type} (head : Head) (f : CommutativeMatcher → Option (α × CommutativeMatcher)) :
    List CommutativeMatcher → Option (Nat × α × List CommutativeMatcher)
  | [] => do
    let (result, matcher) ← f (ofHead head)
    return (0, result, [matcher])
  | matcher :: rest =>
    if matcher.head = head then do
      let (result, matcher) ← f matcher
      return (0, result, matcher :: rest)
    else do
      let (position, result, rest) ← change? head f rest
      return (position + 1, result, matcher :: rest)

/-- The matcher with one more operand pattern. -/
def withOperand? (matcher : CommutativeMatcher) (operand : OperandPattern) (steps : List Step)
    (matchers : List CommutativeMatcher) : Option (Nat × CommutativeMatcher) := do
  let index := matcher.operands.length
  let pairs := operand.tree.variableNames.map fun name => (name, name)
  let net ← matcher.net.insertSteps? ⟨index, pairs, operand.constraints, []⟩ steps matchers
  return (index, { matcher with net, operands := matcher.operands ++ [operand] })

end CommutativeMatcher

mutual

/-- The steps of a tree, and the matchers with its commutative operations. -/
def collectSteps? (constraints : List Constraint) (parent : Option Head) :
    PatternTerm → List CommutativeMatcher → Option (List Step × List CommutativeMatcher)
  | .atom t, matchers => some ([{ label := .atom t }], matchers)
  | .wildcard w, matchers => some ([wildcardStep parent w], matchers)
  | .node head args, matchers =>
    if head.isCommutative then do
      let (position, pattern, matchers) ← CommutativeMatcher.change? head
        (fun matcher => do
          let (operands, matcher) ← collectOperands? constraints head args matcher
          return matcher.register ⟨sortBy (· ≤ ·) operands, sequenceVariables head args⟩)
        matchers
      return ([{ label := .commutative head, fresh := .commutative position [] },
        { label := .operands pattern
          binds := (PatternTerm.node head args).variableNames }], matchers)
    else do
      let (steps, matchers) ← collectStepsAll? constraints head args matchers
      return ({ label := .enter head } :: steps ++ [{ label := .close }], matchers)
termination_by structural p => p

/-- The steps of ordered arguments. -/
def collectStepsAll? (constraints : List Constraint) (parent : Head) :
    List PatternTerm → List CommutativeMatcher → Option (List Step × List CommutativeMatcher)
  | [], matchers => some ([], matchers)
  | p :: ps, matchers => do
    let (first, matchers) ← collectSteps? constraints (some parent) p matchers
    let (rest, matchers) ← collectStepsAll? constraints parent ps matchers
    return (first ++ rest, matchers)
termination_by structural ps => ps

/-- The operand patterns among commutative arguments. -/
def collectOperands? (constraints : List Constraint) (head : Head) :
    List PatternTerm → CommutativeMatcher → Option (List Nat × CommutativeMatcher)
  | [], matcher => some ([], matcher)
  | p :: ps, matcher =>
    match p.sequenceVariable? head with
    | some _ => collectOperands? constraints head ps matcher
    | none =>
      let locals := operandConstraints constraints p
      let operand : OperandPattern := ⟨p, locals⟩
      let located := match matcher.operands.findIdx? operand.same with
        | some index => some (index, matcher)
        | none => do
          let (steps, matchers) ← collectSteps? locals none p matcher.net.matchers
          matcher.withOperand? operand steps matchers
      do
        let (index, matcher) ← located
        let (indices, matcher) ← collectOperands? constraints head ps matcher
        return (index :: indices, matcher)
termination_by structural ps => ps

end

namespace Net

/-- The net with one more pattern. -/
def add? (net : Net) (pattern : Pattern) : Option Net := do
  let names := pattern.tree.positionalNames
  let tree := pattern.tree.mapVariables fun name => (names.find? name).getD name
  let locals := pattern.constraints.map (·.renamed names)
  let globals := pattern.globals.map (·.renamed names)
  let (steps, matchers) ← collectSteps? locals none tree net.matchers
  net.insertSteps? ⟨net.patternCount, names.entries, locals, globals⟩ steps matchers

/-- The net of a list of patterns. -/
def ofPatterns? (patterns : List Pattern) : Option Net := patterns.foldlM add? empty

end Net

/-! ### Matching -/

/-- Matching from some place on, unless it comes to a case that must not happen. -/
abbrev CheckedWalk :=
  ArgumentQueue → Substitution → IndexSet → Option (List Match × ArgumentQueue)

namespace CheckedWalk

/-- Stop. -/
def stuck : CheckedWalk := fun _ _ _ => none

/-- The walk that finds nothing. -/
def nothing : CheckedWalk := fun queue _ _ => some ([], queue)

/-- One walk, and then another one from the same place. -/
def andThen (first second : CheckedWalk) : CheckedWalk := fun queue subst active => do
  let (found, queue) ← first queue subst active
  let (more, queue) ← second queue subst active
  return (found ++ more, queue)

/-- Walk on after a step, and put back what the step has consumed. -/
def guarded (walk : CheckedWalk) (guard : ArgumentQueue.Guard) : CheckedWalk :=
  fun queue subst active => do
    let (found, queue) ← walk queue subst active
    return (found, guard.release queue)

/-- Walk on with a variable bound, if that is possible. -/
def binding (walk : CheckedWalk) (name : Option String) (value : Binding) : CheckedWalk :=
  fun queue subst active =>
    match name with
    | none => walk queue subst active
    | some name =>
      match subst.extend? name value with
      | some extended => walk queue extended active
      | none => some ([], queue)

/-- Walk on with the default bound, if there is one. -/
def skipping (walk : CheckedWalk) (name : Option String) : Option Term → CheckedWalk
  | some default => walk.binding name (.single default)
  | none => nothing

/-- Walk on with a run bound, then with one more argument in it, and so on. -/
def growing (walk : CheckedWalk) (name : Option String) (wrap : Option Head) :
    (longer : Nat) → (run : List Term) → CheckedWalk
  | 0, run => fun queue subst active => do
    let (found, queue) ← walk.binding name (.ofRun run wrap) queue subst active
    return (found, (ArgumentQueue.Guard.run run).release queue)
  | longer + 1, run => fun queue subst active => do
    let (found, queue) ← walk.binding name (.ofRun run wrap) queue subst active
    match queue.grow? run with
    | some (run, queue) =>
      let (more, queue) ← growing walk name wrap longer run queue subst active
      return (found ++ more, queue)
    | none => return (found, (ArgumentQueue.Guard.run run).release queue)

end CheckedWalk

/-- Walk through an edge whose label has consumed what it asks for. -/
def proceed? (registry : ConstraintRegistry) (patterns : List Nat)
    (constraints : List ConstraintId) (target : CheckedWalk) : CheckedWalk :=
  fun queue subst active =>
    let active := registry.narrow constraints subst active
    if active.meets patterns then target queue subst active else some ([], queue)

/-- What an ordinary edge consumes and binds before `walk` goes on from it.  The labels of
    commutative operations are not for such edges. -/
def Label.consume? (name : Option String) (walk : CheckedWalk) : Label → CheckedWalk
  | enter head => fun queue subst active =>
    match queue.enter? head with
    | some (item, inner) => walk.guarded (.entered item) inner subst active
    | none => some ([], queue)
  | close => fun queue subst active =>
    match queue.close? with
    | some outer => walk.guarded .closed outer subst active
    | none => some ([], queue)
  | atom expected => fun queue subst active =>
    match queue.takeIf? (· = expected) with
    | some (item, rest) => walk.guarded (.taken item) rest subst active
    | none => some ([], queue)
  | one kind default =>
    (walk.skipping name default).andThen fun queue subst active =>
      match queue.takeIf? fun t => kind.all t.isSymbolOf with
      | some (item, rest) =>
        (walk.binding name (.single item)).guarded (.taken item) rest subst active
      | none => some ([], queue)
  | run minCount wrap default =>
    (walk.skipping name default).andThen fun queue subst active =>
      match queue.takeRun? (if default.isSome then max minCount 1 else minCount) with
      | some (taken, rest) => walk.growing name wrap rest.remaining taken rest subst active
      | none => some ([], queue)
  | commutative _ | operands _ => .stuck

/-- Go through the matches of a commutative operation one after the other. -/
def walkFound? (branch : Nat → CheckedWalk) (active : IndexSet) :
    List Match → ArgumentQueue → Option (List Match × ArgumentQueue)
  | [], queue => some ([], queue)
  | (index, subst) :: rest, queue => do
    let (found, queue) ← branch index queue subst active
    let (more, queue) ← walkFound? branch active rest queue
    return (found ++ more, queue)

/-- A commutative operation, whose state has to have a matcher. -/
def walkCommutative? (head : Head) (matcher : Option OperandMatcher) (branches : List Edge)
    (branch : Nat → CheckedWalk) : CheckedWalk := fun queue subst active => do
  let matcher ← matcher
  match wantedPatterns branches active with
  | [] => return ([], queue)
  | wanted =>
    match queue.takeIf? (·.hasHead head) with
    | none => return ([], queue)
    | some (item, rest) =>
      let (found, rest) ←
        walkFound? branch active (matchCommutative matcher item.args subst wanted) rest
      return (found, (ArgumentQueue.Guard.taken item).release rest)

mutual

/-- Matching from a state on.  A commutative state is only come to with its operation. -/
def State.walk? (registry : ConstraintRegistry) (matchers : List OperandMatcher) :
    State → CheckedWalk
  | .branch edges => walkEdges? registry matchers edges
  | .commutative .. => .stuck
  | .accept markers => fun queue subst active =>
    if queue.isExhausted then some (acceptMarkers registry markers subst active, queue)
    else some ([], queue)
termination_by structural state => state

/-- Matching through the edges of a list. -/
def walkEdges? (registry : ConstraintRegistry) (matchers : List OperandMatcher) :
    List Edge → CheckedWalk
  | [] => .nothing
  | edge :: rest =>
    (walkEdge? registry matchers edge).andThen (walkEdges? registry matchers rest)
termination_by structural edges => edges

/-- Matching through an edge, if an active pattern uses it. -/
def walkEdge? (registry : ConstraintRegistry) (matchers : List OperandMatcher) :
    Edge → CheckedWalk
  | ⟨label, name, patterns, constraints, _, target⟩ => fun queue subst active =>
    if active.meets patterns then
      match label, target with
      | .commutative head, .commutative matcher branches =>
        walkCommutative? head matchers[matcher]? branches
          (walkBranch? registry matchers branches) queue subst active
      | label, target =>
        label.consume? name
          (proceed? registry patterns constraints (State.walk? registry matchers target))
          queue subst active
    else some ([], queue)
termination_by structural edge => edge

/-- Matching through the first branch of a commutative pattern. -/
def walkBranch? (registry : ConstraintRegistry) (matchers : List OperandMatcher) :
    List Edge → Nat → CheckedWalk
  | [], _ => .nothing
  | ⟨label, _, patterns, constraints, _, target⟩ :: rest, index =>
    if label = .operands index then
      proceed? registry patterns constraints (State.walk? registry matchers target)
    else walkBranch? registry matchers rest index
termination_by structural branches => branches

end

/-- All matches of a subject; the matches of the operands are those of the nets of the matchers. -/
def Net.matches? (net : Net) (subject : Term) : Option (List Match) := do
  let (found, _) ← net.root.walk? net.registry (operandMatchers net.matchers)
    (.ofSubject subject) .empty (.full net.patternCount)
  return found

end TermNet
