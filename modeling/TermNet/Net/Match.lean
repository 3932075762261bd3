import TermNet.ArgumentQueue
import TermNet.IndexSet
import TermNet.Net.Insert

namespace TermNet

/-!
# Matching with nets

The tree is walked depth first.  What an edge consumes is taken from the queue of
arguments and put back before the next edge is tried; what it binds goes into the
substitution; and a constraint that fails removes the patterns that it belongs to
from the set of active ones.

* `Walk` — matching from some place on;
* `Edge.consume` — what an edge consumes and binds, for all ordinary labels;
* `Edge.proceed` — checking the constraints of an edge;
* `State.walk` — matching from a state on;
* `Net.matches` — all matches of a subject, in the order in which they are found.
-/

/-- A match: the index of a pattern, and what its variables are bound to. -/
abbrev Match := Nat × Substitution

/-- Matching from some place on: given the arguments that are left, the bindings so
    far and the active patterns, the matches and the queue afterwards. -/
abbrev Walk := ArgumentQueue → Substitution → IndexSet → List Match × ArgumentQueue

namespace Walk

/-- The walk that finds nothing. -/
def nothing : Walk := fun queue _ _ => ([], queue)

/-- One walk, and then another one from the same place. -/
def andThen (first second : Walk) : Walk := fun queue subst active =>
  let (found, queue) := first queue subst active
  let (more, queue) := second queue subst active
  (found ++ more, queue)

/-- Walk on after a step, and put back what the step has consumed. -/
def guarded (walk : Walk) (guard : ArgumentQueue.Guard) : Walk := fun queue subst active =>
  let (found, queue) := walk queue subst active
  (found, guard.release queue)

/-- Walk on with a variable bound, if that is possible; without a name nothing is bound. -/
def binding (walk : Walk) (name : Option String) (value : Binding) : Walk :=
  fun queue subst active =>
    match name with
    | none => walk queue subst active
    | some name =>
      match subst.extend? name value with
      | some extended => walk queue extended active
      | none => ([], queue)

/-- Walk on with the default bound, if there is one. -/
def skipping (walk : Walk) (name : Option String) : Option Term → Walk
  | some default => walk.binding name (.single default)
  | none => nothing

/-- Walk on with a run bound, then with one more argument in it, and so on while
    there are arguments; at most `longer` times more.  All of it is put back. -/
def growing (walk : Walk) (name : Option String) (wrap : Option Head) :
    (longer : Nat) → (run : List Term) → Walk
  | 0, run => fun queue subst active =>
    let (found, queue) := walk.binding name (.ofRun run wrap) queue subst active
    (found, (ArgumentQueue.Guard.run run).release queue)
  | longer + 1, run => fun queue subst active =>
    let (found, queue) := walk.binding name (.ofRun run wrap) queue subst active
    match queue.grow? run with
    | some (run, queue) =>
      let (more, queue) := growing walk name wrap longer run queue subst active
      (found ++ more, queue)
    | none => (found, (ArgumentQueue.Guard.run run).release queue)

end Walk

/-- Check constraints; each one that fails removes its owners from the active
    patterns. -/
def ConstraintRegistry.narrow (registry : ConstraintRegistry) (constraints : List ConstraintId)
    (subst : Substitution) (active : IndexSet) : IndexSet :=
  constraints.foldl
    (fun active id =>
      if registry.holds id subst then active else active.eraseAll (registry.owners id))
    active

/-- **Walk through an edge** whose label has consumed what it asks for: check the
    constraints, and walk on while a pattern that uses the edge is active. -/
def proceed (registry : ConstraintRegistry) (patterns : List Nat)
    (constraints : List ConstraintId) (target : Walk) : Walk := fun queue subst active =>
  let active := registry.narrow constraints subst active
  if active.meets patterns then target queue subst active else ([], queue)

/-- **What an edge consumes and binds** before `walk` goes on from it.  Commutative
    labels are dealt with where the state behind them is known. -/
def Label.consume (name : Option String) (walk : Walk) : Label → Walk
  | enter head => fun queue subst active =>
    match queue.enter? head with
    | some (item, inner) => walk.guarded (.entered item) inner subst active
    | none => ([], queue)
  | close => fun queue subst active =>
    match queue.close? with
    | some outer => walk.guarded .closed outer subst active
    | none => ([], queue)
  | atom expected => fun queue subst active =>
    match queue.takeIf? (· = expected) with
    | some (item, rest) => walk.guarded (.taken item) rest subst active
    | none => ([], queue)
  | one kind default =>
    (walk.skipping name default).andThen fun queue subst active =>
      match queue.takeIf? fun t => kind.all t.isSymbolOf with
      | some (item, rest) =>
        (walk.binding name (.single item)).guarded (.taken item) rest subst active
      | none => ([], queue)
  | run minCount wrap default =>
    (walk.skipping name default).andThen fun queue subst active =>
      match queue.takeRun? (if default.isSome then max minCount 1 else minCount) with
      | some (taken, rest) => walk.growing name wrap rest.remaining taken rest subst active
      | none => ([], queue)
  | commutative _ | operands _ => .nothing

/-- The matches of the markers of an accepting state. -/
def acceptMarkers (registry : ConstraintRegistry) (markers : List Marker) (subst : Substitution)
    (active : IndexSet) : List Match :=
  markers.filterMap fun marker =>
    if active.contains marker.pattern && marker.globals.all (registry.holds · subst) then
      some (marker.pattern, subst.renamed marker.pairs)
    else none

/-- The commutative patterns that are worth matching: those of the branches with an
    active pattern. -/
def wantedPatterns (branches : List Edge) (active : IndexSet) : List Nat :=
  branches.filterMap fun branch =>
    match branch.label with
    | .operands index => if active.meets branch.patterns then some index else none
    | _ => none

/-- Go through the matches of a commutative operation one after the other; `branch`
    walks on from the branch of a pattern. -/
def walkFound (branch : Nat → Walk) (active : IndexSet) :
    List Match → ArgumentQueue → List Match × ArgumentQueue
  | [], queue => ([], queue)
  | (index, subst) :: rest, queue =>
    let (found, queue) := branch index queue subst active
    let (more, queue) := walkFound branch active rest queue
    (found ++ more, queue)

/-- **A commutative operation:** take an operation with this head, match its
    arguments, and walk on from the branches of the patterns found. -/
def walkCommutative (head : Head) (matcher : Option OperandMatcher) (branches : List Edge)
    (branch : Nat → Walk) : Walk := fun queue subst active =>
  match wantedPatterns branches active, matcher with
  | [], _ | _, none => ([], queue)
  | wanted, some matcher =>
    match queue.takeIf? (·.hasHead head) with
    | none => ([], queue)
    | some (item, rest) =>
      let (found, rest) :=
        walkFound branch active (matchCommutative matcher item.args subst wanted) rest
      (found, (ArgumentQueue.Guard.taken item).release rest)

mutual

/-- **Matching from a state on.** -/
def State.walk (registry : ConstraintRegistry) (matchers : List OperandMatcher) : State → Walk
  | .branch edges => walkEdges registry matchers edges
  | .commutative .. => .nothing
  | .accept markers => fun queue subst active =>
    if queue.isExhausted then (acceptMarkers registry markers subst active, queue) else ([], queue)
termination_by structural state => state

/-- Matching through the edges of a list that an active pattern uses, in order. -/
def walkEdges (registry : ConstraintRegistry) (matchers : List OperandMatcher) : List Edge → Walk
  | [] => .nothing
  | edge :: rest => (walkEdge registry matchers edge).andThen (walkEdges registry matchers rest)
termination_by structural edges => edges

/-- Matching through an edge, if an active pattern uses it. -/
def walkEdge (registry : ConstraintRegistry) (matchers : List OperandMatcher) : Edge → Walk
  | ⟨label, name, patterns, constraints, _, target⟩ => fun queue subst active =>
    if active.meets patterns then
      match label, target with
      | .commutative head, .commutative matcher branches =>
        walkCommutative head matchers[matcher]? branches
          (walkBranch registry matchers branches) queue subst active
      | label, target =>
        label.consume name
          (proceed registry patterns constraints (State.walk registry matchers target))
          queue subst active
    else ([], queue)
termination_by structural edge => edge

/-- Matching through the first branch of a commutative pattern. -/
def walkBranch (registry : ConstraintRegistry) (matchers : List OperandMatcher) :
    List Edge → Nat → Walk
  | [], _ => .nothing
  | ⟨label, _, patterns, constraints, _, target⟩ :: rest, index =>
    if label = .operands index then
      proceed registry patterns constraints (State.walk registry matchers target)
    else walkBranch registry matchers rest index
termination_by structural branches => branches

end

mutual

/-- **All matches** of a subject, in the order in which they are found. -/
def Net.matches : Net → Term → List Match
  | ⟨root, _, registry, matchers, patternCount⟩, subject =>
    (root.walk registry (operandMatchers matchers) (.ofSubject subject) .empty
      (.full patternCount)).1
termination_by structural net => net

/-- The matchers of commutative operations, each asking its own net. -/
def operandMatchers : List CommutativeMatcher → List OperandMatcher
  | [] => []
  | matcher :: rest => CommutativeMatcher.operandMatcher matcher :: operandMatchers rest
termination_by structural matchers => matchers

/-- A matcher whose operands are matched by its net. -/
def CommutativeMatcher.operandMatcher : CommutativeMatcher → OperandMatcher
  | ⟨head, net, _, patterns⟩ => { head, patterns, matchOperand := Net.matches net }
termination_by structural matcher => matcher

end

end TermNet
