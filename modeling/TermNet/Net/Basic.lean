import TermNet.Commutative
import TermNet.Pattern.Basic

namespace TermNet

/-!
# Nets — the shared decision tree of a list of patterns

A net is walked from its root.  Every edge consumes something of the subject and
may bind a variable, and patterns whose first edges agree share them.  The
arguments of commutative operations are matched by a matcher per head, which has
a net of its own for single arguments.

* `Label` — what an edge consumes;
* `State`, `Edge`, `Marker` — the tree: branching states, commutative states,
  and accepting states with a marker per pattern;
* `Net`, `CommutativeMatcher` — the tree with its constraints and matchers;
* `Net.states` — all states by their numbers.
-/

/-- What an edge consumes. -/
inductive Label where
  /-- Enter an operation with this head. -/
  | enter (head : Head)
  /-- This term. -/
  | atom (term : Term)
  /-- One term; with a kind, a symbol of that kind.  With a default, nothing may be
      consumed instead and the default is bound. -/
  | one (symbolKind : Option SymbolKind) (default : Option Term)
  /-- At least `minCount` terms, bound as one operation if `wrap` is a head.  A
      default stands for nothing. -/
  | run (minCount : Nat) (wrap : Option Head) (default : Option Term)
  /-- Leave the operation, whose arguments are used up. -/
  | close
  /-- One operation with a commutative head, matched by the matcher of that head. -/
  | commutative (head : Head)
  /-- The matches of a commutative pattern, by its position in the matcher. -/
  | operands (index : Nat)
deriving DecidableEq, Repr, Inhabited

/-- The value that is bound when nothing is consumed. -/
def Label.default? : Label → Option Term
  | one _ default | run _ _ default => default
  | _ => none

/-- Number of a state in the order of creation; the root has the number 0. -/
abbrev StateId := Nat

/-- How the number of a state is written. -/
def stateLabel (id : StateId) : String := "s" ++ toString id

/-- What an accepting state knows of a pattern. -/
structure Marker where
  pattern : Nat
  /-- The declared name of each variable and its name in the net. -/
  pairs : List (String × String)
  /-- The constraints that are checked once everything has matched. -/
  globals : List ConstraintId
deriving DecidableEq, Repr, Inhabited

mutual

/-- A state and everything below it. -/
inductive State where
  | branch (edges : List Edge)
  /-- The state after a commutative operation; its edges are labelled with the
      patterns of the matcher at this position. -/
  | commutative (matcher : Nat) (edges : List Edge)
  /-- The end of patterns, whose markers are ordered by pattern. -/
  | accept (markers : List Marker)

/-- An edge and the state that it leads to. -/
structure Edge where
  label : Label
  /-- The variable that is bound to what is consumed. -/
  variableName : Option String
  /-- The patterns that use the edge, in increasing order. -/
  patterns : List Nat
  /-- The constraints that become checkable, in increasing order. -/
  constraints : List ConstraintId
  /-- The number of the target. -/
  id : StateId
  target : State

end

instance : Inhabited State := ⟨.branch []⟩

instance : Inhabited Edge := ⟨⟨default, none, [], [], 0, default⟩⟩

namespace State

/-- The edges out of a state. -/
def edges : State → List Edge
  | branch edges | commutative _ edges => edges
  | accept _ => []

/-- Replace the edges of a state that has any use for them. -/
def withEdges (edges : List Edge) : State → State
  | branch _ => branch edges
  | commutative matcher _ => commutative matcher edges
  | accept markers => accept markers

/-- Accept one more pattern in a state without edges. -/
def withMarker (marker : Marker) : State → State
  | branch [] | commutative _ [] => accept [marker]
  | accept markers => accept (markers ++ [marker])
  | state => state

mutual

/-- A state with its number, and all states below it with theirs. -/
def numbered (id : StateId) : State → List (StateId × State)
  | .branch edges => (id, .branch edges) :: numberedBelow edges
  | .commutative matcher edges => (id, .commutative matcher edges) :: numberedBelow edges
  | .accept markers => [(id, .accept markers)]
termination_by structural state => state

/-- The states that a list of edges leads to, and those below them. -/
def numberedBelow : List Edge → List (StateId × State)
  | [] => []
  | ⟨_, _, _, _, id, target⟩ :: rest => numbered id target ++ numberedBelow rest
termination_by structural edges => edges

end

end State

/-- A pattern for one argument of a commutative operation, with the constraints
    that are only about its variables. -/
structure OperandPattern where
  tree : PatternTerm
  constraints : List Constraint
deriving Inhabited

/-- Whether two operand patterns are the same. -/
def OperandPattern.same (p q : OperandPattern) : Bool :=
  p.tree = q.tree && p.constraints.length = q.constraints.length
    && (p.constraints.zip q.constraints).all fun (c, d) => c.same d

mutual

/-- The decision tree of a list of patterns. -/
structure Net where
  root : State
  /-- Number of states, which is the number of the next one. -/
  stateCount : Nat
  registry : ConstraintRegistry
  /-- The matchers of commutative operations, one per head. -/
  matchers : List CommutativeMatcher
  patternCount : Nat

/-- The matcher for the arguments of operations with one commutative head. -/
structure CommutativeMatcher where
  head : Head
  /-- The net of the operand patterns. -/
  net : Net
  operands : List OperandPattern
  patterns : List CommutativePattern

end

namespace Net

/-- The net without patterns: a root without edges. -/
def empty : Net := ⟨.branch [], 1, .empty, [], 0⟩

instance : Inhabited Net := ⟨empty⟩

/-- All states by their numbers. -/
def states (net : Net) : List (StateId × State) :=
  sortBy (fun a b => a.1 ≤ b.1) (net.root.numbered 0)

/-- Number of edges. -/
def edgeCount (net : Net) : Nat := (net.states.flatMap fun (_, state) => state.edges).length

end Net

namespace CommutativeMatcher

/-- The matcher without patterns. -/
def ofHead (head : Head) : CommutativeMatcher := ⟨head, .empty, [], []⟩

instance : Inhabited CommutativeMatcher := ⟨ofHead default⟩

end CommutativeMatcher

end TermNet
