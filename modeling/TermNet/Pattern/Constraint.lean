import TermNet.Substitution
import TermNet.Pattern.Error

namespace TermNet

/-!
# Constraints — conditions on the variables of a pattern

* `Check` — a predicate, or a custom function with the path by which emitted
  matchers call it;
* `Constraint` — a check on some variables;
* `ConstraintRegistry` — constraints without repetition, each with the patterns
  that it belongs to.

Two constraints are the same when they make the same check, custom ones going by
their path, on the same variables.
-/

/-- What is checked. -/
inductive Check where
  | builtin (predicate : Predicate)
  /-- A function on bindings, and the path of the function that emitted code calls. -/
  | custom (path : String) (function : List Binding → Bool)
deriving Inhabited

namespace Check

/-- Whether two checks are the same: one predicate, or one path. -/
def same : Check → Check → Bool
  | builtin p, builtin q => p = q
  | custom p _, custom q _ => p = q
  | _, _ => false

/-- The name by which a check is called. -/
def name : Check → String
  | builtin predicate => predicate.name
  | custom path _ => path

/-- Whether the check succeeds. -/
def holds : Check → List Binding → Bool
  | builtin predicate, bindings => predicate.holds bindings
  | custom _ function, bindings => function bindings

end Check

/-- A check on some variables. -/
structure Constraint where
  check : Check
  variableNames : List String
deriving Inhabited

namespace Constraint

/-- A predicate on as many variables as it is about. -/
def builtin (predicate : Predicate) (names : List String) : Except PatternError Constraint :=
  if names.length = predicate.arity then .ok ⟨.builtin predicate, names⟩
  else .error (.constraintArity predicate names.length)

/-- A custom function, called by `path` in emitted code. -/
def custom (path : String) (names : List String) (function : List Binding → Bool) : Constraint :=
  ⟨.custom path function, names⟩

/-- Whether two constraints are the same. -/
def same (c d : Constraint) : Bool := c.check.same d.check && c.variableNames = d.variableNames

/-- Whether the constraint holds; it does while one of its variables is unbound. -/
def holds (c : Constraint) (subst : Substitution) : Bool :=
  subst.satisfies c.variableNames c.check.holds

/-- Whether all variables of the constraint are among `names`. -/
def isAbout (c : Constraint) (names : List String) : Bool := c.variableNames.all names.contains

/-- The same check on renamed variables; other names stay. -/
def renamed (c : Constraint) (names : NameMap String) : Constraint :=
  { c with variableNames := c.variableNames.map fun name => (names.find? name).getD name }

/-- The check as a call on its variables. -/
def text (c : Constraint) : String := c.check.name ++ "(" ++ joinWith ", " c.variableNames ++ ")"

end Constraint

/-! ### Registry -/

/-- Position of a constraint in a registry. -/
abbrev ConstraintId := Nat

/-- How the position of a constraint is written. -/
def constraintLabel (id : ConstraintId) : String := "c" ++ toString id

/-- A registered constraint and the patterns that it belongs to. -/
structure RegisteredConstraint where
  constraint : Constraint
  /-- Indices of patterns, increasing. -/
  owners : List Nat
deriving Inhabited

/-- Constraints without repetition, in the order of their registration. -/
structure ConstraintRegistry where
  entries : List RegisteredConstraint := []
deriving Inhabited

namespace ConstraintRegistry

/-- The registry without constraints. -/
def empty : ConstraintRegistry := {}

/-- Register a constraint for the pattern `owner`.  A constraint that is known
    already gets one more owner. -/
def register (registry : ConstraintRegistry) (c : Constraint) (owner : Nat) :
    ConstraintRegistry × ConstraintId :=
  match registry.entries.findIdx? fun entry => entry.constraint.same c with
  | some id =>
    (⟨registry.entries.modify id fun entry =>
      { entry with owners := insertUnique owner entry.owners }⟩, id)
  | none => (⟨registry.entries ++ [⟨c, [owner]⟩]⟩, registry.entries.length)

/-- Register the constraints of a list one after the other. -/
def registerAll (registry : ConstraintRegistry) (owner : Nat) :
    List Constraint → ConstraintRegistry × List ConstraintId
  | [] => (registry, [])
  | c :: rest =>
    let (registry, id) := registry.register c owner
    let (registry, ids) := registry.registerAll owner rest
    (registry, id :: ids)

/-- The constraint with this position. -/
def get? (registry : ConstraintRegistry) (id : ConstraintId) : Option Constraint :=
  registry.entries[id]?.map RegisteredConstraint.constraint

/-- The patterns that the constraint belongs to. -/
def owners (registry : ConstraintRegistry) (id : ConstraintId) : List Nat :=
  (registry.entries[id]?.map RegisteredConstraint.owners).getD []

/-- The constraints that mention a variable, in the order of their registration. -/
def candidates (registry : ConstraintRegistry) (variableName : String) : List ConstraintId :=
  registry.entries.zipIdx.filterMap fun (entry, id) =>
    if entry.constraint.variableNames.contains variableName then some id else none

/-- Number of constraints. -/
def size (registry : ConstraintRegistry) : Nat := registry.entries.length

/-- The constraints with their positions. -/
def toList (registry : ConstraintRegistry) : List (ConstraintId × Constraint) :=
  registry.entries.zipIdx.map fun (entry, id) => (id, entry.constraint)

/-- Whether the constraint with this position holds. -/
def holds (registry : ConstraintRegistry) (id : ConstraintId) (subst : Substitution) : Bool :=
  match registry.get? id with
  | some c => c.holds subst
  | none => true

end ConstraintRegistry

end TermNet
