import TermNet.Pattern.Tree
import TermNet.Pattern.Constraint

namespace TermNet

/-!
# Patterns — trees with constraints on their variables

* `Pattern` — a tree, its variables, and its local and global constraints;
* `Pattern.ofTree` — a pattern without constraints;
* `withConstraint`, `withGlobal` — a pattern with one more constraint;
* `accepts` — whether a substitution satisfies all constraints.

Local constraints are checked as soon as their variables are bound, global ones
once the whole pattern has matched.
-/

/-- A tree with constraints on its variables. -/
structure Pattern where
  tree : PatternTerm
  /-- The variables of the tree, with how each is bound. -/
  variableKinds : NameMap VariableKind
  constraints : List Constraint := []
  globals : List Constraint := []
deriving Inhabited

namespace Pattern

/-- The pattern of a tree that uses its variables consistently. -/
def ofTree (tree : PatternTerm) : Except PatternError Pattern :=
  match tree.variableKinds with
  | .ok variableKinds => .ok { tree, variableKinds }
  | .error error => .error error

/-- The first name of a list that is no variable of the pattern. -/
def unknown? (pattern : Pattern) (names : List String) : Option String :=
  names.find? fun name => !pattern.variableKinds.contains name

/-- What is wrong with a constraint of the pattern, if anything: it needs
    variables, and all of them have to be variables of the pattern. -/
def constraintFault? (pattern : Pattern) (c : Constraint) : Option PatternError :=
  if c.variableNames.isEmpty then some (.constraintWithoutVariables c.text)
  else (pattern.unknown? c.variableNames).map .unknownVariable

/-- The pattern with one more constraint, attached to one of its variables. -/
def withConstraint (pattern : Pattern) (name : String) (c : Constraint) :
    Except PatternError Pattern :=
  if pattern.variableKinds.contains name then
    match pattern.constraintFault? c with
    | some fault => .error fault
    | none => .ok { pattern with constraints := pattern.constraints ++ [c] }
  else .error (.unknownVariable name)

/-- The pattern with one more global constraint. -/
def withGlobal (pattern : Pattern) (c : Constraint) : Except PatternError Pattern :=
  match pattern.constraintFault? c with
  | some fault => .error fault
  | none => .ok { pattern with globals := pattern.globals ++ [c] }

/-- Whether a substitution satisfies every constraint. -/
def accepts (pattern : Pattern) (subst : Substitution) : Bool :=
  (pattern.constraints ++ pattern.globals).all (·.holds subst)

/-- The tree, and its constraints after `where`. -/
def text (pattern : Pattern) : String :=
  match pattern.constraints ++ pattern.globals with
  | [] => pattern.tree.text
  | all => pattern.tree.text ++ " where " ++ joinWith ", " (all.map Constraint.text)

end Pattern

end TermNet
