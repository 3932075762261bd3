import TermNet.Code.Constructor
import TermNet.Code.Statement

namespace TermNet.Code

/-!
# Modules — emitted matchers

A module has static items for heads and expressions, a type per matcher of
commutative operations with a function for its operands, and the public function that
matches subjects.

* `StateFunction`, `MatcherFunction` — the functions for a net;
* `MatcherType` — the type for a matcher, with the table of its patterns;
* `Item`, `Module` — a module.
-/

/-- The function of a state. -/
structure StateFunction where
  name : String
  body : List Statement
deriving Inhabited

/-- A function that matches one term, and the functions of the states of its net. -/
structure MatcherFunction where
  name : String
  isPublic : Bool
  patternCount : Nat
  /-- The function of the root. -/
  root : String
  states : List StateFunction
deriving Inhabited

/-- A sequence variable in the table of a matcher. -/
structure SequenceEntry where
  name : Option String
  count : Nat
  minCount : Nat
  /-- The static item of the default. -/
  default : Option String
  fixed : Bool
  wrap : Bool
deriving DecidableEq, Repr, Inhabited

/-- A commutative pattern in the table of a matcher. -/
structure PatternEntry where
  operands : List Nat
  sequenceVars : List SequenceEntry
deriving DecidableEq, Repr, Inhabited

/-- The type for the matcher of commutative operations with one head. -/
structure MatcherType where
  name : String
  /-- The static item of the head. -/
  head : String
  table : List PatternEntry
  /-- The function that matches one argument. -/
  function : MatcherFunction
deriving Inhabited

/-- What stands at the top level of a module before its public function. -/
inductive Item where
  | head (name : String) (head : Head)
  | expression (name : String) (constructor : Constructor)
  | matcher (type : MatcherType)
deriving Inhabited

/-- An emitted matcher. -/
structure Module where
  items : List Item
  main : MatcherFunction
deriving Inhabited

/-- Number of top-level functions. -/
def MatcherFunction.size (function : MatcherFunction) : Nat := 1 + function.states.length

/-- Number of top-level items; a matcher type comes with two implementations. -/
def Item.size : Item → Nat
  | matcher type => 3 + type.function.size
  | _ => 1

namespace Module

/-- Number of imports at the beginning of a module. -/
def importCount : Nat := 3

/-- Number of top-level items. -/
def size (m : Module) : Nat :=
  importCount + m.items.foldr (fun item total => item.size + total) m.main.size

/-- The matcher types. -/
def matcherTypes (m : Module) : List MatcherType :=
  m.items.filterMap fun item => match item with
    | .matcher type => some type
    | _ => none

/-- The functions that match a term: those of the matcher types, and the public one. -/
def functions (m : Module) : List MatcherFunction := m.matcherTypes.map (·.function) ++ [m.main]

/-- The functions of all states. -/
def states (m : Module) : List StateFunction := m.functions.flatMap (·.states)

/-- The heads of the static items. -/
def heads (m : Module) : List (String × Head) :=
  m.items.filterMap fun item => match item with
    | .head name head => some (name, head)
    | _ => none

/-- The constructors of the static items. -/
def expressions (m : Module) : List (String × Constructor) :=
  m.items.filterMap fun item => match item with
    | .expression name constructor => some (name, constructor)
    | _ => none

end Module

end TermNet.Code
