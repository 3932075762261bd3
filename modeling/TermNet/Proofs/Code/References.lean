import TermNet.Code.Module
import TermNet.Text.Identifier

namespace TermNet.Code

/-!
# What a module refers to

The functions of a module refer to its static items, to the types of its matchers and to each
other, all by their names.  What the paths of custom checks stand for lies outside the module.

* `Reference` — a name, and what it is the name of;
* `Statement.references`, `Item.references`, `Module.references` — what is referred to;
* `Item.definitions`, `Module.definitions` — what is defined;
* `Module.identifiers` — the identifiers of all values of a module.
-/

/-- A name in a module, and what it is the name of. -/
inductive Reference where
  | head (name : String)
  | expression (name : String)
  | function (name : String)
  /-- The type of a matcher. -/
  | matcher (name : String)
deriving DecidableEq, Repr

/-- The name of a value; types have names of their own. -/
def Reference.value? : Reference → Option String
  | head name | expression name | function name => some name
  | matcher _ => none

/-! ### References -/

namespace Constructor

mutual

/-- The static items of heads in the calls for a term. -/
def headNames : Constructor → List String
  | .integer .. | .symbol _ => []
  | .operation (.shared name) args => name :: headNamesAll args
  | .operation (.inPlace _) args => headNamesAll args
termination_by structural c => c

/-- The static items of heads in the calls for the terms of a list. -/
def headNamesAll : List Constructor → List String
  | [] => []
  | c :: cs => headNames c ++ headNamesAll cs
termination_by structural cs => cs

end

end Constructor

/-- The static item that says what a guard consumes. -/
def Opening.references : Opening → List Reference
  | enter head | takeOperation head => [.head head]
  | takeEqual expression => [.expression expression]
  | close | takeKind _ | takeAny | takeRun _ => []

/-- The static item of what is bound. -/
def BoundValue.references : BoundValue → List Reference
  | constant expression => [.expression expression]
  | item _ | binding _ => []

mutual

/-- **What a statement refers to,** besides local variables. -/
def Statement.references : Statement → List Reference
  | .ifActive _ body | .ifExhausted body | .ifAccepts _ _ body | .growing _ body | .block body
  | .ifWanted _ body => bodyReferences body
  | .ifOpens _ opening body => opening.references ++ bodyReferences body
  | .letBinding _ _ wrap => wrap.toList.map .head
  | .forFound _ _ matcher _ _ body => .matcher matcher :: bodyReferences body
  | .matchPattern _ arms => armReferences arms
  | .ifExtends _ _ value body => value.references ++ bodyReferences body
  | .call function => [.function function]
  | .pushResult .. | .letItem .. | .shadowSubjects _ | .letWanted _ | .pushWanted ..
  | .shadowSubst _ | .letNarrowed _ | .unlessHolds .. | .shadowActive _ => []
termination_by structural s => s

/-- What statements refer to. -/
def bodyReferences : List Statement → List Reference
  | [] => []
  | s :: rest => Statement.references s ++ bodyReferences rest
termination_by structural body => body

/-- What the arms for patterns refer to. -/
def armReferences : List Arm → List Reference
  | [] => []
  | ⟨_, body⟩ :: rest => bodyReferences body ++ armReferences rest
termination_by structural arms => arms

end

/-- What the function of a term and the functions of its states refer to. -/
def MatcherFunction.references (function : MatcherFunction) : List Reference :=
  .function function.root :: function.states.flatMap fun state => bodyReferences state.body

/-- The static items of the defaults in the table of a matcher. -/
def PatternEntry.references (entry : PatternEntry) : List Reference :=
  entry.sequenceVars.flatMap fun var => var.default.toList.map .expression

/-- What the type of a matcher refers to. -/
def MatcherType.references (type : MatcherType) : List Reference :=
  .head type.head :: .function type.function.name ::
    (type.table.flatMap PatternEntry.references ++ type.function.references)

/-- What an item refers to. -/
def Item.references : Item → List Reference
  | head .. => []
  | expression _ constructor => constructor.headNames.map .head
  | matcher type => type.references

/-- **What a module refers to.** -/
def Module.references (m : Module) : List Reference :=
  m.items.flatMap Item.references ++ m.main.references

/-! ### Definitions -/

/-- The function of a term and the functions of its states. -/
def MatcherFunction.definitions (function : MatcherFunction) : List Reference :=
  .function function.name :: function.states.map fun state => .function state.name

/-- The type of a matcher and its functions. -/
def MatcherType.definitions (type : MatcherType) : List Reference :=
  .matcher type.name :: type.function.definitions

/-- What an item defines. -/
def Item.definitions : Item → List Reference
  | head name _ => [.head name]
  | expression name _ => [.expression name]
  | matcher type => type.definitions

/-- **What a module defines.** -/
def Module.definitions (m : Module) : List Reference :=
  m.items.flatMap Item.definitions ++ m.main.definitions

/-- The function that a module imports. -/
def importedFunction : String := "match_commutative"

/-- **The identifiers of all values of a module:** of the function that it imports, and of all
    values that it defines.  With and without the mark `r#` a name is the same identifier. -/
def Module.identifiers (m : Module) : List String :=
  (importedFunction :: m.definitions.filterMap Reference.value?).map Text.withoutRawMark

/-! ### References of bodies -/

/-- No statements refer to nothing. -/
@[simp] theorem bodyReferences_nil : bodyReferences [] = [] := rfl

/-- A body refers to what its first statement does, and to what the others do. -/
@[simp] theorem bodyReferences_cons (s : Statement) (rest : List Statement) :
    bodyReferences (s :: rest) = s.references ++ bodyReferences rest := rfl

/-- Two bodies refer to what both of them do. -/
@[simp] theorem bodyReferences_append (body more : List Statement) :
    bodyReferences (body ++ more) = bodyReferences body ++ bodyReferences more := by
  induction body with
  | nil => rfl
  | cons s rest ih => rw [List.cons_append, bodyReferences, bodyReferences, ih, List.append_assoc]

end TermNet.Code
