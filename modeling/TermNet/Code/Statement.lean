import TermNet.Predicate
import TermNet.Source.Expression

namespace TermNet.Code

/-!
# Statements — the bodies of the functions of a matcher module

A module has a function per state of a net.  All of them work on four variables,
`subjects`, `subst`, `active` and `results`.  The first three are shadowed in inner
blocks: the queue by a guard, which puts back what it has consumed at the end of its
block; the substitution by an extended one; the active patterns by fewer.

* `Opening` — what a guard consumes;
* `BoundValue`, `Condition` — what is bound, and what is checked;
* `Statement`, `Arm` — the statements.

The names of heads and expressions are those of static items, all other names those
of local variables.
-/

/-- What a guard consumes from the queue. -/
inductive Opening where
  /-- An operation with the head of this item, whose arguments are entered. -/
  | enter (head : String)
  /-- The end of the arguments that were entered. -/
  | close
  /-- The term of this item. -/
  | takeEqual (expression : String)
  /-- A symbol of this kind. -/
  | takeKind (kind : SymbolKind)
  | takeAny
  /-- An operation with the head of this item, as a whole. -/
  | takeOperation (head : String)
  | takeRun (minCount : Nat)
deriving DecidableEq, Repr, Inhabited

/-- What is bound to a variable. -/
inductive BoundValue where
  /-- One term. -/
  | item (name : String)
  /-- The term of a static item. -/
  | constant (expression : String)
  /-- The binding in a local variable. -/
  | binding (name : String)
deriving DecidableEq, Repr, Inhabited

/-- What a condition calls. -/
inductive Callee where
  | builtin (predicate : Predicate)
  | custom (path : Source.Path)
deriving Repr, Inhabited

/-- A check on the bindings of some variables. -/
structure Condition where
  callee : Callee
  variableNames : List String
deriving Repr, Inhabited

mutual

/-- The statements of a function. -/
inductive Statement where
  /-- If one of these patterns is active. -/
  | ifActive (patterns : List Nat) (body : List Statement)
  /-- If the subject is consumed. -/
  | ifExhausted (body : List Statement)
  /-- If this pattern is active and the conditions hold. -/
  | ifAccepts (pattern : Nat) (globals : List Condition) (body : List Statement)
  /-- Add a match, with its variables renamed. -/
  | pushResult (pattern : Nat) (pairs : List (String × String))
  /-- If the queue begins with what is to be consumed; the guard lives in the body. -/
  | ifOpens (guard : String) (opening : Opening) (body : List Statement)
  /-- What the guard has taken. -/
  | letItem (name guard : String)
  /-- Shadow the queue with the guard. -/
  | shadowSubjects (guard : String)
  /-- Repeat the body, with one more argument in the run each time, to the end of the
      arguments. -/
  | growing (run : String) (body : List Statement)
  /-- The binding for the run of a guard, as one operation if a head is given. -/
  | letBinding (name run : String) (wrap : Option String)
  | block (body : List Statement)
  /-- An empty list of patterns that are wanted. -/
  | letWanted (name : String)
  | pushWanted (name : String) (pattern : Nat)
  | ifWanted (name : String) (body : List Statement)
  /-- For every match of the arguments of the operation that a guard has taken. -/
  | forFound (pattern found matcher operation wanted : String) (body : List Statement)
  /-- Shadow the substitution. -/
  | shadowSubst (name : String)
  /-- The arm of the pattern in a local variable, or nothing. -/
  | matchPattern (name : String) (arms : List Arm)
  /-- If a variable can be bound; the extended substitution lives in the body. -/
  | ifExtends (extended variableName : String) (value : BoundValue) (body : List Statement)
  /-- A place for a smaller set of active patterns. -/
  | letNarrowed (name : String)
  /-- Unless the condition holds, take its owners out of the active patterns. -/
  | unlessHolds (condition : Condition) (narrowed : String) (owners : List Nat)
  /-- Shadow the active patterns with the smaller set, if there is one. -/
  | shadowActive (narrowed : String)
  /-- Call the function of a state. -/
  | call (function : String)

/-- What is done for one pattern. -/
structure Arm where
  pattern : Nat
  body : List Statement

end

instance : Inhabited Statement := ⟨.block []⟩

instance : Inhabited Arm := ⟨⟨0, []⟩⟩

end TermNet.Code
