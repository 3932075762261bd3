import TermNet.NameMap
import TermNet.Term.Canonical
import TermNet.Term.Printer

namespace TermNet

/-!
# Bindings and substitutions

What a variable stands for, and finite maps from variables to what they stand for.

* `Binding` — one term for a fixed wildcard, a list of terms for a sequence
  wildcard;
* `Binding.ofRun` — the binding for a run of consumed arguments;
* `Binding.elements`, `Binding.text` — its terms, and its text;
* `Substitution` — bindings listed in the order of the variables' names;
* `extend?` — bind one more variable, failing on a conflicting binding;
* `tryBind` — the same as a step that keeps the substitution on conflict;
* `union?` — merge two substitutions that agree where both are defined;
* `renamed` — pass from one set of variable names to another;
* `satisfies` — evaluate a check on the bindings of some variables.
-/

/-- The value of a variable. -/
inductive Binding where
  /-- One term. -/
  | single (term : Term)
  /-- The terms of a run, in order. -/
  | sequence (terms : List Term)
deriving DecidableEq, Repr, Inhabited

namespace Binding

/-- The binding for a run of consumed arguments.  With a head, a run that is not
    empty becomes one term of that head; otherwise it stays a sequence. -/
def ofRun (run : List Term) : Option Head → Binding
  | some head => if run.isEmpty then sequence run else single (.rewrap head run)
  | none => sequence run

/-- The term of a single binding. -/
def single? : Binding → Option Term
  | single t => some t
  | sequence _ => none

/-- The terms of a sequence binding. -/
def sequence? : Binding → Option (List Term)
  | single _ => none
  | sequence ts => some ts

/-- All bound terms. -/
def elements : Binding → List Term
  | single t => [t]
  | sequence ts => ts

/-- A single term is written as it is, a sequence in brackets. -/
def text : Binding → String
  | single t => t.text
  | sequence ts => "[" ++ joinWith ", " (ts.map Term.text) ++ "]"

end Binding

/-! ### Substitutions -/

/-- Bindings of variables, listed in the order of their names. -/
abbrev Substitution := NameMap Binding

namespace Substitution

/-- Bind `name`.  A name that is bound already has to have the same binding. -/
def extend? (subst : Substitution) (name : String) (binding : Binding) : Option Substitution :=
  match subst.find? name with
  | some existing => if existing = binding then some subst else none
  | none => some (subst.insert name binding)

/-- Bind `name` and tell whether that succeeded; on conflict nothing changes. -/
def tryBind (subst : Substitution) (name : String) (binding : Binding) : Bool × Substitution :=
  match subst.find? name with
  | some existing => (existing = binding, subst)
  | none => (true, subst.insert name binding)

/-- Bind the names of a list one after the other. -/
def bindAll? (subst : Substitution) : List (String × Binding) → Option Substitution
  | [] => some subst
  | (name, binding) :: rest =>
    match subst.tryBind name binding with
    | (true, next) => bindAll? next rest
    | (false, _) => none

/-- **Union.**  The bindings of both substitutions, if they agree on the names
    that they share. -/
def union? (subst other : Substitution) : Option Substitution := subst.bindAll? other.entries

/-- The bindings of the names that `pairs` lists as `(declared, local)`, moved
    from the local to the declared name; unbound local names are left out. -/
def renamed (subst : Substitution) (pairs : List (String × String)) : Substitution :=
  .ofList (pairs.filterMap fun (declared, localName) =>
    (subst.find? localName).map fun binding => (declared, binding))

/-- The bindings of `names`, if all of them are bound. -/
def findAll? (subst : Substitution) (names : List String) : Option (List Binding) :=
  names.mapM subst.find?

/-- Whether `check` holds of the bindings of `names`.  It holds without being
    asked while one of the names is unbound. -/
def satisfies (subst : Substitution) (names : List String) (check : List Binding → Bool) : Bool :=
  match subst.findAll? names with
  | some bindings => check bindings
  | none => true

/-- The bindings in braces, in the order of the names. -/
def text (subst : Substitution) : String :=
  "\x7b" ++ joinWith ", " (subst.entries.map fun (name, binding) => name ++ ": " ++ binding.text)
    ++ "\x7d"

end Substitution

end TermNet
