import TermNet.Pattern.Error

namespace TermNet

/-!
# Wildcards — the open places of a pattern

* `Extent` — what a wildcard takes: one term, perhaps a symbol of some kind, or a
  run of terms;
* `Wildcard` — an extent with a name and a default;
* `Wildcard.make` — a wildcard from its parts, with the checks on them;
* `Wildcard.text` — how a wildcard is written.
-/

/-- What a wildcard takes. -/
inductive Extent where
  /-- One term; with a kind, one symbol of that kind. -/
  | one (symbolKind : Option SymbolKind)
  /-- A run of at least that many terms. -/
  | run (minCount : Nat)
deriving DecidableEq, Repr, Inhabited

/-- An open place.  With a default it is optional: where nothing stands in its
    place, the default is bound. -/
structure Wildcard where
  name : Option String
  extent : Extent
  default : Option Term := none
deriving DecidableEq, Repr, Inhabited

/-- How a variable is bound. -/
inductive VariableKind where
  | single
  | sequence
deriving DecidableEq, Repr, Inhabited

/-- The name of the kind. -/
def VariableKind.name : VariableKind → String
  | single => "Single"
  | sequence => "Sequence"

namespace Wildcard

/-! ### Construction -/

/-- A wildcard for one term. -/
def fixed (name : Option String) : Wildcard := ⟨name, .one none, none⟩

/-- A wildcard for a run of at least `minCount` terms. -/
def sequence (name : Option String) (minCount : Nat) : Wildcard := ⟨name, .run minCount, none⟩

/-- A wildcard for one symbol of a kind. -/
def symbol (name : Option String) (kind : SymbolKind) : Wildcard := ⟨name, .one (some kind), none⟩

/-- A wildcard for one term or none. -/
def optional (name : Option String) (default : Term) : Wildcard := ⟨name, .one none, some default⟩

/-- **A wildcard from its parts.**  The minimum must not be negative, a fixed
    wildcard has the minimum 1, and only fixed ones are restricted to symbols. -/
def make (name : Option String) (minCount : Int) (isFixed : Bool) (default : Option Term)
    (symbolKind : Option SymbolKind) : Except PatternError Wildcard :=
  if minCount < 0 then .error (.negativeMinCount name minCount)
  else if isFixed then
    if minCount = 1 then .ok ⟨name, .one symbolKind, default⟩
    else .error (.fixedWildcardCount name minCount)
  else if symbolKind.isSome then .error (.symbolWildcardNotFixed name)
  else .ok ⟨name, .run minCount.toNat, default⟩

/-! ### Parts -/

/-- Whether the wildcard takes exactly one term where it takes any. -/
def isFixed (w : Wildcard) : Bool :=
  match w.extent with
  | .one _ => true
  | .run _ => false

/-- Whether the wildcard takes a run of terms. -/
def isSequence (w : Wildcard) : Bool := !w.isFixed

/-- Whether the wildcard may be passed over. -/
def isOptional (w : Wildcard) : Bool := w.default.isSome

/-- The least number of terms. -/
def minCount (w : Wildcard) : Nat :=
  match w.extent with
  | .one _ => 1
  | .run n => n

/-- The kind of symbols that the wildcard is restricted to. -/
def symbolKind (w : Wildcard) : Option SymbolKind :=
  match w.extent with
  | .one kind => kind
  | .run _ => none

/-- How the variable of the wildcard is bound. -/
def variableKind (w : Wildcard) : VariableKind := if w.isFixed then .single else .sequence

/-! ### Changes -/

/-- The same wildcard with another name, or without one. -/
def renamed (w : Wildcard) (name : Option String) : Wildcard := { w with name }

/-- The same wildcard with a default. -/
def withDefault (w : Wildcard) (default : Term) : Wildcard := { w with default := some default }

/-- The same wildcard restricted to symbols of a kind. -/
def withSymbolKind (w : Wildcard) (kind : SymbolKind) : Except PatternError Wildcard :=
  if w.isFixed then .ok { w with extent := .one (some kind) }
  else .error (.symbolWildcardNotFixed w.name)

/-- The same wildcard with another minimum. -/
def withMinCount (w : Wildcard) (minCount : Int) : Except PatternError Wildcard :=
  make w.name minCount w.isFixed w.default w.symbolKind

/-! ### Text -/

/-- The name with as many underscores as the extent asks for, or a call of `Seq`
    for a larger minimum. -/
def extentText (name : String) : Extent → String
  | .one none => name ++ "_"
  | .one (some kind) => "Sym(" ++ name ++ "_, " ++ kind.name ++ ")"
  | .run 0 => name ++ "___"
  | .run 1 => name ++ "__"
  | .run n => "Seq(" ++ name ++ "__, " ++ toString n ++ ")"

/-- The text of a wildcard. -/
def text (w : Wildcard) : String :=
  let base := extentText (w.name.getD "") w.extent
  match w.default with
  | some default => "Optional(" ++ base ++ ", " ++ default.text ++ ")"
  | none => base

end Wildcard

end TermNet
