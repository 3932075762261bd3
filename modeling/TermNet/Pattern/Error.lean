import TermNet.Predicate

namespace TermNet

/-!
# What can be wrong with a pattern

* `PatternError` — the causes;
* `PatternError.message?` — their wording;
* `PatternError.isMalformed` — whether the fault lies in the wildcards.
-/

/-- Why a text or a tree is not a pattern, a subject or a constraint. -/
inductive PatternError where
  /-- A wildcard with a negative minimum. -/
  | negativeMinCount (name : Option String) (minCount : Int)
  /-- A fixed wildcard, which matches one term, with another minimum. -/
  | fixedWildcardCount (name : Option String) (minCount : Int)
  /-- A sequence wildcard that is restricted to symbols. -/
  | symbolWildcardNotFixed (name : Option String)
  /-- An optional wildcard without its default. -/
  | missingDefault (name : Option String)
  /-- A variable that is both fixed and a sequence. -/
  | inconsistentVariable (name : String)
  /-- A constraint on a variable that the pattern does not have. -/
  | unknownVariable (name : String)
  /-- A constraint without variables, which would never become ready. -/
  | constraintWithoutVariables (text : String)
  /-- A predicate with the wrong number of variables. -/
  | constraintArity (predicate : Predicate) (actual : Nat)
  /-- A text that is no expression. -/
  | notAnExpression
  /-- An expression that has no meaning as a pattern. -/
  | unsupported (text : String)
  /-- A wildcard in a subject. -/
  | wildcardInSubject (text : String)
deriving DecidableEq, Repr, Inhabited

namespace PatternError

/-- A wildcard as messages name it. -/
def wildcardName : Option String → String
  | some name => "`" ++ name ++ "`"
  | none => "(anonymous)"

/-- The wording of the error; a text that is no expression is not explained here. -/
def message? : PatternError → Option String
  | negativeMinCount name minCount =>
    some ("malformed pattern: wildcard " ++ wildcardName name ++ " has negative minimum count "
      ++ toString minCount)
  | fixedWildcardCount name minCount =>
    some ("malformed pattern: fixed wildcard " ++ wildcardName name
      ++ " must have minimum count 1, got " ++ toString minCount)
  | symbolWildcardNotFixed name =>
    some ("malformed pattern: symbol wildcard " ++ wildcardName name ++ " must be fixed-size")
  | missingDefault name =>
    some ("malformed pattern: optional wildcard " ++ wildcardName name ++ " declares no default")
  | inconsistentVariable name =>
    some ("malformed pattern: variable `" ++ name ++ "` is bound to incompatible wildcard kinds")
  | unknownVariable name => some ("constraint refers to unknown variable `" ++ name ++ "`")
  | constraintWithoutVariables text => some ("constraint `" ++ text ++ "` refers to no variable")
  | constraintArity predicate actual =>
    some ("predicate " ++ predicate.name ++ " takes " ++ toString predicate.arity
      ++ " variables, got " ++ toString actual)
  | notAnExpression => none
  | unsupported text => some ("unsupported syntax `" ++ text ++ "`")
  | wildcardInSubject text =>
    some ("wildcard `" ++ text ++ "` is not allowed in a subject expression")

/-- Whether the quantifiers of wildcards or the use of variables are at fault. -/
def isMalformed : PatternError → Bool
  | negativeMinCount .. | fixedWildcardCount .. | symbolWildcardNotFixed ..
  | missingDefault .. | inconsistentVariable .. => true
  | _ => false

end PatternError

end TermNet
