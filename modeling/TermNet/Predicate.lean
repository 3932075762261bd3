import TermNet.Substitution

namespace TermNet

/-!
# Predicates — the built-in checks on bindings

* `Predicate` — the checks, with their names and numbers of arguments;
* `Predicate.holds` — whether a check holds of some bindings.

A unary predicate holds of a sequence when it holds of every element.
-/

/-- The built-in checks. -/
inductive Predicate where
  | isInteger
  | isSymbol
  | isPositive
  | isNegative
  | isNonZero
  | equal
  | notEqual
  /-- No element of the first binding contains an element of the second. -/
  | freeOf
deriving DecidableEq, Repr, Inhabited

namespace Predicate

/-- The name by which constraints call the predicate. -/
def name : Predicate → String
  | isInteger => "IsInteger"
  | isSymbol => "IsSymbol"
  | isPositive => "IsPositive"
  | isNegative => "IsNegative"
  | isNonZero => "IsNonZero"
  | equal => "Equal"
  | notEqual => "NotEqual"
  | freeOf => "FreeOf"

/-- The predicate with exactly this name. -/
def ofName? : String → Option Predicate
  | "IsInteger" => some isInteger
  | "IsSymbol" => some isSymbol
  | "IsPositive" => some isPositive
  | "IsNegative" => some isNegative
  | "IsNonZero" => some isNonZero
  | "Equal" => some equal
  | "NotEqual" => some notEqual
  | "FreeOf" => some freeOf
  | _ => none

/-- Reading a name gives that predicate. -/
@[simp] theorem ofName?_name (predicate : Predicate) : ofName? predicate.name = some predicate := by
  cases predicate <;> rfl

/-- Number of variables that the predicate is about. -/
def arity : Predicate → Nat
  | isInteger | isSymbol | isPositive | isNegative | isNonZero => 1
  | equal | notEqual | freeOf => 2

/-- Whether the predicate holds; with another number of bindings it does not. -/
def holds : Predicate → List Binding → Bool
  | isInteger, [value] => value.elements.all (·.integer?.isSome)
  | isSymbol, [value] => value.elements.all (·.symbol?.isSome)
  | isPositive, [value] => value.elements.all (·.integer?.any (0 < ·))
  | isNegative, [value] => value.elements.all (·.integer?.any (· < 0))
  | isNonZero, [value] => value.elements.all (·.integer? ≠ some 0)
  | equal, [a, b] => a = b
  | notEqual, [a, b] => a ≠ b
  | freeOf, [whole, parts] =>
    whole.elements.all fun t => parts.elements.all fun part => !t.contains part
  | _, _ => false

end Predicate

end TermNet
