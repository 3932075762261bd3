import TermNet.Source.Lexer

namespace TermNet.Source

open TermNet.Text

/-!
# Numbers — the values of whole numbers

* `WholeNumber.ofLiteral?` — the value and the suffix of a whole number; a number with
  a point or an exponent is none;
* `wholeNumber?` — the value alone;
* `fieldIndex?` — the position of a field that a number names.
-/

/-- A whole number with the letters that follow its digits. -/
structure WholeNumber where
  value : Nat
  suffix : List Char
deriving DecidableEq, Repr, Inhabited

namespace WholeNumber

/-- Whether characters form a word. -/
def isWord : List Char → Bool
  | c :: rest => isIdentifierStart c && rest.all isIdentifierRest
  | [] => false

/-- Whether what follows an `e` makes it an exponent: a sign, or digits that no letter
    follows; `digits` tells whether there has been one. -/
def isExponent : (digits : Bool) → List Char → Bool
  | digits, [] => digits
  | digits, c :: rest =>
    if c = '_' then isExponent digits rest
    else if c = '+' || c = '-' then true
    else if c.isDigit then isExponent true rest
    else digits && isWord (c :: rest)

/-- The digits of a number in a base, after those that make `value`; `digits` tells
    whether there have been any. -/
def ofDigits? (base : Nat) : (value : Nat) → (digits : Bool) → List Char → Option WholeNumber
  | value, digits, [] => if digits then some ⟨value, []⟩ else none
  | value, digits, c :: rest =>
    let suffix := if digits && isWord (c :: rest) then some ⟨value, c :: rest⟩ else none
    if c = '_' then ofDigits? base value digits rest
    else if base = 10 && (c = 'e' || c = 'E') then if isExponent false rest then none else suffix
    else match digitValue? c with
      | some digit =>
        if digit < base then ofDigits? base (value * base + digit) true rest
        else if c.isDigit then none
        else suffix
      | none => suffix

/-- The whole number that a literal is. -/
def ofLiteral? (literal : String) : Option WholeNumber :=
  let (base, _, digits) := numberBase literal.toList
  if literal.toList.head?.any Char.isDigit then ofDigits? base 0 false digits else none

end WholeNumber

/-- The value of a whole number as it is written, with its base and suffix; a
    number with a point or an exponent has none. -/
def wholeNumber? (literal : String) : Option Nat :=
  (WholeNumber.ofLiteral? literal).map WholeNumber.value

/-- Whether a literal is a number with a point or an exponent. -/
def isFractional (literal : String) : Bool :=
  literal.toList.head?.any Char.isDigit && (wholeNumber? literal).isNone

/-- The limit of the positions of fields. -/
def fieldLimit : Nat := 4294967296

/-- The position of a field that a number without a suffix names, as it is printed. -/
def fieldIndex? (literal : String) : Option (List Token) :=
  match WholeNumber.ofLiteral? literal with
  | some ⟨value, []⟩ => if value < fieldLimit then some [.literal (toString value)] else none
  | _ => none

/-- The positions of fields in a row, which look like a number with points in it; a
    point may end it. -/
def fieldIndices? (literal : String) : Option (List (List Token)) :=
  let parts := literal.toList.splitOn '.'
  let parts := if parts.getLast? = some [] then parts.dropLast else parts
  parts.mapM fun part => fieldIndex? (String.ofList part)

end TermNet.Source
