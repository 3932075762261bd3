import TermNet.Source.Grammar

namespace TermNet.Source

/-!
# Operations — operators between operands

* `binaryOperator?`, `nextLevel` — the operator in front;
* `Grammar.operationsRule` — the operators after an operand;
* `Grammar.rightOperand` — what an operator takes at its right;
* `Grammar.expressionRule` — a whole expression.

An operator takes what binds tighter; of equal ones the left comes first, except for
assignments.  Comparisons do not follow each other, and nothing follows a range.
-/

/-- The first of the operators that is in front, and the tokens after it. -/
def binaryOperator? (tokens : List Token) : Option (BinaryOperator × List Token) :=
  binaryOperators.findSome? fun operator =>
    (after? operator.text tokens).map fun rest => (operator, rest)

/-- Whether an assignment is in front. -/
def startsAssignment (tokens : List Token) : Bool := starts "=" tokens && !starts "=>" tokens

/-- How tightly the operator in front binds; no operator binds loosest. -/
def nextLevel (tokens : List Token) : Level :=
  match binaryOperator? tokens with
  | some (operator, _) => operator.level
  | none =>
    if startsAssignment tokens then .assign
    else if starts ".." tokens then .range
    else if startsWord ["as"] tokens then .cast
    else .none

/-- The end of a range is left out in front of these. -/
def endsRange (structs : Bool) (tokens : List Token) : Bool :=
  tokens.isEmpty
    || [",", ";", "?", "=>", "=", "+", "/", "%", "^", ">", "<=", "!=", "-=", "*=", "&=", "|=",
        "<<="].any (starts · tokens)
    || startsPoint tokens || (!structs && startsGroup .brace tokens) || startsWord ["as"] tokens

/-- Whether a cast may stand in front of these: nothing that continues an operand. -/
def mayFollowCast (tokens : List Token) : Bool :=
  !startsGroup .parenthesis tokens && !startsGroup .bracket tokens && !continuesOperand tokens

namespace Grammar

open Reader

/-- Steps of `rightOperand`. -/
def rightSteps (g : Grammar) (structs : Bool) (level : Level) :
    (steps : Nat) → Expression → Reader Expression
  | 0, _ => failure
  | steps + 1, right => do
    let tokens ← get
    let next := nextLevel tokens
    if level.rank < next.rank || (next = level && level = .assign) then
      let extended ← g.operations structs next right
      if (← get).length = tokens.length then return extended
      g.rightSteps structs level steps extended
    else return right

/-- The right operand of an operator at a level, with the operators that bind tighter. -/
def rightOperand (g : Grammar) (structs : Bool) (level : Level) : Reader Expression := do
  let right ← g.operand structs
  g.rightSteps structs level (← stepsOfLoop) right

/-- The points of a range and its end. -/
def range (g : Grammar) (structs : Bool) : Reader (List Token) := do
  if ← ahead (starts "..=") then
    return (← operator "..=") ++ (← g.rightOperand structs .range).tokens
  else if ← ahead (starts "...") then failure
  else
    let points ← operator ".."
    if ← ahead (endsRange structs) then return points
    return points ++ (← g.rightOperand structs .range).tokens

/-- The type after `as`, which nothing that continues an operand may follow. -/
def cast (g : Grammar) : Reader (List Token) := do
  let type ← (return (← keyword "as") ++ (← g.type false).tokens : Reader (List Token))
  if ← ahead mayFollowCast then return type else failure

/-- Steps of `operationsRule`. -/
def operationSteps (g : Grammar) (structs : Bool) (base : Level) :
    (steps : Nat) → Expression → Reader Expression
  | 0, _ => failure
  | steps + 1, left => do
    let tokens ← get
    if left.isRange then return left
    else match binaryOperator? tokens with
      | some (operator, rest) =>
        if operator.level.rank < base.rank then return left
        else if operator.level = .compare && left.isComparison then failure
        else
          set rest
          let right ← g.rightOperand structs operator.level
          g.operationSteps structs base steps (.binary operator left right)
      | none =>
        if base.rank ≤ Level.assign.rank && startsAssignment tokens then
          let equals ← operator "="
          let right ← g.rightOperand structs .assign
          g.operationSteps structs base steps (.extended left (equals ++ right.tokens))
        else if base.rank ≤ Level.range.rank && starts ".." tokens then
          let range ← g.range structs
          g.operationSteps structs base steps (.other .range (left.tokens ++ range))
        else if startsWord ["as"] tokens then
          g.operationSteps structs base steps (.extended left (← g.cast))
        else return left

/-- The operators after an operand that bind at least as tightly as a level. -/
def operationsRule (g : Grammar) (structs : Bool) (base : Level) (left : Expression) :
    Reader Expression := do
  g.operationSteps structs base (← stepsOfLoop) left

/-- An expression: an operand with all operators after it. -/
def expressionRule (g : Grammar) (structs : Bool) : Reader Expression := do
  g.operations structs .none (← g.operand structs)

end Grammar

end TermNet.Source
