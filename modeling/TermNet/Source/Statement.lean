import TermNet.Source.Item
import TermNet.Source.Operand

namespace TermNet.Source.Grammar

open Reader

/-!
# Statements and blocks

* `statement` — a declaration, a variable, a call of a macro or an expression;
* `blockRule` — statements in braces.
-/

/-! ### Statements -/

/-- A variable with its type, its value and what is done if the value does not match. -/
def variableStatement (g : Grammar) : Reader (List Token) := do
  let start ← inOrder [keyword "let", g.binderTokens]
  let type ← if ← ahead (starts ":") then inOrder [operator ":", g.typeTokens] else pure []
  if ← ahead (starts "=") then
    let equals ← operator "="
    let value ← g.expression true
    let otherwise ← if !value.endsInBrace && (← ahead (startsWord ["else"])) then
        inOrder [keyword "else", g.block false]
      else pure []
    return start ++ type ++ equals ++ value.tokens ++ otherwise ++ (← operator ";")
  return start ++ type ++ (← operator ";")

/-- Whether a declaration is in front, calls of macros aside. -/
def startsItem (tokens : List Token) : Bool :=
  let second := skip tokens
  let third := skip second
  let functionWords := ["unsafe", "extern", "fn"]
  startsWord ["pub", "extern", "use", "fn", "mod", "type", "struct", "enum", "trait", "impl",
      "macro"] tokens
    || (startsWord ["crate"] tokens && !starts "::" second)
    || (startsWord ["static"] tokens && (startsWord ["mut"] second || startsIdentifier second))
    || (startsWord ["const"] tokens && !(startsGroup .brace second || startsWord ["static"] second
      || (startsWord ["async"] second && !startsWord functionWords third)
      || startsWord ["move"] second || starts "|" second))
    || (startsWord ["unsafe"] tokens && !startsGroup .brace second)
    || (startsWord ["async"] tokens && startsWord functionWords second)
    || (startsWord ["union"] tokens && startsIdentifier second)
    || (startsWord ["auto"] tokens && startsWord ["trait"] second)
    || (startsWord ["default"] tokens && startsWord ["unsafe", "impl"] second)

/-- An expression as a statement, and whether a semicolon must still follow. -/
def expressionStatement (g : Grammar) (attributes : List Token) : Reader (Bool × List Token) := do
  let e ← g.leading
  let semicolon ← optionalOperator ";"
  return (semicolon.isEmpty && e.needsSemicolon, (e.attach attributes).tokens ++ semicolon)

/-- What the call of a macro at the beginning of a statement is. -/
inductive MacroUse where
  /-- It declares something. -/
  | item
  /-- It is the whole statement. -/
  | statement
  /-- It is an expression, or there is none. -/
  | expression
deriving DecidableEq, Repr

/-- What the call of a macro at the beginning of a statement is.  One with braces is the
    whole statement, unless it goes on with a point or a question mark. -/
def macroUse (tokens : List Token) : MacroUse :=
  match modulePath tokens with
  | some (_, rest) =>
    let second := skip rest
    if !starts "!" rest then .expression
    else if startsIdentifier second || startsWord ["try"] second then .item
    else if startsGroup .brace second && !continuesOperand (skip second) then .statement
    else .expression
  | none => .expression

/-- A statement, and whether a semicolon must still follow. -/
def statement (g : Grammar) : Reader (Bool × List Token) := do
  let before ← get
  let attributes ← g.outerAttributes
  let tokens ← get
  let use := macroUse tokens
  if use = .statement then
    return (false, attributes ++ (← inOrder [macroCall, optionalOperator ";"]))
  else if startsWord ["let"] tokens then return (false, attributes ++ (← g.variableStatement))
  else if use = .item || startsItem tokens then return (false, ← g.itemAfter before attributes)
  else g.expressionStatement attributes

/-! ### Blocks -/

/-- Steps of `statements`. -/
def statementSteps (g : Grammar) : (steps : Nat) → Reader (List Token)
  | 0 => failure
  | steps + 1 => do
    if ← ahead List.isEmpty then return []
    else if ← ahead (starts ";") then return (← operator ";") ++ (← g.statementSteps steps)
    else
      let (needsSemicolon, found) ← g.statement
      if needsSemicolon && !(← ahead List.isEmpty) then failure
      return found ++ (← g.statementSteps steps)

/-- Statements up to the end; the last one may lack its semicolon. -/
def statements (g : Grammar) : Reader (List Token) := do g.statementSteps (← stepsOfLoop)

/-- Statements in braces, with attributes of their own where `inner` holds. -/
def blockRule (g : Grammar) (inner : Bool) : Reader (List Token) :=
  group .brace (inOrder [if inner then g.innerAttributes else return [], g.statements])

end TermNet.Source.Grammar
