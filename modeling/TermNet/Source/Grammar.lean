import TermNet.Source.Expression
import TermNet.Source.Reader

namespace TermNet.Source

/-!
# Grammars — the rules that refer to each other

Expressions hold types, blocks and patterns, and all of these hold expressions.  The
rules are therefore written over a grammar that can already read what is nested in
them; `Source.Language` builds the grammar of any depth from the one below.

* `SourceType`, `Binder` — what matters of types and patterns;
* `Grammar` — what is read by rules that others refer to.

A rule that reads `x` is named `Grammar.xRule` where `Grammar.x` is the field.
-/

/-- Types, as far as what may follow depends on them. -/
inductive SourceType where
  | path (path : Path)
  /-- A single bound of a trait, which may stand in parentheses of its own. -/
  | bound (tokens : List Token) (inParentheses : Bool)
  /-- A sum of bounds. -/
  | bounds (tokens : List Token)
  /-- A type in parentheses. -/
  | paren (inner : List Token)
  | other (tokens : List Token)
deriving Repr, Inhabited

/-- The tokens of a type. -/
def SourceType.tokens : SourceType → List Token
  | path p => p.tokens
  | bound tokens false => tokens
  | bound tokens true => [.group .parenthesis tokens]
  | bounds tokens => tokens
  | paren inner => [.group .parenthesis inner]
  | other tokens => tokens

/-- What matters of the patterns that bind names in the source language. -/
inductive BinderShape where
  | plain
  /-- The two points that stand for all the rest. -/
  | rest
  /-- A range with both ends. -/
  | range
  /-- A range without one of its ends. -/
  | openRange
  /-- A pattern that is kept as it is written. -/
  | verbatim
deriving DecidableEq, Repr, Inhabited

/-- A pattern that binds names in the source language. -/
structure Binder where
  shape : BinderShape := .plain
  tokens : List Token
deriving Repr, Inhabited

/-- Put attributes in front of a pattern.  A range is put in parentheses, and what is
    kept as it is written loses them. -/
def Binder.withAttributes (attributes : List Token) (binder : Binder) : List Token :=
  if attributes.isEmpty then binder.tokens
  else match binder.shape with
    | .plain | .rest => attributes ++ binder.tokens
    | .range | .openRange => attributes ++ [.group .parenthesis binder.tokens]
    | .verbatim => binder.tokens

/-- What is read by rules that refer to each other. -/
structure Grammar where
  /-- An expression.  Where `structs` does not hold, a brace does not continue it. -/
  expression : (structs : Bool) → Reader Expression
  /-- An operand with what belongs to it. -/
  operand : (structs : Bool) → Reader Expression
  /-- What follows an operand at a level or tighter ones, with the operand. -/
  operations : (structs : Bool) → Level → Expression → Reader Expression
  /-- An expression at the beginning of a statement, which ends after a block. -/
  leading : Reader Expression
  /-- A type.  Where `plus` does not hold, it is no sum. -/
  type : (plus : Bool) → Reader SourceType
  /-- Generic arguments between angles. -/
  generics : Reader (List Token)
  /-- A pattern without alternatives. -/
  binder : Reader Binder
  /-- Statements in braces, with attributes of their own where `inner` holds. -/
  block : (inner : Bool) → Reader (List Token)
  /-- The fields of a structure in braces. -/
  fields : Reader (List Token)
  /-- What a module may declare. -/
  item : Reader (List Token)
  /-- What an import names, and whether any of it begins at the root. -/
  importTree : (rooted : Bool) → Reader (Bool × List Token)

namespace Grammar

/-- The tokens of an expression. -/
def value (g : Grammar) : Reader (List Token) := return (← g.expression true).tokens

/-- The tokens of a type, which may be a sum. -/
def typeTokens (g : Grammar) : Reader (List Token) := return (← g.type true).tokens

/-- The tokens of a pattern without alternatives. -/
def binderTokens (g : Grammar) : Reader (List Token) := return (← g.binder).tokens

end Grammar

end TermNet.Source
