import TermNet.Source.Statement

namespace TermNet.Source

open TermNet.Text Grammar

/-!
# The source language

* `Grammar.ofDepth` — the grammar of texts that nest no deeper than a number;
* `Expression.ofText?`, `Path.ofText?`, `identifier?` — whole texts.

All of these fail alike on a text that is not of their kind.
-/

namespace Grammar

/-- The grammar that reads nothing. -/
def empty : Grammar where
  expression _ := failure
  operand _ := failure
  operations _ _ _ := failure
  leading := failure
  type _ := failure
  generics := failure
  binder := failure
  block _ := failure
  fields := failure
  item := failure
  importTree _ := failure

/-- The grammar of texts that nest once more than those of another. -/
def deeper (g : Grammar) : Grammar where
  expression := g.expressionRule
  operand := g.operandRule
  operations := g.operationsRule
  leading := g.leadingRule
  type := g.typeRule
  generics := g.genericsRule
  binder := g.binderRule
  block := g.blockRule
  fields := g.fieldsRule
  item := g.itemRule
  importTree := g.importTreeRule

/-- The grammar of texts that nest no deeper than a number of rules. -/
def ofDepth : Nat → Grammar
  | 0 => empty
  | depth + 1 => (ofDepth depth).deeper

/-- The grammar that reads tokens whatever their number: between two tokens there are
    never that many rules. -/
def forTokens (tokens : List Token) : Grammar := ofDepth (8 * (sizeOfTokens tokens + 1))

end Grammar

/-- What tokens mean, all of which must be read. -/
def readAll? {α : Type} (reader : Grammar → Reader α) (tokens : List Token) : Option α :=
  match reader (Grammar.forTokens tokens) tokens with
  | some (found, []) => some found
  | _ => none

/-- **The expression that a text is.** -/
def Expression.ofText? (text : String) : Option Expression :=
  (tokens? text).bind (readAll? fun g => g.expression true)

/-- The path that a text is. -/
def Path.ofText? (text : String) : Option Path :=
  (tokens? text).bind (readAll? fun g => g.path false)

/-- Whether tokens are expressions separated by commas. -/
def isExpressionList (tokens : List Token) : Bool := (readAll? Grammar.arguments tokens).isSome

/-- The identifier that a text is, without blanks and comments around it. -/
def identifier? (text : String) : Option String :=
  match tokens? text with
  | some [.word w] => if isKeyword w then none else some w
  | _ => none

end TermNet.Source
