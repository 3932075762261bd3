import TermNet.Pattern.Basic
import TermNet.Source.Language

namespace TermNet

open TermNet.Source

/-!
# Reading patterns, subjects and constraints

Patterns are written as expressions:

* `x`, `3`, `-3` — a symbol, integers;
* `Dummy::d`, `Constant::pi` — symbols of other kinds;
* `x_`, `_` — a fixed wildcard, an anonymous one;
* `x__`, `x___` — sequence wildcards with the minimum 1 and 0;
* `Seq(x__, 2)`, `Sym(x_, Dummy)`, `Optional(x_, 0)` — a sequence with another
  minimum, a wildcard for symbols, an optional wildcard;
* `a + b`, `a - b`, `a * b`, `-a` — sums and products;
* `Pow(a, b)`, `f(a, b)`, `Assoc::f(a)`, `Comm::f(a)`, `AC::f(a)` — operations.

A subject is a pattern without wildcards, and a constraint calls a predicate on
variables, `FreeOf(x, y)`.

* `PatternTerm.ofExpression` — the pattern that an expression stands for;
* `PatternTerm.parse`, `Term.parse`, `Constraint.parse`, `Pattern.parse` — the
  readers of texts.
-/

namespace PatternTerm

/-- The name of a wildcard, whose empty name means that it is anonymous. -/
def wildcardName? (name : List Char) : Option String :=
  if name.isEmpty then none else some (String.ofList name)

/-- A name with underscores at its end is a wildcard, any other a symbol. -/
def ofName (name : String) : PatternTerm :=
  match name.toList.reverse with
  | '_' :: '_' :: '_' :: rest => wildcard (.sequence (wildcardName? rest.reverse) 0)
  | '_' :: '_' :: rest => wildcard (.sequence (wildcardName? rest.reverse) 1)
  | '_' :: rest => wildcard (.fixed (wildcardName? rest.reverse))
  | _ => symbol name

/-- The product with -1, or the integer with the other sign. -/
def negate (p : PatternTerm) : PatternTerm :=
  match p.integer? with
  | some value => integer (-value)
  | none => product [integer (-1), p]

/-- An expression that has no meaning as a pattern. -/
def unsupported {α : Type} (tokens : List Token) : Except PatternError α :=
  .error (.unsupported (printTokens tokens))

/-- The pattern that a path stands for. -/
def ofPath (tokens : List Token) (path : Path) : Except PatternError PatternTerm :=
  match path.names with
  | [name] => .ok (ofName name)
  | [kind, name] =>
    match SymbolKind.ofName? kind with
    | some kind => .ok (atom (.symbol ⟨name, kind⟩))
    | none => unsupported tokens
  | _ => unsupported tokens

/-- The pattern that two operands and the operator between them stand for. -/
def ofBinary (tokens : List Token) (operator : BinaryOperator) (left right : PatternTerm) :
    Except PatternError PatternTerm :=
  match operator.text with
  | "+" => .ok (sum [left, right])
  | "-" => .ok (sum [left, product [integer (-1), right]])
  | "*" => .ok (product [left, right])
  | _ => unsupported tokens

/-- An argument of a call, with the pattern that it stands for. -/
structure Argument where
  expression : Expression
  pattern : Except PatternError PatternTerm

/-- The wildcard that an argument stands for. -/
def Argument.wildcard (argument : Argument) : Except PatternError Wildcard :=
  match argument.pattern with
  | .ok p =>
    match p.wildcard? with
    | some w => .ok w
    | none => unsupported argument.expression.tokens
  | .error error => .error error

/-- The meaning of `Optional`: a wildcard and its default. -/
def ofOptional (tokens : List Token) (args : List Argument) : Except PatternError PatternTerm := do
  match args with
  | [] => unsupported tokens
  | first :: rest =>
    let w ← first.wildcard
    match rest with
    | [default] =>
      let p ← default.pattern
      match p.toTerm? with
      | some t => return wildcard (w.withDefault t)
      | none => throw (.wildcardInSubject p.text)
    | _ => throw (.missingDefault w.name)

/-- The meaning of `Sym`: a wildcard and the kind of its symbols. -/
def ofSym (tokens : List Token) (args : List Argument) : Except PatternError PatternTerm := do
  match args with
  | [first, kind] =>
    match kind.expression.name?.bind SymbolKind.ofName? with
    | some kind => return wildcard (← (← first.wildcard).withSymbolKind kind)
    | none => unsupported kind.expression.tokens
  | _ => unsupported tokens

/-- The meaning of `Seq`: a sequence wildcard and its minimum. -/
def ofSeq (tokens : List Token) (args : List Argument) : Except PatternError PatternTerm := do
  match args with
  | [first, count] =>
    match (← count.pattern).integer? with
    | some count => return wildcard (← (← first.wildcard).withMinCount count.toInt)
    | none => unsupported tokens
  | _ => unsupported tokens

/-- The operation with this head on the patterns of some arguments. -/
def ofOperation (head : Head) (args : List Argument) : Except PatternError PatternTerm :=
  (args.mapM Argument.pattern).map (build head)

/-- The pattern that the call of a path stands for. -/
def ofCall (tokens : List Token) (path : Path) (args : List Argument) :
    Except PatternError PatternTerm :=
  match path.names with
  | ["Optional"] => ofOptional tokens args
  | ["Sym"] => ofSym tokens args
  | ["Seq"] => ofSeq tokens args
  | [name] => ofOperation ⟨name, .plain⟩ args
  | [qualifier, name] =>
    match OpKind.ofQualifier? qualifier with
    | some kind => ofOperation ⟨name, kind⟩ args
    | none => unsupported tokens
  | _ => unsupported tokens

/-- The largest integer that may be written. -/
def largestInteger : Nat := 9223372036854775807

mutual

/-- The pattern that an expression stands for; `attributes` are the tokens in front
    of it, which mean nothing. -/
def ofAttributed (attributes : List Token) : Expression → Except PatternError PatternTerm
  | .paren inner => ofAttributed [] inner
  | .attributed more inner => ofAttributed (attributes ++ more) inner
  | .number literal =>
    match wholeNumber? literal with
    | some value =>
      if value ≤ largestInteger then .ok (integer (Int64.ofNat value)) else .error .notAnExpression
    | none => .error .notAnExpression
  | .blank => .ok (wildcard (.fixed none))
  | .negated operand => (ofAttributed [] operand).map negate
  | .binary operator left right =>
    match ofAttributed [] left with
    | .error error => .error error
    | .ok l =>
      match ofAttributed [] right with
      | .error error => .error error
      | .ok r => ofBinary (Expression.binary operator left right).tokens operator l r
  | .path p => ofPath (attributes ++ p.tokens) p
  | .call function args comma =>
    match function.path? with
    | some path =>
      ofCall (attributes ++ (Expression.call function args comma).tokens) path (argumentsOf args)
    | none => unsupported function.tokens
  | .extended left rest => unsupported (attributes ++ left.tokens ++ rest)
  | .other _ tokens => unsupported (attributes ++ tokens)
termination_by structural e => e

/-- The arguments of a call, each with the pattern that it stands for. -/
def argumentsOf : List Expression → List Argument
  | [] => []
  | e :: es => ⟨e, ofAttributed [] e⟩ :: argumentsOf es
termination_by structural es => es

end

/-- **The pattern that an expression stands for.** -/
def ofExpression (e : Expression) : Except PatternError PatternTerm := ofAttributed [] e

/-- The pattern that a text stands for. -/
def parse (text : String) : Except PatternError PatternTerm :=
  match Expression.ofText? text with
  | some e => ofExpression e
  | none => .error .notAnExpression

end PatternTerm

/-- The subject that a text stands for: a pattern without wildcards. -/
def Term.parse (text : String) : Except PatternError Term :=
  match PatternTerm.parse text with
  | .error error => .error error
  | .ok p =>
    match p.toTerm? with
    | some t => .ok t
    | none => .error (.wildcardInSubject (p.wildcards.head?.map Wildcard.text |>.getD ""))

/-- The variable that an argument of a constraint names. -/
def Constraint.variableOf (e : Expression) : Except PatternError String :=
  match e.name? with
  | some name => .ok name
  | none => .error (.unsupported e.text)

/-- The constraint that a text stands for: a predicate called on variables. -/
def Constraint.parse (text : String) : Except PatternError Constraint :=
  match Expression.ofText? text with
  | none => .error .notAnExpression
  | some e =>
    match e.bare with
    | .call function args _ =>
      match function.name?.bind Predicate.ofName? with
      | some predicate => do Constraint.builtin predicate (← args.mapM variableOf)
      | none => .error (.unsupported function.text)
    | _ => .error (.unsupported e.text)

/-- The pattern without constraints that a text stands for. -/
def Pattern.parse (text : String) : Except PatternError Pattern :=
  match PatternTerm.parse text with
  | .ok tree => Pattern.ofTree tree
  | .error error => .error error

end TermNet
