import TermNet.Source.Token

namespace TermNet.Source

/-!
# Expressions of the source language

The shapes of expressions that patterns are made of are told apart; of all
others only the tokens are kept, which is what a message about them shows.

* `BinaryOperator`, `Level` — operators and how tightly they bind;
* `Path` — names joined by `::`;
* `Expression` — expressions, and `Expression.tokens` their tokens;
* `Expression.attach` — attributes in front of an expression.
-/

/-- How tightly an operator binds, the loosest first. -/
inductive Level where
  | none
  | assign
  | range
  | or
  | and
  | compare
  | bitOr
  | bitXor
  | bitAnd
  | shift
  | sum
  | product
  | cast
deriving DecidableEq, Repr, Inhabited

/-- Position among the levels. -/
def Level.rank : Level → Nat
  | none => 0
  | assign => 1
  | range => 2
  | or => 3
  | and => 4
  | compare => 5
  | bitOr => 6
  | bitXor => 7
  | bitAnd => 8
  | shift => 9
  | sum => 10
  | product => 11
  | cast => 12

/-- An operator between two operands. -/
structure BinaryOperator where
  text : String
  level : Level
deriving DecidableEq, Repr, Inhabited

/-- All operators between two operands, those that others begin with last. -/
def binaryOperators : List BinaryOperator := [
  ⟨"+=", .assign⟩, ⟨"-=", .assign⟩, ⟨"*=", .assign⟩, ⟨"/=", .assign⟩, ⟨"%=", .assign⟩,
  ⟨"^=", .assign⟩, ⟨"&=", .assign⟩, ⟨"|=", .assign⟩, ⟨"<<=", .assign⟩, ⟨">>=", .assign⟩,
  ⟨"&&", .and⟩, ⟨"||", .or⟩, ⟨"<<", .shift⟩, ⟨">>", .shift⟩, ⟨"==", .compare⟩,
  ⟨"<=", .compare⟩, ⟨"!=", .compare⟩, ⟨">=", .compare⟩, ⟨"+", .sum⟩, ⟨"-", .sum⟩,
  ⟨"*", .product⟩, ⟨"/", .product⟩, ⟨"%", .product⟩, ⟨"^", .bitXor⟩, ⟨"&", .bitAnd⟩,
  ⟨"|", .bitOr⟩, ⟨"<", .compare⟩, ⟨">", .compare⟩]

/-- A name of a path, with the tokens of its generic arguments. -/
structure Segment where
  name : String
  generics : List Token := []
deriving Repr, Inhabited

/-- Names joined by `::`. -/
structure Path where
  /-- The tokens in front of the first name: nothing, `::`, or a qualified type. -/
  lead : List Token := []
  segments : List Segment
  /-- The segments of the trait in a qualified type, which count as the first ones. -/
  qualifier : List Segment := []
deriving Repr, Inhabited

namespace Path

/-- The names of the segments. -/
def names (path : Path) : List String := (path.qualifier ++ path.segments).map Segment.name

/-- The name that a path consists of, if it is no more than that. -/
def name? (path : Path) : Option String :=
  match path with
  | ⟨[], [⟨name, []⟩], []⟩ => some name
  | _ => none

/-- The tokens of segments joined by `::`. -/
def segmentTokens : List Segment → List Token
  | [] => []
  | [last] => .word last.name :: last.generics
  | first :: rest => .word first.name :: (first.generics ++ mark "::" ++ segmentTokens rest)

/-- The tokens of a path. -/
def tokens (path : Path) : List Token := path.lead ++ segmentTokens path.segments

/-- Whether a path begins with a qualified type. -/
def isQualified (path : Path) : Bool :=
  match path.lead with
  | .mark '<' _ :: _ => true
  | _ => false

/-- Whether a path is names alone, as that of a macro is. -/
def isPlain (path : Path) : Bool :=
  !path.isQualified && path.segments.all fun segment => segment.generics.isEmpty

end Path

/-- What matters of the expressions that patterns are not made of. -/
inductive ExpressionShape where
  /-- Nothing. -/
  | plain
  /-- A range, which no operator may follow. -/
  | range
  /-- An expression that ends with a block of its own, as conditions and loops do; it
      needs no semicolon. -/
  | block
  /-- A call of a macro. -/
  | invocation
  /-- An expression that is kept as it is written. -/
  | verbatim
deriving DecidableEq, Repr, Inhabited

/-- Expressions, as far as patterns tell them apart. -/
inductive Expression where
  /-- A whole number as it is written. -/
  | number (literal : String)
  /-- The underscore. -/
  | blank
  | path (path : Path)
  /-- An expression in parentheses. -/
  | paren (inner : Expression)
  /-- An expression after a minus sign. -/
  | negated (operand : Expression)
  | binary (operator : BinaryOperator) (left right : Expression)
  /-- A call; `comma` tells whether a comma follows the last argument. -/
  | call (function : Expression) (args : List Expression) (comma : Bool)
  /-- An expression with attributes in front. -/
  | attributed (attributes : List Token) (inner : Expression)
  /-- An expression that an assignment or a cast follows. -/
  | extended (left : Expression) (rest : List Token)
  /-- An expression of any other shape. -/
  | other (shape : ExpressionShape) (tokens : List Token)
deriving Repr, Inhabited

/-- The tokens of a list separated by commas. -/
def separated (comma : Bool) : List (List Token) → List Token
  | [] => []
  | [last] => if comma then last ++ mark "," else last
  | first :: rest => first ++ mark "," ++ separated comma rest

namespace Expression

mutual

/-- The tokens of an expression. -/
def tokens : Expression → List Token
  | .number literal => [.literal literal]
  | .blank => [.word "_"]
  | .path p => p.tokens
  | .paren inner => [.group .parenthesis (tokens inner)]
  | .negated operand => mark "-" ++ tokens operand
  | .binary operator left right => tokens left ++ mark operator.text ++ tokens right
  | .call function args comma =>
    tokens function ++ [.group .parenthesis (separated comma (tokensOfAll args))]
  | .attributed attributes inner => attributes ++ tokens inner
  | .extended left rest => tokens left ++ rest
  | .other _ tokens => tokens
termination_by structural e => e

/-- The tokens of each expression of a list. -/
def tokensOfAll : List Expression → List (List Token)
  | [] => []
  | e :: es => tokens e :: tokensOfAll es
termination_by structural es => es

end

/-- The text of an expression, token by token. -/
def text (e : Expression) : String := printTokens e.tokens

/-- The expression without attributes in front. -/
def bare : Expression → Expression
  | attributed _ inner => bare inner
  | e => e

/-- The path that an expression is. -/
def path? (e : Expression) : Option Path :=
  match e.bare with
  | path p => some p
  | _ => none

/-- The name that an expression is. -/
def name? (e : Expression) : Option String := e.path?.bind Path.name?

/-- Whether an expression is a comparison, which no other comparison may follow. -/
def isComparison : Expression → Bool
  | binary operator _ _ => operator.level = .compare
  | _ => false

/-- Whether an expression has a shape, attributes aside. -/
def hasShape (shape : ExpressionShape) (e : Expression) : Bool :=
  match e.bare with
  | other s _ => s = shape
  | _ => false

/-- Whether an expression is a range. -/
def isRange (e : Expression) : Bool := e.hasShape .range

/-- Whether an expression ends with a brace. -/
def endsInBrace (e : Expression) : Bool :=
  match e.tokens.getLast? with
  | some (.group .brace _) => true
  | _ => false

/-- Whether an expression must be followed by a semicolon, unless it is the last one. -/
def needsSemicolon (e : Expression) : Bool :=
  !(e.hasShape .block || (e.hasShape .invocation && e.endsInBrace))

/-- Put attributes in front of an expression.  A range is put in parentheses, so that
    they belong to all of it, and what is kept as it is written loses them. -/
def withAttributes (attributes : List Token) (e : Expression) : Expression :=
  if attributes.isEmpty then e
  else match e with
    | other .range tokens => other .range (attributes ++ [.group .parenthesis tokens])
    | other .verbatim tokens => other .verbatim tokens
    | e => attributed attributes e

/-- Put attributes in front of the leftmost operand of an expression. -/
def attach (attributes : List Token) : Expression → Expression
  | binary operator left right => binary operator (attach attributes left) right
  | extended left rest => extended (attach attributes left) rest
  | e => e.withAttributes attributes

end Expression

end TermNet.Source
