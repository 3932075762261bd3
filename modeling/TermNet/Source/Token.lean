namespace TermNet.Source

/-!
# Tokens — source text as trees of words, marks and groups

Patterns are written as expressions of Rust, and matchers are emitted as Rust
modules.  Both are seen as trees of tokens: brackets of each shape are matched,
and everything else is a word, a literal or a punctuation mark.

* `Token` — a token, or a group with the tokens inside it;
* `mark` — the tokens of an operator of several characters;
* `printTokens` — the text of a list of tokens: one space between neighbours,
  except after a mark that is joined to the next one.
-/

/-- The shapes of brackets. -/
inductive Delimiter where
  | parenthesis
  | bracket
  | brace
deriving DecidableEq, Repr, Inhabited

/-- A token, or a group of tokens between brackets. -/
inductive Token where
  /-- An identifier or keyword, with its mark `r#` if it has one. -/
  | word (text : String)
  /-- A number, character or string as it is written. -/
  | literal (text : String)
  /-- One punctuation character; a joined one forms an operator with the next. -/
  | mark (char : Char) (joined : Bool)
  /-- A group between brackets. -/
  | group (delimiter : Delimiter) (tokens : List Token)
deriving Repr, Inhabited

/-- The tokens of an operator: its characters, all but the last joined. -/
def markChars : List Char → List Token
  | [] => []
  | [c] => [.mark c false]
  | c :: d :: rest => .mark c true :: markChars (d :: rest)

/-- The tokens of an operator. -/
def mark (operator : String) : List Token := markChars operator.toList

/-- Whether the next token follows without a space. -/
def Token.isJoined : Token → Bool
  | mark _ joined => joined
  | _ => false

/-- The separator after a token that is followed by others. -/
def gap (token : Token) (rest : List Token) : List String :=
  if rest.isEmpty || token.isJoined then [] else [" "]

mutual

/-- The pieces of the text of a token.  Braces are padded inside, the other
    brackets are not. -/
def Token.pieces : Token → List String
  | .word text => [text]
  | .literal text => [text]
  | .mark char _ => [char.toString]
  | .group .parenthesis tokens => "(" :: (piecesOf tokens ++ [")"])
  | .group .bracket tokens => "[" :: (piecesOf tokens ++ ["]"])
  | .group .brace tokens =>
    "\x7b " :: (piecesOf tokens ++ [if tokens.isEmpty then "\x7d" else " \x7d"])
termination_by structural token => token

/-- The pieces of the text of a list of tokens. -/
def piecesOf : List Token → List String
  | [] => []
  | token :: rest => token.pieces ++ (gap token rest ++ piecesOf rest)
termination_by structural tokens => tokens

end

/-- The text of a list of tokens. -/
def printTokens (tokens : List Token) : String := String.join (piecesOf tokens)

mutual

/-- Number of tokens, brackets counted with their contents. -/
def Token.size : Token → Nat
  | .group _ tokens => 1 + sizeOfTokens tokens
  | _ => 1
termination_by structural token => token

/-- Number of tokens of a list. -/
def sizeOfTokens : List Token → Nat
  | [] => 0
  | token :: rest => token.size + sizeOfTokens rest
termination_by structural tokens => tokens

end

end TermNet.Source
