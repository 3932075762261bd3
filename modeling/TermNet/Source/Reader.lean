import TermNet.Source.Token
import TermNet.Text.Identifier

namespace TermNet.Source

open TermNet.Text

/-!
# Readers — what a rule takes from the front of the tokens

* `starts`, `startsWord`, `startsGroup`, … — what is in front, without taking it;
* `Reader` — takes tokens and gives what they mean, or fails;
* `operator`, `keyword`, `identifier`, `group`, … — readers of single tokens, which give
  the tokens as they are printed;
* `listUntil`, `listWhile` — lists with separators;
* `asWritten` — the tokens that a reader takes, as they stand in the text.

Readers give the tokens of what they read, where nothing else of it matters.
-/

/-! ### What is in front -/

/-- The tokens after the characters of an operator, if they are in front. -/
def afterChars? : List Char → List Token → Option (List Token)
  | [], tokens => some tokens
  | [c], .mark d _ :: rest => if c = d then some rest else none
  | c :: cs, .mark d true :: rest => if c = d then afterChars? cs rest else none
  | _, _ => none

/-- The tokens after an operator, if it is in front. -/
def after? (operator : String) (tokens : List Token) : Option (List Token) :=
  afterChars? operator.toList tokens

/-- Whether an operator is in front. -/
def starts (operator : String) (tokens : List Token) : Bool := (after? operator tokens).isSome

/-- Whether one of some words is in front. -/
def startsWord (words : List String) : List Token → Bool
  | .word w :: _ => words.contains w
  | _ => false

/-- Whether any word is in front, keywords included. -/
def startsAnyWord : List Token → Bool
  | .word _ :: _ => true
  | _ => false

/-- Whether an identifier is in front. -/
def startsIdentifier : List Token → Bool
  | .word w :: _ => !isKeyword w
  | _ => false

/-- The words that stand for places in paths. -/
def placeWords : List String := ["self", "super", "crate"]

/-- Whether a lifetime is in front. -/
def startsLifetime : List Token → Bool
  | .mark '\'' true :: .word _ :: _ => true
  | _ => false

/-- Whether a group of this shape is in front. -/
def startsGroup (delimiter : Delimiter) : List Token → Bool
  | .group d _ :: _ => d = delimiter
  | _ => false

/-- Whether the text of a literal is that of a number. -/
def isNumber (literal : String) : Bool := literal.toList.head?.any Char.isDigit

/-- Whether a literal is in front; a number may have a sign. -/
def startsLiteral : List Token → Bool
  | .literal _ :: _ => true
  | .word w :: _ => w = "true" || w = "false"
  | .mark '-' _ :: .literal text :: _ => isNumber text
  | _ => false

/-- Whether a literal that is a string of characters is in front. -/
def startsText : List Token → Bool
  | .literal text :: _ => text.toList.head?.any fun c => c = '"' || c = 'r'
  | _ => false

/-- The tokens after the first one; a lifetime counts as one. -/
def skip : List Token → List Token
  | .mark '\'' true :: .word _ :: rest => rest
  | _ :: rest => rest
  | [] => []

/-- Whether a single point is in front, which is not part of a range. -/
def startsPoint (tokens : List Token) : Bool := starts "." tokens && !starts ".." tokens

/-- Whether what is in front goes on with an operand: a point or a question mark. -/
def continuesOperand (tokens : List Token) : Bool := startsPoint tokens || starts "?" tokens

/-- The tokens in front of the rest of a list. -/
def takenFrom (tokens rest : List Token) : List Token := tokens.take (tokens.length - rest.length)

/-! ### Readers -/

/-- Takes tokens from the front of a list and gives what they mean, or fails. -/
abbrev Reader (α : Type) := StateT (List Token) Option α

namespace Reader

/-- Whether something holds of the tokens in front. -/
def ahead (test : List Token → Bool) : Reader Bool := return test (← get)

/-- An operator. -/
def operator (text : String) : Reader (List Token) := do
  match after? text (← get) with
  | some rest => set rest; return mark text
  | none => failure

/-- A keyword, or another word that stands for itself. -/
def keyword (text : String) : Reader (List Token) := do
  match ← get with
  | .word w :: rest => if w = text then set rest; return [.word w] else failure
  | _ => failure

/-- Any word, keywords included. -/
def anyWord : Reader (List Token) := do
  match ← get with
  | .word w :: rest => set rest; return [.word w]
  | _ => failure

/-- An identifier. -/
def identifier : Reader (List Token) := do
  if ← ahead startsIdentifier then anyWord else failure

/-- One of some words, or an identifier. -/
def identifierOr (words : List String) : Reader (List Token) := do
  if ← ahead (startsWord words) then anyWord else identifier

/-- A lifetime. -/
def lifetime : Reader (List Token) := do
  match ← get with
  | .mark '\'' true :: .word name :: rest => set rest; return [.mark '\'' true, .word name]
  | _ => failure

/-- A literal; a number may have a sign. -/
def literal : Reader (List Token) := do
  match ← get with
  | .literal text :: rest => set rest; return [.literal text]
  | .mark '-' _ :: .literal text :: rest =>
    if isNumber text then set rest; return mark "-" ++ [.literal text] else failure
  | tokens => if startsWord ["true", "false"] tokens then anyWord else failure

/-- A reader that is used if something holds of the tokens in front. -/
def whenAhead (test : List Token → Bool) (reader : Reader (List Token)) : Reader (List Token) := do
  if ← ahead test then reader else return []

/-- An operator that may be missing. -/
def optionalOperator (text : String) : Reader (List Token) :=
  whenAhead (starts text) (operator text)

/-- A keyword that may be missing. -/
def optionalKeyword (text : String) : Reader (List Token) :=
  whenAhead (startsWord [text]) (keyword text)

/-- A lifetime that may be missing. -/
def optionalLifetime : Reader (List Token) := whenAhead startsLifetime lifetime

/-- What the tokens inside a group mean, all of which must be read. -/
def inside {α : Type} (delimiter : Delimiter) (reader : Reader α) : Reader α := do
  match ← get with
  | .group d tokens :: rest =>
    match reader tokens with
    | some (found, []) => if d = delimiter then set rest; return found else failure
    | _ => failure
  | _ => failure

/-- A group with what it holds. -/
def group (delimiter : Delimiter) (reader : Reader (List Token)) : Reader (List Token) :=
  return [.group delimiter (← inside delimiter reader)]

/-- A group of any shape, as it is. -/
def anyGroup : Reader (List Token) := do
  match ← get with
  | .group delimiter tokens :: rest => set rest; return [.group delimiter tokens]
  | _ => failure

/-- Readers one after the other. -/
def inOrder : List (Reader (List Token)) → Reader (List Token)
  | [] => return []
  | reader :: readers => return (← reader) ++ (← inOrder readers)

/-- The tokens since an earlier place, as they stand in the text. -/
def writtenSince (before : List Token) : Reader (List Token) := return takenFrom before (← get)

/-- The tokens that a reader takes, as they stand in the text. -/
def asWritten {α : Type} (reader : Reader α) : Reader (List Token) := do
  let before ← get
  let _ ← reader
  writtenSince before

/-! ### Lists -/

/-- More steps than a loop can make that takes a token each time. -/
def stepsOfLoop : Reader Nat := return (← get).length + 1

/-- Readers of the same kind up to the end. -/
def repeatSteps (reader : Reader (List Token)) : (steps : Nat) → Reader (List Token)
  | 0 => failure
  | steps + 1 => do
    if ← ahead List.isEmpty then return []
    return (← reader) ++ (← repeatSteps reader steps)

/-- What one reader takes, again and again up to the end. -/
def repeatToEnd (reader : Reader (List Token)) : Reader (List Token) := do
  repeatSteps reader (← stepsOfLoop)

/-- The tokens of a list: each item with whether a separator follows it. -/
def listed (separator : String) (items : List (List Token × Bool)) : List Token :=
  items.flatMap fun (item, separated) => if separated then item ++ mark separator else item

/-- Steps of `listUntil`. -/
def untilSteps {α : Type} (separator : String) (ends : List Token → Bool) (item : Reader α) :
    (steps : Nat) → Reader (List (α × Bool))
  | 0 => failure
  | steps + 1 => do
    if ← ahead ends then return []
    let first ← item
    if ← ahead ends then return [(first, false)]
    let _ ← operator separator
    return (first, true) :: (← untilSteps separator ends item steps)

/-- Items with separators between them up to an end; each item comes with whether a
    separator follows it. -/
def listUntil {α : Type} (separator : String) (ends : List Token → Bool) (item : Reader α) :
    Reader (List (α × Bool)) := do
  untilSteps separator ends item (← stepsOfLoop)

/-- Steps of `listWhile`. -/
def whileSteps {α : Type} (separator : String) (ends : List Token → Bool) (item : Reader α) :
    (steps : Nat) → Reader (List (α × Bool))
  | 0 => failure
  | steps + 1 => do
    if ← ahead ends then return []
    let first ← item
    if ← ahead (starts separator) then
      let _ ← operator separator
      return (first, true) :: (← whileSteps separator ends item steps)
    return [(first, false)]

/-- Items as long as separators follow, and no further than an end. -/
def listWhile {α : Type} (separator : String) (ends : List Token → Bool) (item : Reader α) :
    Reader (List (α × Bool)) := do
  whileSteps separator ends item (← stepsOfLoop)

/-- Items with commas between them up to the end, as tokens. -/
def commaList (item : Reader (List Token)) : Reader (List Token) :=
  return listed "," (← listUntil "," List.isEmpty item)

end Reader

end TermNet.Source
