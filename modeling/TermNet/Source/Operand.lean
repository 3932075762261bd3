import TermNet.Source.Binder
import TermNet.Source.Operation
import TermNet.Source.Type

namespace TermNet.Source.Grammar

open Reader TermNet.Text

/-!
# Operands — what stands between operators

* `atom` — an operand alone: a literal, a path, a group, a block, a jump, …;
* `trailers` — calls, indices, fields and question marks after it;
* `operandRule` — an operand with the operators and attributes in front of it;
* `leadingRule` — an expression at the beginning of a statement or of an arm.
-/

/-! ### Calls, lists and structures -/

/-- The arguments of a call, and whether a comma follows the last one. -/
def arguments (g : Grammar) : Reader (List Expression × Bool) := do
  let found ← listUntil "," List.isEmpty (g.expression true)
  return (found.map Prod.fst, found.getLast?.any Prod.snd)

/-- An expression in parentheses, or a tuple. -/
def tuple (g : Grammar) : Reader Expression := do
  match ← inside .parenthesis g.arguments with
  | ([inner], false) => return .paren inner
  | (elements, comma) =>
    return .other .plain [.group .parenthesis (separated comma (Expression.tokensOfAll elements))]

/-- The elements of an array, or one element and how often it stands there. -/
def elements (g : Grammar) : Reader (List Token) := do
  if ← ahead List.isEmpty then return []
  let first ← g.value
  if ← ahead (starts ";") then return first ++ (← operator ";") ++ (← g.value)
  else if ← ahead List.isEmpty then return first
  else return first ++ (← operator ",") ++ (← commaList g.value)

/-- The value of a field of a structure, which is left out if a variable has its name. -/
def fieldValue (g : Grammar) : Reader (List Token) := do
  let attributes ← g.outerAttributes
  let (isNamed, name) ← fieldName
  if !isNamed || (← ahead (starts ":")) then
    return attributes ++ name ++ (← operator ":") ++ (← g.value)
  return attributes ++ name

/-- Steps of `fieldValues`. -/
def valueSteps (g : Grammar) : (steps : Nat) → Reader (List Token)
  | 0 => failure
  | steps + 1 => do
    if ← ahead List.isEmpty then return []
    else if ← ahead (starts "..") then
      return (← operator "..") ++ (← whenAhead (!·.isEmpty) g.value)
    else
      let field ← g.fieldValue
      if ← ahead List.isEmpty then return field
      return field ++ (← operator ",") ++ (← g.valueSteps steps)

/-- The values of the fields of a structure, and what all others are taken from. -/
def fieldValues (g : Grammar) : Reader (List Token) := do g.valueSteps (← stepsOfLoop)

/-- A path, the call of a macro or a structure. -/
def pathOperand (g : Grammar) (structs : Bool) : Reader Expression := do
  let path ← g.qualifiedPath true
  let tokens ← get
  if path.isPlain && starts "!" tokens && !starts "!=" tokens then
    return .other .invocation (path.tokens ++ (← macroArguments))
  else if structs && startsGroup .brace tokens then
    return .other .plain (path.tokens ++ (← group .brace g.fieldValues))
  else return .path path

/-! ### What follows an operand -/

/-- A field, a method with its arguments, or the wait for a value. -/
def namedMember (g : Grammar) : Reader (List Token) := do
  if ← ahead (startsWord ["await"]) then anyWord
  else
    let (isNamed, name) ← fieldName
    if !isNamed then return name
    let generics ← if ← ahead (starts "::") then inOrder [operator "::", g.generics] else pure []
    if !generics.isEmpty || (← ahead (startsGroup .parenthesis)) then
      return name ++ generics ++ (← group .parenthesis (commaList g.value))
    return name

/-- What follows the point after an operand.  Positions in a row look like a number
    with points in it. -/
def member (g : Grammar) : Reader (List Token) := do
  match ← get with
  | .literal text :: rest =>
    if isFractional text then
      match fieldIndices? text with
      | some indices =>
        set rest
        let fields := (mark ".").intercalate indices
        if text.toList.getLast? = some '.' then
          return fields ++ mark "." ++ (← g.namedMember)
        return fields
      | none => failure
    else g.namedMember
  | _ => g.namedMember

/-- Steps of `trailers`. -/
def trailerSteps (g : Grammar) : (steps : Nat) → Expression → Reader Expression
  | 0, _ => failure
  | steps + 1, operand => do
    let tokens ← get
    if startsGroup .parenthesis tokens then
      let (args, comma) ← inside .parenthesis g.arguments
      g.trailerSteps steps (.call operand args comma)
    else if startsGroup .bracket tokens then
      let index ← group .bracket g.value
      g.trailerSteps steps (.other .plain (operand.tokens ++ index))
    else if operand.isRange then return operand
    else if startsPoint tokens then
      let field ← inOrder [operator ".", g.member]
      g.trailerSteps steps (.other .plain (operand.tokens ++ field))
    else if starts "?" tokens then
      g.trailerSteps steps (.other .plain (operand.tokens ++ (← operator "?")))
    else return operand

/-- An operand with the calls, indices, fields and question marks after it. -/
def trailers (g : Grammar) (operand : Expression) : Reader Expression := do
  g.trailerSteps (← stepsOfLoop) operand

/-! ### Closures -/

/-- A parameter of a closure. -/
def closureParameter (g : Grammar) : Reader (List Token) := do
  let attributes ← g.outerAttributes
  let binder ← g.binder
  if ← ahead (starts ":") then
    return attributes ++ binder.tokens ++ (← operator ":") ++ (← g.typeTokens)
  return binder.withAttributes attributes

/-- A closure. -/
def closure (g : Grammar) (structs : Bool) : Reader (List Token) := do
  let words := ["const", "static", "async", "move"].map optionalKeyword
  let start ← inOrder (g.boundLifetimes :: words ++ [operator "|"])
  let parameters ← listUntil "," (starts "|") g.closureParameter
  let start := start ++ listed "," parameters ++ (← operator "|")
  if ← ahead (starts "->") then
    return start ++ (← operator "->") ++ (← g.typeTokens) ++ (← g.block false)
  return start ++ (← g.expression structs).tokens

/-- Whether a closure with lifetimes of its own is in front, rather than a loop. -/
def startsClosureLifetimes (tokens : List Token) : Bool :=
  startsWord ["for"] tokens && startsTypeParameters (skip tokens)

/-! ### Conditions, loops and arms -/

/-- A condition that is a pattern matched with a value. -/
def letCondition (g : Grammar) (structs : Bool) : Reader (List Token) := do
  let start ← inOrder [keyword "let", g.alternativeTokens, operator "="]
  let left ← g.operand structs
  return start ++ (← g.operations structs .compare left).tokens

/-- The condition of a statement, after which its block begins. -/
def condition (g : Grammar) : Reader (List Token) := return (← g.expression false).tokens

/-- Steps of `conditional`. -/
def conditionalSteps (g : Grammar) : (steps : Nat) → Reader (List Token)
  | 0 => failure
  | steps + 1 => do
    let start ← inOrder [keyword "if", g.condition, g.block false]
    if ← ahead (startsWord ["else"]) then
      let start := start ++ (← keyword "else")
      if ← ahead (startsWord ["if"]) then return start ++ (← g.conditionalSteps steps)
      return start ++ (← g.block false)
    return start

/-- A condition with its branches. -/
def conditional (g : Grammar) : Reader (List Token) := do g.conditionalSteps (← stepsOfLoop)

/-- An arm of a `match`.  A comma follows it, unless it is the last one or ends with a
    block. -/
def arm (g : Grammar) : Reader (List Token) := do
  let start ← inOrder [g.outerAttributes, g.alternativeTokens]
  let guarded ← if ← ahead (startsWord ["if"]) then inOrder [keyword "if", g.value] else pure []
  let arrow ← operator "=>"
  let body ← g.leading
  let comma ← if body.hasShape .block || (← ahead List.isEmpty) then optionalOperator ","
    else operator ","
  return start ++ guarded ++ arrow ++ body.tokens ++ comma

/-- A `match` with its arms. -/
def matchOperand (g : Grammar) : Reader (List Token) :=
  inOrder [keyword "match", g.condition, group .brace (inOrder [g.innerAttributes,
    repeatToEnd g.arm])]

/-- A loop, or a block with a label. -/
def loopOperand (g : Grammar) : Reader (List Token) := do
  if ← ahead (startsWord ["while"]) then inOrder [keyword "while", g.condition, g.block true]
  else if ← ahead (startsWord ["for"]) then
    inOrder [keyword "for", g.alternativeTokens, keyword "in", g.condition, g.block true]
  else if ← ahead (startsWord ["loop"]) then inOrder [keyword "loop", g.block true]
  else g.block true

/-! ### Jumps -/

/-- Whether the value of a jump is in front. -/
def startsValue (tokens : List Token) : Bool :=
  let without (operator : String) (longer : List String) :=
    starts operator tokens && !longer.any (starts · tokens)
  (startsAnyWord tokens && !startsWord ["as"] tokens)
    || startsGroup .parenthesis tokens || startsGroup .bracket tokens || startsGroup .brace tokens
    || startsLiteral tokens || without "!" ["!="] || without "-" ["-=", "->"] || without "*" ["*="]
    || without "|" ["|="] || without "&" ["&="] || starts ".." tokens || startsAngle tokens
    || starts "::" tokens || startsLifetime tokens || starts "#" tokens

/-- The value that a jump may carry. -/
def jumpValue (g : Grammar) : Reader (List Token) := whenAhead startsValue g.value

/-- The end of a loop or a block, with its label and its value. -/
def breakOperand (g : Grammar) (structs : Bool) : Reader (List Token) := do
  let start ← keyword "break"
  if ← ahead fun tokens => startsLifetime tokens && starts ":" (skip tokens) then failure
  let label ← optionalLifetime
  let bare ← ahead fun tokens => !structs && startsGroup .brace tokens
  return start ++ label ++ (← if bare then pure [] else g.jumpValue)

/-! ### Atoms -/

/-- An operand that begins with a word. -/
def wordAtom (g : Grammar) (structs : Bool) (w : String) (rest : List Token) :
    Reader Expression := do
  let plain (reader : Reader (List Token)) : Reader Expression := return .other .plain (← reader)
  let block (reader : Reader (List Token)) : Reader Expression := return .other .block (← reader)
  let isBlock := startsGroup .brace rest
  match w with
  | "_" => let _ ← anyWord; return .blank
  | "true" | "false" => plain anyWord
  | "async" =>
    if isBlock || (startsWord ["move"] rest && startsGroup .brace (skip rest)) then
      plain (inOrder [anyWord, optionalKeyword "move", g.block false])
    else if starts "|" rest || startsWord ["move"] rest then plain (g.closure structs)
    else failure
  | "try" =>
    if isBlock then block (inOrder [anyWord, g.block false])
    else if starts "!" rest || starts "::" rest then g.pathOperand structs
    else failure
  | "move" | "static" => plain (g.closure structs)
  | "const" => if isBlock then block g.constantBlock else plain (g.closure structs)
  | "unsafe" => block (inOrder [anyWord, g.block true])
  | "if" => block g.conditional
  | "match" => block g.matchOperand
  | "for" =>
    if ← ahead startsClosureLifetimes then plain (g.closure structs) else block g.loopOperand
  | "while" | "loop" => block g.loopOperand
  | "let" => plain (g.letCondition structs)
  | "break" => plain (g.breakOperand structs)
  | "continue" => plain (inOrder [anyWord, optionalLifetime])
  | "return" | "yield" => plain (inOrder [anyWord, g.jumpValue])
  | "become" => return .other .verbatim (← asWritten (inOrder [anyWord, g.value]))
  | _ =>
    if w = "builtin" && starts "#" rest then
      return .other .verbatim (← asWritten (inOrder [anyWord, operator "#", identifier,
        whenAhead (!startsGroup .parenthesis ·) failure, anyGroup]))
    else if !isKeyword w || w = "Self" || placeWords.contains w then g.pathOperand structs
    else failure

/-- An operand without operators around it. -/
def atom (g : Grammar) (structs : Bool) : Reader Expression := do
  match ← get with
  | .literal text :: rest =>
    set rest
    return if (wholeNumber? text).isSome then .number text else .other .plain [.literal text]
  | .group .parenthesis _ :: _ => g.tuple
  | .group .bracket _ :: _ => return .other .plain (← group .bracket g.elements)
  | .group .brace _ :: _ => return .other .block (← g.block true)
  | .word w :: rest => g.wordAtom structs w rest
  | tokens =>
    if starts "|" tokens then return .other .plain (← g.closure structs)
    else if starts "::" tokens || starts "<" tokens then g.pathOperand structs
    else if starts ".." tokens then return .other .range (← g.range structs)
    else
      return .other .block (← inOrder [lifetime, operator ":", g.loopOperand])

/-! ### Operands -/

/-- The words between `&` and its operand. -/
def referenceWords : Reader (List Token) := do
  let tokens ← get
  if startsWord ["raw"] tokens && startsWord ["mut", "const"] (skip tokens) then
    inOrder [anyWord, anyWord]
  else optionalKeyword "mut"

/-- An operand with the operators and attributes in front of it.  A range takes no
    attributes, and they are part of what is kept as it is written. -/
def operandRule (g : Grammar) (structs : Bool) : Reader Expression := do
  let before ← get
  let attributes ← g.outerAttributes
  let tokens ← get
  if starts "&" tokens then
    let start ← inOrder [operator "&", referenceWords]
    let operand ← g.operand structs
    return (Expression.other .plain (start ++ operand.tokens)).withAttributes attributes
  else if starts "-" tokens then
    let _ ← operator "-"
    return (Expression.negated (← g.operand structs)).withAttributes attributes
  else if starts "*" tokens || starts "!" tokens then
    let sign ← if starts "*" tokens then operator "*" else operator "!"
    let operand ← g.operand structs
    return (Expression.other .plain (sign ++ operand.tokens)).withAttributes attributes
  else
    let operand ← g.trailers (← g.atom structs)
    match operand with
    | .other .verbatim _ => return .other .verbatim (← writtenSince before)
    | .other .range _ => if attributes.isEmpty then return operand else failure
    | _ => return operand.withAttributes attributes

/-- Whether an expression that ends with a block of its own is in front. -/
def startsBlock (tokens : List Token) : Bool :=
  let second := skip tokens
  startsWord ["if", "while", "loop", "match", "unsafe"] tokens || startsGroup .brace tokens
    || startsLifetime tokens || (startsWord ["for"] tokens && !startsClosureLifetimes tokens)
    || (startsWord ["try", "const"] tokens && startsGroup .brace second)

/-- An expression at the beginning of a statement or of an arm.  One that ends with a
    block of its own goes on only with a point or a question mark. -/
def leadingRule (g : Grammar) : Reader Expression := do
  let attributes ← g.outerAttributes
  if ← ahead startsBlock then
    let first ← g.atom true
    if ← ahead continuesOperand then
      let operand ← g.trailers first
      g.operations true .none (operand.withAttributes attributes)
    else return first.withAttributes attributes
  else
    let operand ← g.operand true
    g.operations true .none (operand.withAttributes attributes)

end TermNet.Source.Grammar
