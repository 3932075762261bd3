import TermNet.Source.Number
import TermNet.Source.Path

namespace TermNet.Source.Grammar

open Reader

/-!
# Patterns that bind names in the source language

* `binderRule` — a pattern without alternatives;
* `alternatives` — patterns with bars between them.
-/

/-! ### Ranges -/

/-- The points of a range and whether they include its end, which three points do in a
    pattern; they are printed as the usual ones. -/
def patternPoints : Reader (Bool × List Token) := do
  if ← ahead (starts "..=") then return (true, ← operator "..=")
  else if ← ahead (starts "...") then
    let _ ← operator "..."
    return (true, mark "..=")
  else return (false, ← operator "..")

/-- Whether a range in a pattern has no end. -/
def endsPatternRange (tokens : List Token) : Bool :=
  tokens.isEmpty || starts "|" tokens || starts "=" tokens
    || (starts ":" tokens && !starts "::" tokens) || starts "," tokens || starts ";" tokens
    || startsWord ["if"] tokens

/-- A block of constant value. -/
def constantBlock (g : Grammar) : Reader (List Token) := inOrder [keyword "const", g.block true]

/-- The first or the last value of a range: a literal, a path or a constant block. -/
def rangeValue (g : Grammar) : Reader (List Token) := do
  let tokens ← get
  if startsLiteral tokens then literal
  else if startsIdentifier tokens || starts "::" tokens || starts "<" tokens
      || startsWord ("Self" :: placeWords) tokens then
    return (← g.qualifiedPath true).tokens
  else g.constantBlock

/-- A range after its first value. -/
def patternRange (g : Grammar) (first : List Token) : Reader Binder := do
  let (closed, points) ← patternPoints
  if ← ahead endsPatternRange then
    if closed then failure else return ⟨.openRange, first ++ points⟩
  return ⟨.range, first ++ points ++ (← g.rangeValue)⟩

/-- A value, or a range that begins with it. -/
def valueBinder (g : Grammar) : Reader Binder := do
  let first ← g.rangeValue
  if ← ahead (starts "..") then g.patternRange first else return { tokens := first }

/-- A range without a first value, or the two points that stand for all the rest. -/
def pointsBinder (g : Grammar) : Reader Binder := do
  if ← ahead (starts "...") then failure
  let (closed, points) ← patternPoints
  if ← ahead endsPatternRange then
    if closed then failure else return ⟨.rest, points⟩
  return ⟨.openRange, points ++ (← g.rangeValue)⟩

/-! ### Alternatives -/

/-- Whether a bar between alternatives is in front. -/
def startsBar (tokens : List Token) : Bool :=
  starts "|" tokens && !starts "||" tokens && !starts "|=" tokens

/-- Steps of `alternatives`. -/
def barSteps (g : Grammar) : (steps : Nat) → Reader (List Token)
  | 0 => failure
  | steps + 1 => do
    if ← ahead startsBar then
      return (← operator "|") ++ (← g.binder).tokens ++ (← g.barSteps steps)
    return []

/-- Patterns with bars between them; a bar may stand in front of the first. -/
def alternatives (g : Grammar) : Reader Binder := do
  let bar ← optionalOperator "|"
  let first ← g.binder
  let more ← g.barSteps (← stepsOfLoop)
  if bar.isEmpty && more.isEmpty then return first
  return { tokens := bar ++ first.tokens ++ more }

/-- The tokens of patterns with bars between them. -/
def alternativeTokens (g : Grammar) : Reader (List Token) := return (← g.alternatives).tokens

/-! ### Structures -/

/-- The name or the position of a field, and whether it is a name. -/
def fieldName : Reader (Bool × List Token) := do
  match ← get with
  | .literal text :: rest =>
    match fieldIndex? text with
    | some index => set rest; return (false, index)
    | none => failure
  | _ => return (true, ← identifier)

/-- A field of a structure in a pattern. -/
def fieldBinder (g : Grammar) : Reader (List Token) := do
  let before ← get
  let boxed ← optionalKeyword "box"
  let words ← inOrder [optionalKeyword "ref", optionalKeyword "mut"]
  if boxed.isEmpty && words.isEmpty then
    let (isNamed, name) ← fieldName
    if !isNamed || (← ahead (starts ":")) then
      return name ++ (← operator ":") ++ (← g.alternativeTokens)
    return name
  else
    let name ← identifier
    if boxed.isEmpty then return words ++ name else writtenSince before

/-- Steps of `fieldBinders`. -/
def fieldSteps (g : Grammar) : (steps : Nat) → Reader (List Token)
  | 0 => failure
  | steps + 1 => do
    if ← ahead List.isEmpty then return []
    let attributes ← g.outerAttributes
    if ← ahead (starts "..") then return attributes ++ (← operator "..")
    let field ← g.fieldBinder
    if ← ahead List.isEmpty then return attributes ++ field
    return attributes ++ field ++ (← operator ",") ++ (← g.fieldSteps steps)

/-- The fields of a structure in a pattern, the last of which may be the two points. -/
def fieldBinders (g : Grammar) : Reader (List Token) := do g.fieldSteps (← stepsOfLoop)

/-- A pattern that begins with a path. -/
def pathBinder (g : Grammar) : Reader Binder := do
  let path ← g.qualifiedPath true
  let tokens ← get
  if path.isPlain && starts "!" tokens && !starts "!=" tokens then
    return { tokens := path.tokens ++ (← macroArguments) }
  else if startsGroup .brace tokens then
    return { tokens := path.tokens ++ (← group .brace g.fieldBinders) }
  else if startsGroup .parenthesis tokens then
    return { tokens := path.tokens ++ (← group .parenthesis (commaList g.alternativeTokens)) }
  else if starts ".." tokens then g.patternRange path.tokens
  else return { tokens := path.tokens }

/-! ### Patterns -/

/-- A name, which may stand for what another pattern describes. -/
def nameBinder (g : Grammar) : Reader (List Token) := do
  let name ← inOrder [optionalKeyword "ref", optionalKeyword "mut", identifierOr ["self"]]
  if ← ahead (starts "@") then return name ++ (← operator "@") ++ (← g.binder).tokens
  return name

/-- An element of a slice; it is no range that lacks one of its ends. -/
def sliceElement (g : Grammar) : Reader (List Token) := do
  let element ← g.alternatives
  if element.shape = .openRange then failure else return element.tokens

/-- Whether a pattern that begins with a path is in front. -/
def startsPathBinder (tokens : List Token) : Bool :=
  let second := skip tokens
  (startsIdentifier tokens && (starts "::" second || starts "!" second || starts ".." second
      || startsGroup .brace second || startsGroup .parenthesis second))
    || (startsWord ["self"] tokens && starts "::" second)
    || startsWord ["Self", "super", "crate"] tokens || starts "::" tokens || starts "<" tokens

/-- A pattern without alternatives. -/
def binderRule (g : Grammar) : Reader Binder := do
  let tokens ← get
  if startsPathBinder tokens then g.pathBinder
  else if startsWord ["_"] tokens then return { tokens := ← anyWord }
  else if startsWord ["box"] tokens then
    let _ ← anyWord
    let _ ← g.binder
    return ⟨.verbatim, ← writtenSince tokens⟩
  else if starts "-" tokens || startsLiteral tokens || startsWord ["const"] tokens then
    g.valueBinder
  else if startsWord ["ref", "mut", "self"] tokens || startsIdentifier tokens then
    return { tokens := ← g.nameBinder }
  else if starts "&" tokens then
    let start ← inOrder [operator "&", optionalKeyword "mut"]
    return { tokens := start ++ (← g.binder).tokens }
  else if startsGroup .parenthesis tokens then
    return { tokens := ← group .parenthesis (commaList g.alternativeTokens) }
  else if startsGroup .bracket tokens then
    return { tokens := ← group .bracket (commaList g.sliceElement) }
  else g.pointsBinder

end TermNet.Source.Grammar
