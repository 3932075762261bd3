import TermNet.Source.Path

namespace TermNet.Source.Grammar

open Reader TermNet.Text

/-!
# Types and what declarations say of them

* `typeRule` — a type;
* `typeParameters`, `whereClause` — what a declaration is generic over, and what it asks
  of that;
* `visibility` — who may see a declaration.
-/

/-! ### Functions as types -/

/-- The name of a calling convention, if it is not the usual one. -/
def convention : Reader (List Token) := do
  if ← ahead (startsWord ["extern"]) then
    return (← keyword "extern") ++ (← whenAhead startsText literal)
  return []

/-- Whether a parameter that takes all further arguments is in front. -/
def startsVariadic (tokens : List Token) : Bool :=
  starts "..." tokens ||
    ((startsIdentifier tokens || startsWord ["_"] tokens)
      && starts ":" (skip tokens) && starts "..." (skip (skip tokens)))

/-- A parameter that takes all further arguments. -/
def variadic : Reader (List Token) := do
  let name ← if ← ahead (starts "...") then pure [] else inOrder [anyWord, operator ":"]
  return name ++ (← operator "...") ++ (← optionalOperator ",")

/-- A parameter of a function type.  The first one may be `self`; if it is `mut self`,
    it is kept as it is written. -/
def functionParameter (g : Grammar) (first : Bool) : Reader (List Token) := do
  let before ← get
  let startsMutSelf (tokens : List Token) :=
    first && startsWord ["mut"] tokens && startsWord ["self"] (skip tokens)
  let mutSelf := startsMutSelf before
  let _ ← whenAhead (fun _ => mutSelf) anyWord
  let tokens ← get
  let isNamed := (startsIdentifier tokens || startsWord ["_"] tokens
      || (first && startsWord ["self"] tokens))
    && starts ":" (skip tokens) && !starts "::" (skip tokens)
  let isSelf := isNamed && startsWord ["self"] tokens
  let name ← if isNamed then inOrder [anyWord, operator ":"] else pure []
  if !isSelf && (← ahead startsMutSelf) then
    let _ ← inOrder [anyWord, anyWord]
    writtenSince before
  else if mutSelf && !isNamed then
    let _ ← keyword "self"
    writtenSince before
  else
    let type ← g.typeTokens
    if mutSelf then writtenSince before else return name ++ type

/-- Steps of `functionType`. -/
def parameterSteps (g : Grammar) (first : Bool) : (steps : Nat) → Reader (List Token)
  | 0 => failure
  | steps + 1 => do
    if ← ahead List.isEmpty then return []
    let attributes ← g.outerAttributes
    if ← ahead startsVariadic then return attributes ++ (← variadic)
    let parameter ← g.functionParameter first
    if ← ahead List.isEmpty then return attributes ++ parameter
    return attributes ++ parameter ++ (← operator ",") ++ (← g.parameterSteps false steps)

/-- The type of a function. -/
def functionType (g : Grammar) : Reader (List Token) := do
  let start ← inOrder [optionalKeyword "unsafe", convention, keyword "fn"]
  let parameters ← group .parenthesis do g.parameterSteps true (← stepsOfLoop)
  return start ++ parameters ++ (← g.result false)

/-! ### Types -/

/-- Further bounds, each after a plus sign. -/
def plusSteps (g : Grammar) (mayEnd : Bool) : (steps : Nat) → Reader (List Token)
  | 0 => failure
  | steps + 1 => do
    if ← ahead (starts "+") then
      let plus ← operator "+"
      if mayEnd && !(← ahead (startsBound false)) then return plus
      return plus ++ (← g.bound false false).2 ++ (← g.plusSteps mayEnd steps)
    return []

/-- Further bounds, each after a plus sign; where `mayEnd` holds, the last plus sign may
    be followed by none. -/
def plusBounds (g : Grammar) (mayEnd : Bool) : Reader (List Token) := do
  g.plusSteps mayEnd (← stepsOfLoop)

/-- The bound that a type in parentheses is, if a sum may begin with it. -/
def boundOf : SourceType → Option (List Token)
  | .path path => if path.isQualified then none else some path.tokens
  | .bound tokens _ => some tokens
  | _ => none

/-- A type in parentheses from what is inside them, and the bound that it is, if a sum
    may begin with it. -/
def insideParentheses (g : Grammar) : Reader (SourceType × Option (List Token)) := do
  let tokens ← get
  if tokens.isEmpty then return (.other [.group .parenthesis []], none)
  else if startsLifetime tokens then return (.paren (← g.bounds true false false), none)
  else if starts "?" tokens then
    let (_, found) ← g.traitBound false
    return (.bound found true, some found)
  else
    let first ← g.type true
    if ← ahead (starts ",") then
      let elements := first.tokens ++ (← operator ",") ++ (← commaList g.typeTokens)
      return (.other [.group .parenthesis elements], none)
    return (.paren first.tokens, boundOf first)

/-- A type in parentheses, a tuple, or a sum that begins with a bound in parentheses. -/
def parenthesizedType (g : Grammar) (plus : Bool) : Reader SourceType := do
  let (whole, first) ← inside .parenthesis g.insideParentheses
  let isBound := match whole with
    | .bound _ _ => true
    | _ => false
  match first with
  | some found =>
    if (plus || isBound) && (← ahead (starts "+")) then
      return .bounds (.group .parenthesis found :: (← g.plusBounds false))
    return whole
  | none => return whole

/-- An array or a slice, from what is inside its brackets. -/
def insideBrackets (g : Grammar) : Reader (List Token) := do
  let element ← g.typeTokens
  if ← ahead (starts ";") then return element ++ (← operator ";") ++ (← g.value)
  return element

/-- A type that is a path, the call of a macro, or a sum of bounds that begins with a path;
    `lifetimes` have been introduced in front of it. -/
def pathType (g : Grammar) (plus : Bool) (lifetimes : List Token) : Reader SourceType := do
  let path ← g.typePath
  if path.isQualified then return .path path
  else if path.isPlain && (← ahead fun tokens => starts "!" tokens && !starts "!=" tokens) then
    return .other (path.tokens ++ (← macroArguments))
  else
    let more ← if plus then g.plusBounds true else pure []
    if !more.isEmpty then return .bounds (lifetimes ++ path.tokens ++ more)
    else if lifetimes.isEmpty then return .path path
    else return .bound (lifetimes ++ path.tokens) false

/-- A pointer. -/
def pointerType (g : Grammar) : Reader (List Token) := do
  let star ← operator "*"
  let access ← if ← ahead (startsWord ["const", "mut"]) then anyWord else failure
  return star ++ access ++ (← g.type false).tokens

/-- A type of objects that have some traits. -/
def objectType (g : Grammar) (plus : Bool) : Reader (List Token) := do
  let before ← get
  let start ← keyword "dyn"
  let star ← optionalOperator "*"
  let bounds ← g.bounds plus false false
  if star.isEmpty then return start ++ bounds else writtenSince before

/-- Whether what `for` and its lifetimes may stand in front of is in front. -/
def mayBeBound (tokens : List Token) : Bool :=
  startsIdentifier tokens
    || startsWord ("fn" :: "unsafe" :: "extern" :: "Self" :: placeWords) tokens

/-- A type. -/
def typeRule (g : Grammar) (plus : Bool) : Reader SourceType := do
  let lifetimes ← g.boundLifetimes
  let tokens ← get
  if !lifetimes.isEmpty && !mayBeBound tokens then failure
  else if startsGroup .parenthesis tokens then g.parenthesizedType plus
  else if startsWord ["fn", "unsafe", "extern"] tokens then
    return .other (lifetimes ++ (← g.functionType))
  else if startsIdentifier tokens || startsWord ("Self" :: placeWords) tokens
      || starts "::" tokens || starts "<" tokens then
    g.pathType plus lifetimes
  else if startsWord ["dyn"] tokens then return .other (← g.objectType plus)
  else if startsGroup .bracket tokens then return .other (← group .bracket g.insideBrackets)
  else if starts "*" tokens then return .other (← g.pointerType)
  else if starts "&" tokens then
    let start ← inOrder [operator "&", optionalLifetime, optionalKeyword "mut"]
    return .other (start ++ (← g.type false).tokens)
  else if starts "!" tokens then return .other (← operator "!")
  else if startsWord ["impl"] tokens then
    return .other ((← keyword "impl") ++ (← g.bounds plus true true))
  else if startsWord ["_"] tokens then return .other (← anyWord)
  else if startsLifetime tokens then return .bounds (← g.bounds true false false)
  else failure

/-! ### What declarations say of types -/

/-- A colon with bounds, which is dropped if there are none. -/
def colonBounds (bounds : List (List Token × Bool)) : List Token :=
  if bounds.isEmpty then [] else mark ":" ++ listed "+" bounds

/-- What is asked of a parameter of a declaration, up to one of some operators. -/
def parameterBounds (ends : List String) (bound : Reader (List Token)) : Reader (List Token) := do
  if ← ahead (starts ":") then
    let _ ← operator ":"
    return colonBounds (← listWhile "+" (endsBounds ends) bound)
  return []

/-- An equals sign with what follows it, if there is one. -/
def optionalValue (value : Reader (List Token)) : Reader (List Token) := do
  if ← ahead (starts "=") then return (← operator "=") ++ (← value)
  return []

/-- A parameter of a declaration, and whether it is a lifetime. -/
def typeParameter (g : Grammar) : Reader (Bool × List Token) := do
  let attributes ← g.outerAttributes
  let tokens ← get
  if startsLifetime tokens then
    return (true, attributes ++ (← lifetime) ++ (← parameterBounds [",", ">"] lifetime))
  else if startsWord ["const"] tokens then
    let start ← inOrder [keyword "const", identifier, operator ":", g.typeTokens]
    return (false, attributes ++ start ++ (← optionalValue g.constant))
  else if startsWord ["_"] tokens then return (false, attributes ++ (← anyWord))
  else
    let name ← identifier
    let bounds ← parameterBounds [",", ">", "="] g.declaredBound
    return (false, attributes ++ name ++ bounds ++ (← optionalValue g.typeTokens))

/-- The parameters that a declaration is generic over; empty angles are dropped. -/
def typeParameters (g : Grammar) : Reader (List Token) := do
  if ← ahead (starts "<") then
    let found ← betweenAngles g.typeParameter
    if found.length = 2 then return [] else return found
  return []

/-- Whether parameters of a declaration are in front, rather than a qualified type. -/
def startsTypeParameters (tokens : List Token) : Bool :=
  let second := skip tokens
  let third := skip second
  starts "<" tokens &&
    (starts ">" second || starts "#" second || startsWord ["const"] second
      || ((startsLifetime second || startsIdentifier second)
        && (starts ">" third || starts "," third || starts "=" third
          || (starts ":" third && !starts "::" third))))

/-- Whether a list of demands ends here. -/
def endsDemands (tokens : List Token) : Bool :=
  tokens.isEmpty || startsGroup .brace tokens || starts "," tokens || starts ";" tokens
    || (starts ":" tokens && !starts "::" tokens) || starts "=" tokens

/-- What a declaration asks of one type or lifetime. -/
def demand (g : Grammar) : Reader (List Token) := do
  let tokens ← get
  if startsLifetime tokens && starts ":" (skip tokens) then
    let start ← inOrder [lifetime, operator ":"]
    let ends (tokens : List Token) := endsDemands tokens || starts ":" tokens
    return start ++ listed "+" (← listWhile "+" ends lifetime)
  else
    let start ← inOrder [g.boundLifetimes, g.typeTokens, operator ":"]
    return start ++ listed "+" (← listWhile "+" endsDemands g.declaredBound)

/-- What a declaration asks of its parameters; nothing is printed if it asks nothing. -/
def whereClause (g : Grammar) : Reader (List Token) := do
  if ← ahead (startsWord ["where"]) then
    let start ← keyword "where"
    if ← ahead startsTypeParameters then failure
    let demands ← listWhile "," endsDemands g.demand
    if demands.isEmpty then return [] else return start ++ listed "," demands
  return []

/-- The words in parentheses that restrict who may see a declaration. -/
def restriction : Reader (List Token) := do
  if ← ahead (startsWord ["in"]) then inOrder [keyword "in", modulePath]
  else if ← ahead (startsWord placeWords) then anyWord
  else failure

/-- Whether the words that restrict who may see a declaration are in front. -/
def startsRestriction : List Token → Bool
  | .group .parenthesis tokens :: _ =>
    startsWord ["in"] tokens || (startsWord placeWords tokens && (skip tokens).isEmpty)
  | _ => false

/-- Who may see a declaration. -/
def visibility : Reader (List Token) := do
  if ← ahead (startsWord ["pub"]) then
    return (← keyword "pub") ++ (← whenAhead startsRestriction (group .parenthesis restriction))
  return []

end TermNet.Source.Grammar
