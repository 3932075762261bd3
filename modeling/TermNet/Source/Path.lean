import TermNet.Source.Grammar

namespace TermNet.Source.Grammar

open Reader
open Reader TermNet.Text

/-!
# Attributes, macro calls and paths

* `modulePath` — names joined by `::`, as attributes and macros have them;
* `outerAttributes`, `innerAttributes` — attributes in front of a thing, and those at
  the beginning of its body;
* `macroCall` — the call of a macro;
* `genericArguments` — the arguments between angles, lifetimes first;
* `path`, `qualifiedPath` — names joined by `::`, which may begin with a qualified type;
* `typePath` — a path with arguments in parentheses, as in `Fn(A) -> B`;
* `bound`, `bounds` — what is asked of a type.

In an expression generic arguments follow `::`, so that `<` compares.
-/

/-- Whether a name of a module path is in front. -/
def startsModuleName (tokens : List Token) : Bool :=
  startsIdentifier tokens || startsWord ("Self" :: placeWords) tokens

/-- Steps of `modulePath`. -/
def moduleNames : (steps : Nat) → Reader (List Token)
  | 0 => failure
  | steps + 1 => do
    let name ← if ← ahead startsModuleName then anyWord else failure
    if ← ahead (starts "::") then
      return name ++ (← operator "::") ++ (← moduleNames steps)
    return name

/-- Names joined by `::`, without generic arguments. -/
def modulePath : Reader (List Token) := do
  return (← optionalOperator "::") ++ (← moduleNames (← stepsOfLoop))

/-- The exclamation mark of a macro and its arguments, which are kept as they are. -/
def macroArguments : Reader (List Token) := inOrder [operator "!", anyGroup]

/-- The call of a macro. -/
def macroCall : Reader (List Token) := inOrder [modulePath, macroArguments]

/-- What an attribute says: its name, and a group or a value if it has one. -/
def attributeText (g : Grammar) : Reader (List Token) := do
  let name ← if ← ahead (startsWord ["unsafe"]) then anyWord else modulePath
  match ← get with
  | [] => return name
  | .group _ _ :: _ => return name ++ (← anyGroup)
  | _ =>
    let equals ← operator "="
    if ← ahead (starts "#") then failure
    return name ++ equals ++ (← g.value)

/-- Steps of `outerAttributes`. -/
def outerSteps (g : Grammar) : (steps : Nat) → Reader (List Token)
  | 0 => failure
  | steps + 1 => do
    if ← ahead (starts "#") then
      return (← operator "#") ++ (← group .bracket g.attributeText) ++ (← g.outerSteps steps)
    return []

/-- Attributes in front of a thing. -/
def outerAttributes (g : Grammar) : Reader (List Token) := do g.outerSteps (← stepsOfLoop)

/-- Whether an attribute of what is around is in front. -/
def startsInner (tokens : List Token) : Bool := starts "#" tokens && starts "!" (skip tokens)

/-- Steps of `innerAttributes`. -/
def innerSteps (g : Grammar) : (steps : Nat) → Reader (List Token)
  | 0 => failure
  | steps + 1 => do
    if ← ahead startsInner then
      return (← operator "#") ++ (← operator "!") ++ (← group .bracket g.attributeText)
        ++ (← g.innerSteps steps)
    return []

/-- Attributes at the beginning of a body, which belong to what is around it. -/
def innerAttributes (g : Grammar) : Reader (List Token) := do g.innerSteps (← stepsOfLoop)

/-! ### Lists between angles -/

/-- Lists between angles are printed with the lifetimes first: each item comes with
    whether it is one, and with whether a comma follows it. -/
def lifetimesFirst (items : List ((Bool × List Token) × Bool)) : List Token :=
  let tokensOf (keep : Bool) := items.filterMap fun ((isLifetime, tokens), separated) =>
    if isLifetime = keep then some (tokens, separated) else none
  let lifetimes := tokensOf true
  let others := tokensOf false
  let ended := lifetimes.getLast?.all fun last => last.2
  let comma := if others.isEmpty || ended then [] else mark ","
  listed "," lifetimes ++ comma ++ listed "," others

/-- A list between angles, each item with whether it is a lifetime. -/
def betweenAngles (item : Reader (Bool × List Token)) : Reader (List Token) := do
  let opening ← operator "<"
  let items ← listUntil "," (starts ">") item
  return opening ++ lifetimesFirst items ++ (← operator ">")

/-! ### Paths -/

/-- Whether generic arguments of a type are in front. -/
def startsAngle (tokens : List Token) : Bool :=
  starts "<" tokens && !starts "<=" tokens && !starts "<<=" tokens

/-- What follows `::`, if it is in front. -/
def afterColons (test : List Token → Bool) (tokens : List Token) : Bool :=
  match after? "::" tokens with
  | some rest => test rest
  | none => false

/-- Whether a literal or a block is in front. -/
def startsConstant (tokens : List Token) : Bool := startsLiteral tokens || startsGroup .brace tokens

/-- A constant: a literal, a name or a block. -/
def constant (g : Grammar) : Reader (List Token) := do
  if ← ahead startsLiteral then literal
  else if ← ahead startsIdentifier then identifier
  else g.block true

/-- A segment of a path. -/
def segment (g : Grammar) (inExpression : Bool) : Reader Segment := do
  match ← get with
  | .word w :: rest =>
    set rest
    if w = "try" || placeWords.contains w then return ⟨w, []⟩
    else if w = "Self" || !isKeyword w then
      if (!inExpression && startsAngle rest) || afterColons (starts "<") rest then
        return ⟨w, (← optionalOperator "::") ++ (← g.generics)⟩
      return ⟨w, []⟩
    else failure
  | _ => failure

/-- Whether a further segment follows, and not arguments in parentheses. -/
def startsSegment (tokens : List Token) : Bool :=
  afterColons (fun rest => !startsGroup .parenthesis rest) tokens

/-- Steps of `moreSegments`. -/
def segmentSteps (g : Grammar) (inExpression : Bool) : (steps : Nat) → Reader (List Segment)
  | 0 => failure
  | steps + 1 => do
    if ← ahead startsSegment then
      let _ ← operator "::"
      return (← g.segment inExpression) :: (← g.segmentSteps inExpression steps)
    return []

/-- The segments after the first one. -/
def moreSegments (g : Grammar) (inExpression : Bool) : Reader (List Segment) := do
  g.segmentSteps inExpression (← stepsOfLoop)

/-- Names joined by `::`. -/
def path (g : Grammar) (inExpression : Bool) : Reader Path := do
  let lead ← optionalOperator "::"
  let first ← g.segment inExpression
  return { lead, segments := first :: (← g.moreSegments inExpression) }

/-- Steps of `qualifiedPath`. -/
def qualifiedSteps (g : Grammar) (inExpression : Bool) : (steps : Nat) → Reader (List Segment)
  | 0 => failure
  | steps + 1 => do
    let first ← g.segment inExpression
    if ← ahead (starts "::") then
      let _ ← operator "::"
      return first :: (← g.qualifiedSteps inExpression steps)
    return [first]

/-- A path that may begin with a type, or with a type as it has a trait. -/
def qualifiedPath (g : Grammar) (inExpression : Bool) : Reader Path := do
  if ← ahead (starts "<") then
    let opening ← operator "<"
    let self ← g.typeTokens
    let (as, qualifier) ← if ← ahead (startsWord ["as"]) then do
        let as ← keyword "as"
        let trait ← g.path false
        pure (as ++ trait.tokens, trait.segments)
      else pure ([], [])
    let closing ← inOrder [operator ">", operator "::"]
    let segments ← g.qualifiedSteps inExpression (← stepsOfLoop)
    return { lead := opening ++ self ++ as ++ closing, segments, qualifier }
  g.path inExpression

/-! ### Arguments in parentheses -/

/-- The type that a function gives, which is missing if nothing is given. -/
def returnType (g : Grammar) (plus : Bool) : Reader (Option SourceType) := do
  if ← ahead (starts "->") then
    let _ ← operator "->"
    return some (← g.type plus)
  return none

/-- The tokens of a type that a function gives. -/
def returnTokens : Option SourceType → List Token
  | some type => mark "->" ++ type.tokens
  | none => []

/-- The type that a function gives, with the arrow in front of it. -/
def result (g : Grammar) (plus : Bool) : Reader (List Token) :=
  return returnTokens (← g.returnType plus)

/-- Whether arguments in parentheses are in front. -/
def startsArguments (tokens : List Token) : Bool :=
  startsGroup .parenthesis tokens || afterColons (startsGroup .parenthesis) tokens

/-- Arguments in parentheses with the type that they give; the `::` in front of them is
    dropped. -/
def parenthesized (g : Grammar) : Reader (List Token × Option SourceType) := do
  let _ ← optionalOperator "::"
  let arguments ← group .parenthesis (commaList g.typeTokens)
  let result ← g.returnType false
  return (arguments ++ returnTokens result, result)

/-- Whether the last segment of a path has no arguments, which empty angles are too. -/
def lacksArguments (segments : List Segment) : Bool :=
  segments.getLast?.any fun last =>
    match last.generics with
    | [] => true
    | [.mark '<' _, .mark '>' _] => true
    | [.mark ':' _, .mark ':' _, .mark '<' _, .mark '>' _] => true
    | _ => false

/-- Give arguments to the last segment, in place of empty angles if it has them. -/
def giveArguments (arguments : List Token) : List Segment → List Segment
  | [] => []
  | [last] => [{ last with generics := arguments }]
  | first :: rest => first :: giveArguments arguments rest

/-- Whether further segments may follow arguments that give this type. -/
def mayContinue : Option SourceType → Bool
  | none => true
  | some (.paren _) => true
  | some _ => false

/-- Steps of `typePath`. -/
def callSteps (g : Grammar) : (steps : Nat) → List Segment → Reader (List Segment)
  | 0, _ => failure
  | steps + 1, segments => do
    if lacksArguments segments && (← ahead startsArguments) then
      let (arguments, result) ← g.parenthesized
      let called := giveArguments arguments segments
      if mayContinue result then g.callSteps steps (called ++ (← g.moreSegments false))
      else return called
    else return segments

/-- A path that is a type; its segments may have arguments in parentheses. -/
def typePath (g : Grammar) : Reader Path := do
  let path ← g.qualifiedPath false
  return { path with segments := ← g.callSteps (← stepsOfLoop) path.segments }

/-! ### Bounds -/

/-- Lifetimes that are introduced by `for`, if any. -/
def boundLifetimes (g : Grammar) : Reader (List Token) := do
  if ← ahead (startsWord ["for"]) then
    let start ← inOrder [keyword "for", operator "<"]
    let lifetimes ← listUntil "," (starts ">") (inOrder [g.outerAttributes, lifetime])
    return start ++ listed "," lifetimes ++ (← operator ">")
  return []

/-- The names that a type may hold on to. -/
def captured : Reader (List Token) := do
  let start ← keyword "use"
  let names ← betweenAngles do
    if ← ahead startsLifetime then return (true, ← lifetime)
    return (false, ← identifierOr ["Self"])
  return start ++ names

/-- The mark of a bound that holds in constants only, and whether there is one. -/
def constantMark : Reader Bool := do
  if ← ahead (startsGroup .bracket) then
    let _ ← group .bracket (keyword "const")
    return true
  return !(← optionalKeyword "const").isEmpty

/-- A trait that is asked for, and whether it is asked for in constants only. -/
def traitBound (g : Grammar) (constants : Bool) : Reader (Bool × List Token) := do
  let lifetimes ← g.boundLifetimes
  let isConstant ← constantMark
  if isConstant && !constants then failure
  let maybe ← optionalOperator "?"
  if !maybe.isEmpty && (!lifetimes.isEmpty || (← ahead (startsWord ["for"]))) then failure
  let path ← g.path false
  let segments ← if lacksArguments path.segments && (← ahead startsArguments) then do
      let (arguments, _) ← g.parenthesized
      pure (giveArguments arguments path.segments)
    else pure path.segments
  return (isConstant, lifetimes ++ maybe ++ { path with segments }.tokens)

/-- What is asked of a type, and whether it is a trait. -/
def bound (g : Grammar) (captures constants : Bool) : Reader (Bool × List Token) := do
  let before ← get
  if startsLifetime before then return (false, ← lifetime)
  else if startsWord ["use"] before then
    if captures then return (false, ← captured) else failure
  else
    let (isConstant, tokens) ←
      if startsGroup .parenthesis before then do
        let (isConstant, tokens) ← inside .parenthesis (g.traitBound constants)
        pure (isConstant, [Token.group .parenthesis tokens])
      else g.traitBound constants
    if isConstant then return (true, ← writtenSince before)
    return (true, tokens)

/-- The tokens of a bound in a declaration. -/
def declaredBound (g : Grammar) : Reader (List Token) := return (← g.bound false true).2

/-- Whether a bound is in front. -/
def startsBound (constants : Bool) (tokens : List Token) : Bool :=
  startsAnyWord tokens || starts "::" tokens || starts "?" tokens || startsLifetime tokens
    || startsGroup .parenthesis tokens || (constants && startsGroup .bracket tokens)

/-- The bounds of a type, one of which must be a trait. -/
def bounds (g : Grammar) (plus captures constants : Bool) : Reader (List Token) := do
  let found ← if plus then
      listWhile "+" (fun tokens => !startsBound constants tokens) (g.bound captures constants)
    else do pure [(← g.bound captures constants, false)]
  if found.any fun ((isTrait, _), _) => isTrait then
    return listed "+" (found.map fun ((_, tokens), separated) => (tokens, separated))
  failure

/-- Whether a list of bounds ends in front of one of these. -/
def endsBounds (operators : List String) (tokens : List Token) : Bool :=
  operators.any (starts · tokens)

/-! ### Generic arguments -/

/-- Whether a path is one name, whose arguments may only stand between angles. -/
def isOneName (path : Path) : Bool :=
  path.lead.isEmpty && match path.segments with
    | [segment] => !startsGroup .parenthesis segment.generics
    | _ => false

/-- What an argument that is a name says of it: its value or its bounds. -/
def said (g : Grammar) : Reader (List Token) := do
  if ← ahead (starts "=") then
    let equals ← operator "="
    return equals ++ (← if ← ahead startsConstant then g.constant else g.typeTokens)
  if ← ahead (starts ":") then
    let colon ← operator ":"
    return colon ++ listed "+" (← listWhile "+" (endsBounds [",", ">"]) g.declaredBound)
  return []

/-- A generic argument, and whether it is a lifetime. -/
def genericArgument (g : Grammar) : Reader (Bool × List Token) := do
  let tokens ← get
  if startsLifetime tokens && !starts "+" (skip tokens) then return (true, ← lifetime)
  else if startsConstant tokens then return (false, ← g.constant)
  else
    match ← g.type true with
    | .path path =>
      if isOneName path then return (false, path.tokens ++ (← g.said))
      return (false, path.tokens)
    | type => return (false, type.tokens)

/-- Generic arguments between angles. -/
def genericsRule (g : Grammar) : Reader (List Token) := betweenAngles g.genericArgument

end TermNet.Source.Grammar
