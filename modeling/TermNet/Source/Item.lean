import TermNet.Source.Binder
import TermNet.Source.Type

namespace TermNet.Source.Grammar

open Reader

/-!
# Items — declarations of functions, types, traits and modules

* `signature`, `functionItem` — functions;
* `dataItem` — structures, enumerations and unions;
* `traitItem`, `implementation`, `foreignItem` — declarations that hold others;
* `itemAfter` — any declaration, after its attributes.

Some declarations are no more than read: a function without a body, say.  These are kept
as they are written, with the attributes in front of them.
-/

/-! ### Functions -/

/-- The part of a declaration that may be a receiver, `self` in some form. -/
def receiver (g : Grammar) : Reader (List Token) := do
  let reference ← if ← ahead (starts "&") then inOrder [operator "&", optionalLifetime] else pure []
  let start ← inOrder [optionalKeyword "mut", keyword "self"]
  if reference.isEmpty && (← ahead (starts ":")) then
    return start ++ (← operator ":") ++ (← g.typeTokens)
  return reference ++ start

/-- What a parameter of a function is. -/
inductive ParameterKind where
  | receiver
  | typed
  /-- Takes all further arguments. -/
  | variadic
deriving DecidableEq, Repr

/-- A parameter of a function. -/
def parameter (g : Grammar) : Reader (ParameterKind × List Token) := do
  if ← ahead (starts "...") then return (.variadic, ← operator "...")
  match g.receiver (← get) with
  | some (found, rest) => set rest; return (.receiver, found)
  | none =>
    if ← ahead fun tokens => startsIdentifier tokens && starts "<" (skip tokens) then
      return (.typed, .word "_" :: mark ":" ++ (← g.typeTokens))
    let start ← inOrder [g.binderTokens, operator ":"]
    if ← ahead (starts "...") then return (.variadic, start ++ (← operator "..."))
    return (.typed, start ++ (← g.typeTokens))

/-- Steps of `functionParameters`. -/
def functionSteps (g : Grammar) (first : Bool) : (steps : Nat) → Reader (List Token)
  | 0 => failure
  | steps + 1 => do
    if ← ahead List.isEmpty then return []
    let attributes ← g.outerAttributes
    let (kind, found) ← g.parameter
    if kind = .receiver && !first then failure
    let isLast ← ahead List.isEmpty
    let found := attributes ++ found ++ (← if isLast then pure [] else operator ",")
    if isLast || kind = .variadic then return found
    return found ++ (← g.functionSteps false steps)

/-- The parameters of a function.  Only the first one may be a receiver, and only the last
    one may take all further arguments. -/
def functionParameters (g : Grammar) : Reader (List Token) := do
  g.functionSteps true (← stepsOfLoop)

/-- The words in front of `fn`; `safe` is one of them where `maySafe` holds. -/
def functionWords (maySafe : Bool) : Reader (List Token) := do
  let start ← inOrder [optionalKeyword "const", optionalKeyword "async", optionalKeyword "unsafe"]
  let isSafe := maySafe && start.all fun token =>
    match token with
    | .word w => w ≠ "unsafe"
    | _ => true
  return start ++ (← whenAhead (fun tokens => isSafe && startsWord ["safe"] tokens) anyWord)
    ++ (← convention)

/-- Whether a function is in front. -/
def startsFunction (maySafe : Bool) (tokens : List Token) : Bool :=
  match functionWords maySafe tokens with
  | some (_, rest) => startsWord ["fn"] rest
  | none => false

/-- The head of a function. -/
def signature (g : Grammar) (maySafe : Bool) : Reader (List Token) :=
  inOrder [functionWords maySafe, keyword "fn", identifier, g.typeParameters,
    group .parenthesis g.functionParameters, g.result true,
    g.whereClause]

/-! ### Values and names of types -/

/-- A declared constant after its first word, and whether it has a value and neither
    parameters nor demands. -/
def constantRest (g : Grammar) : Reader (Bool × Bool × List Token) := do
  let name ← identifierOr ["_"]
  let isGeneric ← ahead (starts "<")
  let _ ← g.typeParameters
  let type ← inOrder [operator ":", g.typeTokens]
  let value ← optionalValue g.value
  let asks ← ahead (startsWord ["where"])
  let _ ← g.whereClause
  let semicolon ← operator ";"
  return (!value.isEmpty, !isGeneric && !asks, name ++ type ++ value ++ semicolon)

/-- Where the demands of a named type may stand. -/
inductive DemandPlace where
  | beforeValue
  | afterValue
  | both
deriving DecidableEq, Repr

/-- A named type from its first word on, and whether it has bounds and a value. -/
structure NamedType where
  hasColon : Bool
  hasValue : Bool
  tokens : List Token

/-- A named type from its first word on. -/
def namedType (g : Grammar) (place : DemandPlace) : Reader NamedType := do
  let start ← inOrder [keyword "type", identifier, g.typeParameters]
  let hasColon ← ahead (starts ":")
  let ends (tokens : List Token) := startsWord ["where"] tokens || starts "=" tokens
    || starts ";" tokens
  let bounds ← if hasColon then do
      let _ ← operator ":"
      pure (colonBounds (← listUntil "+" ends g.declaredBound))
    else pure []
  let asksBefore ← ahead fun tokens => place ≠ .afterValue && startsWord ["where"] tokens
  let before ← if asksBefore then g.whereClause else pure []
  let value ← optionalValue g.typeTokens
  let after ← if place = .beforeValue || asksBefore then pure [] else g.whereClause
  let semicolon ← operator ";"
  return ⟨hasColon, !value.isEmpty, start ++ bounds ++ before ++ value ++ after ++ semicolon⟩

/-- What is declared, or nothing if it is kept as it is written. -/
abbrev Declared := Option (List Token)

/-- What is declared after its first word, if a condition holds. -/
def declaredIf (condition : Bool) (tokens : List Token) : Declared :=
  if condition then some tokens else none

/-- A constant. -/
def constantItem (g : Grammar) (needsValue : Bool) : Reader Declared := do
  let start ← keyword "const"
  let (hasValue, isSimple, found) ← g.constantRest
  return declaredIf ((hasValue || !needsValue) && isSimple) (start ++ found)

/-- A variable of the program. -/
def staticItem (g : Grammar) : Reader Declared := do
  let start ← inOrder [keyword "static", optionalKeyword "mut", identifier]
  if ← ahead (starts "=") then
    let _ ← inOrder [operator "=", g.value, operator ";"]
    return none
  let type ← inOrder [operator ":", g.typeTokens]
  if ← ahead (starts ";") then
    let _ ← operator ";"
    return none
  return some (start ++ type ++ (← inOrder [operator "=", g.value, operator ";"]))

/-! ### Structures, enumerations and unions -/

/-- A field with a name.  The type of one without may be a structure, which is kept as it
    is written. -/
def namedField (g : Grammar) : Reader (List Token) := do
  let start ← inOrder [g.outerAttributes, visibility]
  let isBlank ← ahead (startsWord ["_"])
  let name ← inOrder [identifierOr ["_"], operator ":"]
  let isNested ← ahead fun tokens => startsWord ["struct"] tokens
    || (startsWord ["union"] tokens && startsGroup .brace (skip tokens))
  if isBlank && isNested then
    return start ++ name ++ (← asWritten (inOrder [anyWord, g.fields]))
  return start ++ name ++ (← g.typeTokens)

/-- The fields of a structure in braces. -/
def fieldsRule (g : Grammar) : Reader (List Token) := group .brace (commaList g.namedField)

/-- The fields of a structure in parentheses. -/
def unnamedFields (g : Grammar) : Reader (List Token) :=
  group .parenthesis (commaList (inOrder [g.outerAttributes, visibility, g.typeTokens]))

/-- A structure. -/
def structItem (g : Grammar) : Reader (List Token) := do
  let start ← inOrder [keyword "struct", identifier, g.typeParameters]
  if ← ahead (startsGroup .parenthesis) then
    return start ++ (← inOrder [g.unnamedFields, g.whereClause, operator ";"])
  let demands ← g.whereClause
  let body ← if ← ahead (startsGroup .brace) then g.fields else operator ";"
  return start ++ demands ++ body

/-- A case of an enumeration; who may see it is dropped. -/
def variant (g : Grammar) : Reader (List Token) := do
  let attributes ← g.outerAttributes
  let _ ← visibility
  let name ← identifier
  let body ← if ← ahead (startsGroup .brace) then g.fields
    else whenAhead (startsGroup .parenthesis) g.unnamedFields
  return attributes ++ name ++ body ++ (← optionalValue g.value)

/-- An enumeration. -/
def enumItem (g : Grammar) : Reader (List Token) :=
  inOrder [keyword "enum", identifier, g.typeParameters, g.whereClause,
    group .brace (commaList g.variant)]

/-- A union. -/
def unionItem (g : Grammar) : Reader (List Token) :=
  inOrder [keyword "union", identifier, g.typeParameters, g.whereClause, g.fields]

/-! ### Imports and macros -/

/-- A member of a group of imports, and whether any of it begins at the root. -/
def importMember (g : Grammar) (rooted : Bool) : Reader (Bool × List Token) := do
  let isRoot ← ahead fun tokens => rooted && starts "::" tokens
  let _ ← whenAhead (fun _ => isRoot) (operator "::")
  let (hasRoot, tree) ← g.importTree (rooted && !isRoot)
  return (isRoot || hasRoot, tree)

/-- What an import names, and whether any of it begins at the root, which it may where
    `rooted` holds. -/
def importTreeRule (g : Grammar) (rooted : Bool) : Reader (Bool × List Token) := do
  let tokens ← get
  if startsIdentifier tokens || startsWord ("try" :: placeWords) tokens then
    let name ← anyWord
    if ← ahead (starts "::") then
      let colons ← operator "::"
      return (false, name ++ colons ++ (← g.importTree false).2)
    else if ← ahead (startsWord ["as"]) then
      return (false, name ++ (← inOrder [keyword "as", identifierOr ["_"]]))
    else return (false, name)
  else if starts "*" tokens then return (false, ← operator "*")
  else
    let members ← inside .brace (listUntil "," List.isEmpty (g.importMember rooted))
    let found := members.map fun ((_, tree), separated) => (tree, separated)
    return (members.any fun ((hasRoot, _), _) => hasRoot, [.group .brace (listed "," found)])

/-- An import.  It is kept as it is written if a member of a group begins at the root. -/
def importItem (g : Grammar) : Reader Declared := do
  let start ← keyword "use"
  let root ← optionalOperator "::"
  let (hasRoot, tree) ← g.importTree root.isEmpty
  let semicolon ← operator ";"
  return declaredIf (!hasRoot) (start ++ root ++ tree ++ semicolon)

/-- The import of a library. -/
def libraryItem : Reader (List Token) := do
  let start ← inOrder [keyword "extern", keyword "crate", identifierOr ["self"]]
  let other ← if ← ahead (startsWord ["as"]) then inOrder [keyword "as", identifierOr ["_"]]
    else pure []
  return start ++ other ++ (← operator ";")

/-- Whether the name of a macro may be in front. -/
def startsMacroName (tokens : List Token) : Bool :=
  startsIdentifier tokens || startsWord placeWords tokens || starts "::" tokens

/-- A call of a macro that declares things; a name may stand in front of its arguments
    where `named` holds. -/
def macroItem (named : Bool) : Reader (List Token) := do
  let start ← inOrder [modulePath, operator "!"]
  let name ← if named then
      whenAhead (fun tokens => startsIdentifier tokens || startsWord ["try"] tokens) anyWord
    else pure []
  let needsEnd ← ahead fun tokens => !startsGroup .brace tokens
  return start ++ name ++ (← anyGroup) ++ (← if needsEnd then operator ";" else pure [])

/-- The declaration of a macro. -/
def macroDeclaration : Reader (List Token) := do
  let start ← inOrder [keyword "macro", identifier, whenAhead (startsGroup .parenthesis) anyGroup]
  if ← ahead (startsGroup .brace) then return start ++ (← anyGroup) else failure

/-! ### Declarations that hold others -/

/-- A member after its attributes and the words in front of it, or the member as it is
    written. -/
def memberSince (before start : List Token) : Declared → Reader (List Token)
  | some found => return start ++ found
  | none => writtenSince before

/-- A function that may lack its body, and whether it has one. -/
def functionItem (g : Grammar) (maySafe : Bool) : Reader (Bool × List Token) := do
  let head ← g.signature maySafe
  if ← ahead (starts ";") then return (false, head ++ (← operator ";"))
  return (true, head ++ (← g.block true))

/-- Whether the function in front is marked as safe. -/
def startsSafeFunction (tokens : List Token) : Bool :=
  match functionWords true tokens with
  | some (words, _) => words.any fun token =>
    match token with
    | .word w => w = "safe"
    | _ => false
  | none => false

/-- A member of a block of foreign things, after its attributes; macros may be called where
    nothing tells who may see it. -/
def foreignDeclaration (g : Grammar) (isPublic : Bool) : Reader Declared := do
  let tokens ← get
  if startsFunction true tokens then
    let (hasBody, found) ← g.functionItem true
    return declaredIf (!hasBody && !startsSafeFunction tokens) found
  else if startsWord ["static"] tokens
      || (startsWord ["unsafe", "safe"] tokens && startsWord ["static"] (skip tokens)) then
    let word ← whenAhead (fun tokens => !startsWord ["static"] tokens) anyWord
    let start ← inOrder [keyword "static", optionalKeyword "mut", identifier, operator ":",
      g.typeTokens]
    let value ← optionalValue g.value
    return declaredIf (word.isEmpty && value.isEmpty) (start ++ (← operator ";"))
  else if startsWord ["type"] tokens then
    let found ← g.namedType .both
    return declaredIf (!found.hasColon && !found.hasValue) found.tokens
  else if !isPublic && startsMacroName tokens then return some (← macroItem false)
  else failure

/-- A member of a block of foreign things. -/
def foreignMember (g : Grammar) : Reader (List Token) := do
  let before ← get
  let attributes ← g.outerAttributes
  let seen ← visibility
  memberSince before (attributes ++ seen) (← g.foreignDeclaration !seen.isEmpty)

/-- A block of foreign things. -/
def foreignBlock (g : Grammar) : Reader (List Token) :=
  inOrder [optionalKeyword "unsafe", keyword "extern", whenAhead startsText literal,
    group .brace (inOrder [g.innerAttributes, repeatToEnd g.foreignMember])]

/-- A member of a trait, after its attributes and the words in front of it; macros may be
    called where there are none. -/
def traitDeclaration (g : Grammar) (hasWords : Bool) : Reader Declared := do
  let tokens ← get
  if startsFunction false tokens then return some (← g.functionItem false).2
  else if startsWord ["const"] tokens then g.constantItem false
  else if startsWord ["type"] tokens then return some (← g.namedType .afterValue).tokens
  else if !hasWords && startsMacroName tokens then return some (← macroItem false)
  else failure

/-- A member of a trait.  It is kept as it is written if there are words in front of it. -/
def traitMember (g : Grammar) : Reader (List Token) := do
  let before ← get
  let attributes ← g.outerAttributes
  let words ← inOrder [visibility, optionalKeyword "default"]
  let found ← g.traitDeclaration !words.isEmpty
  memberSince before attributes (if words.isEmpty then found else none)

/-- The rest of a trait after its name and its parameters. -/
def traitRest (g : Grammar) : Reader (List Token) := do
  let ends (tokens : List Token) := startsWord ["where"] tokens || startsGroup .brace tokens
  let bounds ← if ← ahead (starts ":") then do
      let _ ← operator ":"
      pure (colonBounds (← listUntil "+" ends g.declaredBound))
    else pure []
  return bounds ++ (← inOrder [g.whereClause,
    group .brace (inOrder [g.innerAttributes, repeatToEnd g.traitMember])])

/-- A trait, or another name for some traits. -/
def traitItem (g : Grammar) : Reader (List Token) := do
  let words ← inOrder [optionalKeyword "unsafe", optionalKeyword "auto"]
  let start ← inOrder [keyword "trait", identifier, g.typeParameters]
  if words.isEmpty && (← ahead (starts "=")) then
    let ends (tokens : List Token) := startsWord ["where"] tokens || starts ";" tokens
    let equals ← operator "="
    let bounds ← listUntil "+" ends (return (← g.bound false false).2)
    return start ++ equals ++ listed "+" bounds ++ (← inOrder [g.whereClause, operator ";"])
  return words ++ start ++ (← g.traitRest)

/-- A member of an implementation, after its attributes and the words in front of it; macros
    may be called where there are none. -/
def implementationDeclaration (g : Grammar) (hasWords : Bool) : Reader Declared := do
  let tokens ← get
  if startsFunction false tokens then
    let (hasBody, found) ← g.functionItem false
    return declaredIf hasBody found
  else if startsWord ["const"] tokens then g.constantItem true
  else if startsWord ["type"] tokens then
    let found ← g.namedType .afterValue
    return declaredIf (found.hasValue && !found.hasColon) found.tokens
  else if !hasWords && startsMacroName tokens then return some (← macroItem false)
  else failure

/-- A member of an implementation. -/
def implementationMember (g : Grammar) : Reader (List Token) := do
  let before ← get
  let attributes ← g.outerAttributes
  let seen ← visibility
  let isDefault ← ahead fun tokens => startsWord ["default"] tokens && !starts "!" (skip tokens)
  let words := seen ++ (← whenAhead (fun _ => isDefault) anyWord)
  memberSince before (attributes ++ words) (← g.implementationDeclaration !words.isEmpty)

/-- Whether an implementation of a trait for constants is in front. -/
def startsConstantTrait (tokens : List Token) : Bool :=
  startsWord ["const"] tokens || (starts "?" tokens && startsWord ["const"] (skip tokens))

/-- The trait that is implemented and the type that it is implemented for, or the type
    alone; nothing if what is implemented is no path. -/
def implemented (g : Grammar) : Reader Declared := do
  let before ← get
  let negative ← whenAhead
    (fun tokens => starts "!" tokens && !startsGroup .brace (skip tokens)) (operator "!")
  let first ← g.type true
  if ← ahead (startsWord ["for"]) then
    let rest ← inOrder [keyword "for", g.typeTokens]
    match first with
    | .path path => return declaredIf (!path.isQualified) (negative ++ path.tokens ++ rest)
    | _ => return none
  else if negative.isEmpty then return some first.tokens
  else return some (← writtenSince before)

/-- An implementation.  It is kept as it is written where `isPublic` holds. -/
def implementation (g : Grammar) (isPublic : Bool) : Reader Declared := do
  let start ← inOrder [optionalKeyword "default", optionalKeyword "unsafe", keyword "impl",
    whenAhead startsTypeParameters g.typeParameters]
  let isConstant ← ahead startsConstantTrait
  let _ ← whenAhead (fun _ => isConstant) (inOrder [optionalOperator "?", keyword "const"])
  let subject ← g.implemented
  let rest ← inOrder [g.whereClause,
    group .brace (inOrder [g.innerAttributes, repeatToEnd g.implementationMember])]
  match subject with
  | some found => return declaredIf (!isPublic && !isConstant) (start ++ found ++ rest)
  | none => return none

/-- A module, whose body may be elsewhere. -/
def moduleItem (g : Grammar) : Reader (List Token) := do
  let start ← inOrder [optionalKeyword "unsafe", keyword "mod", identifierOr ["try"]]
  if ← ahead (starts ";") then return start ++ (← operator ";")
  return start ++ (← group .brace (inOrder [g.innerAttributes, repeatToEnd g.item]))

/-! ### Items -/

/-- A declaration that begins with `unsafe`, other than a function. -/
def unsafeItem (g : Grammar) (isPublic : Bool) : Reader Declared := do
  let second := skip (← get)
  if startsWord ["trait"] second
      || (startsWord ["auto"] second && startsWord ["trait"] (skip second)) then
    return some (← g.traitItem)
  else if startsWord ["impl"] second then g.implementation isPublic
  else if startsWord ["extern"] second && !isPublic then return some (← g.foreignBlock)
  else if startsWord ["mod"] second then return some (← g.moduleItem)
  else failure

/-- A declaration after the words that tell who may see it. -/
def declaration (g : Grammar) (isPublic : Bool) : Reader Declared := do
  let tokens ← get
  let second := skip tokens
  if startsFunction false tokens then
    let (hasBody, found) ← g.functionItem false
    return declaredIf hasBody found
  else if startsWord ["extern"] tokens then
    if startsWord ["crate"] second then return some (← libraryItem)
    else if isPublic then failure
    else return some (← g.foreignBlock)
  else if startsWord ["use"] tokens then g.importItem
  else if startsWord ["static"] tokens then g.staticItem
  else if startsWord ["const"] tokens then g.constantItem true
  else if startsWord ["unsafe"] tokens then g.unsafeItem isPublic
  else if startsWord ["mod"] tokens then return some (← g.moduleItem)
  else if startsWord ["type"] tokens then
    let found ← g.namedType .beforeValue
    return declaredIf (found.hasValue && !found.hasColon) found.tokens
  else if startsWord ["struct"] tokens then return some (← g.structItem)
  else if startsWord ["enum"] tokens then return some (← g.enumItem)
  else if startsWord ["union"] tokens && startsIdentifier second then return some (← g.unionItem)
  else if startsWord ["trait"] tokens
      || (startsWord ["auto"] tokens && startsWord ["trait"] second) then
    return some (← g.traitItem)
  else if startsWord ["impl"] tokens
      || (startsWord ["default"] tokens && !starts "!" second) then
    g.implementation isPublic
  else if startsWord ["macro"] tokens then
    let _ ← macroDeclaration
    return none
  else if !isPublic && startsMacroName tokens then return some (← macroItem true)
  else failure

/-- A declaration after its attributes; `before` are the tokens from these on. -/
def itemAfter (g : Grammar) (before attributes : List Token) : Reader (List Token) := do
  let seen ← visibility
  memberSince before (attributes ++ seen) (← g.declaration !seen.isEmpty)

/-- A declaration with its attributes. -/
def itemRule (g : Grammar) : Reader (List Token) := do
  let before ← get
  g.itemAfter before (← g.outerAttributes)

end TermNet.Source.Grammar
