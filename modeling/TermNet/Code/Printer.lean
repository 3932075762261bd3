import TermNet.Code.Module
import TermNet.Source.Token
import TermNet.Text.Quoted

namespace TermNet.Code

open TermNet.Source TermNet.Text

/-!
# The text of modules

Modules are written in Rust, against two libraries: one of expressions, and one of
the queue, the substitutions and the matching of commutative operations.

* `Constructor.tokens`, `Statement.tokens`, `Item.tokens` — the tokens of the parts;
* `Module.tokens`, `Module.text` — a module.
-/

/-! ### Shapes of source text -/

/-- An identifier. -/
def word (name : String) : List Token := [.word name]

/-- Identifiers one after the other. -/
def words (names : List String) : List Token := names.map .word

/-- A natural number. -/
def number (n : Nat) : List Token := [.literal (toString n)]

/-- A string literal. -/
def literal (text : String) : List Token := [.literal (quote text)]

/-- Parts between commas. -/
def commas (parts : List (List Token)) : List Token := separated false parts

/-- Tokens in parentheses. -/
def parens (tokens : List Token) : List Token := [.group .parenthesis tokens]

/-- Tokens in brackets. -/
def brackets (tokens : List Token) : List Token := [.group .bracket tokens]

/-- Tokens in braces. -/
def braces (tokens : List Token) : List Token := [.group .brace tokens]

/-- Names joined by `::`. -/
def pathTokens (names : List String) : List Token := Path.segmentTokens (names.map fun n => ⟨n, []⟩)

/-- A call. -/
def callOf (function : List Token) (args : List (List Token)) : List Token :=
  function ++ parens (commas args)

/-- A call of a path. -/
def callPath (names : List String) (args : List (List Token)) : List Token :=
  callOf (pathTokens names) args

/-- A call of a method. -/
def method (receiver : List Token) (name : String) (args : List (List Token)) : List Token :=
  receiver ++ mark "." ++ callOf (word name) args

/-- A reference. -/
def ref (tokens : List Token) : List Token := mark "&" ++ tokens

/-- A mutable reference. -/
def refMut (tokens : List Token) : List Token := mark "&" ++ word "mut" ++ tokens

/-- A statement with its semicolon. -/
def ended (tokens : List Token) : List Token := tokens ++ mark ";"

/-- The definition of a local variable. -/
def letTokens (pattern value : List Token) : List Token :=
  ended (word "let" ++ pattern ++ mark "=" ++ value)

/-- A conditional block. -/
def ifTokens (condition body : List Token) : List Token := word "if" ++ condition ++ braces body

/-- A name with its type. -/
def typed (name : String) (type : List Token) : List Token := word name ++ mark ":" ++ type

/-- A type with arguments. -/
def generic (name : List Token) (args : List (List Token)) : List Token :=
  name ++ mark "<" ++ commas args ++ mark ">"

/-- A closure with one parameter. -/
def closure (parameter : String) (body : List Token) : List Token :=
  mark "|" ++ word parameter ++ mark "|" ++ body

/-- A closure without parameters. -/
def thunk (body : List Token) : List Token := mark "|" ++ mark "|" ++ body

/-- A list written by the macro `vec`. -/
def vecOf (items : List (List Token)) : List Token :=
  word "vec" ++ mark "!" ++ brackets (commas items)

/-- A slice of numbers. -/
def indexSlice (indices : List Nat) : List Token := ref (brackets (commas (indices.map number)))

/-- A value that is there or not. -/
def optionTokens : Option (List Token) → List Token
  | some tokens => callOf (word "Some") [tokens]
  | none => word "None"

/-! ### Constructors -/

/-- A head in place. -/
def headTokens (head : Head) : List Token :=
  callPath ["Head", "from_static"] [literal head.name, pathTokens ["OpKind", head.kind.name]]

/-- The head of an operation. -/
def HeadSource.tokens : HeadSource → List Token
  | shared name => method (word name) "clone" []
  | inPlace head => headTokens head

mutual

/-- The tokens of the calls that build a term. -/
def Constructor.tokens : Constructor → List Token
  | .integer negative magnitude =>
    callPath ["Expr", "integer"]
      [if negative then mark "-" ++ number magnitude else number magnitude]
  | .symbol s =>
    callPath ["Expr", "symbol_of"] [literal s.name, pathTokens ["SymbolKind", s.kind.name]]
  | .operation head args =>
    callPath ["Expr", "operation"] [head.tokens, brackets (commas (Constructor.tokensOfAll args))]
termination_by structural c => c

/-- The tokens of each constructor of a list. -/
def Constructor.tokensOfAll : List Constructor → List (List Token)
  | [] => []
  | c :: cs => Constructor.tokens c :: Constructor.tokensOfAll cs
termination_by structural cs => cs

end

/-- The text of the calls that build a term. -/
def Constructor.text (c : Constructor) : String := printTokens c.tokens

/-! ### Statements -/

/-- A shared expression. -/
def sharedExpression (name : String) : List Token :=
  callPath ["Arc", "clone"] [mark "&" ++ mark "*" ++ word name]

/-- The call that opens a guard. -/
def Opening.tokens : Opening → List Token
  | enter head => method (word "subjects") "enter" [ref (word head)]
  | close => method (word "subjects") "close" []
  | takeEqual expression => method (word "subjects") "take_if"
      [closure "expr"
        (word "expr" ++ mark "==" ++ mark "&" ++ mark "*" ++ mark "*" ++ word expression)]
  | takeKind kind => method (word "subjects") "take_if"
      [closure "expr" (method (word "expr") "is_symbol_of" [pathTokens ["SymbolKind", kind.name]])]
  | takeAny => method (word "subjects") "take" []
  | takeOperation head => method (word "subjects") "take_if"
      [closure "expr" (method (word "expr") "is_operation" [ref (word head)])]
  | takeRun minCount => method (word "subjects") "take_sequence" [number minCount]

/-- A value that is bound. -/
def BoundValue.tokens : BoundValue → List Token
  | item name => callPath ["Binding", "Single"] [word name]
  | constant expression => callPath ["Binding", "Single"] [sharedExpression expression]
  | binding name => word name

/-- The call of a check on `args`. -/
def Callee.tokens : Callee → List Token
  | builtin predicate => method (pathTokens ["Predicate", predicate.name]) "check" [word "args"]
  | custom path => callOf path.tokens [word "args"]

/-- The closure that makes the check of a condition. -/
def Callee.closure (callee : Callee) : List Token := Code.closure "args" callee.tokens

/-- A condition. -/
def Condition.tokens (condition : Condition) : List Token :=
  method (word "subst") "satisfies"
    [ref (brackets (commas (condition.variableNames.map literal))), condition.callee.closure]

/-- Whether one of some patterns is active. -/
def activeTokens (patterns : List Nat) : List Token :=
  method (word "active") "intersects_any" [indexSlice patterns]

/-- Conditions that have to hold as well. -/
def alsoTokens (globals : List Condition) : List Token :=
  globals.flatMap fun condition => mark "&&" ++ condition.tokens

/-- The pairs of declared and local names. -/
def pairTokens (pairs : List (String × String)) : List Token :=
  ref (brackets (commas (pairs.map fun (declared, localName) =>
    parens (commas [literal declared, literal localName]))))

/-- A mutable local variable of a type. -/
def letMut (name : String) (type value : List Token) : List Token :=
  letTokens (word "mut" ++ typed name type) value

mutual

/-- The tokens of a statement. -/
def Statement.tokens : Statement → List Token
  | .ifActive patterns body => ifTokens (activeTokens patterns) (Statement.tokensOfAll body)
  | .ifExhausted body =>
    ifTokens (method (word "subjects") "is_exhausted" []) (Statement.tokensOfAll body)
  | .ifAccepts pattern globals body =>
    ifTokens (method (word "active") "contains" [number pattern] ++ alsoTokens globals)
      (Statement.tokensOfAll body)
  | .pushResult pattern pairs =>
    ended (method (word "results") "push"
      [parens (commas [number pattern, method (word "subst") "renamed" [pairTokens pairs]])])
  | .ifOpens guard opening body =>
    ifTokens (word "let" ++ callOf (word "Some") [word "mut" ++ word guard] ++ mark "="
      ++ opening.tokens) (Statement.tokensOfAll body)
  | .letItem name guard =>
    letTokens (word name) (callPath ["Arc", "clone"] [method (word guard) "item" []])
  | .shadowSubjects guard =>
    letTokens (typed "subjects" (refMut (word "Subjects"))) (refMut (word guard))
  | .growing run body =>
    word "loop" ++ braces (Statement.tokensOfAll body
      ++ ifTokens (mark "!" ++ method (word run) "grow" []) (ended (word "break")))
  | .letBinding name run wrap =>
    letTokens (word name)
      (method (word run) "binding" [optionTokens (wrap.map fun head => ref (word head))])
  | .block body => braces (Statement.tokensOfAll body)
  | .letWanted name =>
    letMut name (generic (word "Vec") [word "usize"]) (callPath ["Vec", "new"] [])
  | .pushWanted name pattern => ended (method (word name) "push" [number pattern])
  | .ifWanted name body =>
    ifTokens (mark "!" ++ method (word name) "is_empty" []) (Statement.tokensOfAll body)
  | .forFound pattern found matcher operation wanted body =>
    word "for" ++ parens (commas [word pattern, word found]) ++ word "in"
      ++ callOf (word "match_commutative")
        [callPath [matcher, "get"] [], method (word operation) "args" [], word "subst",
          ref (word wanted)]
      ++ braces (Statement.tokensOfAll body)
  | .shadowSubst name => letTokens (word "subst") (ref (word name))
  | .matchPattern name arms =>
    word "match" ++ word name
      ++ braces (Arm.tokensOfAll arms ++ word "_" ++ mark "=>" ++ braces [])
  | .ifExtends extended variableName value body =>
    ifTokens (word "let" ++ callOf (word "Some") [word extended] ++ mark "="
      ++ method (word "subst") "extended" [literal variableName, value.tokens])
      (Statement.tokensOfAll body)
  | .letNarrowed name => letMut name (generic (word "Option") [word "PatternSet"]) (word "None")
  | .unlessHolds condition narrowed owners =>
    ifTokens (mark "!" ++ condition.tokens)
      (ended (method
        (method (word narrowed) "get_or_insert_with" [thunk (method (word "active") "clone" [])])
        "remove_all" [indexSlice owners]))
  | .shadowActive narrowed =>
    letTokens (word "active")
      (method (method (word narrowed) "as_ref" []) "unwrap_or" [word "active"])
  | .call function =>
    ended (callOf (word function)
      [word "subjects", word "subst", word "active", word "results"])
termination_by structural s => s

/-- The tokens of statements one after the other. -/
def Statement.tokensOfAll : List Statement → List Token
  | [] => []
  | s :: ss => Statement.tokens s ++ Statement.tokensOfAll ss
termination_by structural ss => ss

/-- The tokens of an arm. -/
def Arm.tokens : Arm → List Token
  | ⟨pattern, body⟩ => number pattern ++ mark "=>" ++ braces (Statement.tokensOfAll body)
termination_by structural arm => arm

/-- The tokens of arms one after the other. -/
def Arm.tokensOfAll : List Arm → List Token
  | [] => []
  | arm :: arms => Arm.tokens arm ++ Arm.tokensOfAll arms
termination_by structural arms => arms

end

/-! ### Functions and types -/

/-- The type of a match. -/
def matchType : List Token := parens (commas [word "usize", word "Substitution"])

/-- The type of a list of matches. -/
def matchesType : List Token := generic (word "Vec") [matchType]

/-- The type of a shared term. -/
def termType : List Token := generic (word "Arc") [word "Expr"]

/-- A function with its parameters, its result if it has one, and its body. -/
def functionTokens (name : String) (parameters : List Token) (result : Option (List Token))
    (body : List Token) : List Token :=
  word "fn" ++ word name ++ parens parameters
    ++ (match result with
      | some type => mark "->" ++ type
      | none => [])
    ++ braces body

/-- The function of a state. -/
def StateFunction.tokens (function : StateFunction) : List Token :=
  functionTokens function.name
    (separated true [typed "subjects" (refMut (word "Subjects")),
      typed "subst" (ref (word "Substitution")), typed "active" (ref (word "PatternSet")),
      typed "results" (refMut matchesType)])
    none (Statement.tokensOfAll function.body)

/-- The function that matches a term, and the functions of the states. -/
def MatcherFunction.tokens (function : MatcherFunction) : List Token :=
  (if function.isPublic then word "pub" else [])
    ++ functionTokens function.name (typed "subject" (ref termType))
      (some (generic (pathTokens ["std", "vec", "IntoIter"]) [matchType]))
      (letMut "results" matchesType (callPath ["Vec", "new"] [])
        ++ letTokens (words ["mut", "subjects"])
          (callPath ["Subjects", "new"] [callPath ["Arc", "clone"] [word "subject"]])
        ++ ended (callOf (word function.root)
          [refMut (word "subjects"), ref (callPath ["Substitution", "new"] []),
            ref (callPath ["PatternSet", "full"] [number function.patternCount]),
            refMut (word "results")])
        ++ method (word "results") "into_iter" [])
    ++ function.states.flatMap StateFunction.tokens

/-- A value of a type with named fields. -/
def recordTokens (type : String) (fields : List (String × List Token)) : List Token :=
  word type ++ braces (separated true (fields.map fun (name, value) => typed name value))

/-- A truth value. -/
def boolTokens (b : Bool) : List Token := word (if b then "true" else "false")

/-- A sequence variable in a table. -/
def SequenceEntry.tokens (entry : SequenceEntry) : List Token :=
  recordTokens "SequenceVariable" [
    ("name", optionTokens (entry.name.map fun name => callPath ["String", "from"] [literal name])),
    ("count", number entry.count), ("min_count", number entry.minCount),
    ("default", optionTokens (entry.default.map sharedExpression)),
    ("fixed", boolTokens entry.fixed), ("wrap", boolTokens entry.wrap)]

/-- A pattern in a table. -/
def PatternEntry.tokens (entry : PatternEntry) : List Token :=
  recordTokens "CommutativePattern" [
    ("operands", vecOf (entry.operands.map number)),
    ("sequence_vars", vecOf (entry.sequenceVars.map SequenceEntry.tokens))]

/-- The type of a static reference to its own type. -/
def staticSelf : List Token := mark "&" ++ [.mark '\'' true] ++ words ["static", "Self"]

/-- A reference to the value itself. -/
def refSelf : List Token := ref (word "self")

/-- A matcher type: the type, its only value, its implementation and its function. -/
def MatcherType.tokens (type : MatcherType) : List Token :=
  words ["struct", type.name]
    ++ braces (separated true [typed "patterns" (generic (word "Vec") [word "CommutativePattern"])])
    ++ words ["impl", type.name]
    ++ braces (functionTokens "get" [] (some staticSelf)
      (ended (word "static" ++ typed "INSTANCE" (generic (word "OnceLock") [word type.name])
          ++ mark "=" ++ callPath ["OnceLock", "new"] [])
        ++ method (word "INSTANCE") "get_or_init"
          [thunk (word type.name ++ braces
            (typed "patterns" (vecOf (type.table.map PatternEntry.tokens))))]))
    ++ words ["impl", "OperandMatcher", "for", type.name]
    ++ braces (functionTokens "head" refSelf (some (ref (word "Head"))) (ref (word type.head))
      ++ functionTokens "patterns" refSelf (some (ref (brackets (word "CommutativePattern"))))
        (refSelf ++ mark "." ++ word "patterns")
      ++ functionTokens "match_operand" (commas [refSelf, typed "operand" (ref termType)])
        (some matchesType)
        (method (callOf (word type.function.name) [word "operand"]) "collect" []))
    ++ type.function.tokens

/-- An item. -/
def Item.tokens : Item → List Token
  | head name value =>
    ended (word "static" ++ typed name (word "Head") ++ mark "=" ++ headTokens value)
  | expression name constructor =>
    ended (word "static" ++ typed name (generic (word "LazyLock") [termType]) ++ mark "="
      ++ callPath ["LazyLock", "new"] [thunk constructor.tokens])
  | matcher type => type.tokens

/-- An import of names. -/
def useTokens (source : List Token) (names : List Token) : List Token :=
  ended (word "use" ++ source ++ mark "::" ++ braces names)

namespace Module

/-- The attribute and the imports at the beginning of a module. -/
def preamble : List Token :=
  mark "#" ++ mark "!" ++ brackets (word "allow" ++ parens (commas [word "unused_imports",
      word "unused_variables", word "unused_mut", pathTokens ["clippy", "all"]]))
    ++ useTokens (pathTokens ["std", "sync"])
      (commas [word "Arc", word "LazyLock", word "OnceLock"])
    ++ useTokens (mark "::" ++ word "matchgen_expr")
      (commas [word "Expr", word "Head", word "OpKind", word "SymbolKind"])
    ++ useTokens (mark "::" ++ word "matchgen_runtime")
      (separated true [word "Binding", word "CommutativePattern", word "OperandMatcher",
        word "PatternSet", word "Predicate", word "SequenceVariable", word "Subjects",
        word "Substitution", word "match_commutative"])

/-- The tokens of a module. -/
def tokens (m : Module) : List Token :=
  preamble ++ m.items.flatMap Item.tokens ++ m.main.tokens

/-- **The text of a module.** -/
def text (m : Module) : String := printTokens m.tokens

end Module

end TermNet.Code
