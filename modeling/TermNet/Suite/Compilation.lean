import TermNet.Net.Insert
import TermNet.Pattern.Reading
import TermNet.Suite.Basic
import TermNet.Suite.Error
import TermNet.Settings

namespace TermNet

/-!
# Compiling suites

* `PatternSpec.compile` — the pattern of a text with its constraints;
* `Suite.compilePatterns` — all patterns of a suite;
* `Expectation.renderedBindings` — the expected bindings as they are printed;
* `Suite.compile` — the patterns, their net and the emitted module.
-/

/-- A constraint that is attached to a variable, read from its text. -/
def Pattern.withConstraintText (name : String) (pattern : Pattern) (text : String) :
    Except PatternError Pattern := do
  pattern.withConstraint name (← Constraint.parse text)

/-- A global constraint, read from its text. -/
def Pattern.withGlobalText (pattern : Pattern) (text : String) : Except PatternError Pattern := do
  pattern.withGlobal (← Constraint.parse text)

/-- **The pattern of a text with its constraints.** -/
def PatternSpec.compile (spec : PatternSpec) : Except PatternError Pattern := do
  let plain ← Pattern.parse spec.pattern
  let constrained ← spec.constraints.entries.foldlM
    (fun pattern (name, texts) => texts.foldlM (Pattern.withConstraintText name) pattern) plain
  spec.globals.foldlM Pattern.withGlobalText constrained

/-- The subject that a text of a suite stands for. -/
def Suite.subject (suite text : String) : Except SuiteError Term :=
  match Term.parse text with
  | .ok t => .ok t
  | .error cause => .error (.subject suite text cause)

/-- Whether an expected binding is a list, which is taken as it is written. -/
def isListText (text : String) : Bool :=
  (text.toList.dropWhile Text.isWhiteSpace).head? = some '['

/-- An expected binding as it is printed. -/
def renderedBinding (suite text : String) : Except SuiteError String :=
  if isListText text then .ok text else (Suite.subject suite text).map Term.text

/-- **The expected bindings** of a suite as they are printed. -/
def Expectation.renderedBindings (expectation : Expectation) (suite : String) :
    Except SuiteError (List (String × String)) :=
  expectation.bindings.entries.mapM fun (name, text) => do
    return (name, ← renderedBinding suite text)

namespace Suite

/-- All patterns of a suite. -/
def compilePatterns (suite : Suite) : Except SuiteError (List Pattern) :=
  suite.patterns.mapM fun spec =>
    match spec.compile with
    | .ok pattern => .ok pattern
    | .error cause => .error (.pattern suite.name spec.pattern cause)

/-- A suite whose matcher has been emitted. -/
structure Compiled where
  patterns : List Pattern
  net : Net
  generated : Code.GeneratedModule

/-- **The patterns of a suite, their net and the emitted module.** -/
def compile (suite : Suite) (settings : Settings) : Except SuiteError Compiled := do
  let patterns ← suite.compilePatterns
  let net := Net.ofPatterns patterns
  match Code.generate settings.functionName net with
  | .ok generated => return ⟨patterns, net, generated⟩
  | .error cause => throw (.code suite.name cause)

end Suite

end TermNet
