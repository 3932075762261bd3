import TermNet.Script
import TermNet.Suite.Compilation

namespace TermNet

open TermNet.Source TermNet.Code

/-!
# Emitting suites as modules

Every suite becomes a file in the folder of the settings, and one more file declares
the modules of all of them.

* `Suite.testTokens` — the test module for the cases of a suite;
* `Suite.listing` — the comment with its patterns;
* `Suite.render` — the text of the emitted file;
* `Suite.emission` — writing the file of a suite;
* `emitAll` — writing the files of all suites.
-/

section Rendering

namespace Suite

/-- The first line of every emitted file. -/
def header : String := "// This file was automatically generated: DO NOT EDIT."

/-! ### Test modules -/

/-- An invocation with `!`, as a statement. -/
def invocation (name : String) (args : List (List Token)) : List Token :=
  ended (word name ++ mark "!" ++ parens (commas args))

/-- An attribute. -/
def attributeTokens (tokens : List Token) : List Token := mark "#" ++ brackets tokens

/-- A part of the first result. -/
def firstResult (part : Nat) : List Token :=
  word "results" ++ brackets (number 0) ++ mark "." ++ number part

/-- The check that a variable is bound to what is printed like this. -/
def bindingTest (name value : String) : List Token :=
  invocation "assert_eq" [
    method (method (method (word "subst") "get" [literal name]) "map"
      [pathTokens ["ToString", "to_string"]]) "as_deref" [],
    callOf (word "Some") [literal value]]

/-- The checks of a case whose subject is matched. -/
def matchTests (subject : String) (pattern : Nat) (bindings : List (String × String)) :
    List Token :=
  invocation "assert" [mark "!" ++ method (word "results") "is_empty" [],
      literal "\x7b\x7d should match", literal subject]
    ++ invocation "assert_eq" [firstResult 0, number pattern]
    ++ letTokens (word "subst") (ref (firstResult 1))
    ++ bindings.flatMap fun (name, value) => bindingTest name value

/-- The check of a case whose subject is not matched. -/
def noMatchTest (subject : String) : List Token :=
  invocation "assert" [method (word "results") "is_empty" [],
    literal "\x7b\x7d should not match, got \x7b:?\x7d", literal subject, word "results"]

/-- The checks of a case. -/
def caseChecks (suite : String) (case : Case) : Except SuiteError (List Token) :=
  match case.expect with
  | none => .ok (noMatchTest case.subject)
  | some expected =>
    (expected.renderedBindings suite).map (matchTests case.subject expected.pattern)

/-- The test of a case. -/
def caseTest (suite function : String) (position : Nat) (case : Case) :
    Except SuiteError (List Token) := do
  let subject ← Suite.subject suite case.subject
  let checks ← caseChecks suite case
  return attributeTokens (word "test")
    ++ functionTokens ("case_" ++ toString position) [] none
      (letTokens (word "subject") (Constructor.ofTerm subject).tokens
        ++ letTokens (typed "results" matchesType)
          (method (callOf (word function) [ref (word "subject")]) "collect" [])
        ++ checks)

/-- The tests of cases that stand from `position` on. -/
def caseTests (suite function : String) (position : Nat) :
    List Case → Except SuiteError (List Token)
  | [] => .ok []
  | case :: rest => do
    let test ← caseTest suite function position case
    return test ++ (← caseTests suite function (position + 1) rest)

/-- **The test module for the cases of a suite.** -/
def testTokens (suite : Suite) (function : String) : Except SuiteError (List Token) := do
  let tests ← caseTests suite.name function 0 suite.cases
  return attributeTokens (word "cfg" ++ parens (word "test")) ++ words ["mod", "tests"]
    ++ braces (ended (words ["use", "super"] ++ mark "::" ++ mark "*") ++ tests)

/-! ### Files -/

/-- The comment in front of a module: the header and the patterns. -/
def listing (suite : Suite) : String :=
  header ++ "\n//\n// Decision tree matching patterns:\n"
    ++ String.join (suite.patterns.zipIdx.map fun (spec, index) =>
      "//   " ++ toString index ++ ": " ++ spec.pattern ++ "\n")

/-- Whether the name of a suite can be that of a module. -/
def hasModuleName (suite : Suite) : Bool := (identifier? suite.name).isSome

/-- **The text of the emitted file:** the listing, the matcher, and the tests if they
    are asked for. -/
def render (suite : Suite) (settings : Settings) : Except SuiteError String := do
  if !suite.hasModuleName then throw (.invalidName suite.name)
  let compiled ← suite.compile settings
  let code := compiled.generated.code
  let matcher := suite.listing ++ "\n" ++ code.text ++ "\n"
  if settings.emitTests then
    let tests ← suite.testTokens code.main.name
    return matcher ++ "\n" ++ printTokens tests ++ "\n"
  else return matcher

end Suite

end Rendering

/-! ### Files -/

namespace Suite

/-- The path of the file of a suite. -/
def path (suite : Suite) (settings : Settings) : String :=
  Route.join settings.outDir (suite.name ++ ".rs")

/-- **Writing the file of a suite.** -/
def emission (settings : Settings) (suite : Suite) : Script :=
  match suite.render settings with
  | .error error => [.fail error]
  | .ok contents =>
    [.makeFolders settings.outDir, .write (suite.path settings) contents]
      ++ (if settings.formatOutput then [.format (suite.path settings)] else [])

/-- The declaration of the module of a suite. -/
def declaration (suite : Suite) : String := "pub mod " ++ suite.name ++ ";\n"

end Suite

/-- The path of the file that declares all modules. -/
def indexPath (settings : Settings) : String := Route.join settings.outDir "mod.rs"

/-- The file that declares all modules. -/
def indexText (suites : List Suite) : String :=
  Suite.header ++ "\n\n" ++ String.join (suites.map Suite.declaration)

/-- **Writing the files of all suites.** -/
def emitAll (suites : List Suite) (settings : Settings) : Script :=
  suites.flatMap (Suite.emission settings)
    ++ [.makeFolders settings.outDir, .write (indexPath settings) (indexText suites)]

/-- The paths of the files of all suites, the one that declares them last. -/
def emittedPaths (suites : List Suite) (settings : Settings) : List String :=
  suites.map (·.path settings) ++ [indexPath settings]

end TermNet
