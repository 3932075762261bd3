import TermNet.Json.Value
import TermNet.Json.Reader
import TermNet.Script
import TermNet.Suite.Basic

namespace TermNet

/-!
# Suites in files, and those that come with the program

A suite is kept as JSON in a file of its own.

* `Suite.builtin` — plain symbols, powers, an optional wildcard in a sum, and optional
  operands of sums within other operations;
* `Suite.operators` — a suite with a pattern of every kind;
* `Suite.ofValue`, `Suite.ofText`, `Suite.load`, `Suite.loadAll` — the suites of files;
* `Suite.saving` — writing a suite to a file.
-/

namespace Case

/-- A case whose first match is of this pattern, with these bindings. -/
def matching (subject : String) (pattern : Nat) (bindings : List (String × String)) : Case :=
  ⟨subject, some ⟨pattern, .ofList bindings⟩⟩

/-- A case that nothing matches. -/
def failing (subject : String) : Case := ⟨subject, none⟩

end Case

namespace Suite

/-- A suite of patterns without constraints. -/
def plain (name : String) (patterns : List String) (cases : List Case) : Suite :=
  ⟨name, patterns.map fun pattern => { pattern }, cases⟩

/-- The suites that come with the program. -/
def builtin : List Suite := [
  plain "case_001" ["x"] [.matching "x" 0 [], .failing "y"],
  plain "case_002" ["Pow(x, y)"] [.matching "Pow(x, y)" 0 [], .failing "Pow(x, z)"],
  plain "case_003" ["Pow(x, y)", "w_"] [
    .matching "Pow(x, y)" 0 [],
    .matching "x" 1 [("w", "x")],
    .matching "x + y" 1 [("w", "x + y")]],
  plain "case_004" ["x + y", "Pow(x, 2)"] [
    .matching "y + x" 0 [],
    .matching "Pow(x, 2)" 1 [],
    .failing "Pow(x, 3)"],
  plain "case_005" ["Pow(x, w_)"] [
    .failing "y + x",
    .matching "Pow(x, 2)" 0 [("w", "2")],
    .matching "Pow(x, 3)" 0 [("w", "3")]],
  plain "case_006" ["Pow(x, x + Optional(w_, 0))", "x + y + Optional(w_, 0)", "Pow(w_, 1 - x*w_)"] [
    .matching "y + x" 1 [("w", "0")],
    .failing "Pow(x, 2)",
    .matching "Pow(x, y + x)" 0 [("w", "y")],
    .matching "Pow(x, 2 + x)" 0 [("w", "2")]]]

/-- A suite with a pattern of every kind. -/
def operators : Suite where
  name := "operators"
  patterns := [
    { pattern := "f(x_, y_)", globals := ["NotEqual(x, y)"] },
    { pattern := "Pow(x_, n_)", constraints := .ofList [("n", ["IsInteger(n)"])] },
    { pattern := "x_*Pow(x_, n_)" },
    { pattern := "Comm::g(x_, Optional(w_, 0))" },
    { pattern := "Assoc::h(x__, c)" },
    { pattern := "x__ + a" },
    { pattern := "Sym(s_, Dummy) + y___" },
    { pattern := "f(a, b__, c)" },
    { pattern := "Optional(w_, 1)*x_" },
    { pattern := "x_ + y_ + z___" }]
  cases := [
    .matching "Pow(a, 2)" 1 [("x", "a"), ("n", "2")],
    .failing "Pow(a, b)",
    .failing "f(a, a)",
    .matching "Comm::g(b)" 3 [("w", "0"), ("x", "b")],
    .matching "Assoc::h(a, b, c)" 4 [("x", "Assoc::h(a, b)")],
    .matching "f(a, b, b, c)" 7 [("b", "[b, b]")]]

end Suite

/-! ### Files -/

/-- The suite of a value, which comes from a file or from elsewhere. -/
def Suite.ofValue (path : Option String) (json : Json) : Except SuiteError Suite :=
  match Suite.ofJson? json with
  | some suite => .ok suite
  | none => .error (.notASuite path)

/-- The suite of a text that was read from a path. -/
def Suite.ofText (path text : String) : Except SuiteError Suite :=
  match Json.parse? text with
  | some json => Suite.ofValue (some path) json
  | none => .error (.notASuite (some path))

/-- The suite in a file. -/
def Suite.load (read? : String → Option String) (path : String) : Except SuiteError Suite :=
  match read? path with
  | some text => Suite.ofText path text
  | none => .error (.io path)

/-- The suites in files, and the reference suites if they are wanted. -/
def Suite.loadAll (read? : String → Option String) (paths : List String) (builtin : Bool) :
    Except SuiteError (List Suite) := do
  let suites ← paths.mapM (Suite.load read?)
  return if builtin then suites ++ Suite.builtin else suites

/-- The text of the file of a suite. -/
def Suite.fileText (suite : Suite) : String := suite.toJson.pretty ""

/-- Writing a suite to a file. -/
def Suite.saving (path : String) (suite : Suite) : Script := [.write path suite.fileText]

end TermNet
