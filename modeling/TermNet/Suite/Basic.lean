import TermNet.Json.Value
import TermNet.NameMap

namespace TermNet

/-!
# Suites — patterns with cases that check them

* `PatternSpec` — a pattern and its constraints, as texts;
* `Expectation`, `Case` — a subject, and what is expected of its first match;
* `Suite` — a named list of patterns with cases;
* `Suite.ofJson?`, `Suite.toJson` — suites as they are kept in files.
-/

/-- A pattern and its constraints, as texts. -/
structure PatternSpec where
  pattern : String
  /-- The constraints that are attached to a variable, by its name. -/
  constraints : NameMap (List String) := .empty
  /-- The constraints that are checked once everything has matched. -/
  globals : List String := []
deriving DecidableEq, Inhabited

/-- What is expected of the first match. -/
structure Expectation where
  pattern : Nat
  /-- What some variables are bound to: an expression, or a list in brackets. -/
  bindings : NameMap String := .empty
deriving DecidableEq, Inhabited

/-- A subject, and the match that is expected first; none if nothing may match. -/
structure Case where
  subject : String
  expect : Option Expectation
deriving DecidableEq, Inhabited

/-- A named list of patterns with cases that check them. -/
structure Suite where
  /-- The name of the module of the emitted matcher. -/
  name : String
  patterns : List PatternSpec
  cases : List Case := []
deriving DecidableEq, Inhabited

/-! ### Suites in files -/

/-- A pattern from its fields. -/
def PatternSpec.ofJson? (json : Json) : Option PatternSpec := do
  let record ← json.record? ["pattern", "constraints", "global"]
  let pattern ← record.required? "pattern" Json.text?
  let constraints ← record.field? "constraints" (Json.fieldsOf? (Json.listOf? Json.text?)) []
  let globals ← record.field? "global" (Json.listOf? Json.text?) []
  return { pattern, constraints := .ofList constraints, globals }

/-- An expectation from its fields. -/
def Expectation.ofJson? (json : Json) : Option Expectation := do
  let record ← json.record? ["pattern", "bindings"]
  let pattern ← record.required? "pattern" Json.natural?
  let bindings ← record.field? "bindings" (Json.fieldsOf? Json.text?) []
  return { pattern, bindings := .ofList bindings }

/-- A case from its fields. -/
def Case.ofJson? (json : Json) : Option Case := do
  let record ← json.record? ["subject", "expect"]
  let subject ← record.required? "subject" Json.text?
  let expect ← record.nullable? "expect" Expectation.ofJson?
  return { subject, expect }

/-- **A suite from its fields.** -/
def Suite.ofJson? (json : Json) : Option Suite := do
  let record ← json.record? ["name", "patterns", "cases"]
  let name ← record.required? "name" Json.text?
  let patterns ← record.required? "patterns" (Json.listOf? PatternSpec.ofJson?)
  let cases ← record.field? "cases" (Json.listOf? Case.ofJson?) []
  return { name, patterns, cases }

/-- A list of strings. -/
def jsonTexts (texts : List String) : Json := .list (texts.map .string)

/-- A map by name. -/
def jsonMap {α : Type} (value : α → Json) (map : NameMap α) : Json :=
  .object (map.entries.map fun (name, a) => (some name, value a))

/-- The fields of a pattern; constraints are left out where there are none. -/
def PatternSpec.toJson (spec : PatternSpec) : Json :=
  .object ([(some "pattern", .string spec.pattern)]
    ++ (if spec.constraints.entries.isEmpty then []
      else [(some "constraints", jsonMap jsonTexts spec.constraints)])
    ++ (if spec.globals.isEmpty then [] else [(some "global", jsonTexts spec.globals)]))

/-- The fields of an expectation. -/
def Expectation.toJson (expectation : Expectation) : Json :=
  .object [(some "pattern", .number (toString expectation.pattern)),
    (some "bindings", jsonMap .string expectation.bindings)]

/-- The fields of a case. -/
def Case.toJson (case : Case) : Json :=
  .object [(some "subject", .string case.subject),
    (some "expect", (case.expect.map Expectation.toJson).getD .null)]

/-- **The fields of a suite.** -/
def Suite.toJson (suite : Suite) : Json :=
  .object [(some "name", .string suite.name),
    (some "patterns", .list (suite.patterns.map PatternSpec.toJson)),
    (some "cases", .list (suite.cases.map Case.toJson))]

end TermNet
