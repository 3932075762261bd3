import TermNet.Net.Match
import TermNet.Suite.Compilation

namespace TermNet

/-!
# Verifying suites

The first match of every subject is compared with what its case expects.  Expected
bindings are compared as they are printed.

* `Failure`, `Report` — what has failed, and all of it;
* `Suite.mismatch?` — what is wrong with the matches of a case;
* `Suite.verify` — the report on a suite;
* `Report.toResult` — a report without failures, or an error.
-/

/-- A case whose first match is not what it expects. -/
structure Failure where
  subject : String
  reason : String
deriving DecidableEq, Repr, Inhabited

/-- The text of a failure. -/
def Failure.text (failure : Failure) : String := failure.subject ++ ": " ++ failure.reason

/-- What has failed in a suite. -/
structure Report where
  suite : String
  /-- Number of cases. -/
  cases : Nat
  failures : List Failure
deriving DecidableEq, Repr, Inhabited

namespace Report

/-- Whether no case has failed. -/
def isSuccess (report : Report) : Bool := report.failures.isEmpty

/-- The report if no case has failed, an error with all failures otherwise. -/
def toResult (report : Report) : Except SuiteError Report :=
  if report.isSuccess then .ok report
  else .error (.verification report.suite report.cases report.failures.length
    (joinWith "\n" (report.failures.map fun failure => "  " ++ failure.text)))

end Report

namespace Suite

/-- The first expected binding that the substitution does not have. -/
def bindingMismatch? (subst : Substitution) : List (String × String) → Option String
  | [] => none
  | (name, value) :: rest =>
    let actual := (subst.find? name).map Binding.text
    if actual = some value then bindingMismatch? subst rest
    else some ("expected `" ++ name ++ "` bound to " ++ value ++ ", got " ++ actual.getD "nothing")

/-- What is wrong with the matches of a case, if anything. -/
def mismatch? (suite : String) (case : Case) (found : List Match) :
    Except SuiteError (Option String) :=
  match case.expect, found with
  | none, [] => .ok none
  | none, (index, subst) :: _ =>
    .ok (some ("expected no match, got " ++ toString found.length
      ++ " results starting with pattern " ++ toString index ++ " " ++ subst.text))
  | some expected, [] =>
    .ok (some ("expected a match of pattern " ++ toString expected.pattern ++ ", got none"))
  | some expected, (index, subst) :: _ =>
    if index = expected.pattern then
      (expected.renderedBindings suite).map (bindingMismatch? subst)
    else
      .ok (some ("expected pattern " ++ toString expected.pattern ++ " first, got pattern "
        ++ toString index ++ " " ++ subst.text))

/-- Check the cases of a list one after the other. -/
def checkCases (suite : String) (net : Net) : List Case → Except SuiteError (List Failure)
  | [] => .ok []
  | case :: rest => do
    let subject ← Suite.subject suite case.subject
    let reason ← mismatch? suite case (net.matches subject)
    let failures ← checkCases suite net rest
    return (reason.map fun reason => ⟨case.subject, reason⟩).toList ++ failures

/-- **The report on a suite.** -/
def verify (suite : Suite) : Except SuiteError Report := do
  let patterns ← suite.compilePatterns
  let failures ← checkCases suite.name (Net.ofPatterns patterns) suite.cases
  return ⟨suite.name, suite.cases.length, failures⟩

end Suite

end TermNet
