import TermNet.Code.Generator

namespace TermNet

/-!
# Settings — where and how matchers are emitted

* `Settings` — the settings with their defaults;
* `Settings.ofEnvironment` — the settings of the environment.
-/

/-- Where and how matchers are emitted. -/
structure Settings where
  /-- The folder that modules are written to. -/
  outDir : String := "generated"
  /-- The name of the public function of each module. -/
  functionName : String := Code.defaultFunctionName
  /-- Whether a module ends with tests for the cases of its suite. -/
  emitTests : Bool := true
  /-- Whether written modules are to be formatted. -/
  formatOutput : Bool := false
deriving DecidableEq, Repr, Inhabited

/-- **The settings of the environment.**  Tests are left out if their variable is set
    at all; formatting is asked for by anything but `0`. -/
def Settings.ofEnvironment (variableOf : String → Option String) : Settings where
  outDir := (variableOf "MATCHGEN_OUT_DIR").getD "generated"
  functionName := (variableOf "MATCHGEN_FUNCTION").getD Code.defaultFunctionName
  emitTests := (variableOf "MATCHGEN_NO_TESTS").isNone
  formatOutput := (variableOf "MATCHGEN_RUSTFMT").any (· ≠ "0")

end TermNet
