import TermNet.Code.Generator
import TermNet.Pattern.Error

namespace TermNet

/-!
# What can go wrong with suites

* `SuiteError` — the causes;
* `SuiteError.message?` — their wording, where it does not depend on a cause that is
  explained elsewhere.
-/

/-- Why a suite cannot be read, compiled, emitted or verified. -/
inductive SuiteError where
  /-- A file or folder cannot be read or written. -/
  | io (path : String)
  /-- A text is no suite. -/
  | notASuite (path : Option String)
  /-- A pattern or one of its constraints is wrong. -/
  | pattern (suite pattern : String) (cause : PatternError)
  /-- A subject or an expected binding is no expression. -/
  | subject (suite text : String) (cause : PatternError)
  /-- The matcher cannot be emitted. -/
  | code (suite : String) (cause : Code.CodeError)
  /-- The name is that of no module. -/
  | invalidName (name : String)
  /-- Some cases failed. -/
  | verification (suite : String) (cases failures : Nat) (details : String)
deriving Repr, Inhabited

/-- The wording for a matcher that cannot be emitted. -/
def Code.CodeError.message? : Code.CodeError → Option String
  | reservedFunctionName name => some (Code.reservedMessage name)
  | _ => none

namespace SuiteError

/-- The beginning of what is told about a suite. -/
def about (suite : String) : String := "Suite `" ++ suite ++ "`: "

/-- The wording of the error. -/
def message? : SuiteError → Option String
  | io _ | notASuite _ => none
  | pattern suite text cause =>
    cause.message?.map fun message => about suite ++ "pattern `" ++ text ++ "`: " ++ message
  | subject suite text cause =>
    cause.message?.map fun message => about suite ++ "expression `" ++ text ++ "`: " ++ message
  | code suite cause => cause.message?.map fun message => about suite ++ message
  | invalidName name => some ("Suite name `" ++ name ++ "` is not a Rust identifier")
  | verification suite cases failures details =>
    some (about suite ++ toString failures ++ " of " ++ toString cases ++ " cases failed:\n"
      ++ details)

end SuiteError

end TermNet
