import TermNet.Net.Basic

namespace TermNet

/-!
# The text of nets

A line per state with its number, a line per edge below it, and then the matchers
with their operands, their patterns and, indented behind a bar, their nets.

* `Label.text` — the text of a label;
* `Net.text` — the text of a net.
-/

/-- The text behind a sign, if there is one. -/
def signed (sign : String) (text : Option String) : String :=
  match text with
  | some text => sign ++ text
  | none => ""

/-- A label: the first sign tells what is consumed, `:` a kind of symbols, `@` the
    head of a run, `=` a default. -/
def Label.text : Label → String
  | enter head => head.name ++ "("
  | atom t => t.text
  | one kind default =>
    "_" ++ signed ":" (kind.map SymbolKind.name) ++ signed "=" (default.map Term.text)
  | run minCount wrap default =>
    "_\x7b" ++ toString minCount ++ ",\x7d" ++ signed "@" (wrap.map Head.name)
      ++ signed "=" (default.map Term.text)
  | close => ")"
  | commutative head => head.name ++ "\x7b..\x7d"
  | operands index => "#" ++ toString index

/-- The line of an edge. -/
def Edge.line (edge : Edge) : String :=
  "  " ++ edge.label.text ++ signed " as " edge.variableName ++ " -> " ++ stateLabel edge.id
    ++ (if edge.constraints.isEmpty then ""
      else " if " ++ joinWith ", " (edge.constraints.map constraintLabel)) ++ "\n"

/-- What is written behind the number of a state. -/
def State.caption : State → String
  | branch _ => ""
  | commutative matcher _ => " matcher " ++ toString matcher
  | accept markers => " accept [" ++ joinWith ", " (markers.map fun m => toString m.pattern) ++ "]"

/-- The lines of a state. -/
def State.lines (id : StateId) (state : State) : String :=
  stateLabel id ++ ":" ++ state.caption ++ "\n" ++ String.join (state.edges.map Edge.line)

/-- The line of an operand pattern. -/
def OperandPattern.line (position : Nat) (operand : OperandPattern) : String :=
  "  operand " ++ toString position ++ ": " ++ operand.tree.text ++ "\n"

/-- The line of a commutative pattern. -/
def CommutativePattern.line (position : Nat) (pattern : CommutativePattern) : String :=
  "  #" ++ toString position ++ ": [" ++ joinWith ", " (pattern.operands.map toString) ++ "] + ["
    ++ joinWith ", " (pattern.sequenceVars.map fun var => var.name.getD "_") ++ "]\n"

/-- The lines of a text, without the ends of lines. -/
def textLines (text : String) : List String :=
  let trimmed := fun line : List Char => match line.reverse with
    | '\r' :: rest => rest.reverse
    | _ => line
  let pieces := text.toList.splitOn '\n'
  let lines := if pieces.getLast? = some [] then pieces.dropLast.map trimmed
    else pieces.dropLast.map trimmed ++ pieces.getLast?.toList
  lines.map String.ofList

/-- A text with every line indented behind a bar. -/
def barred (text : String) : String :=
  String.join ((textLines text).map fun line => "  | " ++ line ++ "\n")

mutual

/-- **The text of a net.** -/
def Net.text : Net → String
  | ⟨root, count, registry, matchers, patterns⟩ =>
    String.join ((Net.states ⟨root, count, registry, matchers, patterns⟩).map
        fun (id, state) => state.lines id)
      ++ CommutativeMatcher.textsFrom 0 matchers
termination_by structural net => net

/-- The text of a matcher. -/
def CommutativeMatcher.text (position : Nat) : CommutativeMatcher → String
  | ⟨head, net, operands, patterns⟩ =>
    "matcher " ++ toString position ++ " (" ++ head.name ++ "):\n"
      ++ String.join (operands.zipIdx.map fun (operand, i) => operand.line i)
      ++ String.join (patterns.zipIdx.map fun (pattern, i) => pattern.line i)
      ++ barred (Net.text net)
termination_by structural matcher => matcher

/-- The texts of matchers that stand from `position` on. -/
def CommutativeMatcher.textsFrom (position : Nat) : List CommutativeMatcher → String
  | [] => ""
  | matcher :: rest =>
    CommutativeMatcher.text position matcher ++ CommutativeMatcher.textsFrom (position + 1) rest
termination_by structural matchers => matchers

end

end TermNet
