import TermNet.Term.Basic
import TermNet.Sorting

namespace TermNet

/-!
# The text of terms

Sums and products of two or more arguments are written with an infix operator,
`x + y` and `2*x`; every other operation is written as a call, `f(x)` or
`AC::g(x, y)`; a symbol that is not plain carries its kind, `Dummy::d`.

* `Head.infix?` — the operator of a head that is written infix;
* `Term.text` — the text of a term.

An argument of a sum or product is parenthesised where reading would regroup it:
a sum inside either, a product inside a product.
-/

/-- The operator between the arguments of a sum or product. -/
def Head.infix? (head : Head) : Option String :=
  if head = .sum then some " + " else if head = .product then some "*" else none

/-- The qualifier of the kind in front of a name, with its separator. -/
def Head.qualified (head : Head) : String :=
  match head.kind with
  | .plain => head.name
  | kind => kind.qualifier ++ "::" ++ head.name

/-- A plain symbol is its name; other symbols carry their kind. -/
def Symbol.text (s : Symbol) : String :=
  match s.kind with
  | .plain => s.name
  | kind => kind.name ++ "::" ++ s.name

/-- A text in parentheses. -/
def parenthesized (text : String) : String := "(" ++ text ++ ")"

/-- Whether an argument with head `inner` has to be parenthesised in an infix
    operation with head `outer`. -/
def Head.regroupsIn (inner outer : Head) : Bool :=
  inner = .sum || (inner = .product && outer = .product)

namespace Term

mutual

/-- The text of a term. -/
def text : Term → String
  | .integer value => toString value.toInt
  | .symbol s => s.text
  | .node head args =>
    match head.infix?, args with
    | some operator, _ :: _ :: _ => joinWith operator (operandTexts head args)
    | _, _ => head.qualified ++ parenthesized (joinWith ", " (texts args))
termination_by structural t => t

/-- The texts of the arguments of a call. -/
def texts : List Term → List String
  | [] => []
  | t :: ts => text t :: texts ts
termination_by structural ts => ts

/-- The texts of the arguments of an infix operation. -/
def operandTexts (outer : Head) : List Term → List String
  | [] => []
  | t :: ts =>
    (match t with
      | .node inner _ => if inner.regroupsIn outer then parenthesized (text t) else text t
      | _ => text t) :: operandTexts outer ts
termination_by structural ts => ts

end

end Term

end TermNet
