import TermNet.Term.Canonical

namespace TermNet.Code

/-!
# Constructors — code that builds a term

* `HeadSource`, `Constructor` — nested calls that build a term;
* `Constructor.ofTerm` — the calls for a term, with every head in place;
* `Constructor.value?` — what the calls build.
-/

/-- Where the head of an operation is taken from. -/
inductive HeadSource where
  /-- A static item of the module. -/
  | shared (name : String)
  /-- The head itself. -/
  | inPlace (head : Head)
deriving DecidableEq, Repr, Inhabited

/-- Calls that build a term.  A negative integer is a sign and a magnitude. -/
inductive Constructor where
  | integer (negative : Bool) (magnitude : Nat)
  | symbol (symbol : Symbol)
  | operation (head : HeadSource) (args : List Constructor)
deriving Repr, Inhabited

/-- The head that a source stands for, given the static items. -/
def HeadSource.head? (heads : String → Option Head) : HeadSource → Option Head
  | shared name => heads name
  | inPlace head => some head

namespace Constructor

/-- The calls for an integer. -/
def ofInteger (value : Int64) : Constructor := integer (value < 0) value.toInt.natAbs

mutual

/-- **The calls for a term,** with every head in place. -/
def ofTerm : Term → Constructor
  | .integer value => ofInteger value
  | .symbol s => .symbol s
  | .node head args => .operation (.inPlace head) (ofTerms args)
termination_by structural t => t

/-- The calls for the terms of a list. -/
def ofTerms : List Term → List Constructor
  | [] => []
  | t :: ts => ofTerm t :: ofTerms ts
termination_by structural ts => ts

end

mutual

/-- **What the calls build,** given the heads of the static items. -/
def value? (heads : String → Option Head) : Constructor → Option Term
  | .integer negative magnitude =>
    some (.integer (Int64.ofInt (if negative then -magnitude else magnitude)))
  | .symbol s => some (.symbol s)
  | .operation source args =>
    match source.head? heads, values? heads args with
    | some head, some ts => some (.build head ts)
    | _, _ => none
termination_by structural c => c

/-- What the calls of a list build. -/
def values? (heads : String → Option Head) : List Constructor → Option (List Term)
  | [] => some []
  | c :: cs =>
    match value? heads c, values? heads cs with
    | some t, some ts => some (t :: ts)
    | _, _ => none
termination_by structural cs => cs

end

end Constructor

end TermNet.Code
