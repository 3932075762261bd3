namespace TermNet

/-!
# Terms — integers, symbols and operations

The expressions that patterns are matched against.

* `SymbolKind`, `OpKind` — the subtypes of symbols and the algebraic kinds of
  operations;
* `Head` — the name of an operation together with its kind;
* `Term` — trees of integers, symbols and operations;
* `Term.contains`, `Term.size`, `Term.subterms` — walks over a term.

A head's kind says which rearrangements of the arguments leave a term the same:
regrouping for associative heads, reordering for commutative ones.  The terms
that stand for all their rearrangements are built in `TermNet.Term.Canonical`.
-/

/-- Subtype of a symbol.  A symbol wildcard only accepts symbols of its own kind. -/
inductive SymbolKind where
  | plain
  | dummy
  | constant
deriving DecidableEq, Repr, Inhabited

namespace SymbolKind

/-- The kind as it is written in front of a symbol. -/
def name : SymbolKind → String
  | plain => "Plain"
  | dummy => "Dummy"
  | constant => "Constant"

/-- The kind with exactly this name. -/
def ofName? : String → Option SymbolKind
  | "Plain" => some plain
  | "Dummy" => some dummy
  | "Constant" => some constant
  | _ => none

/-- Position of the kind in the order of terms. -/
def rank : SymbolKind → Nat
  | plain => 0
  | dummy => 1
  | constant => 2

/-- Reading a written kind gives that kind. -/
@[simp] theorem ofName?_name (kind : SymbolKind) : ofName? kind.name = some kind := by
  cases kind <;> rfl

end SymbolKind

/-- Algebraic kind of an operation. -/
inductive OpKind where
  /-- The arguments stand in order. -/
  | plain
  /-- Nested operations of one head may be regrouped; the order matters. -/
  | associative
  /-- The order of the arguments does not matter. -/
  | commutative
  /-- Neither grouping nor order matters. -/
  | associativeCommutative
deriving DecidableEq, Repr, Inhabited

namespace OpKind

/-- Whether nested operations of one head may be regrouped. -/
def isAssociative : OpKind → Bool
  | associative | associativeCommutative => true
  | plain | commutative => false

/-- Whether the order of the arguments does not matter. -/
def isCommutative : OpKind → Bool
  | commutative | associativeCommutative => true
  | plain | associative => false

/-- The kind's full name. -/
def name : OpKind → String
  | plain => "Plain"
  | associative => "Associative"
  | commutative => "Commutative"
  | associativeCommutative => "AssociativeCommutative"

/-- The kind with exactly this full name. -/
def ofName? : String → Option OpKind
  | "Plain" => some plain
  | "Associative" => some associative
  | "Commutative" => some commutative
  | "AssociativeCommutative" => some associativeCommutative
  | _ => none

/-- The qualifier written in front of an operation of this kind, empty for plain ones. -/
def qualifier : OpKind → String
  | plain => ""
  | associative => "Assoc"
  | commutative => "Comm"
  | associativeCommutative => "AC"

/-- The kind with this qualifier; plain operations are written without one. -/
def ofQualifier? : String → Option OpKind
  | "Assoc" => some associative
  | "Comm" => some commutative
  | "AC" => some associativeCommutative
  | _ => none

/-- Position of the kind in the order of terms. -/
def rank : OpKind → Nat
  | plain => 0
  | associative => 1
  | commutative => 2
  | associativeCommutative => 3

/-- Reading a full name gives that kind. -/
@[simp] theorem ofName?_name (kind : OpKind) : ofName? kind.name = some kind := by
  cases kind <;> rfl

end OpKind

/-- The name of an operation and its kind.  Heads differ if either differs. -/
structure Head where
  name : String
  kind : OpKind
deriving DecidableEq, Repr, Inhabited

namespace Head

/-- Sums, written `a + b`. -/
def sum : Head := ⟨"Add", .associativeCommutative⟩

/-- Products, written `a*b`. -/
def product : Head := ⟨"Mul", .associativeCommutative⟩

/-- Powers, written `Pow(a, b)`. -/
def power : Head := ⟨"Pow", .plain⟩

/-- Whether nested operations of this head may be regrouped. -/
def isAssociative (head : Head) : Bool := head.kind.isAssociative

/-- Whether the order of the arguments does not matter. -/
def isCommutative (head : Head) : Bool := head.kind.isCommutative

end Head

/-- A name of some kind. -/
structure Symbol where
  name : String
  kind : SymbolKind := .plain
deriving DecidableEq, Repr, Inhabited

/-- Symbolic expressions. -/
inductive Term where
  | integer (value : Int64)
  | symbol (symbol : Symbol)
  | node (head : Head) (args : List Term)
deriving Repr, Inhabited

namespace Term

/-! ### Equality -/

mutual

/-- Terms are equal if they have the same shape, heads and leaves. -/
def decideEq : (s t : Term) → Decidable (s = t)
  | .integer a, .integer b => decidable_of_iff (a = b) (by simp)
  | .symbol a, .symbol b => decidable_of_iff (a = b) (by simp)
  | .node h as, .node k bs =>
    if heads : h = k then
      match decideEqAll as bs with
      | isTrue args => isTrue (by simp [heads, args])
      | isFalse args => isFalse (by simp [args])
    else isFalse (by simp [heads])
  | .integer _, .symbol _ | .integer _, .node .. | .symbol _, .integer _
  | .symbol _, .node .. | .node .., .integer _ | .node .., .symbol _ => isFalse nofun
termination_by structural s => s

/-- Argument lists are equal if they are so element by element. -/
def decideEqAll : (ss ts : List Term) → Decidable (ss = ts)
  | [], [] => isTrue rfl
  | s :: ss, t :: ts =>
    match decideEq s t with
    | isTrue first =>
      match decideEqAll ss ts with
      | isTrue rest => isTrue (by simp [first, rest])
      | isFalse rest => isFalse (by simp [rest])
    | isFalse first => isFalse (by simp [first])
  | [], _ :: _ | _ :: _, [] => isFalse nofun
termination_by structural ss => ss

end

instance : DecidableEq Term := decideEq

/-! ### Parts of a term -/

/-- The head of an operation. -/
def head? : Term → Option Head
  | node head _ => some head
  | _ => none

/-- The arguments of an operation, none for other terms. -/
def args : Term → List Term
  | node _ args => args
  | _ => []

/-- The symbol that a term is. -/
def symbol? : Term → Option Symbol
  | symbol s => some s
  | _ => none

/-- The integer that a term is. -/
def integer? : Term → Option Int64
  | integer value => some value
  | _ => none

/-- Whether the term is an integer or a symbol. -/
def isAtom (t : Term) : Bool := t.head?.isNone

/-- Whether the term is an operation with this head. -/
def hasHead (t : Term) (head : Head) : Bool := t.head? = some head

/-- Whether the term is a symbol of this kind. -/
def isSymbolOf (t : Term) (kind : SymbolKind) : Bool :=
  match t.symbol? with
  | some s => s.kind = kind
  | none => false

/-! ### Walks -/

mutual

/-- Number of nodes. -/
def size : Term → Nat
  | .node _ args => 1 + sizeAll args
  | .integer _ | .symbol _ => 1
termination_by structural t => t

/-- Number of nodes of all terms of a list. -/
def sizeAll : List Term → Nat
  | [] => 0
  | t :: ts => size t + sizeAll ts
termination_by structural ts => ts

end

mutual

/-- Whether `part` is a term or occurs in its arguments. -/
def occursIn (part : Term) : Term → Bool
  | .node head args => .node head args = part || occursInSome part args
  | t => t = part
termination_by structural t => t

/-- Whether `part` occurs in some term of a list. -/
def occursInSome (part : Term) : List Term → Bool
  | [] => false
  | t :: ts => occursIn part t || occursInSome part ts
termination_by structural ts => ts

end

/-- Whether `part` occurs in the term, be it as the whole term. -/
def contains (t part : Term) : Bool := part.occursIn t

mutual

/-- All subterms, every term in front of its arguments. -/
def subterms : Term → List Term
  | .node head args => .node head args :: subtermsAll args
  | t => [t]
termination_by structural t => t

/-- The subterms of all terms of a list, in order. -/
def subtermsAll : List Term → List Term
  | [] => []
  | t :: ts => subterms t ++ subtermsAll ts
termination_by structural ts => ts

end

end Term

end TermNet
