import TermNet.Sorting
import TermNet.Term.Basic

namespace TermNet

/-!
# The order of terms, and canonical construction of operations

Integers come before symbols and symbols before operations.  Integers compare by
value; symbols by name, then kind; operations by name, then kind, then their
arguments as words are compared in a dictionary.  Names compare by code points.

* `Term.compare` — the comparison;
* `Term.le` — the order in which commutative arguments are kept.

Two operations that differ only in the grouping of associative arguments or in
the order of commutative ones are built as the same term, so that equality of
terms is equality up to such rearrangements.

* `Term.splice head args` — arguments with the same associative head are
  replaced by their own arguments;
* `Term.build head args` — splice, then sort if the head is commutative;
* `Term.rewrap head args` — one node for a run of arguments, except that a
  single argument stands for itself.
-/

/-- By name, then by kind. -/
def Head.compare (h k : Head) : Ordering :=
  (Ord.compare h.name k.name).then (Ord.compare h.kind.rank k.kind.rank)

/-- By name, then by kind. -/
def Symbol.compare (a b : Symbol) : Ordering :=
  (Ord.compare a.name b.name).then (Ord.compare a.kind.rank b.kind.rank)

namespace Term

mutual

/-- Integers, symbols, operations; within a class by its parts. -/
def compare : Term → Term → Ordering
  | .integer a, .integer b => Ord.compare a b
  | .integer _, .symbol _ | .integer _, .node .. => .lt
  | .symbol _, .integer _ => .gt
  | .symbol a, .symbol b => a.compare b
  | .symbol _, .node .. => .lt
  | .node .., .integer _ | .node .., .symbol _ => .gt
  | .node h as, .node k bs => (h.compare k).then (compareAll as bs)
termination_by structural t => t

/-- The first difference decides; a list precedes its continuations. -/
def compareAll : List Term → List Term → Ordering
  | [], [] => .eq
  | [], _ :: _ => .lt
  | _ :: _, [] => .gt
  | a :: as, b :: bs => (compare a b).then (compareAll as bs)
termination_by structural ts => ts

end

/-- Whether `s` may precede `t` among commutative arguments. -/
def le (s t : Term) : Bool := (s.compare t).isLE

end Term

/-! ### Canonical construction -/

namespace Term

/-- The arguments that an argument contributes under `head`: its own ones if it
    has the same associative head, itself otherwise. -/
def spliced (head : Head) : Term → List Term
  | node inner args => if head.isAssociative && inner = head then args else [node inner args]
  | t => [t]

/-- Replace arguments with the same associative head by their own arguments. -/
def splice (head : Head) (args : List Term) : List Term := args.flatMap (spliced head)

/-- Put the arguments of a commutative head in order. -/
def arrange (head : Head) (args : List Term) : List Term :=
  if head.isCommutative then sortBy le args else args

/-- **The canonical operation** with this head and these arguments. -/
def build (head : Head) (args : List Term) : Term :=
  node head (arrange head (splice head args))

/-- One term for a run of arguments of `head`; a single argument stands for itself. -/
def rewrap (head : Head) : List Term → Term
  | [single] => single
  | args => build head args

/-- The canonical sum. -/
def sum (args : List Term) : Term := build .sum args

/-- The canonical product. -/
def product (args : List Term) : Term := build .product args

/-- The power of `base` to `exponent`. -/
def power (base exponent : Term) : Term := build .power [base, exponent]

/-- The plain operation named `name`. -/
def function (name : String) (args : List Term) : Term := build ⟨name, .plain⟩ args

/-- The plain symbol named `name`. -/
def ofName (name : String) : Term := symbol ⟨name, .plain⟩

end Term

end TermNet
