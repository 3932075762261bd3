import TermNet.Substitution
import TermNet.Bipartite
import TermNet.Partition

namespace TermNet

/-!
# Matching the arguments of commutative operations

A commutative pattern is a multiset of operand patterns together with sequence
variables.  Operands are matched one argument at a time; the fitting pairs form
a bipartite graph, every complete matching of which assigns arguments to
operands.  The arguments that are left over go to the sequence variables.

* `CommutativePattern`, `OperandMatcher` — what is matched, and how one argument
  is matched against the operands;
* `matchCommutative` — all matches of an argument list.
-/

/-- The arguments of one commutative pattern. -/
structure CommutativePattern where
  /-- Indices of operand patterns, in increasing order. -/
  operands : List Nat := []
  sequenceVars : List SequenceVariable := []
deriving DecidableEq, Repr, Inhabited

/-- How the arguments of operations with one head are matched. -/
structure OperandMatcher where
  /-- The head of the operations. -/
  head : Head
  /-- The commutative patterns, addressed by position. -/
  patterns : List CommutativePattern
  /-- All matches of one argument: the operand's index and the substitution. -/
  matchOperand : Term → List (Nat × Substitution)

namespace CommutativePattern

/-- The binding of a sequence variable that takes `run`. -/
def runBinding (head : Head) (var : SequenceVariable) (run : List Term) : Binding :=
  match var.default, run with
  | some default, [] => .single default
  | _, [] => .sequence []
  | _, run => if var.wrap || var.fixed then .single (.rewrap head run) else .sequence run

/-- Bind the named sequence variables to their parts of a partition. -/
def bindVariables? (head : Head) (subst : Substitution) (vars : List SequenceVariable)
    (partition : List (List Term)) : Option Substitution :=
  subst.bindAll? ((vars.zip partition).filterMap fun (var, run) =>
    var.name.map fun name => (name, runBinding head var run))

/-- The substitutions with which an argument, given its matches, fits an operand. -/
def fits (operand : Nat) (found : List (Nat × Substitution)) : List Substitution :=
  found.filterMap fun (index, subst) => if index = operand then some subst else none

/-- The graph of slots and arguments, given the matches of each argument. -/
def slotGraph (pattern : CommutativePattern) (found : List (List (Nat × Substitution))) :
    Bipartite (List Substitution) where
  right := found.length
  rows := pattern.operands.map fun operand =>
    found.zipIdx.filterMap fun (ways, argument) =>
      match fits operand ways with
      | [] => none
      | fitting => some (argument, fitting)

/-- Extend `subst` by one way to fit the assigned argument into each slot. -/
def unionSlots (graph : Bipartite (List Substitution)) (assignment : List Nat)
    (subst : Substitution) : List Substitution :=
  assignment.zipIdx.foldl
    (fun partials (argument, slot) =>
      partials.flatMap fun union => ((graph.edge? slot argument).getD []).filterMap union.union?)
    [subst]

/-- The arguments that an assignment does not use. -/
def leftover (arguments : List Term) (assignment : List Nat) : List Term :=
  arguments.zipIdx.filterMap fun (argument, position) =>
    if assignment.contains position then none else some argument

/-- All matches of a pattern on sorted arguments, given the matches of each of them. -/
def matchSorted (pattern : CommutativePattern) (head : Head) (arguments : List Term)
    (found : List (List (Nat × Substitution))) (subst : Substitution) : List Substitution :=
  let graph := pattern.slotGraph found
  let slots := pattern.operands
  if arguments.length < slots.length || graph.maximumMatchingSize < slots.length then []
  else
    let matchings := graph.completeMatchings
      (fun a b => slots[a]? = slots[b]?) (fun a b => arguments[a]? = arguments[b]?)
    matchings.flatMap fun assignment =>
      match unionSlots graph assignment subst with
      | [] => []
      | partials =>
        (partitions (leftover arguments assignment) pattern.sequenceVars).flatMap fun partition =>
          partials.filterMap fun union =>
            bindVariables? head union pattern.sequenceVars partition

end CommutativePattern

/-- **All matches** of an argument list against the commutative patterns listed
    in `wanted`, each extending `subst`: by the order of `wanted`, then by
    assignment, partition and the ways to fit the operands. -/
def matchCommutative (matcher : OperandMatcher) (args : List Term) (subst : Substitution)
    (wanted : List Nat) : List (Nat × Substitution) :=
  let arguments := sortBy Term.le args
  let found := arguments.map matcher.matchOperand
  wanted.flatMap fun index =>
    match matcher.patterns[index]? with
    | none => []
    | some pattern =>
      (pattern.matchSorted matcher.head arguments found subst).map fun union => (index, union)

end TermNet
