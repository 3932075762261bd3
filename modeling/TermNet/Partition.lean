import TermNet.Term.Canonical
import TermNet.Sorting

namespace TermNet

/-!
# Partitions — distributing arguments over sequence variables

The arguments of a commutative operation that no operand has taken are split
among the sequence variables of the pattern.

* `SequenceVariable` — how many arguments a variable may take, and how often it
  occurs;
* `partitions leftover vars` — every way to split `leftover`.
-/

/-- A variable of a commutative pattern that takes a multiset of arguments. -/
structure SequenceVariable where
  name : Option String
  /-- How often the variable occurs: its multiset is taken that many times. -/
  count : Nat := 1
  /-- The least number of arguments. -/
  minCount : Nat := 0
  /-- The value bound to the variable when it takes nothing. -/
  default : Option Term := none
  /-- Whether at most one argument may be taken. -/
  fixed : Bool := false
  /-- Whether what is taken becomes one term of the operation's head. -/
  wrap : Bool := false
deriving DecidableEq, Repr, Inhabited

/-- Whether the variable may take that many arguments. -/
def SequenceVariable.admits (var : SequenceVariable) (size : Nat) : Bool :=
  (var.minCount ≤ size || (size = 0 && var.default.isSome)) && (!var.fixed || size ≤ 1)

namespace Partition

/-- Put a term in front of counted terms. -/
def countCons (t : Term) : List (Term × Nat) → List (Term × Nat)
  | [] => [(t, 1)]
  | (first, count) :: rest =>
    if t = first then (first, count + 1) :: rest else (t, 1) :: (first, count) :: rest

/-- Neighbouring equal terms with their numbers. -/
def countRuns : List Term → List (Term × Nat)
  | [] => []
  | t :: ts => countCons t (countRuns ts)

/-- How many copies of each distinct argument a variable that occurs `count`
    times may take, with what is left of each.  The last variable has to take
    everything. -/
def choices (count : Nat) (last : Bool) : List Nat → List (List Nat × List Nat)
  | [] => [([], [])]
  | available :: rest =>
    let options :=
      if last then if available % count = 0 then [available / count] else []
      else List.range (available / count + 1)
    let tails := choices count last rest
    options.flatMap fun take =>
      tails.map fun (takes, left) => (take :: takes, (available - take * count) :: left)

/-- The multiset with that many copies of each distinct term. -/
def multiset (distinct : List Term) (takes : List Nat) : List Term :=
  (distinct.zip takes).flatMap fun (t, take) => List.replicate take t

/-- The ways to split what is left of each distinct argument. -/
def split (distinct : List Term) : List SequenceVariable → List Nat → List (List (List Term))
  | [], left => if left.all (· = 0) then [[]] else []
  | var :: rest, left =>
    ((choices (max var.count 1) rest.isEmpty left).filter fun (takes, _) =>
        var.admits (takes.foldr (· + ·) 0)).flatMap fun (takes, left) =>
      (split distinct rest left).map (multiset distinct takes :: ·)

end Partition

/-- **Every way to split** `leftover` among `vars`: one sorted multiset per
    variable, which stands as often in `leftover` as the variable is counted.
    Without variables there is one way if nothing is left over. -/
def partitions (leftover : List Term) (vars : List SequenceVariable) :
    List (List (List Term)) :=
  let counted := Partition.countRuns (sortBy Term.le leftover)
  Partition.split (counted.map Prod.fst) vars (counted.map Prod.snd)

end TermNet
