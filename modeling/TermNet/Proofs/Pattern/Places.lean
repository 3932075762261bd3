import TermNet.Proofs.Net.Explore

namespace TermNet

/-!
# Matching one pattern by itself

The matches of a pattern are described by recursion on its tree, without a net that it
would share with others.  The operands of a commutative operation are numbered by where
they first stand among themselves.

* `accepted` — what the places at the end of a pattern give;
* `aloneMatcher` — the matcher of one commutative operation;
* `PatternTerm.places` — the places behind a tree;
* `OperandPattern.solutions`, `Pattern.solutions` — the matches of a pattern.
-/

/-- What the places at the end of a pattern give: the renamed bindings of those where the
    subject is used up and all constraints hold. -/
def accepted (constraints : List Constraint) (pairs : List (String × String))
    (ends : List Place) : List Substitution :=
  ends.filterMap fun place =>
    if place.queue.isExhausted && constraints.all (·.holds place.subst) then
      some (place.subst.renamed pairs)
    else none

/-- Variables that keep their names. -/
def samePairs (names : List String) : List (String × String) := names.map fun name => (name, name)

/-- **The matcher of one commutative operation,** given its operands with the ways in which
    an argument fits each of them. -/
def aloneMatcher (head : Head) (vars : List SequenceVariable)
    (operands : List (PatternTerm × (Term → List Substitution))) : OperandMatcher where
  head := head
  patterns :=
    let trees := operands.map Prod.fst
    [⟨sortBy (· ≤ ·) (trees.map fun tree => trees.idxOf tree), vars⟩]
  matchOperand t := operands.zipIdx.flatMap fun ((_, ways), index) => (ways t).map (index, ·)

mutual

/-- **The places behind a tree** below `parent`. -/
def PatternTerm.places (constraints : List Constraint) (parent : Option Head) :
    PatternTerm → Place → List Place
  | .atom t => (Label.atom t).advance none none
  | .wildcard w => (wildcardStep parent w).label.advance none w.name
  | .node head args =>
    if head.isCommutative then fun place =>
      ((Label.commutative head).advance none none place).flatMap
        ((Label.operands 0).advance
          (some (aloneMatcher head (sequenceVariables head args)
            (operandWays constraints head args))) none)
    else fun place =>
      ((Label.enter head).advance none none place).flatMap fun inside =>
        (placesAll constraints head args inside).flatMap (Label.close.advance none none)
termination_by structural p => p

/-- The places behind ordered arguments. -/
def placesAll (constraints : List Constraint) (parent : Head) :
    List PatternTerm → Place → List Place
  | [] => fun place => [place]
  | p :: ps => fun place =>
    (PatternTerm.places constraints (some parent) p place).flatMap (placesAll constraints parent ps)
termination_by structural ps => ps

/-- The operands among commutative arguments, with the ways in which a term fits them. -/
def operandWays (constraints : List Constraint) (head : Head) :
    List PatternTerm → List (PatternTerm × (Term → List Substitution))
  | [] => []
  | p :: ps =>
    match p.sequenceVariable? head with
    | some _ => operandWays constraints head ps
    | none =>
      (p, fun t => accepted (operandConstraints constraints p) (samePairs p.variableNames)
        (PatternTerm.places (operandConstraints constraints p) none p (.ofSubject t))) ::
          operandWays constraints head ps
termination_by structural ps => ps

end

/-- The matches of an operand pattern. -/
def OperandPattern.solutions (operand : OperandPattern) (t : Term) : List Substitution :=
  accepted operand.constraints (samePairs operand.tree.variableNames)
    (operand.tree.places operand.constraints none (.ofSubject t))

/-- The operand patterns among commutative arguments. -/
def operandPatterns (constraints : List Constraint) (head : Head) (args : List PatternTerm) :
    List OperandPattern :=
  (args.filter fun p => (p.sequenceVariable? head).isNone).map fun p =>
    ⟨p, operandConstraints constraints p⟩

/-- **The operands with their ways** are the operand patterns with their matches. -/
theorem operandWays_eq (constraints : List Constraint) (head : Head) (args : List PatternTerm) :
    operandWays constraints head args =
      (operandPatterns constraints head args).map fun operand =>
        (operand.tree, operand.solutions) := by
  induction args with
  | nil => rfl
  | cons p ps ih =>
    rw [operandWays, ih, operandPatterns]
    cases hvar : p.sequenceVariable? head with
    | some var => simp [operandPatterns, hvar]
    | none =>
      simp [operandPatterns, hvar]
      rfl

namespace Pattern

/-- The tree with its variables named by their positions. -/
def positionalTree (pattern : Pattern) : PatternTerm :=
  pattern.tree.mapVariables fun name => (pattern.tree.positionalNames.find? name).getD name

/-- The local constraints on the positional variables. -/
def positionalLocals (pattern : Pattern) : List Constraint :=
  pattern.constraints.map (·.renamed pattern.tree.positionalNames)

/-- The global constraints on the positional variables. -/
def positionalGlobals (pattern : Pattern) : List Constraint :=
  pattern.globals.map (·.renamed pattern.tree.positionalNames)

/-- **The matches of a pattern.** -/
def solutions (pattern : Pattern) (t : Term) : List Substitution :=
  accepted (pattern.positionalLocals ++ pattern.positionalGlobals)
    pattern.tree.positionalNames.entries
    (pattern.positionalTree.places pattern.positionalLocals none (.ofSubject t))

end Pattern

end TermNet
