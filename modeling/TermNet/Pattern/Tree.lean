import TermNet.Pattern.Wildcard
import TermNet.Substitution

namespace TermNet

/-!
# Pattern trees — terms with wildcards

* `PatternTerm` — atoms, wildcards and operations on pattern trees;
* `PatternTerm.text` — the text of a tree;
* `PatternTerm.build` — the canonical operation on trees;
* `PatternTerm.variableKinds` — the variables, with how each is bound;
* `PatternTerm.mapVariables`, `toTerm?`, `substitute` — renaming, and passing to
  terms.

Operations are kept canonical as those on terms are: arguments with the same
associative head are spliced in, and the arguments of commutative heads are
ordered — those that stand for one term first, then sequence wildcards, then
optional ones, and by their text within these classes.
-/

/-- Terms with wildcards. -/
inductive PatternTerm where
  /-- A term that stands for itself. -/
  | atom (term : Term)
  | wildcard (wildcard : Wildcard)
  | node (head : Head) (args : List PatternTerm)
deriving Repr, Inhabited

namespace PatternTerm

/-! ### Equality -/

mutual

/-- Trees are equal if they have the same shape, heads and leaves. -/
def decideEq : (p q : PatternTerm) → Decidable (p = q)
  | .atom s, .atom t => decidable_of_iff (s = t) (by simp)
  | .wildcard v, .wildcard w => decidable_of_iff (v = w) (by simp)
  | .node h as, .node k bs =>
    if heads : h = k then
      match decideEqAll as bs with
      | isTrue args => isTrue (by simp [heads, args])
      | isFalse args => isFalse (by simp [args])
    else isFalse (by simp [heads])
  | .atom _, .wildcard _ | .atom _, .node .. | .wildcard _, .atom _
  | .wildcard _, .node .. | .node .., .atom _ | .node .., .wildcard _ => isFalse nofun
termination_by structural p => p

/-- Argument lists are equal if they are so element by element. -/
def decideEqAll : (ps qs : List PatternTerm) → Decidable (ps = qs)
  | [], [] => isTrue rfl
  | p :: ps, q :: qs =>
    match decideEq p q with
    | isTrue first =>
      match decideEqAll ps qs with
      | isTrue rest => isTrue (by simp [first, rest])
      | isFalse rest => isFalse (by simp [rest])
    | isFalse first => isFalse (by simp [first])
  | [], _ :: _ | _ :: _, [] => isFalse nofun
termination_by structural ps => ps

end

instance : DecidableEq PatternTerm := decideEq

/-! ### Text -/

mutual

/-- The text of a tree.  As in terms, sums and products of two or more arguments
    are written infix, and arguments that reading would regroup are parenthesised. -/
def text : PatternTerm → String
  | .atom t => t.text
  | .wildcard w => w.text
  | .node head args =>
    match head.infix?, args with
    | some operator, _ :: _ :: _ => joinWith operator (operandTexts head args)
    | _, _ => head.qualified ++ parenthesized (joinWith ", " (texts args))
termination_by structural p => p

/-- The texts of the arguments of a call. -/
def texts : List PatternTerm → List String
  | [] => []
  | p :: ps => text p :: texts ps
termination_by structural ps => ps

/-- The texts of the arguments of an infix operation. -/
def operandTexts (outer : Head) : List PatternTerm → List String
  | [] => []
  | p :: ps =>
    (match p with
      | .node inner _ => if inner.regroupsIn outer then parenthesized (text p) else text p
      | _ => text p) :: operandTexts outer ps
termination_by structural ps => ps

end

/-! ### Canonical construction -/

/-- The arguments that an argument contributes under `head`: its own ones if it
    has the same associative head, itself otherwise. -/
def spliced (head : Head) : PatternTerm → List PatternTerm
  | node inner args => if head.isAssociative && inner = head then args else [node inner args]
  | p => [p]

/-- The place of an argument among commutative ones: what stands for one term
    first, then sequence wildcards, then optional ones. -/
def operandClass : PatternTerm → Nat
  | wildcard w => if w.isOptional then 2 else if w.isSequence then 1 else 0
  | _ => 0

/-- Whether `p` may precede `q` among commutative arguments. -/
def le (p q : PatternTerm) : Bool :=
  p.operandClass < q.operandClass
    || (p.operandClass = q.operandClass && (compare p.text q.text).isLE)

/-- **The canonical operation** with this head and these arguments. -/
def build (head : Head) (args : List PatternTerm) : PatternTerm :=
  let args := args.flatMap (spliced head)
  node head (if head.isCommutative then sortBy le args else args)

/-- The canonical sum. -/
def sum (args : List PatternTerm) : PatternTerm := build .sum args

/-- The canonical product. -/
def product (args : List PatternTerm) : PatternTerm := build .product args

/-- The power of `base` to `exponent`. -/
def power (base exponent : PatternTerm) : PatternTerm := build .power [base, exponent]

/-- The plain symbol named `name`. -/
def symbol (name : String) : PatternTerm := atom (.ofName name)

/-- An integer. -/
def integer (value : Int64) : PatternTerm := atom (.integer value)

/-! ### Wildcards and variables -/

/-- The wildcard that a tree is. -/
def wildcard? : PatternTerm → Option Wildcard
  | wildcard w => some w
  | _ => none

/-- The integer that a tree is. -/
def integer? : PatternTerm → Option Int64
  | atom t => t.integer?
  | _ => none

mutual

/-- The wildcards, from left to right. -/
def wildcards : PatternTerm → List Wildcard
  | .atom _ => []
  | .wildcard w => [w]
  | .node _ args => wildcardsAll args
termination_by structural p => p

/-- The wildcards of all trees of a list, from left to right. -/
def wildcardsAll : List PatternTerm → List Wildcard
  | [] => []
  | p :: ps => wildcards p ++ wildcardsAll ps
termination_by structural ps => ps

end

/-- Whether there are no wildcards. -/
def isGround (p : PatternTerm) : Bool := p.wildcards.isEmpty

/-- The names of the variables, each at its first occurrence. -/
def variableNames (p : PatternTerm) : List String := (p.wildcards.filterMap Wildcard.name).eraseDups

/-- Add the variable of each wildcard; all wildcards of one name have to bind it in
    the same way. -/
def collectVariables (known : NameMap VariableKind) :
    List Wildcard → Except PatternError (NameMap VariableKind)
  | [] => .ok known
  | w :: rest =>
    match w.name with
    | none => collectVariables known rest
    | some name =>
      match known.find? name with
      | none => collectVariables (known.insert name w.variableKind) rest
      | some kind =>
        if kind = w.variableKind then collectVariables known rest
        else .error (.inconsistentVariable name)

/-- The variables, with how each is bound. -/
def variableKinds (p : PatternTerm) : Except PatternError (NameMap VariableKind) :=
  collectVariables .empty p.wildcards

mutual

/-- Rename every variable; operations are made canonical again. -/
def mapVariables (rename : String → String) : PatternTerm → PatternTerm
  | .atom t => .atom t
  | .wildcard w => .wildcard (w.renamed (w.name.map rename))
  | .node head args => build head (mapVariablesAll rename args)
termination_by structural p => p

/-- Rename the variables of all trees of a list. -/
def mapVariablesAll (rename : String → String) : List PatternTerm → List PatternTerm
  | [] => []
  | p :: ps => mapVariables rename p :: mapVariablesAll rename ps
termination_by structural ps => ps

end

/-! ### From trees to terms -/

mutual

/-- The term that a tree without wildcards is. -/
def toTerm? : PatternTerm → Option Term
  | .atom t => some t
  | .wildcard _ => none
  | .node head args => (toTerms? args).map (Term.build head)
termination_by structural p => p

/-- The terms that trees without wildcards are. -/
def toTerms? : List PatternTerm → Option (List Term)
  | [] => some []
  | p :: ps =>
    match toTerm? p, toTerms? ps with
    | some t, some ts => some (t :: ts)
    | _, _ => none
termination_by structural ps => ps

end

mutual

/-- The terms that a tree becomes where it stands: one, except for a variable that
    is bound to a sequence.  Fails on anonymous and unbound wildcards. -/
def substituteRun (subst : Substitution) : PatternTerm → Option (List Term)
  | .atom t => some [t]
  | .wildcard w => (w.name.bind subst.find?).map Binding.elements
  | .node head args => (substituteAll subst args).map fun ts => [.build head ts]
termination_by structural p => p

/-- The terms that a list of trees becomes. -/
def substituteAll (subst : Substitution) : List PatternTerm → Option (List Term)
  | [] => some []
  | p :: ps =>
    match substituteRun subst p, substituteAll subst ps with
    | some ts, some rest => some (ts ++ rest)
    | _, _ => none
termination_by structural ps => ps

end

/-- **Substitution.**  The term that a tree becomes when its variables are replaced
    by what they are bound to, sequences being spliced into the arguments around
    them. -/
def substitute (p : PatternTerm) (subst : Substitution) : Option Term :=
  match p.substituteRun subst with
  | some [t] => some t
  | _ => none

end PatternTerm

end TermNet
