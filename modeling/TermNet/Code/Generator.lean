import TermNet.Code.Printer
import TermNet.Net.Basic
import TermNet.Source.Language

namespace TermNet.Code

open TermNet.Source TermNet.Text

/-!
# Emitting the matcher of a net

Every state becomes a function that does what matching does at that state; the
edges behind a commutative operation are emitted within the edge before it.  Heads
and terms that are compared with become static items, each emitted where it is
first needed, and a matcher is emitted before the functions that use it.

* `CodeError` — why a matcher cannot be emitted;
* `Emission`, `Emit` — what has been emitted so far;
* `emitState` — the function of a state;
* `emitNet` — the functions of a net, after its matchers;
* `generate` — the module of a net.
-/

/-- Why a matcher cannot be emitted. -/
inductive CodeError where
  /-- The name of the function is no identifier. -/
  | invalidFunctionName (name : String)
  /-- The name of the function could be that of another item of the module. -/
  | reservedFunctionName (name : String)
  /-- The name of a custom check is no path. -/
  | invalidConstraintPath (path : String)
  /-- The path of a custom check cannot be called. -/
  | unreadable
deriving DecidableEq, Repr, Inhabited

/-- The wording for a reserved name. -/
def reservedMessage (name : String) : String :=
  "Matcher function name " ++ display name ++ " is reserved for generated items"

/-- What has been emitted so far. -/
structure Emission where
  /-- Number of local variables that have been named. -/
  localCount : Nat := 0
  /-- Number of matcher types that have been begun. -/
  matcherCount : Nat := 0
  /-- The heads that have a static item. -/
  heads : List Head := []
  /-- The terms that have a static item. -/
  expressions : List Term := []
  items : List Item := []
  /-- Whether every path of a custom check can be called. -/
  isReadable : Bool := true
deriving Inhabited

/-- Emitting code. -/
abbrev Emit := StateT Emission (Except CodeError)

/-- A new local variable. -/
def freshName (base : String) : Emit String := do
  let emission ← get
  set { emission with localCount := emission.localCount + 1 }
  return base ++ "_" ++ toString (emission.localCount + 1)

/-! ### Static items -/

/-- The name of the static item of a head. -/
def headName (index : Nat) : String := "HEAD_" ++ toString index

/-- The name of the static item of a term. -/
def expressionName (index : Nat) : String := "EXPR_" ++ toString index

/-- The static item of a head, which is emitted if there is none. -/
def emitHead (head : Head) : Emit String := do
  let emission ← get
  match emission.heads.findIdx? (· = head) with
  | some index => return headName index
  | none =>
    let name := headName emission.heads.length
    set { emission with
      heads := emission.heads ++ [head], items := emission.items ++ [Item.head name head] }
    return name

mutual

/-- The calls that build a term from the static items of its heads. -/
def emitConstructor : Term → Emit Constructor
  | .integer value => return .ofInteger value
  | .symbol s => return .symbol s
  | .node head args => do
    let name ← emitHead head
    return .operation (.shared name) (← emitConstructors args)
termination_by structural t => t

/-- The calls that build the terms of a list. -/
def emitConstructors : List Term → Emit (List Constructor)
  | [] => return []
  | t :: ts => do
    let first ← emitConstructor t
    return first :: (← emitConstructors ts)
termination_by structural ts => ts

end

/-- The static item of a term, which is emitted if there is none. -/
def emitExpression (t : Term) : Emit String := do
  match (← get).expressions.findIdx? (· = t) with
  | some index => return expressionName index
  | none =>
    let constructor ← emitConstructor t
    let emission ← get
    let name := expressionName emission.expressions.length
    set { emission with
      expressions := emission.expressions ++ [t]
      items := emission.items ++ [Item.expression name constructor] }
    return name

/-- The static item of an optional term. -/
def emitDefault : Option Term → Emit (Option String)
  | some t => return some (← emitExpression t)
  | none => return none

/-! ### Edges -/

/-- What the functions of a net refer to. -/
structure NetScope where
  registry : ConstraintRegistry
  /-- What the names of the functions begin with. -/
  stem : String
  /-- The types of the matchers of the net. -/
  matcherTypes : List String

/-- The name of the function of a state. -/
def stateFunctionName (stem : String) (id : StateId) : String := stem ++ "_" ++ stateLabel id

/-- The condition that a constraint becomes. -/
def emitCondition (c : Constraint) : Emit Condition := do
  match c.check with
  | .builtin predicate => return ⟨.builtin predicate, c.variableNames⟩
  | .custom name _ =>
    match Path.ofText? name with
    | none => throw (.invalidConstraintPath name)
    | some path =>
      let callee := Callee.custom path
      unless isExpressionList callee.closure do
        modify fun emission => { emission with isReadable := false }
      return ⟨callee, c.variableNames⟩

/-- The condition of a registered constraint. -/
def emitRegistered (scope : NetScope) (id : ConstraintId) : Emit (Option Condition) := do
  match scope.registry.get? id with
  | some c => return some (← emitCondition c)
  | none => return none

/-- The checks of some constraints, which narrow the active patterns. -/
def emitChecks (scope : NetScope) (narrowed : String) : List ConstraintId → Emit (List Statement)
  | [] => return []
  | id :: rest => do
    let condition ← emitRegistered scope id
    let later ← emitChecks scope narrowed rest
    return condition.toList.map (.unlessHolds · narrowed (scope.registry.owners id)) ++ later

/-- **Going on from an edge:** its constraints are checked, and the function of the
    target is called. -/
def emitProceed (scope : NetScope) (edge : Edge) : Emit (List Statement) := do
  let call := Statement.call (stateFunctionName scope.stem edge.id)
  if edge.constraints.isEmpty then return [call]
  let narrowed ← freshName "narrowed"
  let checks ← emitChecks scope narrowed edge.constraints
  return .letNarrowed narrowed :: checks
    ++ [.shadowActive narrowed, .ifActive edge.patterns [call]]

/-- Binding the variable of an edge before going on. -/
def emitBind (scope : NetScope) (edge : Edge) (value : BoundValue) : Emit (List Statement) := do
  let next ← emitProceed scope edge
  match edge.variableName with
  | none => return next
  | some name =>
    let extended ← freshName "extended"
    return [.ifExtends extended name value (.shadowSubst extended :: next)]

/-- Binding the default, if there is one, without consuming anything. -/
def emitSkip (scope : NetScope) (edge : Edge) : Option Term → Emit (List Statement)
  | none => return []
  | some default => do emitBind scope edge (.constant (← emitExpression default))

/-- A guard, and going on from the edge within it. -/
def emitGuarded (scope : NetScope) (edge : Edge) (base : String) (opening : Opening) :
    Emit (List Statement) := do
  let guard ← freshName base
  let next ← emitProceed scope edge
  return [.ifOpens guard opening (.shadowSubjects guard :: next)]

/-- A branch behind a commutative operation: the request for its pattern, and the arm
    for the matches of that pattern. -/
def emitBranch (scope : NetScope) (wanted : String) (branch : Edge) :
    Emit (Option (Statement × Arm)) := do
  match branch.label with
  | .operands pattern =>
    let next ← emitProceed scope branch
    return some (.ifActive branch.patterns [.pushWanted wanted pattern], ⟨pattern, next⟩)
  | _ => return none

/-- The branches behind a commutative operation. -/
def emitBranches (scope : NetScope) (wanted : String) :
    List Edge → Emit (List (Statement × Arm))
  | [] => return []
  | branch :: rest => do
    let first ← emitBranch scope wanted branch
    return first.toList ++ (← emitBranches scope wanted rest)

/-- **A commutative operation:** which patterns are wanted, the matches of the
    arguments, and an arm per pattern. -/
def emitCommutative (scope : NetScope) (head : Head) (matcher : Nat) (branches : List Edge) :
    Emit (List Statement) := do
  let head ← emitHead head
  let wanted ← freshName "wanted"
  let guard ← freshName "taken"
  let operation ← freshName "operation"
  let pattern ← freshName "pattern"
  let found ← freshName "found"
  let parts ← emitBranches scope wanted branches
  let loop := Statement.forFound pattern found (scope.matcherTypes[matcher]?.getD "") operation
    wanted [.shadowSubst found, .matchPattern pattern (parts.map Prod.snd)]
  return .letWanted wanted :: parts.map Prod.fst
    ++ [.ifWanted wanted [.ifOpens guard (.takeOperation head)
      [.letItem operation guard, .shadowSubjects guard, loop]]]

/-- **Consuming what an edge asks for** and going on from it. -/
def emitTake (scope : NetScope) (edge : Edge) : Emit (List Statement) := do
  match edge.label with
  | .enter head => emitGuarded scope edge "entered" (.enter (← emitHead head))
  | .close => emitGuarded scope edge "closed" .close
  | .atom t => emitGuarded scope edge "taken" (.takeEqual (← emitExpression t))
  | .one kind default =>
    let skipped ← emitSkip scope edge default
    let opening := match kind with
      | some kind => Opening.takeKind kind
      | none => .takeAny
    let guard ← freshName "taken"
    let item ← freshName "item"
    let next ← emitBind scope edge (.item item)
    return skipped
      ++ [.ifOpens guard opening (.letItem item guard :: .shadowSubjects guard :: next)]
  | .run minCount wrap default =>
    let skipped ← emitSkip scope edge default
    let minCount := if default.isSome then max minCount 1 else minCount
    let wrap ← match wrap with
      | some head => some <$> emitHead head
      | none => pure none
    let run ← freshName "run"
    let binding ← freshName "binding"
    let next ← emitBind scope edge (.binding binding)
    return skipped ++ [.ifOpens run (.takeRun minCount)
      [.growing run [.letBinding binding run wrap, .block (.shadowSubjects run :: next)]]]
  | .commutative head =>
    match edge.target with
    | .commutative matcher branches => emitCommutative scope head matcher branches
    | _ => return []
  | .operands _ => return []

/-! ### States -/

/-- The edges of a state one after the other. -/
def emitEdges (scope : NetScope) : List Edge → Emit (List Statement)
  | [] => return []
  | edge :: rest => do
    let body ← emitTake scope edge
    return .ifActive edge.patterns body :: (← emitEdges scope rest)

/-- The conditions of the constraints that are checked at the end. -/
def emitGlobals (scope : NetScope) : List ConstraintId → Emit (List Condition)
  | [] => return []
  | id :: rest => do
    let condition ← emitRegistered scope id
    return condition.toList ++ (← emitGlobals scope rest)

/-- The markers of an accepting state one after the other. -/
def emitMarkers (scope : NetScope) : List Marker → Emit (List Statement)
  | [] => return []
  | marker :: rest => do
    let globals ← emitGlobals scope marker.globals
    return .ifAccepts marker.pattern globals [.pushResult marker.pattern marker.pairs]
      :: (← emitMarkers scope rest)

/-- **The function of a state;** there is none behind commutative operations. -/
def emitState (scope : NetScope) (id : StateId) : State → Emit (Option StateFunction)
  | .branch edges => return some ⟨stateFunctionName scope.stem id, ← emitEdges scope edges⟩
  | .accept markers =>
    return some ⟨stateFunctionName scope.stem id, [.ifExhausted (← emitMarkers scope markers)]⟩
  | .commutative .. => return none

/-- The functions of numbered states. -/
def emitStates (scope : NetScope) : List (StateId × State) → Emit (List StateFunction)
  | [] => return []
  | (id, state) :: rest => do
    let function ← emitState scope id state
    return function.toList ++ (← emitStates scope rest)

/-! ### Nets and matchers -/

/-- A sequence variable in the table of a matcher. -/
def emitSequenceVariable (var : SequenceVariable) : Emit SequenceEntry := do
  let default ← emitDefault var.default
  return ⟨var.name, var.count, var.minCount, default, var.fixed, var.wrap⟩

/-- The table of a matcher. -/
def emitTable (patterns : List CommutativePattern) : Emit (List PatternEntry) :=
  patterns.mapM fun pattern => do
    return ⟨pattern.operands, ← pattern.sequenceVars.mapM emitSequenceVariable⟩

/-- The name of a matcher type. -/
def matcherTypeName (index : Nat) : String := "CommutativeMatcher" ++ toString index

/-- The name of the function that matches the operands of a matcher. -/
def operandFunctionName (index : Nat) : String := "match_operands_" ++ toString index

mutual

/-- **The functions of a net,** after the types of its matchers. -/
def emitNet (name : String) (isPublic : Bool) : Net → Emit MatcherFunction
  | ⟨root, stateCount, registry, matchers, patternCount⟩ => do
    let matcherTypes ← emitMatchers matchers
    let stem := withoutRawMark name
    let states ← emitStates ⟨registry, stem, matcherTypes⟩
      (Net.states ⟨root, stateCount, registry, matchers, patternCount⟩)
    return ⟨name, isPublic, patternCount, stateFunctionName stem 0, states⟩
termination_by structural net => net

/-- The types of matchers, as their names. -/
def emitMatchers : List CommutativeMatcher → Emit (List String)
  | [] => return []
  | matcher :: rest => do
    let first ← emitMatcher matcher
    return first :: (← emitMatchers rest)
termination_by structural matchers => matchers

/-- The type of a matcher, as its name. -/
def emitMatcher : CommutativeMatcher → Emit String
  | ⟨head, net, _, patterns⟩ => do
    let index := (← get).matcherCount
    modify fun emission => { emission with matcherCount := index + 1 }
    let head ← emitHead head
    let function ← emitNet (operandFunctionName index) false net
    let table ← emitTable patterns
    let name := matcherTypeName index
    modify fun emission => { emission with
      items := emission.items ++ [Item.matcher ⟨name, head, table, function⟩] }
    return name
termination_by structural matcher => matcher

end

/-! ### Modules -/

/-- The name of the public function if none is asked for. -/
def defaultFunctionName : String := "match_root"

/-- Whether a name could be that of another item of a module. -/
def isReservedName (name : String) : Bool :=
  name = "match_commutative"
    || ["match_operands_", "HEAD_", "EXPR_"].any fun stem => stem.toList.isPrefixOf name.toList

/-- An emitted module and what is told about it. -/
structure GeneratedModule where
  code : Module
  patternCount : Nat
  matcherCount : Nat
deriving Inhabited

/-- **The module of a net,** whose public function gets this name. -/
def generate (functionName : String) (net : Net) : Except CodeError GeneratedModule :=
  match identifier? functionName with
  | none => .error (.invalidFunctionName functionName)
  | some name =>
    if isReservedName name then .error (.reservedFunctionName functionName)
    else
      match (emitNet name true net).run {} with
      | .error error => .error error
      | .ok (main, emission) =>
        if emission.isReadable then
          .ok ⟨⟨emission.items, main⟩, net.patternCount, emission.matcherCount⟩
        else .error .unreadable

end TermNet.Code
