import TermNet.Code.Module
import TermNet.Net.Match

namespace TermNet.Code

/-!
# What modules do

A module is run as a structured program.  What a block declares ends with the block,
and so do the shadowed substitution and active patterns; a guard is dropped at the end
of its block, which puts back what it has consumed.

* `Scope` — the variables in scope, the queue and the results so far;
* `Environment` — the static items, the matcher types and the functions of a module;
* `Statement.run` — a statement;
* `Module.call` — the function of a state;
* `Module.matches` — the public function.

There is one queue, which every shadowing of `subjects` refers to through a guard.
A name that is not in scope has no effect.  Static items, types of matchers and functions
of states are each found among their own kind, the first one of a name.
-/

/-- The value of a local variable. -/
inductive Local where
  /-- A guard, with what it has consumed. -/
  | guard (guard : ArgumentQueue.Guard)
  | item (term : Term)
  | binding (value : Binding)
  | wanted (patterns : List Nat)
  | pattern (index : Nat)
  | subst (value : Substitution)
  /-- A smaller set of active patterns, once there is one. -/
  | narrowed (active : Option IndexSet)

/-- The variables in scope, the queue and the results so far. -/
structure Scope where
  /-- The local variables, the latest first. -/
  locals : List (String × Local)
  subst : Substitution
  active : IndexSet
  queue : ArgumentQueue
  results : List Match

namespace Scope

/-- The value of a local variable. -/
def find? (scope : Scope) (name : String) : Option Local := scope.locals.lookup name

/-- Define a local variable. -/
def define (scope : Scope) (name : String) (value : Local) : Scope :=
  { scope with locals := (name, value) :: scope.locals }

/-- Replace the value of the latest local variable of a name. -/
def assignIn (name : String) (value : Local) : List (String × Local) → List (String × Local)
  | [] => []
  | (other, old) :: rest =>
    if other = name then (other, value) :: rest else (other, old) :: assignIn name value rest

/-- Assign to a local variable. -/
def assign (scope : Scope) (name : String) (value : Local) : Scope :=
  { scope with locals := assignIn name value scope.locals }

/-- The term that a guard has taken, or that a local variable holds. -/
def item? (scope : Scope) (name : String) : Option Term :=
  match scope.find? name with
  | some (.item t) => some t
  | some (.guard (.taken t)) | some (.guard (.entered t)) => some t
  | _ => none

/-- The run of a guard. -/
def run? (scope : Scope) (name : String) : Option (List Term) :=
  match scope.find? name with
  | some (.guard (.run terms)) => some terms
  | _ => none

/-- The patterns in a local variable. -/
def wanted (scope : Scope) (name : String) : List Nat :=
  match scope.find? name with
  | some (.wanted patterns) => patterns
  | _ => []

/-- The smaller set of active patterns in a local variable. -/
def narrowed? (scope : Scope) (name : String) : Option IndexSet :=
  match scope.find? name with
  | some (.narrowed active) => active
  | _ => none

/-- **The end of a block.**  The queue, the results and the assignments to outer
    variables stay; what the block has declared or shadowed does not. -/
def leave (inner outer : Scope) : Scope :=
  { inner with
    locals := inner.locals.drop (inner.locals.length - outer.locals.length)
    subst := outer.subst
    active := outer.active }

/-- Run a block. -/
def within (body : Scope → Scope) (scope : Scope) : Scope := (body scope).leave scope

/-- Drop the latest local variable, a guard. -/
def dropGuard (scope : Scope) : Scope :=
  match scope.locals with
  | (_, .guard guard) :: rest =>
    { scope with locals := rest, queue := guard.release scope.queue }
  | _ => scope

end Scope

/-- What a module defines. -/
structure Environment where
  heads : String → Option Head
  expressions : String → Option Term
  matchers : String → Option OperandMatcher
  /-- The functions that the paths of custom checks stand for. -/
  checks : Source.Path → List Binding → Bool
  /-- The functions of the states. -/
  call : String → Walk

/-- Whether a condition holds; it does while one of its variables is unbound. -/
def Condition.holds (env : Environment) (condition : Condition) (subst : Substitution) : Bool :=
  subst.satisfies condition.variableNames (match condition.callee with
    | .builtin predicate => predicate.holds
    | .custom path => env.checks path)

/-- Take the next argument if it is admitted. -/
def takeGuard (accept : Term → Bool) (queue : ArgumentQueue) :
    Option (ArgumentQueue.Guard × ArgumentQueue) :=
  (queue.takeIf? accept).map fun (item, rest) => (.taken item, rest)

/-- **Opening a guard:** what it consumes, and what is left. -/
def Opening.apply (env : Environment) (queue : ArgumentQueue) :
    Opening → Option (ArgumentQueue.Guard × ArgumentQueue)
  | enter head =>
    (env.heads head).bind fun head =>
      (queue.enter? head).map fun (item, inner) => (.entered item, inner)
  | close => queue.close?.map fun outer => (.closed, outer)
  | takeEqual expression =>
    (env.expressions expression).bind fun expected => takeGuard (· = expected) queue
  | takeKind kind => takeGuard (·.isSymbolOf kind) queue
  | takeAny => takeGuard (fun _ => true) queue
  | takeOperation head => (env.heads head).bind fun head => takeGuard (·.hasHead head) queue
  | takeRun minCount =>
    (queue.takeRun? minCount).map fun (terms, rest) => (.run terms, rest)

/-- The binding that a value is. -/
def BoundValue.binding? (env : Environment) (scope : Scope) : BoundValue → Option Binding
  | item name => (scope.item? name).map .single
  | constant expression => (env.expressions expression).map .single
  | binding name =>
    match scope.find? name with
    | some (.binding value) => some value
    | _ => none

/-- Repeat a block, with one more argument in the run each time, at most `longer` times
    more. -/
def growingLoop (run : String) (body : Scope → Scope) : (longer : Nat) → Scope → Scope
  | 0, scope => scope.within body
  | longer + 1, scope =>
    let scope := scope.within body
    match (scope.run? run).bind scope.queue.grow? with
    | some (terms, queue) =>
      growingLoop run body longer ({ scope with queue }.assign run (.guard (.run terms)))
    | none => scope

/-- Run a block for every match in a list. -/
def foundLoop (pattern found : String) (body : Scope → Scope) : List Match → Scope → Scope
  | [], scope => scope
  | (index, subst) :: rest, scope =>
    foundLoop pattern found body rest
      (scope.within fun scope =>
        body ((scope.define pattern (.pattern index)).define found (.subst subst)))

mutual

/-- **Running a statement.** -/
def Statement.run (env : Environment) : Statement → Scope → Scope
  | .ifActive patterns body => fun scope =>
    if scope.active.meets patterns then scope.within (Statement.runAll env body) else scope
  | .ifExhausted body => fun scope =>
    if scope.queue.isExhausted then scope.within (Statement.runAll env body) else scope
  | .ifAccepts pattern globals body => fun scope =>
    if scope.active.contains pattern && globals.all (·.holds env scope.subst) then
      scope.within (Statement.runAll env body)
    else scope
  | .pushResult pattern pairs => fun scope =>
    { scope with results := scope.results ++ [(pattern, Substitution.renamed scope.subst pairs)] }
  | .ifOpens guard opening body => fun scope =>
    match opening.apply env scope.queue with
    | none => scope
    | some (opened, queue) =>
      ({ scope with queue }.define guard (.guard opened)
        |>.within (Statement.runAll env body)).dropGuard
  | .letItem name guard => fun scope =>
    match scope.item? guard with
    | some t => scope.define name (.item t)
    | none => scope
  | .shadowSubjects _ => fun scope => scope
  | .growing run body => fun scope =>
    growingLoop run (Statement.runAll env body) scope.queue.remaining scope
  | .letBinding name run wrap => fun scope =>
    match scope.run? run with
    | some terms => scope.define name (.binding (.ofRun terms (wrap.bind env.heads)))
    | none => scope
  | .block body => fun scope => scope.within (Statement.runAll env body)
  | .letWanted name => fun scope => scope.define name (.wanted [])
  | .pushWanted name pattern => fun scope =>
    scope.assign name (.wanted (scope.wanted name ++ [pattern]))
  | .ifWanted name body => fun scope =>
    if (scope.wanted name).isEmpty then scope else scope.within (Statement.runAll env body)
  | .forFound pattern found matcher operation wanted body => fun scope =>
    match env.matchers matcher, scope.item? operation with
    | some matcher, some t =>
      foundLoop pattern found (Statement.runAll env body)
        (matchCommutative matcher t.args scope.subst (scope.wanted wanted)) scope
    | _, _ => scope
  | .shadowSubst name => fun scope =>
    match scope.find? name with
    | some (.subst subst) => { scope with subst }
    | _ => scope
  | .matchPattern name arms => fun scope =>
    match scope.find? name with
    | some (.pattern index) => Arm.runFirst env index arms scope
    | _ => scope
  | .ifExtends extended variableName value body => fun scope =>
    match value.binding? env scope with
    | none => scope
    | some value =>
      match Substitution.extend? scope.subst variableName value with
      | none => scope
      | some subst =>
        scope.within fun scope =>
          Statement.runAll env body (scope.define extended (.subst subst))
  | .letNarrowed name => fun scope => scope.define name (.narrowed none)
  | .unlessHolds condition narrowed owners => fun scope =>
    if condition.holds env scope.subst then scope
    else
      let active := (scope.narrowed? narrowed).getD scope.active
      scope.assign narrowed (.narrowed (some (active.eraseAll owners)))
  | .shadowActive narrowed => fun scope =>
    { scope with active := (scope.narrowed? narrowed).getD scope.active }
  | .call function => fun scope =>
    let (found, queue) := env.call function scope.queue scope.subst scope.active
    { scope with queue, results := scope.results ++ found }
termination_by structural s => s

/-- Running statements one after the other. -/
def Statement.runAll (env : Environment) : List Statement → Scope → Scope
  | [] => fun scope => scope
  | s :: ss => fun scope => Statement.runAll env ss (Statement.run env s scope)
termination_by structural ss => ss

/-- Running an arm. -/
def Arm.run (env : Environment) : Arm → Scope → Scope
  | ⟨_, body⟩ => fun scope => scope.within (Statement.runAll env body)
termination_by structural arm => arm

/-- Running the first arm for a pattern. -/
def Arm.runFirst (env : Environment) (index : Nat) : List Arm → Scope → Scope
  | [] => fun scope => scope
  | arm :: rest =>
    if arm.pattern = index then Arm.run env arm else Arm.runFirst env index rest
termination_by structural arms => arms

end

/-! ### Modules -/

/-- The default of a sequence variable in a table. -/
def SequenceEntry.variable (expressions : String → Option Term) (entry : SequenceEntry) :
    SequenceVariable :=
  ⟨entry.name, entry.count, entry.minCount, entry.default.bind expressions, entry.fixed, entry.wrap⟩

/-- The commutative pattern of an entry of a table. -/
def PatternEntry.pattern (expressions : String → Option Term) (entry : PatternEntry) :
    CommutativePattern :=
  ⟨entry.operands, entry.sequenceVars.map (·.variable expressions)⟩

/-- Matching one term, given the functions of the states. -/
def MatcherFunction.matches (call : String → Walk) (function : MatcherFunction) (subject : Term) :
    List Match :=
  (call function.root (.ofSubject subject) .empty (.full function.patternCount)).1

namespace Module

/-- The head of a static item. -/
def headOf (m : Module) (name : String) : Option Head := m.heads.lookup name

/-- The term of a static item. -/
def expressionOf (m : Module) (name : String) : Option Term :=
  (m.expressions.lookup name).bind (Constructor.value? m.headOf)

/-- The matcher of a type, given the functions of the states. -/
def matcherOf (m : Module) (call : String → Walk) (name : String) : Option OperandMatcher :=
  (m.matcherTypes.find? (·.name = name)).bind fun type =>
    (m.headOf type.head).map fun head =>
      ⟨head, type.table.map (·.pattern m.expressionOf), type.function.matches call⟩

/-- **The function of a state,** with at most `depth` calls inside one another. -/
def call (m : Module) (checks : Source.Path → List Binding → Bool) : (depth : Nat) → String → Walk
  | 0, _ => .nothing
  | depth + 1, name =>
    match m.states.find? (·.name = name) with
    | none => .nothing
    | some function => fun queue subst active =>
      let inner := m.call checks depth
      let env : Environment := ⟨m.headOf, m.expressionOf, m.matcherOf inner, checks, inner⟩
      let scope := Statement.runAll env function.body ⟨[], subst, active, queue, []⟩
      (scope.results, scope.queue)

end Module

/-- **The public function.**  No function calls itself, not even through others, so
    that calls are never nested deeper than there are functions. -/
def Module.matches (m : Module) (checks : Source.Path → List Binding → Bool) (subject : Term) :
    List Match :=
  m.main.matches (m.call checks m.states.length) subject

end TermNet.Code
