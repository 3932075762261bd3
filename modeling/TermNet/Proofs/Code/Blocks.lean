import TermNet.Code.Semantics

namespace TermNet.Code

/-!
# Blocks and walks

A block of a function does what a walk does if it finds the same matches, leaves the same
queue, and only puts its own variables on top of those in scope.

* `Scope.after` — a scope once something has been found;
* `Scope.Ends`, `Scope.Opens` — the scope at the end of a block, and on the way there;
* `Performs`, `PerformsWithin` — statements that do what a walk does, the latter with
  variables and shadowings of their own;
* `performs_ifActive`, `run_ifOpens`, `performs_growing`, … — the statements that contain others.
-/

variable {env : Environment} {scope outer inner : Scope}
variable {outcome : List Match × ArgumentQueue}

namespace Scope

/-- The scope once this has been found and this queue is left. -/
def after (scope : Scope) (outcome : List Match × ArgumentQueue) : Scope :=
  { scope with queue := outcome.2, results := scope.results ++ outcome.1 }

/-- Finding matches leaves the local variables alone. -/
@[simp] theorem after_locals : (scope.after outcome).locals = scope.locals := rfl

/-- Finding matches leaves the substitution alone. -/
@[simp] theorem after_subst : (scope.after outcome).subst = scope.subst := rfl

/-- Finding matches leaves the active patterns alone. -/
@[simp] theorem after_active : (scope.after outcome).active = scope.active := rfl

/-- The queue is the one that is left. -/
@[simp] theorem after_queue : (scope.after outcome).queue = outcome.2 := rfl

/-- Finding nothing and leaving the queue as it is changes nothing. -/
@[simp] theorem after_nothing : scope.after ([], scope.queue) = scope := by
  simp [after]

/-- What is found first stands in front of what is found later. -/
theorem after_after (outcome more : List Match × ArgumentQueue) :
    (scope.after outcome).after more = scope.after (outcome.1 ++ more.1, more.2) := by
  simp [after]

/-- **The end of a block** that has found this and left this queue. -/
structure Ends (outer : Scope) (outcome : List Match × ArgumentQueue) (inner : Scope) : Prop where
  locals : ∃ own, inner.locals = own ++ outer.locals
  queue : inner.queue = outcome.2
  results : inner.results = outer.results ++ outcome.1

/-- A scope on the way through a block that has found nothing yet. -/
structure Opens (outer inner : Scope) : Prop where
  locals : ∃ own, inner.locals = own ++ outer.locals
  results : inner.results = outer.results

/-- A block without variables of its own ends with what it has found. -/
theorem ends_after : scope.Ends outcome (scope.after outcome) := ⟨⟨[], rfl⟩, rfl, rfl⟩

/-- What a block has declared and shadowed does not outlive it. -/
theorem Ends.leave_eq (h : outer.Ends outcome inner) : inner.leave outer = outer.after outcome := by
  obtain ⟨⟨own, hlocals⟩, hqueue, hresults⟩ := h
  have hdrop : inner.locals.drop (inner.locals.length - outer.locals.length) = outer.locals := by
    rw [hlocals]
    simp
  rw [leave, hdrop, hqueue, hresults]
  rfl

/-- The end of what is left of a block is the end of the block. -/
theorem Ends.of_opens {final : Scope} (h : inner.Ends outcome final) (hopens : outer.Opens inner) :
    outer.Ends outcome final := by
  obtain ⟨⟨own, hlocals⟩, hqueue, hresults⟩ := h
  obtain ⟨⟨more, hmore⟩, hsame⟩ := hopens
  exact ⟨⟨own ++ more, by rw [hlocals, hmore, List.append_assoc]⟩, hqueue, hsame ▸ hresults⟩

/-- Declaring a variable is one more step into a block. -/
theorem opens_define (name : String) (value : Local) : scope.Opens (scope.define name value) :=
  ⟨⟨[(name, value)], rfl⟩, rfl⟩

/-- A variable has the value that it is declared with. -/
@[simp] theorem find?_define (name : String) (value : Local) :
    (scope.define name value).find? name = some value := by
  simp [find?, define]

/-- The other variables keep their values. -/
theorem find?_define_of_ne {name other : String} (h : other ≠ name) (value : Local) :
    (scope.define name value).find? other = scope.find? other := by
  have hne : (other == name) = false := by simpa using h
  simp [find?, define, List.lookup_cons, hne]

end Scope

/-! ### Statements that do what a walk does -/

/-- **Statements that do what a walk does** with these active patterns, and leave the variables
    in scope alone. -/
def Performs (env : Environment) (active : IndexSet) (block : List Statement) (walk : Walk) :
    Prop :=
  ∀ scope : Scope, scope.active = active →
    Statement.runAll env block scope = scope.after (walk scope.queue scope.subst active)

/-- Statements that do what a walk does, with variables and shadowings of their own. -/
def PerformsWithin (env : Environment) (active : IndexSet) (block : List Statement)
    (walk : Walk) : Prop :=
  ∀ scope : Scope, scope.active = active →
    scope.Ends (walk scope.queue scope.subst active) (Statement.runAll env block scope)

variable {active : IndexSet} {block more : List Statement} {walk next : Walk}

/-- Statements run one after the other. -/
theorem runAll_append (block more : List Statement) (scope : Scope) :
    Statement.runAll env (block ++ more) scope =
      Statement.runAll env more (Statement.runAll env block scope) := by
  induction block generalizing scope with
  | nil => rfl
  | cons s rest ih => exact ih _

/-- A block without variables of its own is one that may have some. -/
theorem Performs.within (h : Performs env active block walk) :
    PerformsWithin env active block walk := by
  intro scope hactive
  rw [h scope hactive]
  exact Scope.ends_after

/-- No statements do nothing. -/
theorem performs_nil : Performs env active [] .nothing := fun _ _ => Scope.after_nothing.symm

/-- One after the other, statements do what the walks do one after the other. -/
theorem Performs.append (h : Performs env active block walk)
    (hmore : Performs env active more next) :
    Performs env active (block ++ more) (walk.andThen next) := by
  intro scope hactive
  rw [runAll_append, h scope hactive, hmore (scope.after _) hactive, Scope.after_after]
  rfl

/-- A block by itself keeps its variables and shadowings to itself. -/
theorem within_eq (h : scope.Ends outcome (Statement.runAll env block scope)) :
    scope.within (Statement.runAll env block) = scope.after outcome := h.leave_eq

/-! ### Statements that contain others -/

/-- A block runs if some of the patterns are active. -/
theorem performs_ifActive {patterns : List Nat}
    (h : active.meets patterns = true → PerformsWithin env active block walk) :
    Performs env active [.ifActive patterns block] fun queue σ active =>
      if active.meets patterns then walk queue σ active else ([], queue) := by
  intro scope hactive
  show Statement.run env (.ifActive patterns block) scope = _
  simp only [Statement.run, hactive]
  split
  · rename_i hmeets
    exact within_eq (h hmeets scope hactive)
  · exact Scope.after_nothing.symm

/-- The function of a state that is called does what a walk does. -/
theorem performs_call {function : String} (h : env.call function = walk) :
    Performs env active [.call function] walk := by
  rintro scope rfl
  rw [← h]
  rfl

/-- **A guard** is dropped at the end of its block, which puts back what it has consumed. -/
theorem run_ifOpens (env : Environment) (guard : String) (opening : Opening)
    (block : List Statement) (scope : Scope) (walk : ArgumentQueue.Guard → Walk)
    (h : ∀ opened queue, opening.apply env scope.queue = some (opened, queue) →
      ({ scope with queue }.define guard (.guard opened)).Ends
        (walk opened queue scope.subst scope.active)
        (Statement.runAll env block ({ scope with queue }.define guard (.guard opened)))) :
    Statement.run env (.ifOpens guard opening block) scope =
      scope.after (match opening.apply env scope.queue with
        | none => ([], scope.queue)
        | some (opened, queue) => (walk opened).guarded opened queue scope.subst scope.active) := by
  simp only [Statement.run]
  cases happly : opening.apply env scope.queue with
  | none => exact Scope.after_nothing.symm
  | some found =>
    obtain ⟨opened, queue⟩ := found
    dsimp only
    rw [within_eq (h opened queue happly)]
    rfl

/-! ### Loops -/

/-- A block that goes on with the run in a local variable. -/
def PerformsRun (env : Environment) (active : IndexSet) (run : String) (block : List Statement)
    (walk : List Term → Walk) : Prop :=
  ∀ (scope : Scope) terms, scope.active = active → scope.run? run = some terms →
    scope.Ends (walk terms scope.queue scope.subst active) (Statement.runAll env block scope)

variable {run : String} {name : Option String} {wrap : Option Head}

/-- **A growing run:** what is left of the loop finds what is left of the walk, and ends with
    the run that has to be put back. -/
theorem growingLoop_eq
    (h : PerformsRun env active run block fun terms => walk.binding name (.ofRun terms wrap))
    {locals : List (String × Local)} (longer : Nat) (terms : List Term) (scope : Scope)
    (hactive : scope.active = active)
    (hlocals : scope.locals = (run, .guard (.run terms)) :: locals) :
    ∃ final queue,
      growingLoop run (Statement.runAll env block) longer scope =
        { scope.after
            ((walk.growing name wrap longer terms scope.queue scope.subst active).1, queue)
          with locals := (run, .guard (.run final)) :: locals } ∧
      (ArgumentQueue.Guard.run final).release queue =
        (walk.growing name wrap longer terms scope.queue scope.subst active).2 := by
  -- Every round replaces the run, which is the local variable defined last.
  have hrun {scope : Scope} {terms : List Term}
      (hlocals : scope.locals = (run, .guard (.run terms)) :: locals) :
      scope.run? run = some terms := by
    simp [Scope.run?, Scope.find?, hlocals]
  induction longer generalizing terms scope with
  | zero =>
    refine ⟨terms, _, ?_, rfl⟩
    rw [growingLoop, within_eq (h scope terms hactive (hrun hlocals)), ← hlocals]
    rfl
  | succ longer ih =>
    have hwithin := within_eq (h scope terms hactive (hrun hlocals))
    have hafter : (scope.after (walk.binding name (.ofRun terms wrap) scope.queue scope.subst
        active)).locals = (run, .guard (.run terms)) :: locals := hlocals
    unfold growingLoop Walk.growing
    simp only [hwithin, hrun hafter, Option.bind_some, Scope.after_queue]
    cases hgrow : (walk.binding name (.ofRun terms wrap) scope.queue scope.subst
        active).2.grow? terms with
    | none =>
      refine ⟨terms, _, ?_, rfl⟩
      rw [← hlocals]
      rfl
    | some grown =>
      obtain ⟨longerRun, queue⟩ := grown
      obtain ⟨final, left, hloop, hrelease⟩ := ih longerRun
        (({ scope.after (walk.binding name (.ofRun terms wrap) scope.queue scope.subst
            active) with queue } : Scope).assign run (.guard (.run longerRun))) hactive
        (by simp [Scope.assign, Scope.assignIn, hlocals])
      refine ⟨final, left, ?_, hrelease⟩
      dsimp only
      rw [hloop]
      simp [Scope.after, Scope.assign]

/-- **Taking a run** and going on with it, and with each longer one. -/
theorem performs_growing
    (h : PerformsRun env active run block fun terms => walk.binding name (.ofRun terms wrap))
    (minCount : Nat) :
    Performs env active [.ifOpens run (.takeRun minCount) [.growing run block]]
      fun queue σ active =>
        match queue.takeRun? minCount with
        | some (taken, rest) => walk.growing name wrap rest.remaining taken rest σ active
        | none => ([], queue) := by
  intro scope hactive
  show Statement.run env (.ifOpens run (.takeRun minCount) [.growing run block]) scope = _
  simp only [Statement.run, Opening.apply]
  cases htake : scope.queue.takeRun? minCount with
  | none => exact Scope.after_nothing.symm
  | some found =>
    obtain ⟨taken, rest⟩ := found
    -- The guard has grown with the run, and gives back all of it in the end.
    obtain ⟨final, left, hloop, hrelease⟩ := growingLoop_eq h rest.remaining taken
      (({ scope with queue := rest } : Scope).define run (.guard (.run taken))) hactive rfl
    simp only [Option.map_some, Scope.within]
    show ((growingLoop run (Statement.runAll env block) rest.remaining _).leave _).dropGuard = _
    rw [hloop]
    simp only [Scope.leave, Scope.define, Scope.after, List.length_cons, Nat.sub_self,
      List.drop_zero, Scope.dropGuard, hrelease]

/-- **The matches of a commutative operation,** one after the other. -/
theorem foundLoop_eq {pattern found : String} {body : Scope → Scope} {branch : Nat → Walk}
    {ms : List Match}
    (h : ∀ m ∈ ms, ∀ scope : Scope, scope.active = active →
      scope.Ends (branch m.1 scope.queue m.2 active)
        (body ((scope.define pattern (.pattern m.1)).define found (.subst m.2))))
    (scope : Scope) (hactive : scope.active = active) :
    foundLoop pattern found body ms scope =
      scope.after (walkFound branch active ms scope.queue) := by
  induction ms generalizing scope with
  | nil => exact Scope.after_nothing.symm
  | cons m rest ih =>
    have hwithin : scope.within (fun scope =>
        body ((scope.define pattern (.pattern m.1)).define found (.subst m.2))) =
          scope.after (branch m.1 scope.queue m.2 active) :=
      (h m List.mem_cons_self scope hactive).leave_eq
    obtain ⟨index, σ⟩ := m
    rw [foundLoop, hwithin,
      ih (fun m hm => h m (List.mem_cons_of_mem _ hm)) (scope.after _) hactive,
      Scope.after_after]
    rfl

end TermNet.Code
