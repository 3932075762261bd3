import TermNet.Proofs.Code.Blocks
import TermNet.Proofs.Code.Emits
import TermNet.Proofs.Net.Plain

namespace TermNet.Code

open TermNet.Source

/-!
# The code of an edge

What is emitted for an edge does what a walk through the edge does, once the functions that it
calls and the matchers that it asks do what they should.

* `Denotes` — the path of a custom check stands for its function;
* `performsWithin_emitProceed`, `performs_emitSkip`, `runAll_emitBind` — going on from an edge;
* `performs_emitGuarded`, `performs_take` — consuming what an edge asks for.
-/

variable {env : Environment} {scope : NetScope} {edge : Edge} {block : List Statement}
variable {e e' : Emission} {target : Walk}

/-! ### Checks -/

/-- **The path of a custom check** stands for its function. -/
def Denotes (checks : Source.Path → List Binding → Bool) : Check → Prop
  | .builtin _ => True
  | .custom text function => ∀ path, Source.Path.ofText? text = some path → checks path = function

/-- The paths of the custom checks of a registry stand for their functions. -/
def AllDenote (checks : Source.Path → List Binding → Bool) (registry : ConstraintRegistry) : Prop :=
  ∀ id c, registry.get? id = some c → Denotes checks c.check

/-- A condition holds where the constraint does. -/
theorem holds_emitCondition {c : Constraint} {condition : Condition}
    (h : Emits (emitCondition c) e condition e') (hdenotes : Denotes env.checks c.check)
    (σ : Substitution) : condition.holds env σ = c.holds σ := by
  obtain ⟨check, names⟩ := c
  cases check with
  | builtin predicate =>
    obtain ⟨rfl, -⟩ := emits_pure.mp h
    rfl
  | custom text function =>
    simp only [emitCondition] at h
    split at h
    · exact (emits_throw.mp h).elim
    -- Whether the path is readable is noted in the emission, the condition is the same.
    · rename_i path hpath
      have hcallee : condition = ⟨.custom path, names⟩ := by
        split at h
        · exact (emits_pure.mp h).1.symm
        · obtain ⟨_, _, -, h⟩ := emits_bind.mp h
          exact (emits_pure.mp h).1.symm
      rw [hcallee]
      show σ.satisfies names (env.checks path) = σ.satisfies names function
      rw [hdenotes path hpath]

/-- The condition of a constraint adds no items; its path may turn out not to be callable. -/
theorem steady_emitCondition (c : Constraint) : Steady (emitCondition c) := by
  unfold emitCondition
  split
  · exact steady_pure _
  · split
    · intro e a e' h
      exact (emits_throw.mp h).elim
    · dsimp only
      split
      · exact steady_pure _
      · refine Steady.bind (fun e _ e' h => ?_) fun _ => steady_pure _
        exact emits_modify.mp h ▸ .single (.readable false)

/-- A registered constraint holds where its condition does; there is none for others. -/
theorem all_emitRegistered {id : ConstraintId} {condition : Option Condition}
    (h : Emits (emitRegistered scope id) e condition e')
    (hdenote : AllDenote env.checks scope.registry) (σ : Substitution) :
    condition.toList.all (·.holds env σ) = scope.registry.holds id σ := by
  unfold emitRegistered at h
  unfold ConstraintRegistry.holds
  cases hget : scope.registry.get? id with
  | none =>
    rw [hget] at h
    obtain ⟨rfl, -⟩ := emits_pure.mp h
    rfl
  | some c =>
    rw [hget] at h
    simp only [emits_bind, emits_pure] at h
    obtain ⟨found, _, hfound, rfl, -⟩ := h
    simp [holds_emitCondition hfound (hdenote id c hget)]

/-- The condition of a registered constraint, if there is one. -/
theorem steady_emitRegistered (scope : NetScope) (id : ConstraintId) :
    Steady (emitRegistered scope id) := by
  unfold emitRegistered
  split
  · exact (steady_emitCondition _).bind fun _ => steady_pure _
  · exact steady_pure _

/-- The checks of an edge, by induction on its constraints. -/
theorem steady_emitChecks (scope : NetScope) (narrowed : String) (ids : List ConstraintId) :
    Steady (emitChecks scope narrowed ids) := by
  induction ids with
  | nil => exact steady_pure _
  | cons id rest ih =>
    exact (steady_emitRegistered scope id).bind fun _ => ih.bind fun _ => steady_pure _

/-- A failing condition takes its owners out of the active patterns. -/
theorem run_unlessHolds (env : Environment) (condition : Condition) (owners : List Nat)
    {narrowed : String} {locals : List (String × Local)} {smaller : Option IndexSet} (s : Scope)
    (hlocals : s.locals = (narrowed, .narrowed smaller) :: locals) :
    ∃ smaller', Statement.run env (.unlessHolds condition narrowed owners) s =
        { s with locals := (narrowed, .narrowed smaller') :: locals } ∧
      smaller'.getD s.active = if condition.holds env s.subst then smaller.getD s.active
        else (smaller.getD s.active).eraseAll owners := by
  simp only [Statement.run]
  split
  · exact ⟨smaller, by rw [← hlocals], rfl⟩
  · refine ⟨some ((smaller.getD s.active).eraseAll owners), ?_, rfl⟩
    simp [Scope.narrowed?, Scope.find?, Scope.assign, Scope.assignIn, hlocals]

/-- **The checks of an edge** narrow the active patterns as its constraints do. -/
theorem runAll_emitChecks {narrowed : String} {ids : List ConstraintId} {checks : List Statement}
    (h : Emits (emitChecks scope narrowed ids) e checks e')
    (hdenote : AllDenote env.checks scope.registry) {locals : List (String × Local)}
    {smaller : Option IndexSet} (s : Scope)
    (hlocals : s.locals = (narrowed, .narrowed smaller) :: locals) :
    ∃ smaller', Statement.runAll env checks s =
        { s with locals := (narrowed, .narrowed smaller') :: locals } ∧
      smaller'.getD s.active =
        scope.registry.narrow ids s.subst (smaller.getD s.active) := by
  induction ids generalizing e e' checks smaller s with
  | nil =>
    obtain ⟨rfl, -⟩ := emits_pure.mp h
    exact ⟨smaller, by rw [← hlocals]; rfl, rfl⟩
  | cons id rest ih =>
    simp only [emitChecks, emits_bind, emits_pure] at h
    obtain ⟨condition, _, hcondition, later, _, hlater, rfl, -⟩ := h
    have hholds := all_emitRegistered hcondition hdenote s.subst
    rw [runAll_append]
    cases condition with
    | none =>
      have htrue : scope.registry.holds id s.subst = true := hholds.symm
      obtain ⟨smaller', hrun, hactive⟩ := ih hlater s hlocals
      refine ⟨smaller', hrun, ?_⟩
      rw [hactive]
      simp [ConstraintRegistry.narrow, htrue]
    | some condition =>
      have hcond : condition.holds env s.subst = scope.registry.holds id s.subst := by
        simpa using hholds
      -- A condition that fails takes the patterns with this constraint out of the active ones.
      obtain ⟨between, hrun, hactive⟩ := run_unlessHolds env condition
        (scope.registry.owners id) s hlocals
      obtain ⟨smaller', hrest, hnarrow⟩ :=
        ih hlater { s with locals := (narrowed, .narrowed between) :: locals } rfl
      refine ⟨smaller', ?_, ?_⟩
      · show Statement.runAll env later (Statement.run env _ s) = _
        rw [hrun, hrest]
      · rw [hnarrow, hactive, hcond]
        rfl

/-! ### Going on from an edge -/

variable {active : IndexSet}

/-- Going on from an edge names a variable where there are constraints. -/
theorem steady_emitProceed (scope : NetScope) (edge : Edge) : Steady (emitProceed scope edge) := by
  unfold emitProceed
  split
  · exact steady_pure _
  · exact (steady_freshName _).bind fun _ =>
      (steady_emitChecks scope _ _).bind fun _ => steady_pure _

/-- What code behind an edge relies on: the paths of custom checks stand for their functions,
    and the function of the target does what a walk from there does. -/
structure GoesOn (env : Environment) (scope : NetScope) (edge : Edge) (target : Walk) : Prop where
  denote : AllDenote env.checks scope.registry
  call : env.call (stateFunctionName scope.stem edge.id) = target

/-- The walk behind an edge. -/
abbrev NetScope.behind (scope : NetScope) (edge : Edge) (target : Walk) : Walk :=
  proceed scope.registry edge.patterns edge.constraints target

/-- Without constraints, an edge that an active pattern uses leads right to its target. -/
theorem performs_emitProceed (h : Emits (emitProceed scope edge) e block e')
    (hon : GoesOn env scope edge target) (hmeets : active.meets edge.patterns = true)
    (hquiet : edge.constraints = []) : Performs env active block (scope.behind edge target) := by
  simp only [emitProceed, hquiet, List.isEmpty_nil, if_true] at h
  obtain ⟨rfl, -⟩ := emits_pure.mp h
  intro s hactive
  rw [performs_call hon.call s hactive]
  simp [NetScope.behind, proceed, hquiet, ConstraintRegistry.narrow, hmeets]

/-- **Going on from an edge** that an active pattern uses. -/
theorem performsWithin_emitProceed (h : Emits (emitProceed scope edge) e block e')
    (hon : GoesOn env scope edge target) (hmeets : active.meets edge.patterns = true) :
    PerformsWithin env active block (scope.behind edge target) := by
  by_cases hquiet : edge.constraints = []
  · exact (performs_emitProceed h hon hmeets hquiet).within
  rintro s rfl
  simp only [emitProceed, List.isEmpty_iff, hquiet, if_false, emits_bind, emits_pure] at h
  obtain ⟨narrowed, _, -, checks, _, hchecks, rfl, -⟩ := h
  obtain ⟨smaller, hrun, hactive⟩ :=
    runAll_emitChecks hchecks hon.denote (s.define narrowed (.narrowed none)) rfl
  rw [List.cons_append]
  show s.Ends _ (Statement.runAll env (checks ++ _) (s.define narrowed (.narrowed none)))
  rw [runAll_append, hrun]
  have hnarrowed : ({ s.define narrowed (.narrowed none) with
      locals := (narrowed, .narrowed smaller) :: s.locals } : Scope).narrowed? narrowed =
        smaller := by
    simp [Scope.narrowed?, Scope.find?]
  show s.Ends _ (Statement.runAll env [.ifActive edge.patterns _] (Statement.run env
    (.shadowActive narrowed) _))
  simp only [Statement.run, hnarrowed]
  rw [performs_ifActive (fun _ => (performs_call hon.call).within) _ rfl]
  have hopens : s.Opens { s.define narrowed (.narrowed none) with
      locals := (narrowed, .narrowed smaller) :: s.locals
      active := smaller.getD s.active } := ⟨⟨[(narrowed, .narrowed smaller)], rfl⟩, rfl⟩
  refine Scope.Ends.of_opens ?_ hopens
  have hnarrow : smaller.getD s.active =
      scope.registry.narrow edge.constraints s.subst s.active := hactive
  unfold NetScope.behind proceed
  dsimp only
  rw [← hnarrow]
  exact Scope.ends_after

/-- Binding a variable names one, too. -/
theorem steady_emitBind (scope : NetScope) (edge : Edge) (value : BoundValue) :
    Steady (emitBind scope edge value) := by
  unfold emitBind
  refine (steady_emitProceed scope edge).bind fun next => ?_
  split
  · exact steady_pure _
  · exact (steady_freshName _).bind fun _ => steady_pure _

/-- **Binding the variable of an edge** and going on from it. -/
theorem runAll_emitBind {value : BoundValue} (h : Emits (emitBind scope edge value) e block e')
    (hon : GoesOn env scope edge target) (hmeets : active.meets edge.patterns = true)
    (hquiet : edge.variableName = none → edge.constraints = []) {s : Scope}
    (hactive : s.active = active) {binding : Binding}
    (hvalue : value.binding? env s = some binding) :
    Statement.runAll env block s =
      s.after ((scope.behind edge target).binding edge.variableName binding s.queue s.subst
        active) := by
  obtain ⟨next, _, hnext, h⟩ := emits_bind.mp h
  unfold Walk.binding
  cases hname : edge.variableName with
  | none =>
    rw [hname] at h
    obtain ⟨rfl, -⟩ := emits_pure.mp h
    exact performs_emitProceed hnext hon hmeets (hquiet hname) s hactive
  | some name =>
    simp only [hname, emits_bind, emits_pure] at h
    obtain ⟨extended, _, -, rfl, -⟩ := h
    show Statement.run env (.ifExtends extended name value (.shadowSubst extended :: next)) s = _
    simp only [Statement.run, hvalue]
    -- With another binding for the variable the block is not entered, and nothing is found.
    cases hextend : s.subst.extend? name binding with
    | none => exact Scope.after_nothing.symm
    | some σ =>
      have hends := performsWithin_emitProceed hnext hon hmeets
        { s.define extended (.subst σ) with subst := σ } hactive
      have hopens : s.Opens { s.define extended (.subst σ) with subst := σ } :=
        ⟨⟨[(extended, .subst σ)], rfl⟩, rfl⟩
      refine Eq.trans (congrArg (Scope.leave · s) ?_) (hends.of_opens hopens).leave_eq
      show Statement.runAll env next (Statement.run env (.shadowSubst extended) _) = _
      simp only [Statement.run, Scope.find?_define]

/-- Going on with the default adds its static item. -/
theorem steady_emitSkip (scope : NetScope) (edge : Edge) (default : Option Term) :
    Steady (emitSkip scope edge default) := by
  cases default with
  | none => exact steady_pure _
  | some t => exact (steady_emitExpression t).bind fun name => steady_emitBind scope edge _

/-- **Binding the default** and going on, with nothing left of it in the same block. -/
theorem performs_emitSkip {default : Option Term}
    (h : Emits (emitSkip scope edge default) e block e') (hon : GoesOn env scope edge target)
    (hmeets : active.meets edge.patterns = true)
    (hquiet : edge.variableName = none → edge.constraints = [])
    (hcanonical : ∀ t ∈ default, t.Canonical) (hknown : e'.KnownTo env.heads env.expressions) :
    Performs env active block
      ((scope.behind edge target).skipping edge.variableName default) := by
  cases default with
  | none =>
    obtain ⟨rfl, -⟩ := emits_pure.mp h
    exact performs_nil
  | some t =>
    obtain ⟨name, between, hname, hbind⟩ := emits_bind.mp h
    obtain ⟨-, index, hindex, rfl⟩ := emits_emitExpression hname
    have hvalue : env.expressions (expressionName index) = some t :=
      (hknown.of_reaches (steady_emitBind _ _ _ _ _ _ hbind)).expressions index t hindex
        (hcanonical t rfl)
    rintro s rfl
    exact runAll_emitBind hbind hon hmeets hquiet rfl (by simp [BoundValue.binding?, hvalue])

/-! ### Consuming -/

/-- A guard is a local variable. -/
theorem steady_emitGuarded (scope : NetScope) (edge : Edge) (base : String) (opening : Opening) :
    Steady (emitGuarded scope edge base opening) :=
  (steady_freshName base).bind fun _ =>
    (steady_emitProceed scope edge).bind fun _ => steady_pure _

/-- A guard, and going on from the edge within it. -/
theorem performs_emitGuarded {base : String} {opening : Opening}
    (h : Emits (emitGuarded scope edge base opening) e block e')
    (hon : GoesOn env scope edge target) (hmeets : active.meets edge.patterns = true) :
    Performs env active block fun queue σ active =>
      match opening.apply env queue with
      | none => ([], queue)
      | some (opened, rest) => (scope.behind edge target).guarded opened rest σ active := by
  simp only [emitGuarded, emits_bind, emits_pure] at h
  obtain ⟨guard, _, -, next, _, hnext, rfl, -⟩ := h
  rintro s rfl
  refine run_ifOpens _ _ _ _ _ _ fun opened queue _ => ?_
  exact performsWithin_emitProceed hnext hon hmeets _ rfl

/-- Taking one argument and binding it. -/
theorem performs_take {guard item : String} {opening : Opening} {accept : Term → Bool}
    {next : List Statement} (happly : ∀ queue, opening.apply env queue = takeGuard accept queue)
    (hnext : Emits (emitBind scope edge (.item item)) e next e')
    (hon : GoesOn env scope edge target) (hmeets : active.meets edge.patterns = true)
    (hquiet : edge.variableName = none → edge.constraints = []) :
    Performs env active
      [.ifOpens guard opening (.letItem item guard :: .shadowSubjects guard :: next)]
      fun queue σ active =>
        match queue.takeIf? accept with
        | some (t, rest) =>
          ((scope.behind edge target).binding edge.variableName (.single t)).guarded (.taken t)
            rest σ active
        | none => ([], queue) := by
  rintro s rfl
  have hguard := run_ifOpens env guard opening
    (.letItem item guard :: .shadowSubjects guard :: next) s
    (fun opened => match opened with
      | .taken t => (scope.behind edge target).binding edge.variableName (.single t)
      | _ => .nothing) ?_
  · refine hguard.trans (congrArg s.after ?_)
    rw [happly, takeGuard]
    dsimp only
    cases s.queue.takeIf? accept <;> rfl
  · intro opened queue hopened
    rw [happly, takeGuard] at hopened
    obtain ⟨⟨t, rest⟩, -, hopened⟩ := Option.map_eq_some_iff.mp hopened
    obtain ⟨rfl, rfl⟩ := Prod.mk.inj hopened
    refine Scope.Ends.of_opens ?_ (Scope.opens_define item (.item t))
    have hitem : (({ s with queue := rest } : Scope).define guard (.guard (.taken t))).item? guard =
        some t := by
      simp [Scope.item?]
    let inner := (({ s with queue := rest } : Scope).define guard (.guard (.taken t))).define item
      (.item t)
    have hvalue : (BoundValue.item item).binding? env inner = some (.single t) := by
      simp [inner, BoundValue.binding?, Scope.item?]
    have hbind := runAll_emitBind hnext hon hmeets hquiet (s := inner) rfl hvalue
    show Scope.Ends _ _ (Statement.runAll env next (Statement.run env (.shadowSubjects guard)
      (Statement.run env (.letItem item guard) _)))
    simp only [Statement.run, hitem]
    rw [hbind]
    exact Scope.ends_after

/-- The binding for a run, and going on from the edge with it. -/
theorem performsRun_emitBind {run binding : String} {wrapName : Option String}
    {wrap : Option Head} {next : List Statement} (hwrap : wrapName.bind env.heads = wrap)
    (hnext : Emits (emitBind scope edge (.binding binding)) e next e')
    (hon : GoesOn env scope edge target) (hmeets : active.meets edge.patterns = true)
    (hquiet : edge.variableName = none → edge.constraints = []) :
    PerformsRun env active run
      [.letBinding binding run wrapName, .block (.shadowSubjects run :: next)]
      fun terms => (scope.behind edge target).binding edge.variableName (.ofRun terms wrap) := by
  rintro s terms rfl hrun
  refine Scope.Ends.of_opens ?_ (Scope.opens_define binding (.binding (.ofRun terms wrap)))
  let inner := s.define binding (.binding (.ofRun terms wrap))
  have hvalue : (BoundValue.binding binding).binding? env inner = some (.ofRun terms wrap) := by
    simp [inner, BoundValue.binding?]
  have hbind := runAll_emitBind hnext hon hmeets hquiet (s := inner) rfl hvalue
  show Scope.Ends _ _ (Statement.run env (.block (.shadowSubjects run :: next))
    (Statement.run env (.letBinding binding run wrapName) s))
  simp only [Statement.run, hrun, hwrap]
  have hends : (s.define binding (.binding (.ofRun terms wrap))).Ends
      ((scope.behind edge target).binding edge.variableName (.ofRun terms wrap) s.queue s.subst
        s.active)
      (Statement.runAll env (.shadowSubjects run :: next)
        (s.define binding (.binding (.ofRun terms wrap)))) := by
    show Scope.Ends _ _ (Statement.runAll env next (Statement.run env (.shadowSubjects run) _))
    simp only [Statement.run]
    rw [hbind]
    exact Scope.ends_after
  rw [within_eq hends]
  exact Scope.ends_after

/-- The static item of the head of a run, if there is a head. -/
def emitWrap : Option Head → Emit (Option String)
  | some head => some <$> emitHead head
  | none => pure none

/-- The static item of a head that runs are put under stands for that head. -/
theorem bind_emitWrap {wrap : Option Head} {name : Option String}
    (h : Emits (emitWrap wrap) e name e') (hknown : HeadsKnown e'.heads env.heads) :
    name.bind env.heads = wrap := by
  cases wrap with
  | none =>
    obtain ⟨rfl, -⟩ := emits_pure.mp h
    rfl
  | some head =>
    obtain ⟨name, hname, rfl⟩ := emits_map.mp h
    obtain ⟨-, index, hindex, rfl⟩ := emits_emitHead hname
    exact hknown index head hindex

/-- The head that runs are put under gets its static item, if there is such a head. -/
theorem steady_emitWrap (wrap : Option Head) : Steady (emitWrap wrap) := by
  cases wrap with
  | none => exact steady_pure _
  | some head => exact (steady_emitHead head).map _

end TermNet.Code
