import TermNet.Proofs.Code.Operations
import TermNet.Proofs.Net.Operands
import TermNet.Proofs.Structure

namespace TermNet

/-!
# The functions of states

Every state but those behind commutative operations has a function.  It does what a walk from
the state does, if the functions that it calls and the matchers that it asks do what they should.

No function calls itself, not even through others: the function of a state calls those of the
states right below it, and asks matchers, whose functions are those of other nets.  So calls are
nested no deeper than there are functions, and with as many the function of every state does what
a walk from the state does.

* `State.hasFunction`, `State.functionCount` — which states have functions, and how many
  functions there are for a tree;
* `performs_emitState` — the body of a function;
* `exists_of_emitStates` — the functions of numbered states;
* `Module.environment`, `Module.call_eq` — a function that is called;
* `Module.Hosts` — what is known of a net whose functions are in a module;
* `Module.Hosts.call_eq_walk` — calling the function of a state.
-/

/-- Whether a state has a function. -/
def State.hasFunction : State → Bool
  | .branch _ | .accept _ => true
  | .commutative .. => false

/-- An ordinary edge leads to a state with a function. -/
theorem State.Formed.hasFunction_target {matchers : List CommutativeMatcher} {stage : Stage}
    {state : State} (h : state.Formed matchers stage) {edge : Edge} (hedge : edge ∈ state.edges)
    (hlabel : ∀ head, edge.label ≠ .commutative head) : edge.target.hasFunction = true := by
  cases htarget : edge.target with
  | branch edges => rfl
  | commutative position branches =>
    obtain ⟨head, heq, -⟩ := h.label_of_target hedge htarget
    exact absurd heq (hlabel head)
  | accept markers => rfl

/-- The state where a net begins has a function. -/
theorem Net.Formed.hasFunction_root {net : Net} (h : net.Formed) :
    net.root.hasFunction = true := by
  have hstands := h.root.stands
  cases hroot : net.root with
  | branch edges => rfl
  | commutative position branches =>
    rw [hroot] at hstands
    obtain ⟨_, _, heq, -⟩ := hstands
    exact Stage.noConfusion heq
  | accept markers => rfl

mutual

/-- Number of states with functions in a tree. -/
def State.functionCount : State → Nat
  | .branch edges => 1 + functionsBelow edges
  | .commutative _ edges => functionsBelow edges
  | .accept _ => 1
termination_by structural state => state

/-- Number of states with functions below edges. -/
def functionsBelow : List Edge → Nat
  | [] => 0
  | ⟨_, _, _, _, _, target⟩ :: rest => State.functionCount target + functionsBelow rest
termination_by structural edges => edges

end

/-- Behind one edge there are no more functions than behind all of them. -/
theorem functionCount_target_le {edges : List Edge} {edge : Edge} (h : edge ∈ edges) :
    edge.target.functionCount ≤ functionsBelow edges := by
  induction edges with
  | nil => exact absurd h List.not_mem_nil
  | cons first rest ih =>
    obtain ⟨label, name, patterns, constraints, id, target⟩ := first
    rw [functionsBelow]
    rcases List.mem_cons.mp h with rfl | h
    · exact Nat.le_add_right _ _
    · exact (ih h).trans (Nat.le_add_left _ _)

/-- A state with a function adds one to those below it. -/
theorem State.functionCount_eq {state : State} (h : state.hasFunction = true) :
    state.functionCount = 1 + functionsBelow state.edges := by
  cases state with
  | branch edges => rfl
  | commutative position edges => simp [hasFunction] at h
  | accept markers => rfl

/-- Below a state there are no more functions than in its whole tree. -/
theorem State.functionsBelow_le (state : State) :
    functionsBelow state.edges ≤ state.functionCount := by
  cases state with
  | branch edges => exact Nat.le_add_left _ _
  | commutative position edges => exact Nat.le_refl _
  | accept markers => exact Nat.zero_le _

mutual

/-- The functions of a tree are those of its states, each counted once. -/
theorem countP_numbered (id : StateId) (state : State) :
    (state.numbered id).countP (·.2.hasFunction) =
      state.functionCount := by
  cases state with
  | branch edges =>
    rw [State.numbered, List.countP_cons, countP_numberedBelow edges, State.functionCount]
    exact Nat.add_comm _ _
  | commutative position edges =>
    rw [State.numbered, List.countP_cons, countP_numberedBelow edges, State.functionCount]
    rfl
  | accept markers => rfl
termination_by structural state

/-- The functions below edges are those of the states behind them. -/
theorem countP_numberedBelow (edges : List Edge) :
    (State.numberedBelow edges).countP (·.2.hasFunction) =
      functionsBelow edges := by
  cases edges with
  | nil => rfl
  | cons edge rest =>
    obtain ⟨label, name, patterns, constraints, id, target⟩ := edge
    rw [State.numberedBelow, List.countP_append, countP_numbered id target,
      countP_numberedBelow rest, functionsBelow]
termination_by structural edges

end

namespace Code

variable {env : Environment} {scope : NetScope} {block : List Statement}
variable {e e' : Emission} {active : IndexSet} {matchers : List OperandMatcher}

/-! ### The end of patterns -/

/-- The conditions of a marker add no items at all. -/
theorem steady_emitGlobals (scope : NetScope) (ids : List ConstraintId) :
    Steady (emitGlobals scope ids) := by
  induction ids with
  | nil => exact steady_pure _
  | cons id rest ih =>
    exact (steady_emitRegistered scope id).bind fun _ => ih.bind fun _ => steady_pure _

/-- The conditions of constraints hold where the constraints do. -/
theorem all_emitGlobals {ids : List ConstraintId} {conditions : List Condition}
    (h : Emits (emitGlobals scope ids) e conditions e')
    (hdenote : AllDenote env.checks scope.registry) (σ : Substitution) :
    conditions.all (·.holds env σ) = ids.all (scope.registry.holds · σ) := by
  induction ids generalizing e e' conditions with
  | nil =>
    obtain ⟨rfl, -⟩ := emits_pure.mp h
    rfl
  | cons id rest ih =>
    simp only [emitGlobals, emits_bind, emits_pure] at h
    obtain ⟨condition, _, hcondition, later, _, hlater, rfl, -⟩ := h
    rw [List.all_append, all_emitRegistered hcondition hdenote, ih hlater, List.all_cons]

/-- The markers of an accepting state, by induction on them. -/
theorem steady_emitMarkers (scope : NetScope) (markers : List Marker) :
    Steady (emitMarkers scope markers) := by
  induction markers with
  | nil => exact steady_pure _
  | cons marker rest ih =>
    exact (steady_emitGlobals scope _).bind fun _ => ih.bind fun _ => steady_pure _

/-- **The code of markers** adds their matches. -/
theorem runAll_emitMarkers {markers : List Marker}
    (h : Emits (emitMarkers scope markers) e block e')
    (hdenote : AllDenote env.checks scope.registry) (s : Scope) :
    Statement.runAll env block s =
      s.after (acceptMarkers scope.registry markers s.subst s.active, s.queue) := by
  induction markers generalizing e e' block s with
  | nil =>
    obtain ⟨rfl, -⟩ := emits_pure.mp h
    exact Scope.after_nothing.symm
  | cons marker rest ih =>
    simp only [emitMarkers, emits_bind, emits_pure] at h
    obtain ⟨globals, _, hglobals, later, _, hlater, rfl, -⟩ := h
    have hall := all_emitGlobals hglobals hdenote s.subst
    -- One marker adds its match if its pattern is active and its global constraints hold.
    have hfirst : Statement.run env (.ifAccepts marker.pattern globals
        [.pushResult marker.pattern marker.pairs]) s =
          s.after (acceptMarkers scope.registry [marker] s.subst s.active, s.queue) := by
      simp only [Statement.run, Statement.runAll, hall, acceptMarkers, List.filterMap_cons,
        List.filterMap_nil]
      split
      · simp [Scope.within, Scope.leave, Scope.after]
      · exact Scope.after_nothing.symm
    have hcons : acceptMarkers scope.registry (marker :: rest) s.subst s.active =
        acceptMarkers scope.registry [marker] s.subst s.active ++
          acceptMarkers scope.registry rest s.subst s.active := by
      unfold acceptMarkers
      rw [← List.filterMap_append]
      rfl
    show Statement.runAll env later (Statement.run env _ s) = _
    rw [hfirst, ih hlater, Scope.after_after, hcons]
    rfl

/-- **An accepting state** collects the patterns that its markers accept, with nothing left. -/
theorem performs_ifExhausted {markers : List Marker} {body : List Statement}
    (h : Emits (emitMarkers scope markers) e body e')
    (hdenote : AllDenote env.checks scope.registry) :
    Performs env active [.ifExhausted body]
      ((State.accept markers).walk scope.registry matchers) := by
  rintro s rfl
  show Statement.run env (.ifExhausted body) s = _
  simp only [Statement.run, State.walk]
  split
  · exact within_eq (runAll_emitMarkers h hdenote s ▸ Scope.ends_after)
  · exact Scope.after_nothing.symm

/-! ### Functions -/

/-- The function of a state adds static items only. -/
theorem steady_emitState (scope : NetScope) (id : StateId) (state : State) :
    Steady (emitState scope id state) := by
  cases state with
  | branch edges => exact (steady_emitEdges scope edges).bind fun _ => steady_pure _
  | commutative position edges => exact steady_pure _
  | accept markers => exact (steady_emitMarkers scope markers).bind fun _ => steady_pure _

/-- The name of a function is that of its state. -/
theorem emits_emitState {id : StateId} {state : State} {function : Option StateFunction}
    (h : Emits (emitState scope id state) e function e') :
    function.map StateFunction.name =
      if state.hasFunction then some (stateFunctionName scope.stem id) else none := by
  cases state with
  | branch edges =>
    simp only [emitState, emits_bind, emits_pure] at h
    obtain ⟨body, _, -, rfl, -⟩ := h
    rfl
  | commutative position edges =>
    obtain ⟨rfl, -⟩ := emits_pure.mp h
    rfl
  | accept markers =>
    simp only [emitState, emits_bind, emits_pure] at h
    obtain ⟨body, _, -, rfl, -⟩ := h
    rfl

/-- **The body of the function of a state** does what a walk from the state does. -/
theorem performs_emitState {id : StateId} {state : State} {function : StateFunction}
    (h : Emits (emitState scope id state) e (some function) e')
    (hedges : ∀ edge ∈ state.edges, edge.Plain ∧ Linked env scope matchers edge)
    (hdenote : AllDenote env.checks scope.registry)
    (hknown : e'.KnownTo env.heads env.expressions) :
    Performs env active function.body (state.walk scope.registry matchers) := by
  cases state with
  | branch edges =>
    simp only [emitState, emits_bind, emits_pure] at h
    obtain ⟨body, _, hbody, heq, rfl⟩ := h
    obtain rfl := Option.some.inj heq
    exact performs_emitEdges hbody hedges hknown
  | commutative position edges => simp [emitState] at h
  | accept markers =>
    simp only [emitState, emits_bind, emits_pure] at h
    obtain ⟨body, _, hbody, heq, rfl⟩ := h
    obtain rfl := Option.some.inj heq
    exact performs_ifExhausted hbody hdenote

/-- The functions of states, one after the other. -/
theorem steady_emitStates (scope : NetScope) (states : List (StateId × State)) :
    Steady (emitStates scope states) := by
  induction states with
  | nil => exact steady_pure _
  | cons entry rest ih =>
    exact (steady_emitState scope entry.1 entry.2).bind fun _ => ih.bind fun _ => steady_pure _

/-- **The functions of numbered states,** by their names. -/
theorem map_name_emitStates {states : List (StateId × State)} {functions : List StateFunction}
    (h : Emits (emitStates scope states) e functions e') :
    functions.map StateFunction.name = ((states.filter fun entry =>
      entry.2.hasFunction).map fun entry => stateFunctionName scope.stem entry.1) := by
  induction states generalizing e e' functions with
  | nil =>
    obtain ⟨rfl, -⟩ := emits_pure.mp h
    rfl
  | cons entry rest ih =>
    simp only [emitStates, emits_bind, emits_pure] at h
    obtain ⟨function, _, hfunction, later, _, hlater, rfl, -⟩ := h
    have hname := emits_emitState hfunction
    rw [List.map_append, ih hlater, List.filter_cons]
    cases hstate : entry.2.hasFunction with
    | false =>
      rw [hstate] at hname
      obtain rfl := Option.map_eq_none_iff.mp hname
      rfl
    | true =>
      rw [hstate] at hname
      obtain ⟨function, rfl, hfound⟩ := Option.map_eq_some_iff.mp hname
      simp [hfound]

/-- Every state with a function has been emitted at some point. -/
theorem exists_of_emitStates {states : List (StateId × State)} {functions : List StateFunction}
    (h : Emits (emitStates scope states) e functions e') {entry : StateId × State}
    (hentry : entry ∈ states) (hstate : entry.2.hasFunction = true) :
    ∃ function ∈ functions, function.name = stateFunctionName scope.stem entry.1 ∧
      ∃ before after, Emits (emitState scope entry.1 entry.2) before (some function) after ∧
        after.Reaches e' := by
  induction states generalizing e e' functions with
  | nil => exact absurd hentry List.not_mem_nil
  | cons first rest ih =>
    simp only [emitStates, emits_bind, emits_pure] at h
    obtain ⟨function, between, hfunction, later, last, hlater, rfl, rfl⟩ := h
    rcases List.mem_cons.mp hentry with rfl | hentry
    · have hname := emits_emitState hfunction
      rw [hstate] at hname
      obtain ⟨function, rfl, hfound⟩ := Option.map_eq_some_iff.mp hname
      exact ⟨function, by simp, hfound, e, between, hfunction,
        steady_emitStates _ _ _ _ _ hlater⟩
    · obtain ⟨found, hfound, hrest⟩ := ih hlater hentry
      exact ⟨found, List.mem_append_right _ hfound, hrest⟩

/-! ### Calling functions -/

section Calls

/-- What the functions of a module refer to, with calls that are nested so deep at most. -/
def Module.environment (m : Module) (checks : Source.Path → List Binding → Bool) (depth : Nat) :
    Environment :=
  ⟨m.headOf, m.expressionOf, m.matcherOf (m.call checks depth), checks, m.call checks depth⟩

/-- Where all names are different, a name is that of one thing. -/
theorem find?_name_eq {α : Type} {name : α → String} {as : List α} (hnodup : (as.map name).Nodup)
    {a : α} (ha : a ∈ as) : as.find? (fun b => decide (name b = name a)) = some a := by
  induction as with
  | nil => exact absurd ha List.not_mem_nil
  | cons first rest ih =>
    obtain ⟨hfirst, hrest⟩ := List.nodup_cons.mp hnodup
    rcases List.mem_cons.mp ha with rfl | ha
    · simp
    · have hne : name first ≠ name a := fun heq => hfirst (heq ▸ List.mem_map_of_mem ha)
      rw [List.find?_cons_of_neg (by simpa using hne)]
      exact ih hrest ha

variable {m : Module} {checks : Source.Path → List Binding → Bool} {depth : Nat}
variable {scope : NetScope} {matchers : List OperandMatcher} {states : List (StateId × State)}
variable {inner : Nat}

/-- **A function that is called** does what its body does. -/
theorem Module.call_eq (hnodup : (m.states.map StateFunction.name).Nodup)
    {function : StateFunction} (hfunction : function ∈ m.states) {walk : Walk}
    (h : ∀ active, Performs (m.environment checks depth) active function.body walk) :
    m.call checks (depth + 1) function.name = walk := by
  funext queue σ active
  unfold Module.call
  rw [find?_name_eq hnodup hfunction]
  exact (congrArg (fun scope : Scope => (scope.results, scope.queue))
    (h active ⟨[], σ, active, queue, []⟩ rfl)).trans rfl

/-- **What is known of a net whose functions are in a module:** the functions of its states have
    been emitted, and its matchers are asked with calls that are nested `inner` deep. -/
structure Module.Hosts (m : Module) (checks : Source.Path → List Binding → Bool)
    (scope : NetScope) (matchers : List OperandMatcher) (states : List (StateId × State))
    (inner : Nat) : Prop where
  nodup : (m.states.map StateFunction.name).Nodup
  denote : AllDenote checks scope.registry
  plain : ∀ entry ∈ states, ∀ edge ∈ entry.2.edges, edge.Plain
  closed : ∀ entry ∈ states, ∀ edge ∈ entry.2.edges, (edge.id, edge.target) ∈ states
  functions : ∀ entry ∈ states, entry.2.hasFunction = true →
    ∃ function ∈ m.states, function.name = stateFunctionName scope.stem entry.1 ∧
      ∃ before after, Emits (emitState scope entry.1 entry.2) before (some function) after ∧
        after.KnownTo m.headOf m.expressionOf
  matchers : ∀ depth, inner ≤ depth → ∀ (position : Nat) (found : OperandMatcher),
    matchers[position]? = some found →
      m.matcherOf (m.call checks depth) (scope.matcherTypes[position]?.getD "") = some found

/-- The branches behind a commutative operation have different labels. -/
theorem nodup_labels {commutative : List CommutativeMatcher} {stage : Stage} {position : Nat}
    {branches : List Edge} (h : (State.commutative position branches).Formed commutative stage)
    (hplain : ∀ branch ∈ branches, branch.Plain) : (branches.map Edge.label).Nodup := by
  obtain ⟨_, -, hlabels⟩ := h.branches
  have hkeys : (branches.map Edge.key).Nodup := h.distinct
  refine List.Nodup.of_map (fun label => (label, (none : Option String))) ?_
  rw [List.map_map]
  refine (List.map_congr_left fun branch hbranch => ?_) ▸ hkeys
  obtain ⟨index, -, hlabel⟩ := hlabels branch hbranch
  show (branch.label, branch.variableName) = (branch.label, none)
  rw [(hplain branch hbranch).unnamed index hlabel]

namespace Module.Hosts

/-- The functions that a state of a net calls do what walks from their states do. -/
def Calls (m : Module) (checks : Source.Path → List Binding → Bool) (scope : NetScope)
    (matchers : List OperandMatcher) (inner : Nat) (state : State) : Prop :=
  ∀ depth, inner + functionsBelow state.edges ≤ depth → ∀ edge ∈ state.edges,
    (∀ head, edge.label ≠ .commutative head) →
      m.call checks depth (stateFunctionName scope.stem edge.id) =
        edge.target.walk scope.registry matchers

/-- **Calling the function of a state,** and those that the state calls. -/
theorem call_eq_walk {commutative : List CommutativeMatcher}
    (h : m.Hosts checks scope (operandMatchers commutative) states inner) {stage : Stage}
    {state : State} (hformed : state.Formed commutative stage) {id : StateId}
    (hstate : (id, state) ∈ states) :
    Calls m checks scope (operandMatchers commutative) inner state ∧
      (state.hasFunction = true → ∀ depth, inner + state.functionCount ≤ depth →
        m.call checks depth (stateFunctionName scope.stem id) =
          state.walk scope.registry (operandMatchers commutative)) := by
  -- By induction on the states.  Code goes two states deep, since it has no function for the state
  -- of a matcher; that is why `Calls` is stated for the edges out of such a state, too.
  induction hformed generalizing id with
  | @intro stage state stands distinct sound targets ih =>
    have hformed : state.Formed commutative stage := .intro stands distinct sound targets
    have hbehind (edge : Edge) (hedge : edge ∈ state.edges) :=
      (Option.isSome_iff_exists.mp (sound edge hedge).leads).elim fun next hnext =>
        ih edge hedge next hnext (h.closed (id, state) hstate edge hedge)
    have hcalls : Calls m checks scope (operandMatchers commutative) inner state := by
      intro depth hdepth edge hedge hlabel
      have hfunction := hformed.hasFunction_target hedge hlabel
      have hle := functionCount_target_le hedge
      exact (hbehind edge hedge).2 hfunction depth (by omega)
    refine ⟨hcalls, fun hfunction depth hdepth => ?_⟩
    have hcount := State.functionCount_eq hfunction
    obtain ⟨function, hmem, hname, before, after, hemits, hknown⟩ :=
      h.functions (id, state) hstate hfunction
    obtain ⟨depth, rfl⟩ : ∃ less, depth = less + 1 := ⟨depth - 1, by omega⟩
    rw [← hname]
    refine Module.call_eq h.nodup hmem fun active => ?_
    refine performs_emitState hemits (fun edge hedge => ⟨h.plain _ hstate edge hedge, ?_⟩)
      h.denote hknown
    refine ⟨fun hlabel => ⟨h.denote, hcalls depth (by omega) edge hedge hlabel⟩,
      fun head hlabel => ?_⟩
    obtain ⟨position, branches, htarget, hposition⟩ := hformed.target_of_label hedge hlabel
    obtain ⟨next, hnext⟩ := Option.isSome_iff_exists.mp (sound edge hedge).leads
    have htargetFormed := targets edge hedge next hnext
    have hmemTarget := h.closed (id, state) hstate edge hedge
    have hbranches := (hbehind edge hedge).1
    have hbelow := (functionCount_target_le hedge).trans' edge.target.functionsBelow_le
    rw [htarget] at htargetFormed hmemTarget hbranches hbelow
    obtain ⟨cm, hcm, -⟩ := exists_of_positionOf? hposition
    have hfound : (operandMatchers commutative)[position]? = some cm.operandMatcher := by
      rw [operandMatchers_eq, List.getElem?_map, hcm]
      rfl
    have hplain : ∀ branch ∈ branches, branch.Plain := h.plain _ hmemTarget
    obtain ⟨_, -, hlabels⟩ := htargetFormed.branches
    refine ⟨position, branches, cm.operandMatcher, htarget, hfound,
      h.matchers depth (by omega) position _ hfound, nodup_labels htargetFormed hplain,
      fun branch hbranch => ⟨h.denote, hbranches depth (by omega) branch hbranch ?_⟩⟩
    obtain ⟨index, -, hindex⟩ := hlabels branch hbranch
    exact fun head heq => Label.noConfusion (hindex.symm.trans heq)

end Module.Hosts

end Calls

end Code

end TermNet
