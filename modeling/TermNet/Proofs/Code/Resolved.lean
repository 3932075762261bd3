import TermNet.Proofs.Code.Nets

namespace TermNet

/-!
# Whatever is emitted refers to what is defined

Static items are emitted before the code that needs them, and the types of matchers before the
functions of the net that has them.  The functions of a net refer to each other, but never to the
state of a commutative operation, which has no function: the edge that leads there calls what is
behind it.

* `Module.Defines` — a module with everything that has been emitted by some point;
* `Resolved` — what the code of an edge calls is defined;
* `references_emitTake`, `references_emitStates` — the code of edges and of states;
* `references_emitNet`, `references_emitMatcher` — by induction on the net.
-/

namespace Code

variable {m : Module} {e e' : Emission} {scope : NetScope} {edge : Edge} {block : List Statement}

/-- **A module with everything that has been emitted by some point:** the static items, and the
    types of matchers with their functions. -/
structure Module.Defines (m : Module) (e : Emission) : Prop where
  heads : ∀ index < e.heads.length, .head (headName index) ∈ m.definitions
  expressions : ∀ index < e.expressions.length, .expression (expressionName index) ∈ m.definitions
  types : ∀ type ∈ typesIn e.items, type.definitions ⊆ m.definitions

/-- A module with everything that has been emitted later has what was emitted before. -/
theorem Module.Defines.of_grows (h : m.Defines e') (hgrows : e.Grows e') : m.Defines e :=
  ⟨fun index hindex => h.heads index (Nat.lt_of_lt_of_le hindex hgrows.heads.length_le),
    fun index hindex => h.expressions index
      (Nat.lt_of_lt_of_le hindex hgrows.expressions.length_le),
    fun type htype => h.types type (hgrows.mem_typesIn htype)⟩

/-! ### Static items -/

/-- The static item of a head is defined. -/
theorem reference_emitHead {head : Head} {name : String} (h : Emits (emitHead head) e name e')
    (hm : m.Defines e') : .head name ∈ m.definitions := by
  obtain ⟨-, index, hindex, rfl⟩ := emits_emitHead h
  exact hm.heads index (List.getElem?_eq_some_iff.mp hindex).1

/-- The static item of a term is defined. -/
theorem reference_emitExpression {t : Term} {name : String}
    (h : Emits (emitExpression t) e name e') (hm : m.Defines e') :
    .expression name ∈ m.definitions := by
  obtain ⟨-, index, hindex, rfl⟩ := emits_emitExpression h
  exact hm.expressions index (List.getElem?_eq_some_iff.mp hindex).1

/-- The static item of a default is defined, if there is a default. -/
theorem references_emitDefault {default : Option Term} {name : Option String}
    (h : Emits (emitDefault default) e name e') (hm : m.Defines e') :
    name.toList.map .expression ⊆ m.definitions := by
  cases default with
  | none =>
    obtain ⟨rfl, -⟩ := emits_pure.mp h
    exact List.nil_subset _
  | some t =>
    simp only [emitDefault, emits_bind, emits_pure] at h
    obtain ⟨name, _, hname, rfl, rfl⟩ := h
    simpa using reference_emitExpression hname hm

/-- The static item of a head that runs are put under is defined, if there is such a head. -/
theorem references_emitWrap {wrap : Option Head} {name : Option String}
    (h : Emits (emitWrap wrap) e name e') (hm : m.Defines e') :
    name.toList.map .head ⊆ m.definitions := by
  cases wrap with
  | none =>
    obtain ⟨rfl, -⟩ := emits_pure.mp h
    exact List.nil_subset _
  | some head =>
    obtain ⟨name, hname, rfl⟩ := emits_map.mp h
    simpa using reference_emitHead hname hm

/-! ### Going on -/

/-- Checks refer to no items. -/
theorem references_emitChecks {narrowed : String} {ids : List ConstraintId}
    (h : Emits (emitChecks scope narrowed ids) e block e') : bodyReferences block = [] := by
  induction ids generalizing e e' block with
  | nil =>
    obtain ⟨rfl, -⟩ := emits_pure.mp h
    rfl
  | cons id rest ih =>
    simp only [emitChecks, emits_bind, emits_pure] at h
    obtain ⟨condition, _, -, later, _, hlater, rfl, -⟩ := h
    rw [bodyReferences_append, ih hlater]
    cases condition <;> rfl

/-- Going on from an edge refers to the function of the state behind it, and to nothing else. -/
theorem references_emitProceed (h : Emits (emitProceed scope edge) e block e')
    (hcall : .function (stateFunctionName scope.stem edge.id) ∈ m.definitions) :
    bodyReferences block ⊆ m.definitions := by
  unfold emitProceed at h
  split at h
  · obtain ⟨rfl, -⟩ := emits_pure.mp h
    simpa [Statement.references] using hcall
  · simp only [emits_bind, emits_pure] at h
    obtain ⟨narrowed, _, -, checks, _, hchecks, rfl, -⟩ := h
    simpa [Statement.references, references_emitChecks hchecks] using hcall

/-- Binding a variable refers to what the value does, and to what going on does. -/
theorem references_emitBind {value : BoundValue} (h : Emits (emitBind scope edge value) e block e')
    (hvalue : value.references ⊆ m.definitions)
    (hcall : .function (stateFunctionName scope.stem edge.id) ∈ m.definitions) :
    bodyReferences block ⊆ m.definitions := by
  obtain ⟨next, _, hnext, h⟩ := emits_bind.mp h
  have hbehind := references_emitProceed hnext hcall
  cases hname : edge.variableName with
  | none =>
    rw [hname] at h
    obtain ⟨rfl, -⟩ := emits_pure.mp h
    exact hbehind
  | some name =>
    simp only [hname, emits_bind, emits_pure] at h
    obtain ⟨extended, _, -, rfl, -⟩ := h
    simpa [Statement.references, hvalue] using hbehind

/-- Going on with the default refers to its static item, and to what going on does. -/
theorem references_emitSkip {default : Option Term}
    (h : Emits (emitSkip scope edge default) e block e') (hm : m.Defines e')
    (hcall : .function (stateFunctionName scope.stem edge.id) ∈ m.definitions) :
    bodyReferences block ⊆ m.definitions := by
  cases default with
  | none =>
    obtain ⟨rfl, -⟩ := emits_pure.mp h
    exact List.nil_subset _
  | some t =>
    obtain ⟨name, between, hname, hbind⟩ := emits_bind.mp h
    have hitem := reference_emitExpression hname
      (hm.of_grows (steady_emitBind _ _ _ _ _ _ hbind).grows)
    exact references_emitBind hbind (by simpa [BoundValue.references] using hitem) hcall

/-- A guard refers to what its opening does, and to what going on does. -/
theorem references_emitGuarded {base : String} {opening : Opening}
    (h : Emits (emitGuarded scope edge base opening) e block e')
    (hopening : opening.references ⊆ m.definitions)
    (hcall : .function (stateFunctionName scope.stem edge.id) ∈ m.definitions) :
    bodyReferences block ⊆ m.definitions := by
  simp only [emitGuarded, emits_bind, emits_pure] at h
  obtain ⟨guard, _, -, next, _, hnext, rfl, -⟩ := h
  simpa [Statement.references, hopening] using references_emitProceed hnext hcall

/-! ### Commutative operations -/

/-- The requests refer to no items, and the arms to what is called for their branches. -/
theorem references_emitBranches {wanted : String} {branches : List Edge}
    {parts : List (Statement × Arm)} (h : Emits (emitBranches scope wanted branches) e parts e')
    (hcalls : ∀ branch ∈ branches,
      .function (stateFunctionName scope.stem branch.id) ∈ m.definitions) :
    bodyReferences (parts.map Prod.fst) = [] ∧
      armReferences (parts.map Prod.snd) ⊆ m.definitions := by
  induction branches generalizing e e' parts with
  | nil =>
    obtain ⟨rfl, -⟩ := emits_pure.mp h
    exact ⟨rfl, List.nil_subset _⟩
  | cons branch rest ih =>
    simp only [emitBranches, emits_bind, emits_pure] at h
    obtain ⟨first, _, hfirst, later, _, hlater, rfl, -⟩ := h
    obtain ⟨hrequests, harms⟩ :=
      ih hlater fun branch hbranch => hcalls branch (List.mem_cons_of_mem _ hbranch)
    rcases emits_emitBranch hfirst with ⟨index, next, -, hnext, rfl⟩ | ⟨-, rfl⟩
    · have hbehind := references_emitProceed hnext (hcalls branch List.mem_cons_self)
      simp only [Option.toList_some, List.singleton_append, List.map_cons, bodyReferences_cons,
        armReferences, hrequests, List.append_nil]
      exact ⟨rfl, List.append_subset.mpr ⟨hbehind, harms⟩⟩
    · exact ⟨hrequests, harms⟩

/-- **What the code of an edge calls is defined:** the function of the state that it leads to, or,
    behind the label of a commutative operation, the matcher of the operation and the functions
    behind its branches. -/
structure Resolved (m : Module) (scope : NetScope) (edge : Edge) : Prop where
  ordinary : (∀ head, edge.label ≠ .commutative head) →
    .function (stateFunctionName scope.stem edge.id) ∈ m.definitions
  commutative : ∀ head position branches, edge.label = .commutative head →
    edge.target = .commutative position branches →
      .matcher (scope.matcherTypes[position]?.getD "") ∈ m.definitions ∧
        ∀ branch ∈ branches, .function (stateFunctionName scope.stem branch.id) ∈ m.definitions

/-- A commutative operation refers to its head, to the type of its matcher, and to the functions of
    the states behind its branches. -/
theorem references_emitCommutative {head : Head} {position : Nat} {branches : List Edge}
    (h : Emits (emitCommutative scope head position branches) e block e') (hm : m.Defines e')
    (hmatcher : .matcher (scope.matcherTypes[position]?.getD "") ∈ m.definitions)
    (hcalls : ∀ branch ∈ branches,
      .function (stateFunctionName scope.stem branch.id) ∈ m.definitions) :
    bodyReferences block ⊆ m.definitions := by
  simp only [emitCommutative, emits_bind, emits_pure] at h
  obtain ⟨name, _, hname, wanted, _, hwanted, guard, _, hguard, operation, _, hoperation, pattern,
    _, hpattern, found, _, hfound, parts, last, hparts, rfl, rfl⟩ := h
  have hsteady := (steady_freshName _ _ _ _ hwanted).trans <|
    (steady_freshName _ _ _ _ hguard).trans <| (steady_freshName _ _ _ _ hoperation).trans <|
      (steady_freshName _ _ _ _ hpattern).trans <| (steady_freshName _ _ _ _ hfound).trans <|
        steady_emitBranches _ _ _ _ _ _ hparts
  have hhead := reference_emitHead hname (hm.of_grows hsteady.grows)
  obtain ⟨hrequests, harms⟩ := references_emitBranches hparts hcalls
  rw [List.cons_append, bodyReferences_cons, bodyReferences_append, hrequests]
  simpa [Statement.references, Opening.references, hhead, hmatcher] using harms

/-! ### Edges -/

/-- **The code of an edge** refers to what is defined. -/
theorem references_emitTake (h : Emits (emitTake scope edge) e block e') (hm : m.Defines e')
    (hedge : Resolved m scope edge) : bodyReferences block ⊆ m.definitions := by
  cases hlabel : edge.label with
  | enter head =>
    simp only [emitTake, hlabel] at h
    obtain ⟨name, between, hname, hguarded⟩ := emits_bind.mp h
    have hitem := reference_emitHead hname
      (hm.of_grows (steady_emitGuarded _ _ _ _ _ _ _ hguarded).grows)
    exact references_emitGuarded hguarded (by simpa [Opening.references] using hitem)
      (hedge.ordinary (by simp [hlabel]))
  | close =>
    simp only [emitTake, hlabel] at h
    exact references_emitGuarded h (List.nil_subset _) (hedge.ordinary (by simp [hlabel]))
  | atom t =>
    simp only [emitTake, hlabel] at h
    obtain ⟨name, between, hname, hguarded⟩ := emits_bind.mp h
    have hitem := reference_emitExpression hname
      (hm.of_grows (steady_emitGuarded _ _ _ _ _ _ _ hguarded).grows)
    exact references_emitGuarded hguarded (by simpa [Opening.references] using hitem)
      (hedge.ordinary (by simp [hlabel]))
  | one kind default =>
    simp only [emitTake, hlabel, emits_bind, emits_pure] at h
    obtain ⟨skipped, between, hskip, guard, _, hguard, item, _, hitem, next, last, hnext, rfl,
      rfl⟩ := h
    -- Fresh names are local, so only the static items that were emitted before count.
    have hcall := hedge.ordinary (by simp [hlabel])
    have hreaches : between.Reaches last :=
      (steady_freshName _ _ _ _ hguard).trans <| (steady_freshName _ _ _ _ hitem).trans <|
        steady_emitBind _ _ _ _ _ _ hnext
    have hskipped := references_emitSkip hskip (hm.of_grows hreaches.grows) hcall
    have hbehind := references_emitBind hnext (List.nil_subset _) hcall
    rw [bodyReferences_append]
    refine List.append_subset.mpr ⟨hskipped, ?_⟩
    cases kind <;> simpa [Statement.references, Opening.references] using hbehind
  | run minCount wrap default =>
    rw [emitTake_run hlabel] at h
    simp only [emits_bind, emits_pure] at h
    obtain ⟨skipped, between, hskip, wrapName, afterWrap, hwrap, run, _, hrun, binding, _, hbinding,
      next, last, hnext, rfl, rfl⟩ := h
    have hcall := hedge.ordinary (by simp [hlabel])
    have hreaches : afterWrap.Reaches last :=
      (steady_freshName _ _ _ _ hrun).trans <| (steady_freshName _ _ _ _ hbinding).trans <|
        steady_emitBind _ _ _ _ _ _ hnext
    have hskipped := references_emitSkip hskip
      (hm.of_grows ((steady_emitWrap _ _ _ _ hwrap).trans hreaches).grows) hcall
    have hwraps := references_emitWrap hwrap (hm.of_grows hreaches.grows)
    have hbehind := references_emitBind hnext (List.nil_subset _) hcall
    rw [bodyReferences_append]
    refine List.append_subset.mpr ⟨hskipped, ?_⟩
    simpa [Statement.references, Opening.references, hwraps] using hbehind
  | commutative head =>
    simp only [emitTake, hlabel] at h
    split at h
    · rename_i position branches htarget
      obtain ⟨hmatcher, hcalls⟩ := hedge.commutative head position branches hlabel htarget
      exact references_emitCommutative h hm hmatcher hcalls
    · obtain ⟨rfl, -⟩ := emits_pure.mp h
      exact List.nil_subset _
  | operands index =>
    simp only [emitTake, hlabel] at h
    obtain ⟨rfl, -⟩ := emits_pure.mp h
    exact List.nil_subset _

/-- The edges of a state, one after the other. -/
theorem references_emitEdges {edges : List Edge} (h : Emits (emitEdges scope edges) e block e')
    (hm : m.Defines e') (hedges : ∀ edge ∈ edges, Resolved m scope edge) :
    bodyReferences block ⊆ m.definitions := by
  induction edges generalizing e e' block with
  | nil =>
    obtain ⟨rfl, -⟩ := emits_pure.mp h
    exact List.nil_subset _
  | cons edge rest ih =>
    simp only [emitEdges, emits_bind, emits_pure] at h
    obtain ⟨body, _, hbody, later, last, hlater, rfl, rfl⟩ := h
    rw [bodyReferences_cons]
    exact List.append_subset.mpr ⟨references_emitTake hbody
      (hm.of_grows (steady_emitEdges _ _ _ _ _ hlater).grows) (hedges edge List.mem_cons_self),
      ih hlater hm fun edge hedge => hedges edge (List.mem_cons_of_mem _ hedge)⟩

/-! ### States -/

/-- Accepting refers to no items. -/
theorem references_emitMarkers {markers : List Marker}
    (h : Emits (emitMarkers scope markers) e block e') : bodyReferences block = [] := by
  induction markers generalizing e e' block with
  | nil =>
    obtain ⟨rfl, -⟩ := emits_pure.mp h
    rfl
  | cons marker rest ih =>
    simp only [emitMarkers, emits_bind, emits_pure] at h
    obtain ⟨globals, _, -, later, _, hlater, rfl, -⟩ := h
    rw [bodyReferences_cons, ih hlater]
    rfl

/-- The function of a state refers to what is behind its edges. -/
theorem references_emitState {id : StateId} {state : State} {function : Option StateFunction}
    (h : Emits (emitState scope id state) e function e') (hm : m.Defines e')
    (hedges : state.hasFunction = true → ∀ edge ∈ state.edges, Resolved m scope edge) :
    ∀ f ∈ function, bodyReferences f.body ⊆ m.definitions := by
  cases state with
  | branch edges =>
    simp only [emitState, emits_bind, emits_pure] at h
    obtain ⟨body, _, hbody, rfl, rfl⟩ := h
    rintro _ ⟨⟩
    exact references_emitEdges hbody hm (hedges rfl)
  | commutative position edges =>
    obtain ⟨rfl, -⟩ := emits_pure.mp h
    exact fun f hf => absurd hf (Option.not_mem_none f)
  | accept markers =>
    simp only [emitState, emits_bind, emits_pure] at h
    obtain ⟨body, _, hbody, rfl, rfl⟩ := h
    rintro _ ⟨⟩
    simp [Statement.references, references_emitMarkers hbody]

/-- The functions of states, one after the other. -/
theorem references_emitStates {states : List (StateId × State)} {functions : List StateFunction}
    (h : Emits (emitStates scope states) e functions e') (hm : m.Defines e')
    (hedges : ∀ entry ∈ states, entry.2.hasFunction = true →
      ∀ edge ∈ entry.2.edges, Resolved m scope edge) :
    (functions.flatMap fun f => bodyReferences f.body) ⊆ m.definitions := by
  induction states generalizing e e' functions with
  | nil =>
    obtain ⟨rfl, -⟩ := emits_pure.mp h
    exact List.nil_subset _
  | cons entry rest ih =>
    simp only [emitStates, emits_bind, emits_pure] at h
    obtain ⟨function, _, hfunction, later, last, hlater, rfl, rfl⟩ := h
    have hfirst := references_emitState hfunction
      (hm.of_grows (steady_emitStates _ _ _ _ _ hlater).grows) (hedges entry List.mem_cons_self)
    have hrest := ih hlater hm fun entry hentry => hedges entry (List.mem_cons_of_mem _ hentry)
    rw [List.flatMap_append]
    refine List.append_subset.mpr ⟨fun r hr => ?_, hrest⟩
    obtain ⟨f, hf, hr⟩ := List.mem_flatMap.mp hr
    exact hfirst f (Option.mem_toList.mp hf) hr

/-- **The edges of a net** call what is defined, if the functions of its states and the types of
    its matchers are. -/
theorem resolved_of_formed {net : Net} (hformed : net.Formed) {stem : String}
    {types : List String} (hfunctions : ∀ entry ∈ net.states, entry.2.hasFunction = true →
      .function (stateFunctionName stem entry.1) ∈ m.definitions)
    (hmatchers : ∀ position < net.matchers.length,
      .matcher (types[position]?.getD "") ∈ m.definitions)
    {entry : StateId × State} (hentry : entry ∈ net.states) {edge : Edge}
    (hedge : edge ∈ entry.2.edges) : Resolved m ⟨net.registry, stem, types⟩ edge := by
  have hbehind {id : StateId} {state : State} (hstate : (id, state) ∈ net.states) {edge : Edge}
      (hedge : edge ∈ state.edges) : (edge.id, edge.target) ∈ net.states := by
    obtain ⟨path, hpath⟩ := Net.mem_states_iff.mp hstate
    exact Net.mem_states_iff.mpr ⟨_, hpath.snoc hedge⟩
  have hcalls {id : StateId} {state : State} (hstate : (id, state) ∈ net.states) {edge : Edge}
      (hedge : edge ∈ state.edges) (hlabel : ∀ head, edge.label ≠ .commutative head) :
      .function (stateFunctionName stem edge.id) ∈ m.definitions := by
    obtain ⟨stage, hformed⟩ := hformed.of_mem_states hstate
    exact hfunctions (edge.id, edge.target) (hbehind hstate hedge)
      (hformed.hasFunction_target hedge hlabel)
  -- Behind a commutative label stands a state without a function, so its edges are called for.
  refine ⟨fun hlabel => hcalls hentry hedge hlabel, fun head position branches _ htarget => ?_⟩
  have hstate := hbehind hentry hedge
  rw [htarget] at hstate
  obtain ⟨stage, hstateFormed⟩ := hformed.of_mem_states hstate
  obtain ⟨matcher, hmatcher, hlabels⟩ := hstateFormed.branches
  refine ⟨hmatchers position (List.getElem?_eq_some_iff.mp hmatcher).1, fun branch hbranch => ?_⟩
  obtain ⟨index, -, hindex⟩ := hlabels branch hbranch
  exact hcalls hstate hbranch fun head heq => Label.noConfusion (hindex.symm.trans heq)

/-! ### Tables -/

/-- What holds of all that is emitted for the members of a list, by induction on the list. -/
theorem forall_of_emits_mapM {α β : Type} {f : α → Emit β} {P : β → Prop}
    (hf : ∀ a, Steady (f a)) {as : List α} {bs : List β} (h : Emits (as.mapM f) e bs e')
    (hm : m.Defines e')
    (hP : ∀ a b before after, Emits (f a) before b after → m.Defines after → P b) :
    ∀ b ∈ bs, P b := by
  induction as generalizing e e' bs with
  | nil =>
    rw [List.mapM_nil] at h
    obtain ⟨rfl, -⟩ := emits_pure.mp h
    exact fun _ hb => absurd hb List.not_mem_nil
  | cons a rest ih =>
    rw [List.mapM_cons] at h
    simp only [emits_bind, emits_pure] at h
    obtain ⟨b, between, hb, later, last, hlater, rfl, rfl⟩ := h
    have hsteady := Steady.mapM hf rest _ _ _ hlater
    exact List.forall_mem_cons.mpr
      ⟨hP a b _ _ hb (hm.of_grows hsteady.grows), ih hlater hm⟩

/-- The defaults in a table are those of static items. -/
theorem references_emitTable {patterns : List CommutativePattern} {table : List PatternEntry}
    (h : Emits (emitTable patterns) e table e') (hm : m.Defines e') :
    table.flatMap PatternEntry.references ⊆ m.definitions := by
  have hentries : ∀ entry ∈ table, entry.references ⊆ m.definitions := by
    refine forall_of_emits_mapM (fun _ =>
      (Steady.mapM steady_emitSequenceVariable _).bind fun _ => steady_pure _) h hm ?_
    intro pattern entry before after hentry hafter
    simp only [emits_bind, emits_pure] at hentry
    obtain ⟨vars, last, hvars, rfl, rfl⟩ := hentry
    have hdefaults : ∀ var ∈ vars, var.default.toList.map .expression ⊆ m.definitions := by
      refine forall_of_emits_mapM steady_emitSequenceVariable hvars hafter ?_
      intro var entry before after hentry hafter
      simp only [emitSequenceVariable, emits_bind, emits_pure] at hentry
      obtain ⟨default, _, hdefault, rfl, rfl⟩ := hentry
      exact references_emitDefault hdefault hafter
    intro r hr
    obtain ⟨var, hvar, hr⟩ := List.mem_flatMap.mp hr
    exact hdefaults var hvar hr
  intro r hr
  obtain ⟨entry, hentry, hr⟩ := List.mem_flatMap.mp hr
  exact hentries entry hentry hr

/-! ### Nets and matchers -/

/-- The types of matchers that are added refer to what is defined. -/
def AddsResolved (m : Module) (e e' : Emission) : Prop :=
  ∀ type ∈ typesIn e'.items, type ∈ typesIn e.items ∨ type.references ⊆ m.definitions

/-- What is added first and what is added later refer to what is defined. -/
theorem AddsResolved.trans {e'' : Emission} (h : AddsResolved m e e')
    (h' : AddsResolved m e' e'') : AddsResolved m e e'' := fun type htype =>
  (h' type htype).elim (h type) .inr

/-- The body of a function adds no types of matchers that could refer to anything. -/
theorem Emission.Reaches.addsResolved (h : e.Reaches e') : AddsResolved m e e' :=
  fun _ htype => .inl (h.typesIn_eq.1 ▸ htype)

mutual

/-- **The functions of a net** refer to what is defined, and so do the types of its matchers. -/
theorem references_emitNet {name : String} {isPublic : Bool} {net : Net} (hformed : net.Formed)
    {e e' : Emission} {function : MatcherFunction}
    (h : Emits (emitNet name isPublic net) e function e') (hm : m.Defines e')
    (hown : function.definitions ⊆ m.definitions) :
    function.references ⊆ m.definitions ∧ AddsResolved m e e' := by
  cases net with
  | mk root stateCount registry matchers patternCount =>
    simp only [emitNet, emits_bind, emits_pure] at h
    obtain ⟨types, between, htypes, states, last, hstates, rfl, rfl⟩ := h
    have hsteady := steady_emitStates _ _ _ _ _ hstates
    obtain ⟨hmatchers, hadds⟩ :=
      references_emitMatchers hformed.matcher htypes (hm.of_grows hsteady.grows)
    -- Every state that is called has a function of its own, defined with that of the net.
    have hfunctions : ∀ entry ∈ (Net.mk root stateCount registry matchers patternCount).states,
        entry.2.hasFunction = true →
          .function (stateFunctionName (Text.withoutRawMark name) entry.1) ∈ m.definitions := by
      intro entry hentry hfunction
      obtain ⟨function, hmem, hname, -⟩ := exists_of_emitStates hstates hentry hfunction
      exact hname ▸ hown (List.mem_cons_of_mem _ (List.mem_map_of_mem hmem))
    have hroot := hfunctions (0, root) (Net.mem_states_iff.mpr ⟨[], .here _⟩)
      hformed.hasFunction_root
    have hbodies := references_emitStates hstates hm fun entry hentry _ edge hedge =>
      resolved_of_formed hformed hfunctions hmatchers hentry hedge
    exact ⟨List.cons_subset.mpr ⟨hroot, hbodies⟩, hadds.trans hsteady.addsResolved⟩
termination_by structural net

/-- The types of matchers are defined, and refer to what is defined. -/
theorem references_emitMatchers {matchers : List CommutativeMatcher}
    (hformed : ∀ matcher ∈ matchers, matcher.Formed) {e e' : Emission} {types : List String}
    (h : Emits (emitMatchers matchers) e types e') (hm : m.Defines e') :
    (∀ position < matchers.length, .matcher (types[position]?.getD "") ∈ m.definitions) ∧
      AddsResolved m e e' := by
  cases matchers with
  | nil =>
    obtain ⟨-, rfl⟩ := emits_pure.mp h
    exact ⟨fun position hposition => absurd hposition (Nat.not_lt_zero _),
      Emission.Reaches.addsResolved .refl⟩
  | cons matcher rest =>
    simp only [emitMatchers, emits_bind, emits_pure] at h
    obtain ⟨first, between, hfirst, later, last, hlater, rfl, rfl⟩ := h
    have hrestFormed : ∀ m ∈ rest, m.Formed := fun m hm => hformed m (List.mem_cons_of_mem _ hm)
    have hgrows := (grows_emitMatchers hrestFormed hlater).1
    obtain ⟨hhead, hadds⟩ := references_emitMatcher (hformed matcher List.mem_cons_self) hfirst
      (hm.of_grows hgrows)
    obtain ⟨htail, hmore⟩ := references_emitMatchers hrestFormed hlater hm
    refine ⟨fun position hposition => ?_, hadds.trans hmore⟩
    cases position with
    | zero => exact hhead
    | succ position => exact htail position (Nat.lt_of_succ_lt_succ hposition)
termination_by structural matchers

/-- **The type of a matcher** is defined, and refers to what is defined. -/
theorem references_emitMatcher {matcher : CommutativeMatcher} (hformed : matcher.Formed)
    {e e' : Emission} {name : String} (h : Emits (emitMatcher matcher) e name e')
    (hm : m.Defines e') : .matcher name ∈ m.definitions ∧ AddsResolved m e e' := by
  cases matcher with
  | mk head net operands patterns =>
    simp only [emitMatcher, emits_bind, emits_get, emits_modify, emits_pure] at h
    obtain ⟨_, _, ⟨rfl, rfl⟩, _, begun, rfl, headName, afterHead, hhead, function, afterNet, hnet,
      table, afterTable, htable, _, last, rfl, rfl, rfl⟩ := h
    have hadded : typesIn (afterTable.items ++
        [Item.matcher ⟨matcherTypeName e.matcherCount, headName, table, function⟩]) =
          typesIn afterTable.items ++
            [⟨matcherTypeName e.matcherCount, headName, table, function⟩] := by
      rw [typesIn, List.filterMap_append, ← typesIn]
      rfl
    -- The type comes last, so all that it refers to has been emitted before it.
    have hmTable : m.Defines afterTable := ⟨hm.heads, hm.expressions, fun type htype =>
      hm.types type (hadded ▸ List.mem_append_left _ htype)⟩
    have htype := hm.types ⟨matcherTypeName e.matcherCount, headName, table, function⟩
      (hadded ▸ List.mem_append_right _ List.mem_cons_self)
    have htableSteady := steady_emitTable patterns _ _ _ htable
    have hmNet := hmTable.of_grows htableSteady.grows
    obtain ⟨hname, hown⟩ := List.cons_subset.mp htype
    obtain ⟨hfunction, hadds⟩ := references_emitNet hformed.net hnet hmNet hown
    have hitem := reference_emitHead hhead
      (hmNet.of_grows (netEmitted_emitNet hformed.net hnet).grows)
    have hreferences : MatcherType.references
        ⟨matcherTypeName e.matcherCount, headName, table, function⟩ ⊆ m.definitions :=
      List.cons_subset.mpr ⟨hitem, List.cons_subset.mpr ⟨hown List.mem_cons_self,
        List.append_subset.mpr ⟨references_emitTable htable hmTable, hfunction⟩⟩⟩
    refine ⟨hname, fun type hlast => ?_⟩
    rcases List.mem_append.mp (hadded ▸ hlast) with hbefore | hlast
    · have hsteps := (Emission.Reaches.addsResolved (m := m)
        (steady_emitHead head _ _ _ hhead)).trans (hadds.trans htableSteady.addsResolved)
      exact hsteps type hbefore
    · obtain rfl := List.mem_singleton.mp hlast
      exact .inr hreferences
termination_by structural matcher

end

end Code

end TermNet
