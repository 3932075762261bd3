import TermNet.Proofs.Pattern.Leaves
import TermNet.Proofs.Pattern.Scope
import TermNet.Proofs.Shape.Net
import TermNet.Proofs.Shape.Paths
import TermNet.Proofs.Term.Canonical

namespace TermNet

/-!
# Plain nets

What a net consists of comes from its patterns: the terms of its labels, the defaults of its
sequence variables, and its checks.  And constraints become checkable only where variables are
bound, so that an edge that binds nothing checks nothing.

* `Edge.Plain`, `State.Plain` — what is true of every edge of a tree;
* `Net.Plain` — what is true of a net and of the nets of its matchers;
* `State.Plain.extend` — inserting a pattern keeps it;
* `plain_collectSteps` — the steps of a tree are plain, and so are the matchers that come with
  them;
* `Net.plain_ofPatterns` — so every net of patterns is plain.
-/

/-- The terms of a label. -/
def Label.terms : Label → List Term
  | atom t => [t]
  | one _ default | run _ _ default => default.toList
  | enter _ | close | commutative _ | operands _ => []

/-- **What is true of every edge:** its terms are canonical, and if it binds nothing it checks
    nothing, unless it stands for the pattern of a commutative operation, which binds several
    variables at once. -/
structure Edge.Plain (edge : Edge) : Prop where
  canonical : ∀ t ∈ edge.label.terms, t.Canonical
  quiet : edge.variableName = none → (∀ index, edge.label ≠ .operands index) →
    edge.constraints = []
  unnamed : ∀ index, edge.label = .operands index → edge.variableName = none

/-- What is true of every edge below a state. -/
inductive State.Plain : State → Prop where
  | intro {state : State} (edges : ∀ edge ∈ state.edges, edge.Plain)
      (targets : ∀ edge ∈ state.edges, State.Plain edge.target) : State.Plain state

/-- The edges of a plain state are plain, and so are the states behind them. -/
theorem State.Plain.edge {state : State} (h : state.Plain) :
    ∀ edge ∈ state.edges, edge.Plain ∧ edge.target.Plain := by
  cases h with
  | intro edges targets => exact fun edge hedge => ⟨edges edge hedge, targets edge hedge⟩

/-- Every state below a plain one is plain, by induction on the path to it. -/
theorem State.Plain.of_path {place last : StateId × State} {path : List Edge}
    (h : place.2.Plain) (hpath : Descends place path last) : last.2.Plain := by
  induction hpath with
  | here place => exact h
  | down hedge rest ih => exact ih (h.edge _ hedge).2

/-- The defaults of sequence variables are canonical. -/
def CommutativePattern.Plain (pattern : CommutativePattern) : Prop :=
  ∀ var ∈ pattern.sequenceVars, ∀ t ∈ var.default, t.Canonical

/-- **What is true of a net,** and of the nets of its matchers, if its terms are canonical and
    its checks are such. -/
inductive Net.Plain (good : Check → Prop) : Net → Prop where
  | intro {net : Net} (root : net.root.Plain)
      (checks : ∀ c ∈ net.registry.constraints, good c.check)
      (patterns : ∀ matcher ∈ net.matchers, ∀ pattern ∈ matcher.patterns, pattern.Plain)
      (nested : ∀ matcher ∈ net.matchers, Net.Plain good matcher.net) : Net.Plain good net

/-- What is true of a matcher and of its net. -/
structure CommutativeMatcher.Plain (good : Check → Prop) (matcher : CommutativeMatcher) : Prop where
  patterns : ∀ pattern ∈ matcher.patterns, pattern.Plain
  net : matcher.net.Plain good

variable {good : Check → Prop} {net : Net} {matchers : List CommutativeMatcher}
variable {constraints : List Constraint}

namespace Net.Plain

/-- The tree of a plain net. -/
theorem root (h : net.Plain good) : net.root.Plain := by
  cases h with | intro root => exact root

/-- The checks of a plain net are good. -/
theorem checks (h : net.Plain good) : ∀ c ∈ net.registry.constraints, good c.check := by
  cases h with | intro _ checks => exact checks

/-- The matchers of a plain net. -/
theorem matcher (h : net.Plain good) : ∀ matcher ∈ net.matchers, matcher.Plain good := by
  cases h with
  | intro _ _ patterns nested => exact fun m hm => ⟨patterns m hm, nested m hm⟩

end Net.Plain

/-- A state without edges. -/
theorem State.plain_of_edges_eq_nil {state : State} (h : state.edges = []) : state.Plain :=
  .intro (h ▸ fun _ hedge => absurd hedge List.not_mem_nil)
    (h ▸ fun _ hedge => absurd hedge List.not_mem_nil)

/-- The net without patterns. -/
theorem Net.plain_empty : Net.empty.Plain good :=
  .intro (State.plain_of_edges_eq_nil rfl) (fun _ hc => absurd hc List.not_mem_nil)
    (fun _ hm => absurd hm List.not_mem_nil) fun _ hm => absurd hm List.not_mem_nil

/-! ### Inserting a pattern -/

/-- A step whose edge is plain. -/
structure Step.Plain (step : Step) : Prop where
  canonical : ∀ t ∈ step.label.terms, t.Canonical
  quiet : step.variableName = none → (∀ index, step.label ≠ .operands index) → step.binds = []
  unnamed : ∀ index, step.label = .operands index → step.variableName = none
  bare : step.fresh.edges = []

/-- The edge of a plain step is plain. -/
theorem Step.Plain.edge {step : Step} (h : step.Plain) (id : StateId) : (step.edge id).Plain :=
  ⟨h.canonical, fun _ _ => rfl, h.unnamed⟩

/-- A plain step with the constraints that it makes checkable. -/
structure Step.PlainWith (step : Step) (ids : List ConstraintId) : Prop where
  plain : step.Plain
  quiet : step.binds = [] → ids = []

/-- Where nothing is bound, nothing becomes checkable. -/
theorem plain_schedule {steps : List Step} (h : ∀ step ∈ steps, step.Plain)
    (registry : ConstraintRegistry) (locals : List ConstraintId) (bound : List String) :
    ∀ step ∈ schedule registry locals bound steps, step.1.PlainWith step.2 := by
  induction steps generalizing bound with
  | nil => exact fun _ hstep => absurd hstep List.not_mem_nil
  | cons step rest ih =>
    rw [schedule]
    refine List.forall_mem_cons.mpr ⟨⟨h step List.mem_cons_self, fun hbinds => ?_⟩,
      ih (fun later hlater => h later (List.mem_cons_of_mem _ hlater)) _⟩
    refine List.eq_nil_iff_forall_not_mem.mpr fun id hid => ?_
    obtain ⟨-, c, -, ⟨x, -, hfresh⟩, -⟩ := mem_readyConstraints.mp hid
    rw [hbinds] at hfresh
    exact absurd hfresh List.not_mem_nil

/-- A state with plain edges is plain. -/
theorem State.Plain.withEdges {state : State} {edges : List Edge}
    (h : ∀ edge ∈ edges, edge.Plain ∧ edge.target.Plain) : (state.withEdges edges).Plain := by
  cases state with
  | branch others => exact .intro (fun e he => (h e he).1) fun e he => (h e he).2
  | commutative matcher others => exact .intro (fun e he => (h e he).1) fun e he => (h e he).2
  | accept markers => exact State.plain_of_edges_eq_nil rfl

/-- An edge that one more pattern uses. -/
theorem Edge.Plain.usedBy {edge : Edge} (h : edge.Plain) {step : Step}
    {ids : List ConstraintId} (hstep : step.PlainWith ids) (hfits : step.fits edge = true)
    (index : Nat) (target : State) : (edge.usedBy index ids target).Plain := by
  obtain ⟨hlabel, hname⟩ := Step.label_eq_of_fits hfits
  refine ⟨h.canonical, fun hnone hordinary => ?_, h.unnamed⟩
  have hids : ids = [] := hstep.quiet (hstep.plain.quiet (hname.symm.trans hnone) fun other heq =>
    hordinary other (hlabel.trans heq))
  show ids.foldl _ edge.constraints = []
  rw [hids, h.quiet hnone hordinary]
  rfl

/-- **Inserting a pattern** keeps what is true of every edge. -/
theorem State.Plain.extend {stage : Stage} {state : State} (hplain : state.Plain)
    (h : state.Formed matchers stage) {steps : List (Step × List ConstraintId)}
    (hruns : Runs matchers stage (steps.map Prod.fst) .finished)
    (hsteps : ∀ step ∈ steps, step.1.PlainWith step.2) (marker : Marker) (id : StateId) :
    (state.extend marker steps id).1.Plain := by
  refine State.Formed.extendOn (motive := fun _ state steps _ result =>
    state.Plain → (∀ step ∈ steps, step.1.PlainWith step.2) → result.1.Plain)
    (fun _ _ _ _ _ => State.plain_of_edges_eq_nil rfl) ?_ ?_ h hruns id hplain hsteps
  · intro stage next state before edge after step ids rest id result _ _ hedges hfits _ ih hstate
      hall
    have hbelow := hstate.edge
    rw [hedges] at hbelow
    obtain ⟨hedge, htarget⟩ := hbelow edge (List.mem_append_right _ List.mem_cons_self)
    have hscheduled := hall (step, ids) List.mem_cons_self
    refine State.Plain.withEdges fun other hother => ?_
    rcases List.mem_append.mp hother with hother | hother
    · exact hbelow other (List.mem_append_left _ hother)
    · rcases List.mem_cons.mp hother with rfl | hother
      -- The edge of the step gets its constraints, the others stay as they are.
      · exact ⟨hedge.usedBy hscheduled hfits marker.pattern result.1,
          ih htarget fun later hlater => hall later (List.mem_cons_of_mem _ hlater)⟩
      · exact hbelow other (List.mem_append_right _ (List.mem_cons_of_mem _ hother))
  · intro stage next state step ids rest id result _ _ _ ih hstate hall
    have hstep := (hall (step, ids) List.mem_cons_self).plain
    refine ih (State.Plain.withEdges fun other hother => ?_) hall
    rcases List.mem_append.mp hother with hother | hother
    · exact hstate.edge other hother
    · rw [List.mem_singleton.mp hother]
      exact ⟨hstep.edge id, State.plain_of_edges_eq_nil hstep.bare⟩

/-- **A net with one more pattern,** whose steps are plain. -/
theorem Net.Plain.insertSteps (h : net.Plain good) (hformed : net.Formed) {entry : Entry}
    {steps : List Step} (henlarges : Enlarges net.matchers matchers)
    (hruns : Runs matchers (.within 0) steps .finished) (hsteps : ∀ step ∈ steps, step.Plain)
    (hmatchers : ∀ m ∈ matchers, m.Plain good) (hlocals : ∀ c ∈ entry.locals, good c.check)
    (hglobals : ∀ c ∈ entry.globals, good c.check) :
    (net.insertSteps entry steps matchers).Plain good := by
  refine .intro ?_ (fun c hc => ?_) (fun m hm => (hmatchers m hm).patterns)
    fun m hm => (hmatchers m hm).net
  · rw [Net.root_insertSteps]
    refine h.root.extend (hformed.root.enlarge henlarges) ?_ (plain_schedule hsteps _ _ _) _ _
    rw [map_fst_schedule]
    exact hruns
  · rw [Net.registry_insertSteps] at hc
    rcases ConstraintRegistry.mem_constraints_registerAll hc with hc | hc
    · rcases ConstraintRegistry.mem_constraints_registerAll hc with hc | hc
      · exact h.checks c hc
      · exact hlocals c hc
    · exact hglobals c hc

/-! ### Collecting steps -/

/-- The steps of a tree are plain, and so are the matchers with its operations. -/
structure PlainSteps (good : Check → Prop) (result : List Step × List CommutativeMatcher) :
    Prop where
  steps : ∀ step ∈ result.1, step.Plain
  matchers : ∀ m ∈ result.2, m.Plain good

/-- The steps of a tree are plain wherever it stands. -/
def GivesPlain (good : Check → Prop) (p : PatternTerm) : Prop :=
  ∀ constraints parent matchers, (∀ c ∈ constraints, good c.check) →
    (∀ m ∈ matchers, CommutativeMatcher.Formed m) → (∀ m ∈ matchers, m.Plain good) →
      PlainSteps good (collectSteps constraints parent p matchers)

/-- A step that binds nothing and leads to a bare state. -/
theorem Step.plain_of_label {label : Label} (hterms : ∀ t ∈ label.terms, t.Canonical)
    (hlabel : ∀ index, label ≠ .operands index) {fresh : State} (hbare : fresh.edges = []) :
    Step.Plain { label, fresh } :=
  ⟨hterms, fun _ _ => rfl, fun index h => absurd h (hlabel index), hbare⟩

/-- The step of a wildcard is plain if its default is canonical. -/
theorem plain_wildcardStep (parent : Option Head) {w : Wildcard}
    (hdefault : ∀ t ∈ w.default, t.Canonical) : (wildcardStep parent w).Plain := by
  have hbinds : (wildcardStep parent w).variableName = none → (wildcardStep parent w).binds = [] :=
    fun hnone => congrArg Option.toList hnone
  have hcanonical : ∀ t ∈ w.default.toList, t.Canonical := fun t ht =>
    hdefault t (Option.mem_toList.mp ht)
  rcases label_wildcardStep parent w with ⟨kind, hlabel⟩ | ⟨minCount, wrap, hlabel⟩
  · exact ⟨hlabel ▸ hcanonical, fun hnone _ => hbinds hnone,
      fun index heq => Label.noConfusion (hlabel.symm.trans heq), rfl⟩
  · exact ⟨hlabel ▸ hcanonical, fun hnone _ => hbinds hnone,
      fun index heq => Label.noConfusion (hlabel.symm.trans heq), rfl⟩

/-- The steps of ordered arguments are plain. -/
theorem plain_collectStepsAll {args : List PatternTerm} (hargs : ∀ p ∈ args, GivesPlain good p)
    (hconstraints : ∀ c ∈ constraints, good c.check) (parent : Head)
    (hformed : ∀ m ∈ matchers, m.Formed) (hmatchers : ∀ m ∈ matchers, m.Plain good) :
    PlainSteps good (collectStepsAll constraints parent args matchers) := by
  induction args generalizing matchers with
  | nil => exact ⟨fun _ h => absurd h List.not_mem_nil, hmatchers⟩
  | cons p ps ih =>
    have hfirst := hargs p List.mem_cons_self constraints (some parent) matchers hconstraints
      hformed hmatchers
    have hshaped := hasShape p constraints (some parent) matchers hformed
    have hrest := ih (fun q hq => hargs q (List.mem_cons_of_mem _ hq)) hshaped.formed
      hfirst.matchers
    exact ⟨List.forall_mem_append.mpr ⟨hfirst.steps, hrest.steps⟩, hrest.matchers⟩

/-- **One more operand,** whose steps are plain. -/
theorem CommutativeMatcher.Plain.withOperand {m : CommutativeMatcher} (h : m.Plain good)
    (hformed : m.Formed) {operand : OperandPattern}
    (hconstraints : ∀ c ∈ operand.constraints, good c.check)
    {result : List Step × List CommutativeMatcher} (hplain : PlainSteps good result)
    (hshaped : Shaped operand.constraints none operand.tree m.net.matchers result) :
    (m.withOperand operand result.1 result.2).2.Plain good := by
  rw [CommutativeMatcher.withOperand_eq]
  exact ⟨h.patterns, h.net.insertSteps hformed.net hshaped.enlarges (hshaped.runs 0) hplain.steps
    hplain.matchers hconstraints fun c hc => absurd hc List.not_mem_nil⟩

/-- The operands of a commutative operation are plain, and so is its matcher. -/
theorem plain_collectOperands {args : List PatternTerm} (hargs : ∀ p ∈ args, GivesPlain good p)
    (hconstraints : ∀ c ∈ constraints, good c.check) (head : Head) {m : CommutativeMatcher}
    (hformed : m.Formed) (hm : m.Plain good) :
    (collectOperands constraints head args m).2.Plain good := by
  induction args generalizing m with
  | nil => exact hm
  | cons p ps ih =>
    have hps : ∀ q ∈ ps, GivesPlain good q := fun q hq => hargs q (List.mem_cons_of_mem p hq)
    rw [collectOperands]
    cases p.sequenceVariable? head with
    | some var => exact ih hps hformed hm
    | none =>
      let operand : OperandPattern := ⟨p, operandConstraints constraints p⟩
      have hlocals : ∀ c ∈ operand.constraints, good c.check := fun c hc =>
        hconstraints c (List.mem_filter.mp hc).1
      dsimp only
      cases m.operands.findIdx? operand.same with
      | some index => exact ih hps hformed hm
      -- Only operands that are new insert anything.
      | none =>
        have hshaped := hasShape p operand.constraints none m.net.matchers hformed.net.matcher
        have hplain := hargs p List.mem_cons_self operand.constraints none m.net.matchers hlocals
          hformed.net.matcher hm.net.matcher
        exact ih hps (hformed.withOperand operand hshaped).1.formed
          (hm.withOperand hformed hlocals hplain hshaped)

/-- The defaults of sequence variables are those of the arguments. -/
theorem canonical_sequenceVariables {head : Head} {args : List PatternTerm}
    (h : ∀ t ∈ (PatternTerm.node head args).terms, t.Canonical) :
    ∀ var ∈ sequenceVariables head args, ∀ t ∈ var.default, t.Canonical := by
  intro var hvar t ht
  obtain ⟨p, hp, hbase⟩ := List.mem_filterMap.mp (base_mem_occurring hvar)
  obtain ⟨w, rfl, hw⟩ := PatternTerm.sequenceVariable?_eq_some hbase
  have hdefault : w.default = some t := (sequenceVariable?_parts hw).2.symm.trans ht
  exact h t (PatternTerm.mem_terms_node.mpr ⟨_, hp, Option.mem_toList.mpr hdefault⟩)

/-- Registering a commutative operation in the matcher of its head. -/
theorem plain_registerOperation {head : Head} {args : List PatternTerm}
    (hargs : ∀ p ∈ args, GivesPlain good p)
    (hterms : ∀ t ∈ (PatternTerm.node head args).terms, t.Canonical)
    (hconstraints : ∀ c ∈ constraints, good c.check) {m : CommutativeMatcher}
    (hformed : m.Formed) (hm : m.Plain good) :
    (registerOperation constraints head args m).2.Plain good := by
  have hcollected := plain_collectOperands hargs hconstraints head hformed hm
  rw [registerOperation_eq]
  obtain ⟨-, more, hmore, hregister⟩ := (collectOperands constraints head args m).2.register_eq
    ⟨sortBy (· ≤ ·) (collectOperands constraints head args m).1, sequenceVariables head args⟩
  rw [hregister]
  refine ⟨fun pattern hpattern => ?_, hcollected.net⟩
  rcases List.mem_append.mp hpattern with hpattern | hpattern
  · exact hcollected.patterns pattern hpattern
  · rw [hmore pattern hpattern]
    exact canonical_sequenceVariables hterms

/-- What is true of the matcher of a head, whether it was there or is new, and stays when it
    changes, is true of all matchers. -/
theorem CommutativeMatcher.forall_change {α : Type} {motive : CommutativeMatcher → Prop}
    {head : Head} {f : CommutativeMatcher → α × CommutativeMatcher} (hnew : motive (.ofHead head))
    (hf : ∀ m, motive m → motive (f m).2) (h : ∀ m ∈ matchers, motive m) :
    ∀ m ∈ (change head f matchers).2.2, motive m := by
  induction matchers with
  | nil => exact List.forall_mem_singleton.mpr (hf _ hnew)
  | cons first rest ih =>
    obtain ⟨hfirst, hrest⟩ := List.forall_mem_cons.mp h
    rw [change]
    split
    · exact List.forall_mem_cons.mpr ⟨hf first hfirst, hrest⟩
    · exact List.forall_mem_cons.mpr ⟨hfirst, ih hrest⟩

/-- **The steps of a tree with canonical terms are plain.** -/
theorem plain_collectSteps (p : PatternTerm) (hterms : ∀ t ∈ p.terms, t.Canonical) :
    GivesPlain good p := by
  induction p using PatternTerm.inductionOn with
  | atom t =>
    intro constraints parent matchers _ _ hmatchers
    have hlabel : ∀ u ∈ (Label.atom t).terms, u.Canonical := hterms
    exact ⟨List.forall_mem_singleton.mpr
      (Step.plain_of_label hlabel (fun _ h => Label.noConfusion h) rfl), hmatchers⟩
  | wildcard w =>
    intro constraints parent matchers _ _ hmatchers
    exact ⟨List.forall_mem_singleton.mpr (plain_wildcardStep parent fun t ht =>
      hterms t (Option.mem_toList.mpr ht)), hmatchers⟩
  | node head args ih =>
    have hargs : ∀ p ∈ args, GivesPlain good p := fun p hp => ih p hp fun t ht =>
      hterms t (PatternTerm.mem_terms_node.mpr ⟨p, hp, ht⟩)
    have hquiet : ∀ label : Label, label.terms = [] → ∀ t ∈ label.terms, t.Canonical :=
      fun _ hnone _ ht => absurd (hnone ▸ ht) List.not_mem_nil
    intro constraints parent matchers hconstraints hformed hmatchers
    cases hcomm : head.isCommutative with
    | true =>
      rw [collectSteps_commutative hcomm]
      have hchanged := CommutativeMatcher.forall_change
        (motive := fun m => m.Formed ∧ m.Plain good)
        (f := registerOperation constraints head args)
        ⟨CommutativeMatcher.formed_ofHead head,
          fun _ h => absurd h List.not_mem_nil, Net.plain_empty⟩
        (fun m hm => ⟨(changes_registerOperation (fun p _ => hasShape p) head hm.1).1.formed,
          plain_registerOperation hargs hterms hconstraints hm.1 hm.2⟩)
        fun m hm => ⟨hformed m hm, hmatchers m hm⟩
      refine ⟨List.forall_mem_cons.mpr ⟨?_, List.forall_mem_singleton.mpr ?_⟩,
        fun m hm => (hchanged m hm).2⟩
      · exact Step.plain_of_label (hquiet _ rfl) (fun _ h => Label.noConfusion h) rfl
      · exact ⟨hquiet _ rfl, fun _ hordinary => absurd rfl (hordinary _), fun _ _ => rfl, rfl⟩
    | false =>
      have hall := plain_collectStepsAll hargs hconstraints head hformed hmatchers
      rw [collectSteps_ordered hcomm]
      refine ⟨List.forall_mem_append.mpr
        ⟨List.forall_mem_cons.mpr ⟨?_, hall.steps⟩, List.forall_mem_singleton.mpr ?_⟩,
          hall.matchers⟩
      · exact Step.plain_of_label (hquiet _ rfl) (fun _ h => Label.noConfusion h) rfl
      · exact Step.plain_of_label (hquiet _ rfl) (fun _ h => Label.noConfusion h) rfl

/-! ### Nets of patterns -/

/-- A pattern with canonical terms, whose checks are such. -/
structure Pattern.Plain (good : Check → Prop) (pattern : Pattern) : Prop where
  terms : ∀ t ∈ pattern.tree.terms, t.Canonical
  locals : ∀ c ∈ pattern.constraints, good c.check
  globals : ∀ c ∈ pattern.globals, good c.check

/-- **A net with one more plain pattern.** -/
theorem Net.Plain.add (h : net.Plain good) (hformed : net.Formed) {pattern : Pattern}
    (hpattern : pattern.Plain good) : (net.add pattern).Plain good := by
  let names := pattern.tree.positionalNames
  let locals := pattern.constraints.map (·.renamed names)
  let tree := pattern.tree.mapVariables fun name => (names.find? name).getD name
  have hrenamed : ∀ {cs : List Constraint}, (∀ c ∈ cs, good c.check) →
      ∀ c ∈ cs.map (·.renamed names), good c.check := fun hcs c hc => by
    obtain ⟨d, hd, rfl⟩ := List.mem_map.mp hc
    exact hcs d hd
  have hterms : ∀ t ∈ tree.terms, t.Canonical := fun t ht =>
    hpattern.terms t ((PatternTerm.terms_mapVariables _ _).mem_iff.mp ht)
  have hshaped := hasShape tree locals none net.matchers hformed.matcher
  have hplain := plain_collectSteps tree hterms locals none net.matchers
    (hrenamed hpattern.locals) hformed.matcher h.matcher
  exact h.insertSteps hformed hshaped.enlarges (hshaped.runs 0) hplain.steps hplain.matchers
    (hrenamed hpattern.locals) (hrenamed hpattern.globals)

/-- **The net of plain patterns is plain.** -/
theorem Net.plain_ofPatterns {patterns : List Pattern} (h : ∀ p ∈ patterns, p.Plain good) :
    (Net.ofPatterns patterns).Plain good := by
  have hfrom : ∀ (more : List Pattern) (net : Net), (∀ p ∈ more, p.Plain good) → net.Formed →
      net.Plain good → (more.foldl Net.add net).Plain good := by
    intro more
    induction more with
    | nil => exact fun _ _ _ hnet => hnet
    | cons pattern rest ih =>
      intro net hmore hformed hnet
      obtain ⟨hpattern, hrest⟩ := List.forall_mem_cons.mp hmore
      exact ih _ hrest (hformed.add pattern).1 (hnet.add hformed hpattern)
  exact hfrom patterns Net.empty h Net.formed_empty Net.plain_empty

end TermNet
