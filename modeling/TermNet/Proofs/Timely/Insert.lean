import TermNet.Proofs.Timely.Basic

namespace TermNet

/-!
# Inserting a pattern checks its constraints in time

Patterns that share an edge have bound the same variables there.  So what becomes checkable for
the pattern that is inserted becomes checkable at the edge, whoever made it.

* `covers_registerAll` — all constraints of a pattern are registered;
* `Announced` — steps that say what the edges for them bind;
* `State.Timely.extend` — following the steps of a pattern with its schedule;
* `Net.Timely`, `Net.Timely.insertSteps` — a net with one more pattern.
-/

variable {registry : ConstraintRegistry} {owner : Nat} {cs : List Constraint}

/-! ### Registering constraints -/

namespace ConstraintRegistry

/-- What is registered under a number is the constraint at that position. -/
theorem get?_eq (registry : ConstraintRegistry) (id : ConstraintId) :
    registry.get? id = registry.constraints[id]? := (List.getElem?_map ..).symm

/-- Registering a constraint takes no other one away. -/
theorem get?_register {id : ConstraintId} {c : Constraint} (h : registry.get? id = some c)
    (d : Constraint) (owner : Nat) : (registry.register d owner).1.get? id = some c := by
  rw [get?_eq] at h ⊢
  rw [constraints_register]
  split
  · exact h
  · rw [List.getElem?_append_left (List.getElem?_eq_some_iff.mp h).1, h]

/-- Where a constraint is registered stands the same one. -/
theorem exists_get?_register (registry : ConstraintRegistry) (c : Constraint) (owner : Nat) :
    ∃ d, (registry.register c owner).1.get? (registry.register c owner).2 = some d ∧
      d.same c = true := by
  unfold register
  cases hfind : registry.entries.findIdx? fun entry => entry.constraint.same c with
  | some id =>
    obtain ⟨hlt, hsame, -⟩ := List.findIdx?_eq_some_iff_getElem.mp hfind
    exact ⟨registry.entries[id].constraint, by simp [get?, hlt], hsame⟩
  | none => exact ⟨c, by simp [get?], c.same_self⟩

/-- Registering more constraints keeps those that are registered. -/
theorem get?_registerAll {id : ConstraintId} {c : Constraint} (h : registry.get? id = some c)
    (cs : List Constraint) (owner : Nat) :
    (registry.registerAll owner cs).1.get? id = some c := by
  induction cs generalizing registry with
  | nil => exact h
  | cons d rest ih => exact ih (get?_register h d owner)

/-- **All constraints of a list are registered.** -/
theorem covers_registerAll (registry : ConstraintRegistry) (owner : Nat) (cs : List Constraint) :
    (registry.registerAll owner cs).1.Covers (registry.registerAll owner cs).2 cs := by
  induction cs generalizing registry with
  | nil => exact fun c hc => absurd hc List.not_mem_nil
  | cons c rest ih =>
    intro d hd
    rcases List.mem_cons.mp hd with rfl | hd
    · obtain ⟨e, hget, hsame⟩ := registry.exists_get?_register d owner
      exact ⟨_, List.mem_cons_self, e, get?_registerAll hget rest owner, hsame⟩
    · obtain ⟨id, hid, hregistered⟩ := ih (registry.register c owner).1 d hd
      exact ⟨id, List.mem_cons_of_mem _ hid, hregistered⟩

/-- No constraint is registered twice. -/
def Distinct (registry : ConstraintRegistry) : Prop :=
  registry.constraints.Pairwise fun c d => c.same d = false

/-- One more constraint keeps the registered ones different. -/
theorem Distinct.register (h : registry.Distinct) (c : Constraint) (owner : Nat) :
    (registry.register c owner).1.Distinct := by
  unfold Distinct
  rw [constraints_register]
  split
  · exact h
  · rename_i hnone
    refine List.pairwise_append.mpr ⟨h, List.pairwise_singleton _ _, fun d hd e he => ?_⟩
    obtain rfl := List.mem_singleton.mp he
    rw [List.any_eq_true] at hnone
    exact Bool.eq_false_iff.mpr fun hsame => hnone ⟨d, hd, hsame⟩

/-- More constraints keep the registered ones different, by induction on them. -/
theorem Distinct.registerAll (h : registry.Distinct) (cs : List Constraint) (owner : Nat) :
    (registry.registerAll owner cs).1.Distinct := by
  induction cs generalizing registry with
  | nil => exact h
  | cons c rest ih => exact ih (h.register c owner)

end ConstraintRegistry

/-- **A constraint has one position.** -/
theorem ConstraintRegistry.Distinct.eq_of_same (h : registry.Distinct) {id other : ConstraintId}
    {c d : Constraint} (hc : registry.get? id = some c) (hd : registry.get? other = some d)
    (hsame : c.same d = true) : id = other := by
  have hlt : ∀ {i j : ConstraintId} {c d : Constraint}, registry.get? i = some c →
      registry.get? j = some d → c.same d = true → ¬ i < j := by
    intro i j c d hc hd hsame hij
    rw [get?_eq] at hc hd
    obtain ⟨hi, rfl⟩ := List.getElem?_eq_some_iff.mp hc
    obtain ⟨hj, rfl⟩ := List.getElem?_eq_some_iff.mp hd
    rw [List.pairwise_iff_getElem.mp h i j hi hj hij] at hsame
    exact Bool.noConfusion hsame
  have hback := hlt hd hc (Constraint.same_symm hsame)
  exact Nat.le_antisymm (Nat.not_lt.mp hback) (Nat.not_lt.mp (hlt hc hd hsame))

/-! ### Steps that say what they bind -/

variable {matchers old new : List CommutativeMatcher} {stage final : Stage}

/-- The step says what an edge for it binds, wherever the edge may stand. -/
def Step.Announces (matchers : List CommutativeMatcher) (stage : Stage) (step : Step) : Prop :=
  ∀ state : State, state.Stands matchers stage →
    ∀ x, x ∈ step.label.binds matchers state step.variableName ↔ x ∈ step.binds

/-- **All steps say what the edges for them bind.** -/
def Announced (matchers : List CommutativeMatcher) : Stage → List Step → Prop
  | _, [] => True
  | stage, step :: rest => step.Announces matchers stage ∧
    ∀ next, step.label.next? stage = some next → Announced matchers next rest

/-- Steps that say what they bind, and more such steps. -/
theorem Announced.append {steps more : List Step} {middle : Stage}
    (hruns : Runs matchers stage steps middle) (h : Announced matchers stage steps)
    (hmore : Announced matchers middle more) : Announced matchers stage (steps ++ more) := by
  induction steps generalizing stage with
  | nil =>
    obtain rfl : stage = middle := hruns
    exact hmore
  | cons step rest ih =>
    obtain ⟨next, hstep, hrest⟩ := hruns
    refine ⟨h.1, fun other hother => ?_⟩
    obtain rfl : next = other := Option.some.inj (hstep.leads.symm.trans hother)
    exact ih hrest (h.2 next hother)

/-- Where a label may stand, a state that stands there now did so before. -/
theorem State.Stands.of_enlarges {state : State} (h : state.Stands new stage)
    (henlarges : Enlarges old new) {label : Label} (hleads : (label.next? stage).isSome)
    (hknown : label.Known old stage) : state.Stands old stage := by
  cases state with
  | branch edges => exact h
  | accept markers => exact h
  | commutative position edges =>
    obtain ⟨depth, head, rfl, hposition⟩ := h
    obtain ⟨next, hnext⟩ := Option.isSome_iff_exists.mp hleads
    obtain ⟨index, rfl⟩ := Label.next?_choosing hnext
    obtain ⟨position', m, hposition', -⟩ := hknown index depth head rfl rfl
    obtain rfl : position = position' :=
      Option.some.inj (hposition.symm.trans (henlarges.positionOf? hposition'))
    exact ⟨depth, head, rfl, hposition'⟩

/-- Steps still say what they bind when the matchers grow. -/
theorem Announced.continued {steps : List Step} (hruns : Runs old stage steps final)
    (h : Announced old stage steps) (hlisted : ∀ m ∈ old, m.Listed)
    (hcontinues : Continues old new) : Announced new stage steps := by
  induction steps generalizing stage with
  | nil => trivial
  | cons step rest ih =>
    obtain ⟨next, hstep, hrest⟩ := hruns
    have hleads : (step.label.next? stage).isSome := by rw [hstep.leads]; rfl
    refine ⟨fun state hstands x => ?_, fun other hother => ?_⟩
    · have hold := hstands.of_enlarges hcontinues.enlarges hleads hstep.known
      rw [hcontinues.binds hlisted hold hleads hstep.known]
      exact h.1 state hold x
    · obtain rfl : next = other := Option.some.inj (hstep.leads.symm.trans hother)
      exact ih hrest (h.2 next hother)

/-! ### Following the steps of a pattern -/

variable {locals : List (List Constraint)} {bound known : List String}
variable {checked ids : List ConstraintId} {state : State} {marker : Marker}

/-- What the schedule attaches to a step becomes checkable at the edge for it. -/
theorem opens_of_mem_readyConstraints {names : List String} {id : ConstraintId}
    {step : Step} (hbound : ∀ x, x ∈ known ↔ x ∈ bound)
    (hnames : ∀ x, x ∈ names ↔ x ∈ step.binds)
    (hid : id ∈ readyConstraints registry ids (step.binds.filter fun name => !known.contains name)
      (known ++ step.binds.filter fun name => !known.contains name)) :
    registry.Opens bound names id := by
  obtain ⟨-, c, hget, ⟨x, hx, hfresh⟩, hall⟩ := mem_readyConstraints.mp hid
  refine ⟨c, hget, fun y hy => ?_, x, hx, fun hold => ?_⟩
  · rw [List.mem_append, hnames, ← hbound]
    exact mem_append_fresh.mp (hall y hy)
  · simp [(hbound x).mpr hold] at hfresh

/-- Numbers that are inserted in order stay in order. -/
theorem pairwise_foldl_insertUnique {ns known : List Nat} (h : known.Pairwise (· < ·)) :
    (ns.foldl (fun known n => insertUnique n known) known).Pairwise (· < ·) := by
  induction ns generalizing known with
  | nil => exact h
  | cons n rest ih => exact ih (pairwise_insertUnique h)

/-- A bare state checks everything in time. -/
theorem State.timely_of_bare (hedges : state.edges = []) (hfinals : state.finals = []) :
    state.Timely registry matchers locals bound checked := by
  refine .intro ?_ ?_ ?_ ?_
  · exact fun edge hedge => absurd (hedges ▸ hedge) List.not_mem_nil
  · exact fun edge hedge => absurd (hedges ▸ hedge) List.not_mem_nil
  · exact fun marker hmarker => absurd (hfinals ▸ hmarker) List.not_mem_nil
  · exact fun edge hedge => absurd (hedges ▸ hedge) List.not_mem_nil

/-- Other edges do not change where patterns end. -/
theorem State.finals_withEdges (state : State) (edges : List Edge) :
    (state.withEdges edges).finals = state.finals := by
  cases state <;> rfl

/-- Where there are no markers at all, no pattern ends. -/
theorem State.finals_eq_nil_of_markers (h : state.markers = []) : state.finals = [] := by
  cases state with
  | accept markers => exact h
  | _ => rfl

/-- The state with an edge to a bare state checks no more than before. -/
theorem State.Timely.opened (h : state.Timely registry matchers locals bound checked)
    {step : Step} {next : Stage} (hstep : step.Stands matchers stage next)
    (hstate : ∀ markers, state ≠ .accept markers) (id : StateId) :
    (state.opened step id).Timely registry matchers locals bound checked := by
  have hbinds : ∀ edge : Edge, edge.binds matchers (state.opened step id) =
      edge.binds matchers state := fun edge => Label.binds_withEdges ..
  have hedges : (state.opened step id).edges = state.edges ++ [step.edge id] :=
    State.edges_opened hstate
  refine .intro (fun edge hedge => ?_) (fun edge hedge => ?_) (fun marker hmarker => ?_)
    fun edge hedge => ?_
  · rw [hbinds]
    rcases List.mem_append.mp (hedges ▸ hedge) with hedge | hedge
    · exact h.opens edge hedge
    · obtain rfl := List.mem_singleton.mp hedge
      exact fun _ hid => absurd hid List.not_mem_nil
  · rcases List.mem_append.mp (hedges ▸ hedge) with hedge | hedge
    · exact h.ascending edge hedge
    · obtain rfl := List.mem_singleton.mp hedge
      exact .nil
  · rw [State.opened, State.finals_withEdges] at hmarker
    exact h.complete marker hmarker
  · rw [hbinds]
    rcases List.mem_append.mp (hedges ▸ hedge) with hedge | hedge
    · exact h.target hedge
    · obtain rfl := List.mem_singleton.mp hedge
      exact State.timely_of_bare hstep.bare.1 (State.finals_eq_nil_of_markers hstep.bare.2)

/-- The state with one edge that checks more, and with another state behind it. -/
theorem State.Timely.through (h : state.Timely registry matchers locals bound checked)
    (hstate : ∀ markers, state ≠ .accept markers) {before after : List Edge} {edge : Edge}
    (hedges : state.edges = before ++ edge :: after)
    (hids : ∀ id ∈ ids, registry.Opens bound (edge.binds matchers state) id) {target : State}
    (htarget : target.Timely registry matchers locals (bound ++ edge.binds matchers state)
      (checked ++ (edge.usedBy marker.pattern ids target).constraints)) :
    (state.withEdges (before ++ edge.usedBy marker.pattern ids target :: after)).Timely registry
      matchers locals bound checked := by
  have hmem : edge ∈ state.edges := by
    rw [hedges]
    exact List.mem_append_right _ List.mem_cons_self
  -- All edges but one are as they were.
  have hothers : ∀ {other}, other ∈ before ++ edge.usedBy marker.pattern ids target :: after →
      other = edge.usedBy marker.pattern ids target ∨ other ∈ state.edges := by
    intro other hother
    rw [hedges]
    rcases List.mem_append.mp hother with hother | hother
    · exact .inr (List.mem_append_left _ hother)
    · exact (List.mem_cons.mp hother).imp_right fun hother =>
        List.mem_append_right _ (List.mem_cons_of_mem _ hother)
  have hbinds : ∀ other : Edge, other.binds matchers
      (state.withEdges (before ++ edge.usedBy marker.pattern ids target :: after)) =
        other.binds matchers state := fun other => Label.binds_withEdges ..
  refine .intro (fun other hother => ?_) (fun other hother => ?_) (fun marker hmarker => ?_)
    fun other hother => ?_
  · rw [hbinds]
    rw [State.edges_withEdges hstate] at hother
    rcases hothers hother with rfl | hother
    · intro id hid
      exact (mem_foldl_insertUnique.mp hid).elim (h.opens edge hmem id) (hids id)
    · exact h.opens other hother
  · rw [State.edges_withEdges hstate] at hother
    rcases hothers hother with rfl | hother
    · exact pairwise_foldl_insertUnique (h.ascending edge hmem)
    · exact h.ascending other hother
  · rw [State.finals_withEdges] at hmarker
    exact h.complete marker hmarker
  · rw [hbinds]
    rw [State.edges_withEdges hstate] at hother
    rcases hothers hother with rfl | hother
    · exact htarget
    · exact h.target hother

/-- Where patterns end, all markers are those of the state itself. -/
theorem State.Formed.markers_eq_finals (h : state.Formed matchers .finished) :
    state.markers = state.finals := by
  have hedges := h.edges_eq_nil
  cases state with
  | branch edges =>
    obtain rfl : edges = [] := hedges
    rfl
  | commutative position edges =>
    obtain rfl : edges = [] := hedges
    rfl
  | accept markers => rfl

/-- A pattern may end where its constraints are covered. -/
theorem State.Timely.finish (h : state.Timely registry matchers locals bound checked)
    (hformed : state.Formed matchers .finished) (hlocals : locals[marker.pattern]? = some cs)
    (hcovers : registry.Covers checked cs) :
    (State.accept (state.markers ++ [marker])).Timely registry matchers locals bound checked := by
  refine .intro (fun edge hedge => absurd hedge List.not_mem_nil)
    (fun edge hedge => absurd hedge List.not_mem_nil) (fun other hother => ?_)
    fun edge hedge => absurd hedge List.not_mem_nil
  rcases List.mem_append.mp hother with hother | hother
  · exact h.complete other (hformed.markers_eq_finals ▸ hother)
  · obtain rfl := List.mem_singleton.mp hother
    exact ⟨cs, hlocals, hcovers⟩

/-- **Following the steps of a pattern** with its schedule keeps the checks of all patterns in
    time, and covers the constraints of this one: `known` are the variables that the schedule has
    seen, which are those that are bound. -/
theorem State.Timely.extend {steps : List Step}
    (h : state.Timely registry matchers locals bound checked)
    (hformed : state.Formed matchers stage)
    (hruns : Runs matchers stage steps .finished) (hannounced : Announced matchers stage steps)
    (hbound : ∀ x, x ∈ known ↔ x ∈ bound) (hlocals : locals[marker.pattern]? = some cs)
    (hcovers : registry.Covers (checked ++ (schedule registry ids known steps).flatMap Prod.snd) cs)
    (id : StateId) :
    (state.extend marker (schedule registry ids known steps) id).1.Timely registry matchers locals
      bound checked := by
  have hscheduled : Runs matchers stage ((schedule registry ids known steps).map Prod.fst)
      .finished := by
    rw [map_fst_schedule]
    exact hruns
  refine State.Formed.extendOn (motive := fun stage state scheduled _ result =>
    ∀ bound known checked steps, scheduled = schedule registry ids known steps →
      Announced matchers stage steps → (∀ x, x ∈ known ↔ x ∈ bound) →
      registry.Covers (checked ++ scheduled.flatMap Prod.snd) cs →
      state.Timely registry matchers locals bound checked →
      result.1.Timely registry matchers locals bound checked)
    ?finish ?through ?fresh hformed hscheduled id bound known checked steps rfl hannounced hbound
    hcovers h
  case finish =>
    intro state id hformed bound known checked steps _ _ _ hcovers h
    rw [List.flatMap_nil, List.append_nil] at hcovers
    exact h.finish hformed hlocals hcovers
  case through =>
    intro stage next state before edge after step ready rest id result hformed hstep hedges hfits _
      ih bound known checked steps hsteps hannounced hbound hcovers h
    obtain ⟨hlabel, hname⟩ := Step.label_eq_of_fits hfits
    cases steps with
    | nil => exact absurd hsteps (by simp [schedule])
    | cons first others =>
      obtain ⟨hfirst, hrest⟩ := List.cons.inj hsteps
      obtain ⟨rfl, rfl⟩ := Prod.mk.inj hfirst
      have hbinds : ∀ x, x ∈ edge.binds matchers state ↔ x ∈ step.binds := by
        rw [Edge.binds, hlabel, hname]
        exact hannounced.1 state hformed.stands
      have hmem : edge ∈ state.edges := by
        rw [hedges]
        exact List.mem_append_right _ List.mem_cons_self
      -- The edge may be that of another pattern, which has bound the same as the step does.
      refine h.through (hformed.stands.ne_accept (by rw [hstep.leads]; rfl)) hedges
        (fun id hid => opens_of_mem_readyConstraints hbound hbinds hid) ?_
      refine ih _ _ _ others hrest (hannounced.2 next hstep.leads) (fun x => ?_)
        (hcovers.mono fun id hid => ?_) ((h.target hmem).mono fun id hid => ?_)
      · rw [mem_append_fresh, List.mem_append, hbound, hbinds]
      · rw [List.flatMap_cons, ← List.append_assoc] at hid
        refine List.mem_append.mpr ((List.mem_append.mp hid).imp_left fun hid => ?_)
        exact List.mem_append.mpr ((List.mem_append.mp hid).imp_right fun hid =>
          mem_foldl_insertUnique.mpr (.inr hid))
      · exact List.mem_append.mpr ((List.mem_append.mp hid).imp_right fun hid =>
          mem_foldl_insertUnique.mpr (.inl hid))
  case fresh =>
    -- A new edge lists nothing yet, so this is going through it in the state that has it.
    intro stage next state step ready rest id result hformed hstep _ ih bound known checked steps
      hsteps hannounced hbound hcovers h
    exact ih bound known checked steps hsteps hannounced hbound hcovers
      (h.opened hstep (hformed.stands.ne_accept (by rw [hstep.leads]; rfl)) id)

/-! ### Nets -/

/-- **A net checks its constraints in time,** and so do the nets of its matchers; `locals` lists
    the constraints of its patterns. -/
inductive Net.Timely : List (List Constraint) → Net → Prop where
  | intro {locals : List (List Constraint)} {net : Net}
      (root : net.root.Timely net.registry net.matchers locals [] [])
      (count : locals.length = net.patternCount) (distinct : net.registry.Distinct)
      (nested : ∀ m ∈ net.matchers, Net.Timely (m.operands.map OperandPattern.constraints) m.net) :
      Net.Timely locals net

variable {net : Net} {steps : List Step}

namespace Net.Timely

/-- The tree of a net checks constraints in time. -/
theorem root (h : net.Timely locals) : net.root.Timely net.registry net.matchers locals [] [] := by
  cases h with | intro root => exact root

/-- There are constraints for each pattern of a net. -/
theorem count (h : net.Timely locals) : locals.length = net.patternCount := by
  cases h with | intro _ count => exact count

/-- The registered constraints of a net are different. -/
theorem distinct (h : net.Timely locals) : net.registry.Distinct := by
  cases h with | intro _ _ distinct => exact distinct

/-- The nets of the matchers check the constraints of their operands in time. -/
theorem matcher (h : net.Timely locals) : ∀ m ∈ net.matchers,
    m.net.Timely (m.operands.map OperandPattern.constraints) := by
  cases h with | intro _ _ _ nested => exact nested

end Net.Timely

/-- The net of a matcher checks the constraints of the operands in time. -/
def CommutativeMatcher.Timely (matcher : CommutativeMatcher) : Prop :=
  matcher.net.Timely (matcher.operands.map OperandPattern.constraints)

/-- The net without patterns. -/
theorem Net.timely_empty : Net.empty.Timely [] :=
  .intro (State.timely_of_bare rfl rfl) rfl .nil fun _ hm => absurd hm List.not_mem_nil

/-- **A net with one more pattern** checks the constraints of all patterns in time, if the steps
    of the new one bind the variables of its constraints. -/
theorem Net.Timely.insertSteps (h : net.Timely locals) (hformed : net.Formed) {entry : Entry}
    (hindex : entry.index = net.patternCount)
    (hbinds : ∀ c ∈ entry.locals,
      c.variableNames ≠ [] ∧ ∀ x ∈ c.variableNames, x ∈ steps.flatMap Step.binds)
    (hcontinues : Continues net.matchers matchers) (hmatchers : ∀ m ∈ matchers, m.Timely)
    (hruns : Runs matchers (.within 0) steps .finished)
    (hannounced : Announced matchers (.within 0) steps) :
    (net.insertSteps entry steps matchers).Timely (locals ++ [entry.locals]) := by
  let registered := net.registered entry
  have hkeeps : ∀ id c, net.registry.get? id = some c → registered.1.get? id = some c :=
    fun id c hget => ConstraintRegistry.get?_registerAll
      (ConstraintRegistry.get?_registerAll hget entry.locals entry.index) entry.globals entry.index
  have hcovers : registered.1.Covers registered.2.1 entry.locals :=
    (net.registry.covers_registerAll entry.index entry.locals).keeps fun id c hget =>
      ConstraintRegistry.get?_registerAll hget entry.globals entry.index
  -- All constraints of the new pattern stand at some step of it.
  have hscheduled : registered.1.Covers ([] ++
      (schedule registered.1 registered.2.1 [] steps).flatMap Prod.snd) entry.locals := by
    intro c hc
    obtain ⟨id, hid, d, hget, hsame⟩ := hcovers c hc
    obtain ⟨hnonempty, hvariables⟩ := hbinds c hc
    have hnames := Constraint.variableNames_eq_of_same hsame
    refine ⟨id, exists_mem_schedule hid hget (fun hall => hnonempty ?_) fun x hx => ?_, d, hget,
      hsame⟩
    · rw [← hnames]
      exact List.eq_nil_iff_forall_not_mem.mpr fun x hx => absurd (hall x hx) List.not_mem_nil
    · exact .inr (hvariables x (hnames ▸ hx))
  have hlocals : (locals ++ [entry.locals])[(net.markerOf entry).pattern]? = some entry.locals := by
    rw [show (net.markerOf entry).pattern = locals.length from hindex.trans h.count.symm]
    exact List.getElem?_concat_length
  have hroot := h.root.continued hformed.root (fun m hm => (hformed.matcher m hm).listed) hcontinues
    hkeeps [entry.locals]
  refine .intro ?_ ?_ ((h.distinct.registerAll _ _).registerAll _ _) hmatchers
  · rw [net.root_insertSteps, net.registry_insertSteps]
    exact hroot.extend (hformed.root.enlarge hcontinues.enlarges) hruns hannounced
      (fun x => Iff.rfl) hlocals hscheduled net.stateCount
  · show (locals ++ [entry.locals]).length = max net.patternCount (entry.index + 1)
    rw [hindex, Nat.max_eq_right (Nat.le_succ _), List.length_append, h.count]
    rfl

end TermNet
