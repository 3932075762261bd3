import TermNet.Proofs.Timely.Collect
import TermNet.Proofs.Net.Trusting
import TermNet.Proofs.Structure

namespace TermNet

/-!
# Constraints are checked as early as possible

Patterns share the edges of a net, and constraints that are the same share a position in its
registry.  Still every constraint of every pattern is listed at one place of its path, and this
is the first place where all its variables are bound.

* `Reaches` — following a path while matching;
* `Net.Places` — a constraint that stands at the earliest place of a path;
* `Net.Punctual`, `Net.PunctualThroughout` — what is true of a net, and of the nets of its
  matchers;
* `constraints_are_checked_early` — the result.
-/

/-- **Following a path** takes from one place to another. -/
inductive Reaches (matchers : List OperandMatcher) : State → Place → List Edge → Place → Prop where
  | here (state : State) (place : Place) : Reaches matchers state place [] place
  | down {state : State} {edge : Edge} {path : List Edge} {place after last : Place}
      (hedge : edge ∈ state.edges)
      (hafter : after ∈ edge.label.advance (state.matcher? matchers) edge.variableName place)
      (rest : Reaches matchers edge.target after path last) :
      Reaches matchers state place (edge :: path) last

/-- **A constraint stands at the earliest place of a path:** it is registered at one position,
    which one edge of the path lists, behind which all variables of the constraint are bound,
    and before which one of them is not. -/
def Net.Places (net : Net) (path : List Edge) (c : Constraint) : Prop :=
  ∃ id, (∀ other, (∃ d, net.registry.get? other = some d ∧ d.same c = true) ↔ other = id) ∧
    ∃ before edge after, path = before ++ edge :: after ∧ id ∈ edge.constraints ∧
      (∀ other ∈ before ++ after, id ∉ other.constraints) ∧
      (∀ x ∈ c.variableNames, x ∈ boundAlong net.matchers net.root (before ++ [edge])) ∧
      ∃ x ∈ c.variableNames, x ∉ boundAlong net.matchers net.root before

/-- **Constraints are checked as early as possible** in a net, the nets of its matchers apart;
    `locals` lists the constraints of its patterns. -/
structure Net.Punctual (locals : List (List Constraint)) (net : Net) : Prop where
  /-- What an edge lists has all its variables bound by the path to the edge and by the edge. -/
  bound : ∀ path last, Descends (0, net.root) path last → ∀ edge ∈ last.2.edges,
    ∀ id ∈ edge.constraints, ∃ c, net.registry.get? id = some c ∧
      ∀ x ∈ c.variableNames, x ∈ boundAlong net.matchers net.root (path ++ [edge])
  /-- So it is not checked without its variables, however the edge is reached. -/
  checked : ∀ place path edge after,
    Reaches (operandMatchers net.matchers) net.root place (path ++ [edge]) after →
      ∀ id ∈ edge.constraints, ∃ c, net.registry.get? id = some c ∧
        ∀ x ∈ c.variableNames, after.subst.Binds x
  /-- Nothing is listed twice on the way to a marker. -/
  once : ∀ path id markers, Descends (0, net.root) path (id, .accept markers) →
    (path.flatMap Edge.constraints).Nodup
  /-- Every pattern has a path to its marker. -/
  count : locals.length = net.patternCount
  ends : ∀ index < locals.length, ∃ path id markers,
    Descends (0, net.root) path (id, .accept markers) ∧ ∃ m ∈ markers, m.pattern = index
  /-- Every constraint of a pattern stands at the earliest place of the path to its marker. -/
  placed : ∀ path id markers, Descends (0, net.root) path (id, .accept markers) →
    ∀ m ∈ markers, ∃ cs, locals[m.pattern]? = some cs ∧ ∀ c ∈ cs, net.Places path c
  /-- An edge that binds nothing checks nothing. -/
  quiet : ∀ path last, Descends (0, net.root) path last → ∀ edge ∈ last.2.edges,
    edge.variableName = none → (∀ index, edge.label ≠ .operands index) → edge.constraints = []

/-- Constraints are checked as early as possible in a net and, at every nesting level, in the nets
    of its matchers, whose patterns are the operands. -/
inductive Net.PunctualThroughout : List (List Constraint) → Net → Prop where
  | intro {locals : List (List Constraint)} {net : Net} (here : net.Punctual locals)
      (inner : ∀ m ∈ net.matchers,
        Net.PunctualThroughout (m.operands.map OperandPattern.constraints) m.net) :
      Net.PunctualThroughout locals net

variable {net : Net} {locals : List (List Constraint)}

/-! ### Paths of a net -/

/-- What is listed twice on a path is listed by one edge. -/
theorem not_mem_of_nodup {before after : List Edge} {edge : Edge} {id : ConstraintId}
    (h : ((before ++ edge :: after).flatMap Edge.constraints).Nodup) (hid : id ∈ edge.constraints) :
    ∀ other ∈ before ++ after, id ∉ other.constraints := by
  rw [List.flatMap_append, List.flatMap_cons] at h
  obtain ⟨-, hafter, hbefore⟩ := List.nodup_append.mp h
  intro other hother hmem
  rcases List.mem_append.mp hother with hother | hother
  · exact hbefore id (List.mem_flatMap.mpr ⟨other, hother, hmem⟩) id
      (List.mem_append_left _ hid) rfl
  · exact (List.nodup_append.mp hafter).2.2 id hid id
      (List.mem_flatMap.mpr ⟨other, hother, hmem⟩) rfl

/-- **A constraint of a pattern stands at the earliest place of its path.** -/
theorem Net.Timely.places (h : net.Timely locals) {path : List Edge} {last : StateId × State}
    (hpath : Descends (0, net.root) path last) {c : Constraint} {cs : List Constraint}
    (hcovers : net.registry.Covers (path.flatMap Edge.constraints) cs) (hc : c ∈ cs) :
    net.Places path c := by
  obtain ⟨id, hid, d, hget, hsame⟩ := hcovers c hc
  obtain ⟨edge, hedge, hlisted⟩ := List.mem_flatMap.mp hid
  obtain ⟨before, after, rfl⟩ := List.append_of_mem hedge
  obtain ⟨between, hbefore, hbetween, -⟩ := hpath.split
  obtain ⟨e, hother, hall, hfresh⟩ :=
    (State.Timely.along hbefore h.root).opens edge hbetween id hlisted
  obtain rfl : d = e := Option.some.inj (hget.symm.trans hother)
  rw [List.nil_append] at hall hfresh
  have hnames := Constraint.variableNames_eq_of_same hsame
  -- What is registered there may be the constraint of another pattern that is the same.
  refine ⟨id, fun other => ⟨fun ⟨e, he, hsame'⟩ => ?_, ?_⟩, before, edge, after, rfl, hlisted,
    not_mem_of_nodup (State.Timely.nodup hpath h.root) hlisted, fun x hx => ?_, ?_⟩
  · exact h.distinct.eq_of_same he hget (Constraint.same_trans hsame' (Constraint.same_symm hsame))
  · rintro rfl
    exact ⟨d, hget, hsame⟩
  · rw [hbefore.boundAlong_append, boundAlong, boundAlong, List.append_nil]
    exact hall x (hnames ▸ hx)
  · exact hnames ▸ hfresh

/-- An edge that binds nothing makes nothing checkable. -/
theorem State.Timely.constraints_eq_nil {registry : ConstraintRegistry}
    {matchers : List CommutativeMatcher} {bound : List String} {checked : List ConstraintId}
    {state : State} (h : state.Timely registry matchers locals bound checked) {edge : Edge}
    (hedge : edge ∈ state.edges) (hname : edge.variableName = none)
    (hoperands : ∀ index, edge.label ≠ .operands index) : edge.constraints = [] := by
  have hbinds : edge.binds matchers state = [] := by
    rw [Edge.binds, hname]
    cases hlabel : edge.label with
    | operands index => exact absurd hlabel (hoperands index)
    | _ => rfl
  refine List.eq_nil_iff_forall_not_mem.mpr fun id hid => ?_
  obtain ⟨c, -, hall, x, hx, hfresh⟩ := h.opens edge hedge id hid
  rw [hbinds, List.append_nil] at hall
  exact hfresh (hall x hx)

/-! ### Places behind an edge -/

/-- **What is known of a tree** says which variables are bound at the places that are reached:
    those of the constraints that are checked there. -/
theorem State.Valid.binds_of_reaches {registry : ConstraintRegistry}
    {matchers : List OperandMatcher}
    {stage : Stage} {checked : List ConstraintId} {bound : List String} {state : State}
    {place after : Place} {path : List Edge} {edge : Edge}
    (h : state.Valid matchers registry stage checked bound)
    (hplace : ∀ x ∈ bound, place.subst.Binds x)
    (hreaches : Reaches matchers state place (path ++ [edge]) after) :
    ∀ id ∈ edge.constraints, ∃ c, registry.get? id = some c ∧
      ∀ x ∈ c.variableNames, after.subst.Binds x := by
  -- Behind an edge, the variables are bound that were bound before, and those of the edge.
  have hbehind : ∀ {edge : Edge} {state : State} {stage checked bound} {place after : Place},
      state.Valid matchers registry stage checked bound → edge ∈ state.edges →
      (∀ x ∈ bound, place.subst.Binds x) →
      after ∈ edge.label.advance (state.matcher? matchers) edge.variableName place →
      ∃ next names, (∀ x ∈ bound ++ names, after.subst.Binds x) ∧
        (∀ id ∈ edge.constraints, registry.IsBound id (bound ++ names)) ∧
        edge.target.Valid matchers registry next (checked ++ edge.constraints)
          (bound ++ names) := by
    intro edge state stage checked bound place after h hedge hplace hafter
    have hvalid := h.edges edge hedge
    rw [← h.matcher?_eq] at hvalid
    obtain ⟨-, -, next, names, -, hnames, hids, htarget⟩ := edgeValid_iff.mp hvalid
    refine ⟨next, names, fun x hx => ?_, hids, htarget⟩
    rcases List.mem_append.mp hx with hx | hx
    · exact (advance_below hafter).binds (hplace x hx)
    · exact hnames place after hafter x hx
  induction path generalizing stage checked bound state place with
  | nil =>
    cases hreaches with
    | down hedge hafter rest =>
      cases rest with
      | here =>
        obtain ⟨next, names, hbinds, hids, -⟩ := hbehind h hedge hplace hafter
        intro id hid
        obtain ⟨c, hget, hnames⟩ := hids id hid
        exact ⟨c, hget, fun x hx => hbinds x (hnames x hx)⟩
  | cons first path ih =>
    cases hreaches with
    | down hedge hafter rest =>
      obtain ⟨next, names, hbinds, -, htarget⟩ := hbehind h hedge hplace hafter
      exact ih htarget hbinds rest

/-! ### The result -/

/-- **A net that checks in time checks as early as possible.** -/
theorem Net.Timely.punctual (h : net.Timely locals) (hformed : net.Formed)
    (hvalid : net.root.Valid (operandMatchers net.matchers) net.registry (.within 0) [] []) :
    net.Punctual locals where
  bound path last hpath edge hedge id hid := by
    obtain ⟨c, hget, hall, -⟩ := (State.Timely.along hpath h.root).opens edge hedge id hid
    refine ⟨c, hget, fun x hx => ?_⟩
    rw [hpath.boundAlong_append, boundAlong, boundAlong, List.append_nil]
    exact hall x hx
  checked place path edge after hreaches :=
    hvalid.binds_of_reaches (fun x hx => absurd hx List.not_mem_nil) hreaches
  once path id markers hpath := State.Timely.nodup hpath h.root
  count := h.count
  ends index hindex := by
    have hmem : index ∈ net.root.markers.map Marker.pattern :=
      hformed.markers.mem_iff.mpr (List.mem_range.mpr (h.count ▸ hindex))
    obtain ⟨m, hm, hpattern⟩ := List.mem_map.mp hmem
    obtain ⟨path, id, markers, hpath, hmarker⟩ := (State.mem_markers_iff 0).mp hm
    exact ⟨path, id, markers, hpath, m, hmarker, hpattern⟩
  placed path id markers hpath m hm := by
    obtain ⟨cs, hcs, hcovers⟩ := (State.Timely.along hpath h.root).complete m hm
    exact ⟨cs, hcs, fun c hc => h.places hpath hcovers hc⟩
  quiet path last hpath edge hedge hname hoperands :=
    (State.Timely.along hpath h.root).constraints_eq_nil hedge hname hoperands

/-- **Constraints are checked as early as possible.**  In the net of any list of patterns, and in
    the nets of its matchers at every nesting level: the constraints of an edge are about what is
    bound along the path to it and by the edge itself, so that none is checked without its
    variables; none is listed twice on the way to a marker; every local constraint of a pattern
    is listed once on the path of the pattern, by the first edge behind which its variables are
    bound; and an edge that binds nothing lists none. -/
theorem constraints_are_checked_early (patterns : List Pattern) (hbuilt : ∀ p ∈ patterns, p.Built) :
    (Net.ofPatterns patterns).PunctualThroughout (patterns.map Pattern.positionalLocals) := by
  have hlevels : ∀ (net : Net) (locals : List (List Constraint)), net.Timely locals → net.Formed →
      (net.interpret trusting).Valid trusting → net.PunctualThroughout locals := by
    intro net
    induction net using Net.inductionOn with
    | step net ih =>
      intro locals htimely hformed hvalid
      -- The nets of matchers find no more than they would if custom constraints were trusted.
      have hrelaxes := Net.relaxes_trusting fun m hm =>
        m.net.matches_sublist_trusting (Net.valid_matcher_interpret hvalid hm)
      refine .intro (htimely.punctual hformed (Net.valid_root_of_trusting hvalid hrelaxes))
        fun m hm => ih m hm _ (htimely.matcher m hm) (hformed.matcher m hm).net
          (Net.valid_matcher_interpret hvalid hm)
  have hvalid := (Net.valid_ofPatterns (built_trusting hbuilt) (follows_trusting patterns)).1
  have hinterprets : List.Forall₂ (Pattern.Interprets trusting) patterns
      (patterns.map Pattern.trusting) :=
    List.forall₂_map_right_iff.mpr (List.forall₂_same.mpr fun p _ => p.interprets_trusting)
  rw [Net.ofPatterns_interpret hinterprets] at hvalid
  exact hlevels _ _ (Net.timely_ofPatterns hbuilt) (Net.formed_ofPatterns patterns) hvalid

/-- Behind a sum, the edge of each of two patterns checks the constraint of that pattern. -/
theorem constraints_are_checked_early_for_sums :
    (Net.ofPatterns [sampleSum, sampleSuccessor]).states.flatMap
        (fun entry => entry.2.edges.map Edge.constraints) = [[], [0], [1]] ∧
      (Net.ofPatterns [sampleSum, sampleSuccessor]).PunctualThroughout
        ([sampleSum, sampleSuccessor].map Pattern.positionalLocals) :=
  ⟨by decide +kernel, constraints_are_checked_early _ built_samples⟩

end TermNet
