import TermNet.Proofs.Net.Follow

namespace TermNet

/-!
# What inserting a pattern changes

A pattern is inserted by following its steps.  What other patterns reach stays as it
was, in the same order; what the new pattern reaches is what its steps lead to, whatever
edges it shares; and the invariant is kept.

* `State.explore_extend_other` — the other patterns reach what they reached before;
* `State.explore_extend_own` — the new pattern reaches what its steps lead to;
* `State.mem_markers_extend` — there is one more marker and no other one;
* `State.Valid.extend` — the invariant is kept.
-/

variable {matchers : List OperandMatcher} {registry : ConstraintRegistry}
variable {stage : Stage} {checked : List ConstraintId} {bound : List String}
variable {marker : Marker} {steps : List (Step × List ConstraintId)} {state : State}

/-! ### Changing one edge -/

/-- The matcher that a state looks at. -/
def State.matcher? (matchers : List OperandMatcher) : State → Option OperandMatcher
  | commutative position _ => matchers[position]?
  | branch _ | accept _ => none

/-- A state with other edges is explored along these. -/
theorem State.explore_withEdges (hstate : ∀ markers, state ≠ .accept markers) (edges : List Edge) :
    (state.withEdges edges).explore matchers =
      exploreEdges matchers (state.matcher? matchers) edges := by
  cases state with
  | branch _ => rfl
  | commutative position _ => rfl
  | accept markers => exact absurd rfl (hstate markers)

/-- A state with its own edges is itself. -/
theorem State.withEdges_edges : state.withEdges state.edges = state := by
  cases state <;> rfl

/-- The markers below other edges. -/
theorem State.markers_withEdges (hstate : ∀ markers, state ≠ .accept markers)
    (edges : List Edge) : (state.withEdges edges).markers = markersBelow edges := by
  cases state with
  | branch _ => rfl
  | commutative position _ => rfl
  | accept markers => exact absurd rfl (hstate markers)

/-- The markers below two lists of edges. -/
theorem markersBelow_append (edges more : List Edge) :
    markersBelow (edges ++ more) = markersBelow edges ++ markersBelow more := by
  induction edges with
  | nil => rfl
  | cons edge rest ih =>
    obtain ⟨label, name, patterns, constraints, id, target⟩ := edge
    rw [List.cons_append, markersBelow, markersBelow, ih, List.append_assoc]

/-- The markers below the first edge, and those below the others. -/
theorem markersBelow_cons (edge : Edge) (rest : List Edge) :
    markersBelow (edge :: rest) = edge.target.markers ++ markersBelow rest := by
  obtain ⟨label, name, patterns, constraints, id, target⟩ := edge
  rfl

/-- Two lists of edges are explored one after the other. -/
theorem exploreEdges_append (matcher : Option OperandMatcher) (edges more : List Edge)
    (place : Place) :
    exploreEdges matchers matcher (edges ++ more) place =
      exploreEdges matchers matcher edges place ++ exploreEdges matchers matcher more place := by
  rw [exploreEdges_eq, exploreEdges_eq, exploreEdges_eq, List.flatMap_append]

/-- The first edge is explored, and then the others. -/
theorem exploreEdges_cons (matcher : Option OperandMatcher) (edge : Edge) (rest : List Edge)
    (place : Place) :
    exploreEdges matchers matcher (edge :: rest) place =
      exploreEdge matchers matcher edge place ++ exploreEdges matchers matcher rest place := rfl

/-- Nothing is reached from a state without markers. -/
theorem State.explore_eq_nil (h : state.markers = []) (place : Place) :
    state.explore matchers place = [] := by
  refine List.eq_nil_iff_forall_not_mem.mpr fun reached hmem => ?_
  have hmarker := mem_markers_of_mem_explore hmem
  rw [h] at hmarker
  exact List.not_mem_nil hmarker

/-- A state with one edge singled out: an edge for `step`, behind which `target` stands. -/
structure State.Splits (matchers : List OperandMatcher) (matcher : Option OperandMatcher)
    (state : State) (step : Step) (before : List Edge) (target : State) (after : List Edge) :
    Prop where
  markers : state.markers = markersBelow before ++ (target.markers ++ markersBelow after)
  explore : ∀ place, state.explore matchers place =
    exploreEdges matchers matcher before place ++
      ((step.label.advance matcher step.variableName place).flatMap (target.explore matchers) ++
        exploreEdges matchers matcher after place)

/-- The edge that a step uses splits the others into those in front of it and those behind it. -/
theorem State.splits_withEdges (matchers : List OperandMatcher) {step : Step} (edge : Edge)
    (before after : List Edge)
    (hstate : ∀ markers, state ≠ .accept markers) (hfits : step.fits edge = true) :
    (state.withEdges (before ++ edge :: after)).Splits matchers (state.matcher? matchers) step
      before edge.target after := by
  have hparts : edge.label = step.label ∧ edge.variableName = step.variableName := by
    simpa [Step.fits] using hfits
  constructor
  · rw [markers_withEdges hstate, markersBelow_append, markersBelow_cons]
  · intro place
    rw [explore_withEdges hstate, exploreEdges_append, exploreEdges_cons, exploreEdge_eq,
      hparts.1, hparts.2]

/-- A place for a new edge is one for an edge that leads nowhere. -/
theorem State.splits_of_fresh {step : Step} (hfresh : step.fresh.markers = [])
    (hstate : ∀ markers, state ≠ .accept markers) :
    state.Splits matchers (state.matcher? matchers) step state.edges step.fresh [] := by
  constructor
  · rw [hfresh]
    conv_lhs => rw [← state.withEdges_edges, markers_withEdges hstate]
    simp [markersBelow]
  · intro place
    have hnone : (step.label.advance (state.matcher? matchers) step.variableName place).flatMap
        (step.fresh.explore matchers) = [] :=
      List.flatMap_eq_nil_iff.mpr fun after _ => explore_eq_nil hfresh after
    rw [hnone]
    conv_lhs => rw [← state.withEdges_edges, explore_withEdges hstate]
    simp [exploreEdges]

/-- **One step of inserting** puts something else behind one edge. -/
theorem State.splits_extend (matchers : List OperandMatcher) (marker : Marker) {step : Step}
    (ids : List ConstraintId) (steps : List (Step × List ConstraintId))
    (hfresh : step.fresh.markers = []) (hstate : ∀ markers, state ≠ .accept markers)
    (next : StateId) :
    ∃ before target after newest,
      ((∃ edge ∈ state.edges, step.fits edge = true ∧ target = edge.target) ∨
        target = step.fresh) ∧
      state.Splits matchers (state.matcher? matchers) step before target after ∧
      (state.extend marker ((step, ids) :: steps) next).1.Splits matchers
        (state.matcher? matchers) step before (target.extend marker steps newest).1 after := by
  obtain ⟨before, edge, after, newest, -, hfits, hedges, hextend⟩ :=
    state.extend_cons marker step ids steps next
  refine ⟨before, edge.target, after, newest, ?_, ?_, ?_⟩
  · rcases hedges with ⟨hedges, -⟩ | ⟨-, -, rfl, -⟩
    · have hmem : edge ∈ state.edges := by
        rw [hedges]
        exact List.mem_append_right _ List.mem_cons_self
      exact .inl ⟨edge, hmem, hfits, rfl⟩
    · exact .inr rfl
  · rcases hedges with ⟨hedges, -⟩ | ⟨hbefore, rfl, rfl, -⟩
    · have hsplits := splits_withEdges matchers edge before after hstate hfits
      rwa [← hedges, withEdges_edges] at hsplits
    · rw [← hbefore]
      exact splits_of_fresh hfresh hstate
  · rw [hextend]
    exact splits_withEdges matchers (edge.usedBy marker.pattern ids
      (edge.target.extend marker steps newest).1) before after hstate hfits

/-- An accepting state is never extended by a step. -/
theorem State.extend_accept (markers : List Marker) (step : Step × List ConstraintId)
    (next : StateId) :
    (State.extend marker (step :: steps) (.accept markers) next).1 = .accept markers := by
  obtain ⟨before, edge, after, newest, -, -, -, hextend⟩ :=
    (State.accept markers).extend_cons marker step.1 step.2 steps next
  exact congrArg Prod.fst hextend

/-! ### Markers -/

/-- What marking the end of a pattern makes of a state. -/
theorem State.withMarker_cases (state : State) (marker : Marker) :
    state.markers = [] ∧ state.withMarker marker = .accept [marker] ∨
      (∃ markers, state = .accept markers ∧
        state.withMarker marker = .accept (markers ++ [marker])) ∨
      state.withMarker marker = state := by
  unfold withMarker
  split
  · exact .inl ⟨rfl, rfl⟩
  · exact .inl ⟨rfl, rfl⟩
  · rename_i markers
    exact .inr (.inl ⟨markers, rfl, rfl⟩)
  · exact .inr (.inr rfl)

/-- There are no other markers than the new one and the old ones. -/
theorem State.mem_markers_extend (hfresh : ∀ step ∈ steps, step.1.fresh.markers = [])
    {m : Marker} {next : StateId} (h : m ∈ (state.extend marker steps next).1.markers) :
    m = marker ∨ m ∈ state.markers := by
  induction steps generalizing state next with
  | nil =>
    rw [extend] at h
    rcases state.withMarker_cases marker with ⟨-, heq⟩ | ⟨markers, rfl, heq⟩ | heq
    · rw [heq] at h
      exact .inl (List.mem_singleton.mp h)
    · rw [heq] at h
      rcases List.mem_append.mp h with h | h
      · exact .inr h
      · exact .inl (List.mem_singleton.mp h)
    · rw [heq] at h
      exact .inr h
  | cons first rest ih =>
    -- Steps through an accepting state change nothing.
    by_cases haccept : ∃ markers, state = .accept markers
    · obtain ⟨markers, rfl⟩ := haccept
      rw [extend_accept] at h
      exact .inr h
    · have hstate : ∀ markers, state ≠ .accept markers := fun markers heq =>
        haccept ⟨markers, heq⟩
      obtain ⟨before, target, after, newest, -, hold, hnew⟩ :=
        splits_extend [] marker first.2 rest (hfresh first List.mem_cons_self) hstate next
      rw [hnew.markers] at h
      rw [hold.markers]
      have htarget := @ih target (fun step hstep => hfresh step (List.mem_cons_of_mem _ hstep))
        newest
      simp only [List.mem_append] at h ⊢
      rcases h with h | h | h
      · exact .inr (.inl h)
      · exact (htarget h).imp_right fun h => .inr (.inl h)
      · exact .inr (.inr (.inr h))

/-! ### What is reached -/

/-- One more marker is reached behind the others. -/
theorem State.explore_accept_append (markers : List Marker) (place : Place) :
    (State.accept (markers ++ [marker])).explore matchers place =
      (State.accept markers).explore matchers place ++
        if place.queue.isExhausted then [(marker, place.subst)] else [] := by
  show (if place.queue.isExhausted then (markers ++ [marker]).map (·, place.subst) else []) =
    (if place.queue.isExhausted then markers.map (·, place.subst) else []) ++ _
  by_cases hexhausted : place.queue.isExhausted = true
  · rw [if_pos hexhausted, if_pos hexhausted, if_pos hexhausted, List.map_append]
    rfl
  · rw [if_neg hexhausted, if_neg hexhausted, if_neg hexhausted]
    rfl

/-- Nothing of a pattern without markers below the edges is reached through them. -/
theorem filter_exploreEdges (matchers : List OperandMatcher) (matcher : Option OperandMatcher)
    {edges : List Edge} (h : ∀ m ∈ markersBelow edges, m.pattern ≠ marker.pattern) (place : Place) :
    (exploreEdges matchers matcher edges place).filter (·.1.pattern ≠ marker.pattern) =
        exploreEdges matchers matcher edges place ∧
      (exploreEdges matchers matcher edges place).filter (·.1.pattern = marker.pattern) = [] := by
  have hreached : ∀ reached ∈ exploreEdges matchers matcher edges place,
      reached.1.pattern ≠ marker.pattern := by
    intro reached hmem
    rw [exploreEdges_eq, List.mem_flatMap] at hmem
    obtain ⟨edge, hedge, hmem⟩ := hmem
    rw [exploreEdge_eq, List.mem_flatMap] at hmem
    obtain ⟨after, -, hmem⟩ := hmem
    exact h _ (mem_markersBelow.mpr ⟨edge, hedge, mem_markers_of_mem_explore hmem⟩)
  constructor
  · exact List.filter_eq_self.mpr fun reached hmem => by simpa using hreached reached hmem
  · exact List.filter_eq_nil_iff.mpr fun reached hmem => by simpa using hreached reached hmem

/-- **The other patterns reach what they reached before,** in the same order. -/
theorem State.explore_extend_other (hfresh : ∀ step ∈ steps, step.1.fresh.markers = [])
    (hmarkers : ∀ m ∈ state.markers, m.pattern ≠ marker.pattern) (next : StateId) (place : Place) :
    ((state.extend marker steps next).1.explore matchers place).filter
        (·.1.pattern ≠ marker.pattern) = state.explore matchers place := by
  induction steps generalizing state next place with
  | nil =>
    have hkept : (state.explore matchers place).filter (·.1.pattern ≠ marker.pattern) =
        state.explore matchers place :=
      List.filter_eq_self.mpr fun reached hmem => by
        simpa using hmarkers reached.1 (mem_markers_of_mem_explore hmem)
    -- Where the pattern ends, there is at most its own marker in addition.
    have hmarked : ∀ markers, ((State.accept (markers ++ [marker])).explore matchers place).filter
        (·.1.pattern ≠ marker.pattern) =
          ((State.accept markers).explore matchers place).filter
            (·.1.pattern ≠ marker.pattern) := by
      intro markers
      rw [explore_accept_append, List.filter_append]
      split <;> simp
    rw [extend]
    rcases state.withMarker_cases marker with ⟨hnone, heq⟩ | ⟨markers, rfl, heq⟩ | heq
    · rw [heq, explore_eq_nil hnone]
      have hempty := hmarked []
      rwa [@explore_eq_nil _ (.accept []) rfl] at hempty
    · rw [heq, hmarked, hkept]
    · rw [heq, hkept]
  | cons first rest ih =>
    by_cases haccept : ∃ markers, state = .accept markers
    · obtain ⟨markers, rfl⟩ := haccept
      rw [extend_accept]
      exact List.filter_eq_self.mpr fun reached hmem => by
        simpa using hmarkers reached.1 (mem_markers_of_mem_explore hmem)
    · have hstate : ∀ markers, state ≠ .accept markers := fun markers heq =>
        haccept ⟨markers, heq⟩
      obtain ⟨before, target, after, newest, -, hold, hnew⟩ :=
        splits_extend matchers marker first.2 rest (hfresh first List.mem_cons_self) hstate next
      rw [hold.markers] at hmarkers
      simp only [List.mem_append] at hmarkers
      have hbefore := filter_exploreEdges matchers (state.matcher? matchers)
        (fun m hm => hmarkers m (.inl hm)) place
      have hafter := filter_exploreEdges matchers (state.matcher? matchers)
        (fun m hm => hmarkers m (.inr (.inr hm))) place
      have htarget : ∀ after ∈ first.1.label.advance (state.matcher? matchers)
          first.1.variableName place,
          ((target.extend marker rest newest).1.explore matchers after).filter
            (·.1.pattern ≠ marker.pattern) = target.explore matchers after :=
        fun after _ => ih (fun step hstep => hfresh step (List.mem_cons_of_mem _ hstep))
          (fun m hm => hmarkers m (.inr (.inl hm))) newest after
      rw [hnew.explore, hold.explore, List.filter_append, List.filter_append, hbefore.1, hafter.1,
        List.filter_flatMap, List.flatMap_congr htarget]

/-- A state that some label may leave accepts nothing. -/
theorem State.Valid.ne_accept {label : Label} {next : Stage}
    (h : state.Valid matchers registry stage checked bound)
    (hnext : label.next? stage = some next) : ∀ markers, state ≠ .accept markers := by
  rintro markers rfl
  obtain rfl : stage = .finished := h.1
  cases label <;> simp [Label.next?] at hnext

/-- The matcher that a valid state looks at is that of its stage. -/
theorem State.Valid.matcher?_eq (h : state.Valid matchers registry stage checked bound) :
    state.matcher? matchers = stage.context matchers := by
  cases state with
  | branch edges => exact h.context_eq_none.symm
  | commutative position edges => exact h.context_eq.symm
  | accept markers =>
    obtain rfl : stage = .finished := h.1
    rfl

/-- All edges of a valid state are valid. -/
theorem State.Valid.edges (h : state.Valid matchers registry stage checked bound) :
    ∀ edge ∈ state.edges,
      edgeValid matchers registry (stage.context matchers) edge stage checked bound := by
  rw [← h.matcher?_eq]
  cases state with
  | branch edges => exact edgesValid_iff.mp h.2.2
  | commutative position edges => exact edgesValid_iff.mp h.2.2
  | accept markers => simp [edges]

/-- What stands behind an edge for a step is valid at the stage behind the step. -/
theorem State.Valid.target {step : Step} {next : Stage}
    (h : state.Valid matchers registry stage checked bound) (hstep : step.Sound matchers stage next)
    {edge : Edge} (hedge : edge ∈ state.edges) (hfits : step.fits edge = true) :
    ∃ checked bound, edge.target.Valid matchers registry next checked bound := by
  obtain ⟨-, -, after, names, hafter, -, -, htarget⟩ := edgeValid_iff.mp (h.edges edge hedge)
  have hparts : edge.label = step.label ∧ edge.variableName = step.variableName := by
    simpa [Step.fits] using hfits
  rw [hparts.1, hstep.leads] at hafter
  obtain rfl := Option.some.inj hafter
  exact ⟨_, _, htarget⟩

/-- Where patterns end, a state takes one more marker, and its markers are valid. -/
theorem State.Valid.withMarker (h : state.Valid matchers registry .finished checked bound)
    (marker : Marker) : state.withMarker marker = .accept (state.markers ++ [marker]) ∧
      ∀ m ∈ state.markers, m.Valid registry checked := by
  cases state with
  | branch edges =>
    obtain rfl : edges = [] := h.1 rfl
    exact ⟨rfl, fun m hm => absurd hm List.not_mem_nil⟩
  | commutative position edges =>
    obtain ⟨⟨depth, head, heq, -⟩, -⟩ := h
    exact absurd heq (by simp)
  | accept markers => exact ⟨rfl, h.2⟩

/-- **The new pattern reaches what its steps lead to,** whatever edges it shares. -/
theorem State.explore_extend_own (hvalid : state.Valid matchers registry stage checked bound)
    (hlead : Lead matchers stage (steps.map Prod.fst) .finished)
    (hmarkers : ∀ m ∈ state.markers, m.pattern ≠ marker.pattern) (next : StateId) (place : Place) :
    ((state.extend marker steps next).1.explore matchers place).filter
        (·.1.pattern = marker.pattern) =
      ((follow matchers stage (steps.map Prod.fst) place).filter (·.queue.isExhausted)).map
        fun after => (marker, after.subst) := by
  induction steps generalizing state stage checked bound next place with
  | nil =>
    obtain rfl : stage = .finished := hlead
    -- At the end of the steps the new marker is put behind those that were there.
    have hnone : ((State.accept state.markers).explore matchers place).filter
        (·.1.pattern = marker.pattern) = [] :=
      List.filter_eq_nil_iff.mpr fun reached hmem => by
        have hmarker : reached.1 ∈ (State.accept state.markers).markers :=
          mem_markers_of_mem_explore hmem
        simpa using hmarkers reached.1 hmarker
    rw [extend, (hvalid.withMarker marker).1, explore_accept_append, List.filter_append, hnone,
      List.map_nil, follow]
    cases hexhausted : place.queue.isExhausted <;> simp [hexhausted]
  | cons first rest ih =>
    obtain ⟨behind, hstep, hrest⟩ := hlead
    obtain ⟨before, target, after, newest, htarget, hold, hnew⟩ :=
      splits_extend matchers marker first.2 rest hstep.fresh.markers_eq_nil
        (hvalid.ne_accept hstep.leads) next
    rw [hold.markers] at hmarkers
    simp only [List.mem_append] at hmarkers
    have hbefore := filter_exploreEdges matchers (state.matcher? matchers)
      (fun m hm => hmarkers m (.inl hm)) place
    have hafter := filter_exploreEdges matchers (state.matcher? matchers)
      (fun m hm => hmarkers m (.inr (.inr hm))) place
    have hthere : ∃ checked bound, target.Valid matchers registry behind checked bound := by
      rcases htarget with ⟨edge, hedge, hfits, rfl⟩ | rfl
      · exact hvalid.target hstep hedge hfits
      · exact ⟨[], [], hstep.fresh.valid⟩
    obtain ⟨_, _, hthere⟩ := hthere
    -- Only behind the edge of the step are there markers of the new pattern.
    have hreached : ∀ after ∈ first.1.label.advance (state.matcher? matchers)
        first.1.variableName place,
        ((target.extend marker rest newest).1.explore matchers after).filter
            (·.1.pattern = marker.pattern) =
          ((follow matchers behind (rest.map Prod.fst) after).filter (·.queue.isExhausted)).map
            fun after => (marker, after.subst) :=
      fun after _ => ih hthere hrest (fun m hm => hmarkers m (.inr (.inl hm))) newest after
    rw [hnew.explore, List.filter_append, List.filter_append, hbefore.2, hafter.2,
      List.filter_flatMap, List.flatMap_congr hreached, List.map_cons, follow_cons hstep.leads,
      List.filter_flatMap, List.map_flatMap, hvalid.matcher?_eq, List.nil_append, List.append_nil]

end TermNet
