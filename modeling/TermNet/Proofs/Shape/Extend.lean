import TermNet.Proofs.Shape.Basic
import TermNet.Proofs.Shape.Checked
import TermNet.Proofs.Net.Extend

namespace TermNet

/-!
# Inserting a pattern keeps the shape of the tree

A step takes the edge that fits it, and where there is none a new edge is put behind the
others first.  So there are three things that inserting does: add an edge that leads to a bare
state, put something else behind an edge, and mark the end.

* `State.Formed.extendOn` — what each of them keeps is kept by all;
* `State.Formed.extend` — the shape is kept, and there is one marker more;
* `State.Formed.ids_extend` — new states have the next numbers;
* `State.Formed.extend?_eq` — no case that must not happen comes up.
-/

variable {matchers : List CommutativeMatcher} {stage next : Stage} {state : State}
variable {marker : Marker} {step : Step} {ids : List ConstraintId} {id : StateId}
variable {rest steps : List (Step × List ConstraintId)}

/-! ### Replacing edges -/

/-- A state that does not accept has the edges that it is given. -/
theorem State.edges_withEdges (hstate : ∀ markers, state ≠ .accept markers) (edges : List Edge) :
    (state.withEdges edges).edges = edges := by
  cases state with
  | branch others => rfl
  | commutative position others => rfl
  | accept markers => exact absurd rfl (hstate markers)

/-- The edges that are given last count. -/
theorem State.withEdges_withEdges (edges others : List Edge) :
    (state.withEdges others).withEdges edges = state.withEdges edges := by
  cases state <;> rfl

/-- A state that does not accept may be given other edges. -/
theorem State.withEdges?_eq (hstate : ∀ markers, state ≠ .accept markers) (edges : List Edge) :
    state.withEdges? edges = some (state.withEdges edges) := by
  cases state with
  | branch others => rfl
  | commutative position others => rfl
  | accept markers => exact absurd rfl (hstate markers)

/-- Other edges do not make a state accept. -/
theorem State.withEdges_ne_accept (hstate : ∀ markers, state ≠ .accept markers)
    (edges : List Edge) : ∀ markers, state.withEdges edges ≠ .accept markers := by
  intro markers
  cases state with
  | branch others => exact fun h => State.noConfusion h
  | commutative position others => exact fun h => State.noConfusion h
  | accept others => exact absurd rfl (hstate others)

/-- A state with other edges may stand where it stood. -/
theorem State.Stands.withEdges (h : state.Stands matchers stage) (edges : List Edge) :
    (state.withEdges edges).Stands matchers stage := by
  cases state <;> exact h

/-! ### The three things that inserting does -/

/-- The state with an edge for the step, which leads to a bare state. -/
def State.opened (state : State) (step : Step) (id : StateId) : State :=
  state.withEdges (state.edges ++ [step.edge id])

/-- A new edge stands behind the others. -/
theorem State.edges_opened (hstate : ∀ markers, state ≠ .accept markers) :
    (state.opened step id).edges = state.edges ++ [step.edge id] :=
  State.edges_withEdges hstate _

/-- The edges are split at the first one that fits. -/
theorem span_eq {edges before after : List Edge} {edge : Edge}
    (hedges : edges = before ++ edge :: after) (hbefore : ∀ other ∈ before, step.fits other = false)
    (hfits : step.fits edge = true) :
    (edges.span fun edge => !step.fits edge) = (before, edge :: after) := by
  have hpasses : ∀ other ∈ before, (!step.fits other) = true := fun other hother => by
    rw [hbefore other hother, Bool.not_false]
  rw [List.span_eq_takeWhile_dropWhile, hedges, List.takeWhile_append_of_pos hpasses,
    List.dropWhile_append_of_pos hpasses]
  simp [hfits]

/-- Where none fits, all edges are in front. -/
theorem span_eq_of_none {edges : List Edge} (h : ∀ other ∈ edges, step.fits other = false) :
    (edges.span fun edge => !step.fits edge) = (edges, []) := by
  have hpasses : ∀ other ∈ edges, (!step.fits other) = true := fun other hother => by
    rw [h other hother, Bool.not_false]
  rw [List.span_eq_takeWhile_dropWhile, List.takeWhile_eq_self_iff.mpr hpasses,
    List.dropWhile_eq_nil_iff.mpr hpasses]

/-- The new edge for a step fits the step. -/
theorem Step.fits_edge (step : Step) (id : StateId) : step.fits (step.edge id) = true := by
  simp [Step.fits, Step.edge]

/-- A step that fits an edge puts something else behind it. -/
theorem State.extend_through {before after : List Edge} {edge : Edge}
    (hedges : state.edges = before ++ edge :: after)
    (hbefore : ∀ other ∈ before, step.fits other = false) (hfits : step.fits edge = true) :
    state.extend marker ((step, ids) :: rest) id =
      (state.withEdges (before ++ edge.usedBy marker.pattern ids
          (edge.target.extend marker rest id).1 :: after),
        (edge.target.extend marker rest id).2) := by
  rw [State.extend, span_eq hedges hbefore hfits]

/-- A step that fits no edge gets one. -/
theorem State.extend_opened (h : ∀ other ∈ state.edges, step.fits other = false)
    (hstate : ∀ markers, state ≠ .accept markers) :
    state.extend marker ((step, ids) :: rest) id =
      (state.opened step id).extend marker ((step, ids) :: rest) (id + 1) := by
  rw [State.extend_through (State.edges_opened hstate) h (step.fits_edge id), State.extend,
    span_eq_of_none h]
  simp only [State.opened, State.withEdges_withEdges]

/-- Where an edge fits, inserting goes on behind it. -/
theorem State.extend?_through {before after : List Edge} {edge : Edge}
    (hedges : state.edges = before ++ edge :: after)
    (hbefore : ∀ other ∈ before, step.fits other = false) (hfits : step.fits edge = true) :
    state.extend? marker ((step, ids) :: rest) id = do
      let (target, newest) ← edge.target.extend? marker rest id
      return (← state.withEdges? (before ++ edge.usedBy marker.pattern ids target :: after),
        newest) := by
  rw [State.extend?, span_eq hedges hbefore hfits]

/-- Where none fits, inserting goes on as if the new edge had been there. -/
theorem State.extend?_opened (h : ∀ other ∈ state.edges, step.fits other = false)
    (hstate : ∀ markers, state ≠ .accept markers) :
    state.extend? marker ((step, ids) :: rest) id =
      (state.opened step id).extend? marker ((step, ids) :: rest) (id + 1) := by
  rw [State.extend?_through (State.edges_opened hstate) h (step.fits_edge id), State.extend?,
    span_eq_of_none h]
  simp only [State.opened, State.withEdges?_eq (State.withEdges_ne_accept hstate _),
    State.withEdges?_eq hstate, State.withEdges_withEdges]

/-- The shape of a state with one more edge, which leads to a bare state. -/
theorem State.Formed.opened (h : state.Formed matchers stage)
    (hstep : step.Stands matchers stage next)
    (hnone : ∀ other ∈ state.edges, step.fits other = false) (id : StateId) :
    (state.opened step id).Formed matchers stage := by
  have hstate := h.stands.ne_accept (by rw [hstep.leads]; rfl)
  have htarget : (step.edge id).target.Formed matchers next := by
    refine .intro hstep.fresh ?_ (fun edge hedge => ?_) (fun edge hedge => ?_)
    · rw [show (step.edge id).target.edges = [] from hstep.bare.1]
      exact .nil
    · rw [show (step.edge id).target.edges = [] from hstep.bare.1] at hedge
      exact absurd hedge List.not_mem_nil
    · rw [show (step.edge id).target.edges = [] from hstep.bare.1] at hedge
      exact absurd hedge List.not_mem_nil
  refine .intro (h.stands.withEdges _) ?_ (fun edge hedge => ?_) (fun edge hedge => ?_)
  · rw [State.edges_opened hstate, List.map_append, List.nodup_append]
    refine ⟨h.distinct, List.nodup_singleton _, fun key hkey other hother heq => ?_⟩
    obtain ⟨edge, hedge, rfl⟩ := List.mem_map.mp hkey
    rw [List.map_singleton, List.mem_singleton] at hother
    -- An edge with the label and the variable of the new one would fit the step.
    have hfits : step.fits edge = true := by
      have hkeys := heq.trans hother
      have hlabel := congrArg Prod.fst hkeys
      have hname := congrArg Prod.snd hkeys
      simp only [Edge.key, Step.edge] at hlabel hname
      simp [Step.fits, hlabel, hname]
    rw [hnone edge hedge] at hfits
    exact absurd hfits (by decide)
  · rw [State.edges_opened hstate] at hedge
    rcases List.mem_append.mp hedge with hedge | hedge
    · exact h.sound hedge
    · obtain rfl := List.mem_singleton.mp hedge
      refine ⟨by rw [show (step.edge id).label = step.label from rfl, hstep.leads]; rfl,
        hstep.known, .nil, fun pattern => ?_⟩
      rw [show (step.edge id).target.markers = [] from hstep.bare.2]
      simp [Step.edge]
  · rw [State.edges_opened hstate] at hedge
    rcases List.mem_append.mp hedge with hedge | hedge
    · exact fun _ hnext => h.target hedge hnext
    · obtain rfl := List.mem_singleton.mp hedge
      intro other hother
      obtain rfl : next = other := Option.some.inj (hstep.leads.symm.trans hother)
      exact htarget

/-- The first edge that fits a step. -/
theorem exists_first_fits {edges : List Edge} (h : ¬ ∀ other ∈ edges, step.fits other = false) :
    ∃ before edge after, edges = before ++ edge :: after ∧
      (∀ other ∈ before, step.fits other = false) ∧ step.fits edge = true := by
  induction edges with
  | nil => exact absurd (by simp) h
  | cons edge rest ih =>
    by_cases hfits : step.fits edge = true
    · exact ⟨[], edge, rest, rfl, by simp, hfits⟩
    · rw [Bool.not_eq_true] at hfits
      have hrest : ¬ ∀ other ∈ rest, step.fits other = false := fun hrest =>
        h (List.forall_mem_cons.mpr ⟨hfits, hrest⟩)
      obtain ⟨before, first, after, rfl, hbefore, hfirst⟩ := ih hrest
      exact ⟨edge :: before, first, after, rfl, List.forall_mem_cons.mpr ⟨hfits, hbefore⟩, hfirst⟩

/-- An edge that fits a step has its label and its variable. -/
theorem Step.label_eq_of_fits {edge : Edge} (h : step.fits edge = true) :
    edge.label = step.label ∧ edge.variableName = step.variableName := by
  simpa [Step.fits] using h

/-- **What holds of all that inserting a pattern does:** it marks the end, it puts something
    else behind an edge, and it adds an edge that leads to a bare state. -/
theorem State.Formed.extendOn
    {motive : Stage → State → List (Step × List ConstraintId) → StateId → State × StateId → Prop}
    (finish : ∀ state id, state.Formed matchers .finished →
      motive .finished state [] id (.accept (state.markers ++ [marker]), id))
    (through : ∀ stage next state before edge after step ids rest id result,
      state.Formed matchers stage → step.Stands matchers stage next →
      state.edges = before ++ edge :: after → step.fits edge = true →
      (∀ other ∈ before, step.fits other = false) →
      motive next edge.target rest id result →
      motive stage state ((step, ids) :: rest) id
        (state.withEdges (before ++ edge.usedBy marker.pattern ids result.1 :: after), result.2))
    (fresh : ∀ stage next state step ids rest id result,
      state.Formed matchers stage → step.Stands matchers stage next →
      (∀ other ∈ state.edges, step.fits other = false) →
      motive stage (state.opened step id) ((step, ids) :: rest) (id + 1) result →
      motive stage state ((step, ids) :: rest) id result)
    (h : state.Formed matchers stage) (hruns : Runs matchers stage (steps.map Prod.fst) .finished)
    (id : StateId) : motive stage state steps id (state.extend marker steps id) := by
  induction steps generalizing stage state id with
  | nil =>
    obtain rfl : stage = .finished := hruns
    have hend := finish state id h
    have hedges := h.edges_eq_nil
    cases state with
    | branch edges =>
      obtain rfl : edges = [] := hedges
      exact hend
    | commutative position edges =>
      obtain rfl : edges = [] := hedges
      exact hend
    | accept markers => exact hend
  | cons first rest ih =>
    obtain ⟨step, ids⟩ := first
    obtain ⟨next, hstep, hrest⟩ := hruns
    -- Going on through an edge that fits; a new edge is one, too, once the state has it.
    have hshared : ∀ {state : State} {before edge after} (id : StateId),
        state.Formed matchers stage → state.edges = before ++ edge :: after →
        step.fits edge = true → (∀ other ∈ before, step.fits other = false) →
        motive stage state ((step, ids) :: rest) id
          (state.extend marker ((step, ids) :: rest) id) := by
      intro state before edge after id h hedges hfits hbefore
      rw [State.extend_through hedges hbefore hfits]
      refine through stage next state before edge after step ids rest id _ h hstep hedges hfits
        hbefore (ih (h.target ?_ ?_) hrest id)
      · rw [hedges]
        exact List.mem_append_right _ List.mem_cons_self
      · rw [(Step.label_eq_of_fits hfits).1]
        exact hstep.leads
    by_cases hnone : ∀ other ∈ state.edges, step.fits other = false
    · have hstate := h.stands.ne_accept (by rw [hstep.leads]; rfl)
      rw [State.extend_opened hnone hstate]
      refine fresh stage next state step ids rest id _ h hstep hnone ?_
      exact hshared (id + 1) (h.opened hstep hnone id) (State.edges_opened hstate)
        (step.fits_edge id) hnone
    · obtain ⟨before, edge, after, hedges, hbefore, hfits⟩ := exists_first_fits hnone
      exact hshared id h hedges hfits hbefore

/-! ### The shape and the markers -/

/-- Inserting a number keeps a list in increasing order. -/
theorem pairwise_insertUnique {n : Nat} {ns : List Nat} (h : ns.Pairwise (· < ·)) :
    (insertUnique n ns).Pairwise (· < ·) := by
  induction ns with
  | nil => exact List.pairwise_singleton _ _
  | cons m ms ih =>
    obtain ⟨hfirst, hrest⟩ := List.pairwise_cons.mp h
    unfold insertUnique
    split
    · rename_i hlt
      refine List.pairwise_cons.mpr ⟨fun k hk => ?_, h⟩
      rcases List.mem_cons.mp hk with rfl | hk
      · exact hlt
      · exact Nat.lt_trans hlt (hfirst k hk)
    · split
      · exact h
      · rename_i hnlt hne
        refine List.pairwise_cons.mpr ⟨fun k hk => ?_, ih hrest⟩
        rcases mem_insertUnique.mp hk with rfl | hk
        · omega
        · exact hfirst k hk

/-- The markers of a state with something else behind one edge. -/
theorem State.markers_through {before after : List Edge} {edge : Edge} {target : State}
    (hedges : state.edges = before ++ edge :: after) (hstate : ∀ markers, state ≠ .accept markers)
    (hmarkers : target.markers.Perm (edge.target.markers ++ [marker])) :
    (state.withEdges (before ++ edge.usedBy marker.pattern ids target :: after)).markers.Perm
      (state.markers ++ [marker]) := by
  have hold : state.markers = markersBelow (before ++ edge :: after) := by
    rw [← hedges, ← State.markers_withEdges hstate, State.withEdges_edges]
  rw [State.markers_withEdges hstate, hold, markersBelow_append, markersBelow_append,
    markersBelow_cons, markersBelow_cons, List.append_assoc, List.append_assoc]
  refine .append_left _ ((hmarkers.append_right (markersBelow after)).trans ?_)
  rw [List.append_assoc]
  exact .append_left _ List.perm_append_comm

/-- An edge that one more pattern uses, which ends below it. -/
theorem Edge.Sound.usedBy {edge : Edge} (h : edge.Sound matchers stage) {target : State}
    (hmarkers : target.markers.Perm (edge.target.markers ++ [marker])) :
    (edge.usedBy marker.pattern ids target).Sound matchers stage := by
  refine ⟨h.leads, h.known, pairwise_insertUnique h.ascending, fun pattern => ?_⟩
  rw [show (edge.usedBy marker.pattern ids target).patterns =
      insertUnique marker.pattern edge.patterns from rfl, mem_insertUnique, h.users,
    show (edge.usedBy marker.pattern ids target).target = target from rfl]
  simp only [hmarkers.mem_iff, List.mem_append, List.mem_singleton, or_and_right, exists_or,
    exists_eq_left, eq_comm (a := pattern), or_comm]

/-- The shape of a state with something else behind one edge. -/
theorem State.Formed.through (h : state.Formed matchers stage)
    (hstep : step.Stands matchers stage next) {before after : List Edge} {edge : Edge}
    (hedges : state.edges = before ++ edge :: after) (hfits : step.fits edge = true)
    {target : State} (htarget : target.Formed matchers next)
    (hmarkers : target.markers.Perm (edge.target.markers ++ [marker])) :
    (state.withEdges (before ++ edge.usedBy marker.pattern ids target :: after)).Formed matchers
      stage := by
  have hstate := h.stands.ne_accept (by rw [hstep.leads]; rfl)
  have hmem : edge ∈ state.edges := by
    rw [hedges]
    exact List.mem_append_right _ List.mem_cons_self
  have hothers : ∀ {other}, other ∈ before ++ edge.usedBy marker.pattern ids target :: after →
      other = edge.usedBy marker.pattern ids target ∨ other ∈ state.edges := by
    intro other hother
    rw [hedges]
    rcases List.mem_append.mp hother with hother | hother
    · exact .inr (List.mem_append_left _ hother)
    · exact (List.mem_cons.mp hother).imp_right fun hother =>
        List.mem_append_right _ (List.mem_cons_of_mem _ hother)
  -- The edge keeps its key, so the edges still differ.
  refine .intro (h.stands.withEdges _) ?_ ?_ ?_ <;> rw [State.edges_withEdges hstate]
  · have hkeys := h.distinct
    rw [hedges] at hkeys
    simpa [Edge.key, Edge.usedBy] using hkeys
  · intro other hother
    rcases hothers hother with rfl | hother
    · exact (h.sound hmem).usedBy hmarkers
    · exact h.sound hother
  · intro other hother later hlater
    rcases hothers hother with rfl | hother
    · obtain rfl : next = later := by
        refine Option.some.inj (hstep.leads.symm.trans ?_)
        rw [← (Step.label_eq_of_fits hfits).1]
        exact hlater
      exact htarget
    · exact h.target hother hlater

/-- There are no markers behind a new edge. -/
theorem State.markers_opened (hstep : step.Stands matchers stage next)
    (hstate : ∀ markers, state ≠ .accept markers) :
    (state.opened step id).markers = state.markers := by
  rw [State.opened, State.markers_withEdges hstate, markersBelow_append, markersBelow_cons,
    show (step.edge id).target.markers = [] from hstep.bare.2, List.nil_append,
    ← State.markers_withEdges hstate, State.withEdges_edges]
  exact List.append_nil _

/-- **Inserting a pattern keeps the shape,** and adds its marker to the others. -/
theorem State.Formed.extend (h : state.Formed matchers stage) (marker : Marker)
    (hruns : Runs matchers stage (steps.map Prod.fst) .finished) (id : StateId) :
    (state.extend marker steps id).1.Formed matchers stage ∧
      (state.extend marker steps id).1.markers.Perm (state.markers ++ [marker]) := by
  refine State.Formed.extendOn (motive := fun stage state _ _ result =>
    result.1.Formed matchers stage ∧ result.1.markers.Perm (state.markers ++ [marker]))
    ?finish ?through ?fresh h hruns id
  case finish =>
    intro state id h
    have hmarkers : (State.accept (state.markers ++ [marker])).markers =
      state.markers ++ [marker] := rfl
    exact ⟨.intro rfl .nil (by simp [State.edges]) (by simp [State.edges]), hmarkers ▸ .refl _⟩
  case through =>
    intro stage next state before edge after step ids rest id result h hstep hedges hfits _ hmotive
    exact ⟨h.through hstep hedges hfits hmotive.1 hmotive.2,
      State.markers_through hedges (h.stands.ne_accept (by rw [hstep.leads]; rfl)) hmotive.2⟩
  case fresh =>
    intro stage next state step ids rest id result h hstep _ hmotive
    rwa [State.markers_opened hstep (h.stands.ne_accept (by rw [hstep.leads]; rfl))] at hmotive

/-! ### Numbers -/

/-- **Inserting a pattern** gives the next numbers to the new states. -/
theorem State.Formed.ids_extend (h : state.Formed matchers stage) (marker : Marker)
    (hruns : Runs matchers stage (steps.map Prod.fst) .finished) (id : StateId) :
    ∃ created, (state.extend marker steps id).2 = id + created ∧
      (state.extend marker steps id).1.ids.Perm (state.ids ++ List.range' id created) := by
  refine State.Formed.extendOn (motive := fun _ state _ id result => ∃ created,
    result.2 = id + created ∧ result.1.ids.Perm (state.ids ++ List.range' id created))
    ?finish ?through ?fresh h hruns id
  case finish =>
    intro state id h
    refine ⟨0, rfl, ?_⟩
    rw [State.ids, State.ids, h.edges_eq_nil]
    exact .refl _
  case through =>
    intro stage next state before edge after step ids rest id result h hstep hedges _ _
      ⟨created, hcreated, hids⟩
    -- The new numbers come from below this edge, and move behind those of the later edges.
    have hbelow : (result.1.ids ++ idsBelow after).Perm
        (edge.target.ids ++ idsBelow after ++ List.range' id created) := by
      refine (hids.append_right (idsBelow after)).trans ?_
      rw [List.append_assoc, List.append_assoc]
      exact .append_left _ List.perm_append_comm
    refine ⟨created, hcreated, ?_⟩
    rw [State.ids, State.ids, State.edges_withEdges (h.stands.ne_accept (by rw [hstep.leads]; rfl)),
      hedges, idsBelow_append, idsBelow_append, idsBelow_cons, idsBelow_cons, List.append_assoc]
    exact .append_left _ (hbelow.cons edge.id)
  case fresh =>
    intro stage next state step ids rest id result h hstep _ ⟨created, hcreated, hids⟩
    -- One number for the opened state, the others for those below it.
    refine ⟨created + 1, hcreated.trans (Nat.add_right_comm _ _ _), hids.trans ?_⟩
    rw [State.ids, State.edges_opened (h.stands.ne_accept (by rw [hstep.leads]; rfl)),
      idsBelow_append, idsBelow_cons, State.ids, State.ids,
      show (step.edge id).target.edges = [] from hstep.bare.1, List.append_assoc,
      List.range'_succ]
    exact .refl _

/-! ### The cases that must not happen -/

/-- **Inserting a pattern** ends in a state without edges, and adds edges to no accepting one. -/
theorem State.Formed.extend?_eq (h : state.Formed matchers stage) (marker : Marker)
    (hruns : Runs matchers stage (steps.map Prod.fst) .finished) (id : StateId) :
    state.extend? marker steps id = some (state.extend marker steps id) := by
  refine State.Formed.extendOn (motive := fun _ state steps id result =>
    state.extend? marker steps id = some result) ?finish ?through ?fresh h hruns id
  case finish =>
    intro state id h
    have hedges := h.edges_eq_nil
    cases state with
    | branch edges =>
      obtain rfl : edges = [] := hedges
      rfl
    | commutative position edges =>
      obtain rfl : edges = [] := hedges
      rfl
    | accept markers => rfl
  case through =>
    intro stage next state before edge after step ids rest id result h hstep hedges hfits hbefore
      hmotive
    rw [State.extend?_through hedges hbefore hfits, hmotive]
    simp only [State.withEdges?_eq (h.stands.ne_accept (by rw [hstep.leads]; rfl))]
    rfl
  case fresh =>
    intro stage next state step ids rest id result h hstep hnone hmotive
    rw [State.extend?_opened hnone (h.stands.ne_accept (by rw [hstep.leads]; rfl)), hmotive]

end TermNet
