import TermNet.Proofs.Net.Extend

namespace TermNet

/-!
# Inserting a pattern keeps the invariant

The new edges stand where the steps of the pattern may stand, and the edges that are
shared check more and bind more than before.

* `mem_foldl_insertUnique` — the constraints of a shared edge;
* `edgeValid_usedBy` — one more pattern uses an edge;
* `State.Valid.extend` — the invariant is kept.
-/

variable {matchers : List OperandMatcher} {registry : ConstraintRegistry}
variable {stage : Stage} {checked : List ConstraintId} {bound : List String}
variable {marker : Marker} {steps : List (Step × List ConstraintId)} {state : State}

/-- What is inserted into a list is in it, and what was in it before. -/
theorem mem_foldl_insertUnique {ids known : List Nat} {id : Nat} :
    id ∈ ids.foldl (fun known id => insertUnique id known) known ↔ id ∈ known ∨ id ∈ ids := by
  induction ids generalizing known with
  | nil => simp
  | cons first rest ih =>
    rw [List.foldl_cons, ih, mem_insertUnique, List.mem_cons, or_assoc, or_left_comm]

/-- Names that a label binds, and more of them. -/
theorem Label.Bounds.append {label : Label} {matcher : Option OperandMatcher}
    {name : Option String} {names more : List String} (h : label.Bounds matcher name names)
    (hmore : label.Bounds matcher name more) : label.Bounds matcher name (names ++ more) := by
  intro place after hafter x hx
  rcases List.mem_append.mp hx with hx | hx
  · exact h place after hafter x hx
  · exact hmore place after hafter x hx

/-- Other constraints are allowed where some are, but only none before the arguments of a
    commutative operation. -/
theorem Label.Allowed.more {label : Label} {matcher : Option OperandMatcher}
    {name : Option String} {ids more : List ConstraintId} (h : label.Allowed matcher name ids)
    (hmore : ∀ head, label = .commutative head → more = []) : label.Allowed matcher name more := by
  cases label with
  | commutative head => exact hmore head rfl
  | operands index => exact h
  | _ => trivial

/-- The new edge for a step is valid where the step may stand. -/
theorem edgeValid_fresh {step : Step} {behind : Stage} (hstep : step.Sound matchers stage behind)
    (next : StateId) :
    edgeValid matchers registry (stage.context matchers) (step.edge next) stage checked bound := by
  refine edgeValid_iff.mpr ⟨hstep.allowed, fun m hm => ?_, behind, [], hstep.leads, ?_, ?_, ?_⟩
  · have hnone := hstep.fresh.markers_eq_nil
    rw [Step.edge] at hm
    rw [hnone] at hm
    exact absurd hm (by simp)
  · intro place after _ x hx
    exact absurd hx (by simp)
  · intro id hid
    exact absurd hid (by simp [Step.edge])
  · exact hstep.fresh.valid

/-- **One more pattern uses an edge.** -/
theorem edgeValid_usedBy {edge : Edge} {step : Step} {behind : Stage} {ids : List ConstraintId}
    (hedge : edgeValid matchers registry (stage.context matchers) edge stage checked bound)
    (hstep : step.Sound matchers stage behind) (hfits : step.fits edge = true)
    (hids : ∀ id ∈ ids, registry.IsBound id (bound ++ step.binds))
    (hquiet : step.binds = [] → ids = []) (target : State)
    (hmarkers : ∀ m ∈ target.markers, m.pattern = marker.pattern ∨ m ∈ edge.target.markers)
    (htarget : ∀ checked' bound', (∀ id ∈ checked, id ∈ checked') → (∀ id ∈ ids, id ∈ checked') →
      (∀ x ∈ bound ++ step.binds, x ∈ bound') →
      edge.target.Valid matchers registry behind checked' bound' →
        target.Valid matchers registry behind checked' bound') :
    edgeValid matchers registry (stage.context matchers) (edge.usedBy marker.pattern ids target)
      stage checked bound := by
  obtain ⟨hallowed, hbelow, after, names, hnext, hnames, hknown, hvalid⟩ := edgeValid_iff.mp hedge
  obtain ⟨hlabel, hname⟩ : edge.label = step.label ∧ edge.variableName = step.variableName := by
    simpa [Step.fits] using hfits
  have hafter : behind = after := by
    rw [hlabel, hstep.leads] at hnext
    exact Option.some.inj hnext
  subst hafter
  -- The edge leads to the same stage, but more may have been bound and checked behind it.
  refine edgeValid_iff.mpr ⟨?_, ?_, behind, names ++ step.binds, hnext, ?_, ?_, ?_⟩
  · refine hallowed.more fun head hhead => ?_
    have hconstraints : edge.constraints = [] := by
      rw [hhead] at hallowed
      exact hallowed
    show ids.foldl (fun known id => insertUnique id known) edge.constraints = []
    rw [hquiet (hstep.quiet head (hlabel ▸ hhead)), hconstraints]
    rfl
  · intro m hm
    show m.pattern ∈ insertUnique marker.pattern edge.patterns
    rw [mem_insertUnique]
    exact (hmarkers m hm).imp_right (hbelow m)
  · refine Label.Bounds.append hnames ?_
    show edge.label.Bounds _ edge.variableName step.binds
    rw [hlabel, hname]
    exact hstep.bounds
  · intro id hid
    rcases mem_foldl_insertUnique.mp hid with hid | hid
    · refine (hknown id hid).mono fun x hx => ?_
      rw [← List.append_assoc]
      exact List.mem_append_left _ hx
    · refine (hids id hid).mono fun x hx => ?_
      rcases List.mem_append.mp hx with hx | hx
      · exact List.mem_append_left _ hx
      · exact List.mem_append_right _ (List.mem_append_right _ hx)
  · refine htarget _ _ ?_ ?_ ?_ (hvalid.mono ?_ ?_)
    · exact fun id hid => List.mem_append_left _ hid
    · exact fun id hid => List.mem_append_right _ (mem_foldl_insertUnique.mpr (.inr hid))
    · intro x hx
      rcases List.mem_append.mp hx with hx | hx
      · exact List.mem_append_left _ hx
      · exact List.mem_append_right _ (List.mem_append_right _ hx)
    · intro id hid
      rcases List.mem_append.mp hid with hid | hid
      · exact List.mem_append_left _ hid
      · exact List.mem_append_right _ (mem_foldl_insertUnique.mpr (.inl hid))
    · intro x hx
      rw [← List.append_assoc]
      exact List.mem_append_left _ hx

/-- At the choice of a pattern no two edges have the same label. -/
theorem nodup_labels_of_fresh {edges : List Edge} {step : Step} {behind : Stage} {depth : Nat}
    {head : Head} (hstep : step.Sound matchers (.choosing depth head) behind)
    (hedges : ∀ edge ∈ edges, edgeValid matchers registry
      ((Stage.choosing depth head).context matchers) edge (.choosing depth head) checked bound)
    (hnofit : ∀ edge ∈ edges, step.fits edge = false) (hnodup : (edges.map Edge.label).Nodup) :
    ((edges.map Edge.label) ++ [step.label]).Nodup := by
  refine List.nodup_append'.mpr ⟨hnodup, List.nodup_singleton _, ?_⟩
  intro label hlabel hlast
  obtain ⟨edge, hedge, rfl⟩ := List.mem_map.mp hlabel
  have hsame : edge.label = step.label := List.mem_singleton.mp hlast
  obtain ⟨index, hindex⟩ := Label.next?_choosing hstep.leads
  have hallowed := (edgeValid_iff.mp (hedges edge hedge)).1
  have hstepAllowed := hstep.allowed
  rw [hindex] at hstepAllowed
  rw [hsame, hindex] at hallowed
  have hfits : step.fits edge = true := by
    simp [Step.fits, hsame, hallowed.1, hstepAllowed.1]
  exact absurd ((hnofit edge hedge).symm.trans hfits) (by decide)

/-- The invariant of a state whose edges are replaced. -/
theorem State.Valid.withEdges {step : Step} {behind : Stage} {edges : List Edge}
    (h : state.Valid matchers registry stage checked bound)
    (hstep : step.Sound matchers stage behind)
    (hedges : ∀ edge ∈ edges,
      edgeValid matchers registry (stage.context matchers) edge stage checked bound)
    (hnodup : ∀ depth head, stage = .choosing depth head → (edges.map Edge.label).Nodup) :
    (state.withEdges edges).Valid matchers registry stage checked bound := by
  cases state with
  | branch old =>
    rw [h.context_eq_none] at hedges
    refine ⟨fun hfinished => ?_, h.2.1, edgesValid_iff.mpr hedges⟩
    subst hfinished
    have hleads := hstep.leads
    cases hlabel : step.label <;> simp [hlabel, Label.next?] at hleads
  | commutative position old =>
    rw [h.context_eq] at hedges
    obtain ⟨⟨depth, head, hstage, hposition⟩, -⟩ := h
    exact ⟨⟨depth, head, hstage, hposition⟩, hnodup depth head hstage, edgesValid_iff.mpr hedges⟩
  | accept markers => exact absurd rfl (h.ne_accept hstep.leads markers)

/-- The end of a pattern may be marked where its constraints have been checked. -/
theorem State.Valid.finish (h : state.Valid matchers registry .finished checked bound)
    (hmarker : marker.Valid registry checked) (next : StateId) :
    (state.extend marker [] next).1.Valid matchers registry .finished checked bound := by
  obtain ⟨hextend, hvalid⟩ := h.withMarker marker
  rw [State.extend, hextend]
  refine ⟨rfl, fun m hm => ?_⟩
  rcases List.mem_append.mp hm with hm | hm
  · exact hvalid m hm
  · exact List.mem_singleton.mp hm ▸ hmarker

/-- The edges of a state, with a new one for `step` if none of them fits. -/
def State.Offers (state : State) (step : Step) (next : StateId) (before : List Edge)
    (edge : Edge) (after : List Edge) : Prop :=
  state.edges = before ++ edge :: after ∨
    state.edges = before ∧ after = [] ∧ edge = step.edge next

/-- The edges of a valid state are valid, and so is a new one for a sound step. -/
theorem State.Valid.edges_offered {step : Step} {behind : Stage} {before after : List Edge}
    {edge : Edge} {next : StateId} (h : state.Valid matchers registry stage checked bound)
    (hstep : step.Sound matchers stage behind)
    (hoffers : state.Offers step next before edge after) :
    ∀ other ∈ before ++ edge :: after,
      edgeValid matchers registry (stage.context matchers) other stage checked bound := by
  intro other hother
  rcases hoffers with hedges | ⟨hedges, rfl, rfl⟩
  · exact h.edges other (hedges ▸ hother)
  · rcases List.mem_append.mp hother with hother | hother
    · exact h.edges other (hedges ▸ hother)
    · obtain rfl := List.mem_singleton.mp hother
      exact edgeValid_fresh hstep next

/-- At the choice of a pattern the labels stay distinct, since a new edge stands for a step that
    fits no other. -/
theorem State.Valid.nodup_offered {step : Step} {behind : Stage} {depth : Nat} {head : Head}
    {before after : List Edge} {edge : Edge} {next : StateId}
    (h : state.Valid matchers registry (.choosing depth head) checked bound)
    (hstep : step.Sound matchers (.choosing depth head) behind)
    (hbefore : ∀ other ∈ before, step.fits other = false)
    (hoffers : state.Offers step next before edge after) :
    ((before ++ edge :: after).map Edge.label).Nodup := by
  have hvalid := h.edges
  obtain ⟨position, branches, rfl⟩ := h.eq_commutative
  have hnodup : (branches.map Edge.label).Nodup := h.2.1
  rcases hoffers with hedges | ⟨hedges, rfl, rfl⟩
  · have hedges : branches = before ++ edge :: after := hedges
    rwa [hedges] at hnodup
  · obtain rfl : branches = before := hedges
    have hlast := nodup_labels_of_fresh hstep hvalid hbefore hnodup
    rw [List.map_append]
    exact hlast

/-- **Inserting a pattern keeps the invariant.** -/
theorem State.Valid.extend (h : state.Valid matchers registry stage checked bound)
    (hlead : Lead matchers stage (steps.map Prod.fst) .finished)
    (hscheduled : Scheduled registry bound steps)
    (hmarker : marker.Valid registry (checked ++ steps.flatMap Prod.snd)) (next : StateId) :
    (state.extend marker steps next).1.Valid matchers registry stage checked bound := by
  -- By induction on the steps: each of them changes one edge, behind which the rest is inserted.
  induction steps generalizing state stage checked bound next with
  | nil =>
    obtain rfl : stage = .finished := hlead
    rw [List.flatMap_nil, List.append_nil] at hmarker
    exact h.finish hmarker next
  | cons first rest ih =>
    obtain ⟨step, ids⟩ := first
    obtain ⟨behind, hstep, hrest⟩ := hlead
    obtain ⟨hids, hquiet, hlater⟩ := hscheduled
    have hstep : step.Sound matchers stage behind := hstep
    obtain ⟨before, edge, after, newest, hbefore, hfits, hwhere, hextend⟩ :=
      state.extend_cons marker step ids rest next
    have hoffers : state.Offers step next before edge after :=
      hwhere.imp And.left fun h => ⟨h.1, h.2.1, h.2.2.1⟩
    have hall := h.edges_offered hstep hoffers
    have hfresh : ∀ later ∈ rest, later.1.fresh.markers = [] := hrest.fresh_markers
    have hused := edgeValid_usedBy (hall edge (List.mem_append_right _ List.mem_cons_self)) hstep
      hfits hids hquiet (edge.target.extend marker rest newest).1
      (fun m hm => (mem_markers_extend hfresh hm).imp_left (congrArg Marker.pattern)) ?_
    · rw [hextend]
      refine h.withEdges hstep (fun other hother => ?_) fun depth head hstage => ?_
      · rcases List.mem_cons.mp (List.perm_middle.mem_iff.mp hother) with rfl | hother
        · exact hused
        · exact hall other (List.perm_middle.mem_iff.mpr (List.mem_cons_of_mem _ hother))
      · subst hstage
        have hnodup := h.nodup_offered hstep hbefore hoffers
        simpa [Edge.usedBy] using hnodup
    · intro checked' bound' hchecked hchosen hbound htarget
      refine ih htarget hrest (hlater.mono hbound) (hmarker.mono fun id hid => ?_) newest
      rw [List.flatMap_cons] at hid
      rcases List.mem_append.mp hid with hid | hid
      · exact List.mem_append_left _ (hchecked id hid)
      · rcases List.mem_append.mp hid with hid | hid
        · exact List.mem_append_left _ (hchosen id hid)
        · exact List.mem_append_right _ hid

end TermNet
