import TermNet.Proofs.IndexSet
import TermNet.Proofs.Net.Valid

namespace TermNet

/-!
# What the active patterns know

A pattern leaves the set of active ones when a constraint of its own fails.  Since
bindings are never taken back, a constraint that looks at bound variables gives the
same answer everywhere below, so that a pattern is dropped only if it would be refused
in the end.

* `Label.Rebinds`, `rebinds_of_mem_advance` — what a label does to the bindings;
* `advance_below`, `explore_below` — bindings are never taken back;
* `ConstraintRegistry.accepts` — whether all constraints of a pattern hold;
* `Agrees` — the active patterns are those whose constraints have held so far;
* `Ready.filterMap_eq_nil` — nothing comes of patterns that are not active.
-/

/-! ### Bindings only grow -/

/-- The bindings of `τ` are those of `σ`, and that of a variable to `value` if there is one. -/
def Substitution.Gains (σ : Substitution) (name : Option String) (value : Binding)
    (τ : Substitution) : Prop :=
  ∀ x b, τ.find? x = some b ↔ σ.find? x = some b ∨ name = some x ∧ b = value

/-- Gaining a binding takes none back. -/
theorem Substitution.Gains.below {σ τ : Substitution} {name : Option String} {value : Binding}
    (h : σ.Gains name value τ) : σ.Below τ := fun x b hx => (h x b).mpr (.inl hx)

/-- Binding a variable gains that binding, if it is new. -/
theorem gains_of_mem_binding {place after : Place} {name : Option String} {value : Binding}
    (h : after ∈ place.binding name value) : place.subst.Gains name value after.subst := by
  cases name with
  | none =>
    rw [List.mem_singleton.mp h]
    exact fun x b => by simp
  | some name =>
    simp only [Place.binding, List.mem_map, Option.mem_toList] at h
    obtain ⟨extended, hextend, rfl⟩ := h
    intro x b
    rw [Substitution.extend?_eq_some_iff.mp hextend x b, Option.some.injEq, eq_comm (a := x)]

/-- Skipping gains the default, for a variable that has one. -/
theorem gains_of_mem_skipping {place after : Place} {name : Option String} {default : Option Term}
    (h : after ∈ place.skipping name default) :
    ∃ value, place.subst.Gains name value after.subst := by
  cases default with
  | none => simp [Place.skipping] at h
  | some value => exact ⟨_, gains_of_mem_binding h⟩

/-- Taking a run gains the run that has been taken. -/
theorem gains_of_mem_growing {name : Option String} {wrap : Option Head} {longer : Nat}
    {run : List Term} {place after : Place} (h : after ∈ Place.growing name wrap longer run place) :
    ∃ value, place.subst.Gains name value after.subst := by
  induction longer generalizing run place with
  | zero => exact ⟨_, gains_of_mem_binding h⟩
  | succ longer ih =>
    rw [Place.growing, List.mem_append] at h
    rcases h with h | h
    · exact ⟨_, gains_of_mem_binding h⟩
    · split at h
      · rename_i more rest _
        exact @ih more ⟨rest, place.subst⟩ h
      · simp at h

/-- The match of a commutative operation takes no binding back. -/
theorem solve_below {m : OperandMatcher} {args : List Term} {σ τ : Substitution} {index : Nat}
    (h : τ ∈ m.solve args σ index) : σ.Below τ := by
  unfold OperandMatcher.solve at h
  split at h
  · simp at h
  · obtain ⟨_, _, _, hmatch⟩ := CommutativePattern.mem_matchSorted_iff.mp h
    exact fun x b hx => (hmatch.binds x b).mpr (.inl hx)

/-- What a label does to the bindings: a wildcard adds that of its variable, a pattern of a
    matcher those of a match, and any other label none. -/
def Label.Rebinds (matcher : Option OperandMatcher) (name : Option String) :
    Label → Substitution → Substitution → Prop
  | one _ _, σ, τ => ∃ value, σ.Gains name value τ
  | run _ _ _, σ, τ => ∃ value, σ.Gains name value τ
  | operands index, σ, τ => ∃ m args, matcher = some m ∧ τ ∈ m.solve args σ index
  | _, σ, τ => τ = σ

/-- **The bindings behind a label,** whatever it has consumed. -/
theorem rebinds_of_mem_advance {matcher : Option OperandMatcher} {name : Option String}
    {label : Label} {place after : Place} (h : after ∈ label.advance matcher name place) :
    label.Rebinds matcher name place.subst after.subst := by
  cases label with
  | enter head =>
    rw [Label.advance] at h
    split at h
    · exact List.mem_singleton.mp h ▸ rfl
    · simp at h
  | close =>
    rw [Label.advance] at h
    split at h
    · exact List.mem_singleton.mp h ▸ rfl
    · simp at h
  | atom expected =>
    rw [Label.advance] at h
    split at h
    · exact List.mem_singleton.mp h ▸ rfl
    · simp at h
  | one kind default =>
    rw [Label.advance, List.mem_append] at h
    rcases h with h | h
    · exact gains_of_mem_skipping h
    · split at h
      · have hgains := gains_of_mem_binding h
        exact ⟨_, hgains⟩
      · simp at h
  | run minCount wrap default =>
    rw [Label.advance, List.mem_append] at h
    rcases h with h | h
    · exact gains_of_mem_skipping h
    · split at h
      · have hgains := gains_of_mem_growing h
        exact hgains
      · simp at h
  | commutative head =>
    rw [Label.advance] at h
    split at h
    · exact List.mem_singleton.mp h ▸ rfl
    · simp at h
  | operands index =>
    unfold Label.advance at h
    dsimp only at h
    split at h
    · obtain ⟨τ, hτ, rfl⟩ := List.mem_map.mp h
      exact ⟨_, _, rfl, hτ⟩
    · simp at h

/-- **Bindings are never taken back.** -/
theorem advance_below {matcher : Option OperandMatcher} {name : Option String} {label : Label}
    {place after : Place} (h : after ∈ label.advance matcher name place) :
    place.subst.Below after.subst := by
  have hrebinds := rebinds_of_mem_advance h
  cases label with
  | one kind default =>
    obtain ⟨value, hgains⟩ := hrebinds
    exact hgains.below
  | run minCount wrap default =>
    obtain ⟨value, hgains⟩ := hrebinds
    exact hgains.below
  | operands index =>
    obtain ⟨m, args, -, hsolve⟩ := hrebinds
    exact solve_below hsolve
  | _ =>
    have hsame : after.subst = place.subst := hrebinds
    exact hsame ▸ .refl _

variable {matchers : List OperandMatcher} {registry : ConstraintRegistry}

/-- Exploring an edge is exploring its target from every place behind its label. -/
theorem exploreEdge_eq (matcher : Option OperandMatcher) (edge : Edge) (place : Place) :
    exploreEdge matchers matcher edge place =
      (edge.label.advance matcher edge.variableName place).flatMap
        (edge.target.explore matchers) := by
  obtain ⟨label, name, patterns, constraints, id, target⟩ := edge
  rfl

/-- What is reached is marked below the state, and has the bindings of the place. -/
theorem explore_below {state : State} {place : Place} {marker : Marker} {τ : Substitution}
    (h : (marker, τ) ∈ state.explore matchers place) :
    marker ∈ state.markers ∧ place.subst.Below τ := by
  induction state using State.inductionOn generalizing place with
  | step state ih _ =>
    -- Each edge leads to what is reached from its places, which have at least these bindings.
    have hedges : ∀ matcher edges, (∀ edge ∈ edges, edge ∈ state.edges) →
        (marker, τ) ∈ exploreEdges matchers matcher edges place →
          marker ∈ markersBelow edges ∧ place.subst.Below τ := by
      intro matcher edges hsub hmem
      rw [exploreEdges_eq, List.mem_flatMap] at hmem
      obtain ⟨edge, hedge, hmem⟩ := hmem
      rw [exploreEdge_eq, List.mem_flatMap] at hmem
      obtain ⟨after, hafter, hmem⟩ := hmem
      obtain ⟨hmarker, hbelow⟩ := ih edge (hsub edge hedge) hmem
      exact ⟨mem_markersBelow.mpr ⟨edge, hedge, hmarker⟩, (advance_below hafter).trans hbelow⟩
    cases state with
    | branch edges => exact hedges none edges (fun _ h => h) h
    | commutative position edges => exact hedges _ edges (fun _ h => h) h
    | accept markers =>
      simp only [State.explore] at h
      split at h
      · obtain ⟨m, hm, heq⟩ := List.mem_map.mp h
        obtain ⟨rfl, rfl⟩ := Prod.mk.injEq .. ▸ heq
        exact ⟨hm, .refl _⟩
      · simp at h

/-- Only the markers below a state are reached from it. -/
theorem mem_markers_of_mem_explore {state : State} {place : Place}
    {reached : Marker × Substitution} (h : reached ∈ state.explore matchers place) :
    reached.1 ∈ state.markers := by
  obtain ⟨marker, τ⟩ := reached
  exact (explore_below h).1

/-! ### Constraints of a pattern -/

/-- Whether all constraints of a pattern hold. -/
def ConstraintRegistry.accepts (registry : ConstraintRegistry) (pattern : Nat)
    (σ : Substitution) : Bool :=
  registry.entries.all fun entry => !entry.owners.contains pattern || entry.constraint.holds σ

/-- A pattern is accepted if each constraint that it owns holds. -/
theorem ConstraintRegistry.accepts_iff {pattern : Nat} {σ : Substitution} :
    registry.accepts pattern σ = true ↔
      ∀ id, pattern ∈ registry.owners id → registry.holds id σ = true := by
  simp only [accepts, List.all_eq_true, Bool.or_eq_true, Bool.not_eq_true',
    List.contains_eq_mem, decide_eq_false_iff_not]
  constructor
  · intro h id hid
    cases hentry : registry.entries[id]? with
    | none => simp [owners, hentry] at hid
    | some entry =>
      have hmem : pattern ∈ entry.owners := by simpa [owners, hentry] using hid
      have hholds := (h entry (List.mem_of_getElem? hentry)).resolve_left fun hnot => hnot hmem
      simpa [holds, get?, hentry] using hholds
  · intro h entry hentry
    obtain ⟨id, hid⟩ := List.getElem?_of_mem hentry
    by_cases hmem : pattern ∈ entry.owners
    · have hholds := h id (by simpa [owners, hid] using hmem)
      exact .inr (by simpa [holds, get?, hid] using hholds)
    · exact .inl hmem

/-- A bound constraint keeps its answer. -/
theorem ConstraintRegistry.IsBound.holds_eq {id : ConstraintId} {bound : List String}
    (h : registry.IsBound id bound) {σ τ : Substitution} (hbelow : σ.Below τ)
    (hbound : ∀ x ∈ bound, σ.Binds x) : registry.holds id τ = registry.holds id σ := by
  obtain ⟨c, hc, hnames⟩ := h
  rw [holds, holds, hc]
  exact Substitution.satisfies_of_below hbelow (fun x hx => hbound x (hnames x hx)) c.check.holds

/-- The active patterns are those that are allowed at all and whose constraints among
    `checked` hold. -/
def Agrees (registry : ConstraintRegistry) (allowed : Nat → Bool) (checked : List ConstraintId)
    (σ : Substitution) (active : IndexSet) : Prop :=
  ∀ pattern, active.contains pattern = true ↔ allowed pattern = true ∧
    ∀ id ∈ checked, pattern ∈ registry.owners id → registry.holds id σ = true

/-- The active patterns stay the right ones as long as no constraint changes its answer. -/
theorem Agrees.of_below {allowed : Nat → Bool} {checked : List ConstraintId}
    {σ τ : Substitution} {active : IndexSet} (h : Agrees registry allowed checked σ active)
    (hsame : ∀ id ∈ checked, registry.holds id τ = registry.holds id σ) :
    Agrees registry allowed checked τ active := by
  intro pattern
  rw [h pattern]
  refine and_congr_right fun _ => forall₂_congr fun id hid => ?_
  rw [hsame id hid]

/-- Narrowing removes the owners of failing constraints. -/
theorem contains_narrow (constraints : List ConstraintId) (σ : Substitution) (active : IndexSet)
    (pattern : Nat) :
    (registry.narrow constraints σ active).contains pattern = true ↔
      active.contains pattern = true ∧
        ∀ id ∈ constraints, pattern ∈ registry.owners id → registry.holds id σ = true := by
  unfold ConstraintRegistry.narrow
  induction constraints generalizing active with
  | nil => simp
  | cons id rest ih =>
    rw [List.foldl_cons, ih, List.forall_mem_cons]
    cases hholds : registry.holds id σ with
    | true => simp
    | false =>
      rw [if_neg (by simp), IndexSet.contains_eraseAll]
      simp [and_assoc]

/-- Checking some more constraints leaves the right patterns. -/
theorem Agrees.narrow {allowed : Nat → Bool} {checked constraints : List ConstraintId}
    {σ : Substitution} {active : IndexSet} (h : Agrees registry allowed checked σ active) :
    Agrees registry allowed (checked ++ constraints) σ
      (registry.narrow constraints σ active) := by
  intro pattern
  rw [contains_narrow, h pattern, List.forall_mem_append, and_assoc]

/-- The match of a marker that is reached, if its pattern is allowed and accepts the
    bindings. -/
def matchOf (registry : ConstraintRegistry) (allowed : Nat → Bool) :
    Marker × Substitution → Option Match
  | (marker, σ) =>
    if allowed marker.pattern && registry.accepts marker.pattern σ then
      some (marker.pattern, σ.renamed marker.pairs)
    else none

/-- Everything that has been checked is bound, and the active patterns agree with it. -/
structure Ready (registry : ConstraintRegistry) (allowed : Nat → Bool)
    (checked : List ConstraintId) (bound : List String) (σ : Substitution) (active : IndexSet) :
    Prop where
  agrees : Agrees registry allowed checked σ active
  binds : ∀ x ∈ bound, σ.Binds x
  ids : ∀ id ∈ checked, registry.IsBound id bound

variable {allowed : Nat → Bool} {checked : List ConstraintId} {bound : List String}
variable {place : Place} {active : IndexSet}

/-- **One edge further:** bindings are gained, and the constraints about them are checked. -/
theorem Ready.advance {σ τ : Substitution} (h : Ready registry allowed checked bound σ active)
    {constraints : List ConstraintId} {names : List String} (hbelow : σ.Below τ)
    (hnames : ∀ x ∈ names, τ.Binds x)
    (hids : ∀ id ∈ constraints, registry.IsBound id (bound ++ names)) :
    Ready registry allowed (checked ++ constraints) (bound ++ names) τ
      (registry.narrow constraints τ active) where
  agrees := (h.agrees.of_below fun id hid => (h.ids id hid).holds_eq hbelow h.binds).narrow
  binds := by
    intro x hx
    rcases List.mem_append.mp hx with hx | hx
    · exact hbelow.binds (h.binds x hx)
    · exact hnames x hx
  ids := by
    intro id hid
    rcases List.mem_append.mp hid with hid | hid
    · exact (h.ids id hid).mono fun x hx => List.mem_append_left _ hx
    · exact hids id hid

/-- Nothing comes of markers whose patterns are not active. -/
theorem Ready.filterMap_eq_nil {σ : Substitution}
    (h : Ready registry allowed checked bound σ active) {reached : List (Marker × Substitution)}
    (hreached : ∀ r ∈ reached, σ.Below r.2 ∧ active.contains r.1.pattern = false) :
    reached.filterMap (matchOf registry allowed) = [] := by
  rw [List.filterMap_eq_nil_iff]
  rintro ⟨marker, τ⟩ hmem
  obtain ⟨hbelow, hinactive⟩ := hreached _ hmem
  rw [matchOf, if_neg]
  intro hboth
  rw [Bool.and_eq_true, ConstraintRegistry.accepts_iff] at hboth
  have hactive : active.contains marker.pattern = true := by
    refine (h.agrees marker.pattern).mpr ⟨hboth.1, fun id hid howner => ?_⟩
    rw [← (h.ids id hid).holds_eq hbelow h.binds]
    exact hboth.2 id howner
  exact absurd (hinactive.symm.trans hactive) (by decide)

end TermNet
