import TermNet.Proofs.Shape.Extend

namespace TermNet

/-!
# The states of a tree and the paths to them

The states that are listed with their numbers are those that a path leads to from the root.

* `Descends` — the edges from one state down to another;
* `mem_numbered_iff` — the listed states;
* `map_id_numbered`, `flatMap_finals_numbered` — the edges out of them, and their markers;
* `Edge.Sound.mem_patterns_iff` — an edge lists the patterns whose paths use it.
-/

/-- **The edges from a state down to another one,** both with their numbers. -/
inductive Descends : StateId × State → List Edge → StateId × State → Prop where
  | here (place : StateId × State) : Descends place [] place
  | down {id : StateId} {state : State} {edge : Edge} {path : List Edge} {last : StateId × State}
      (hedge : edge ∈ state.edges) (rest : Descends (edge.id, edge.target) path last) :
      Descends (id, state) (edge :: path) last

/-- The markers of a state itself. -/
def State.finals : State → List Marker
  | accept markers => markers
  | branch _ | commutative .. => []

variable {matchers : List CommutativeMatcher} {stage : Stage} {state : State} {id : StateId}
variable {place last : StateId × State} {path more : List Edge}

/-- One path and another one from where it ends. -/
theorem Descends.append (h : Descends place path last) {further : StateId × State}
    (hmore : Descends last more further) : Descends place (path ++ more) further := by
  induction h with
  | here place => exact hmore
  | down hedge rest ih => exact .down hedge (ih hmore)

/-- One more edge at the end of a path. -/
theorem Descends.snoc (h : Descends place path last) {edge : Edge} (hedge : edge ∈ last.2.edges) :
    Descends place (path ++ [edge]) (edge.id, edge.target) :=
  h.append (.down hedge (.here _))

/-- A state with its number, and those below it. -/
theorem State.numbered_eq (id : StateId) (state : State) :
    state.numbered id = (id, state) :: State.numberedBelow state.edges := by
  cases state <;> rfl

/-- The states below are those behind the edges. -/
theorem State.mem_numberedBelow {edges : List Edge} {entry : StateId × State} :
    entry ∈ State.numberedBelow edges ↔
      ∃ edge ∈ edges, entry ∈ edge.target.numbered edge.id := by
  induction edges with
  | nil => simp [State.numberedBelow]
  | cons edge rest ih =>
    obtain ⟨label, name, patterns, constraints, number, target⟩ := edge
    simp [State.numberedBelow, ih]

/-- **The listed states** are those that a path leads to. -/
theorem mem_numbered_iff {entry : StateId × State} :
    entry ∈ state.numbered id ↔ ∃ path, Descends (id, state) path entry := by
  constructor
  · intro h
    induction state using State.inductionOn generalizing id with
    | step state ih =>
      rw [State.numbered_eq] at h
      rcases List.mem_cons.mp h with rfl | h
      · exact ⟨[], .here _⟩
      · obtain ⟨edge, hedge, h⟩ := State.mem_numberedBelow.mp h
        obtain ⟨path, hpath⟩ := ih edge hedge h
        exact ⟨edge :: path, .down hedge hpath⟩
  · rintro ⟨path, hpath⟩
    generalize hplace : (id, state) = place at hpath
    induction hpath generalizing id state with
    | here place =>
      rw [← hplace, State.numbered_eq]
      exact List.mem_cons_self
    | down hedge rest ih =>
      obtain ⟨rfl, rfl⟩ := Prod.mk.inj hplace
      rw [State.numbered_eq]
      exact List.mem_cons_of_mem _ (State.mem_numberedBelow.mpr ⟨_, hedge, ih rfl⟩)

/-- **The edges out of the listed states** lead to all of them but the first. -/
theorem map_id_numbered (id : StateId) (state : State) :
    (((state.numbered id).flatMap fun entry => entry.2.edges).map Edge.id).Perm state.ids := by
  induction state using State.inductionOn generalizing id with
  | step state ih =>
    rw [State.numbered_eq, List.flatMap_cons, List.map_append, State.ids]
    generalize state.edges = edges at ih ⊢
    induction edges with
    | nil => exact .refl _
    | cons edge rest ihrest =>
      have hfirst := ih edge List.mem_cons_self edge.id
      have hrest := ihrest fun other hother => ih other (List.mem_cons_of_mem _ hother)
      have hbelow : State.numberedBelow (edge :: rest) =
          edge.target.numbered edge.id ++ State.numberedBelow rest := by
        obtain ⟨label, name, patterns, constraints, number, target⟩ := edge
        rfl
      rw [hbelow, idsBelow_cons, List.flatMap_append, List.map_append, List.map_cons,
        List.cons_append, List.cons_append]
      refine .cons _ ?_
      exact (List.perm_append_comm_assoc _ _ _).trans (hfirst.append hrest)

/-- **The markers of the listed states** are those below the first one. -/
theorem flatMap_finals_numbered (id : StateId) (state : State) :
    ((state.numbered id).flatMap fun entry => entry.2.finals) = state.markers := by
  induction state using State.inductionOn generalizing id with
  | step state ih =>
    -- The edges are a list of their own, with an induction of their own.
    have hbelow : ∀ edges : List Edge,
        (∀ edge ∈ edges, ∀ id, ((edge.target.numbered id).flatMap fun entry => entry.2.finals) =
          edge.target.markers) →
        ((State.numberedBelow edges).flatMap fun entry => entry.2.finals) =
          markersBelow edges := by
      intro edges hedges
      induction edges with
      | nil => rfl
      | cons edge rest ihrest =>
        obtain ⟨label, name, patterns, constraints, number, target⟩ := edge
        rw [State.numberedBelow, List.flatMap_append, markersBelow,
          hedges _ List.mem_cons_self number,
          ihrest fun other hother => hedges other (List.mem_cons_of_mem _ hother)]
    rw [State.numbered_eq, List.flatMap_cons]
    cases state with
    | branch edges => exact hbelow edges fun edge hedge id => ih edge hedge id
    | commutative position edges => exact hbelow edges fun edge hedge id => ih edge hedge id
    | accept markers => exact List.append_nil markers

/-- A marker stands at the end of a path. -/
theorem State.mem_markers_iff {marker : Marker} (id : StateId) :
    marker ∈ state.markers ↔
      ∃ path number markers, Descends (id, state) path (number, .accept markers) ∧
        marker ∈ markers := by
  rw [← flatMap_finals_numbered id, List.mem_flatMap]
  constructor
  · rintro ⟨⟨number, last⟩, hentry, hmarker⟩
    obtain ⟨path, hpath⟩ := mem_numbered_iff.mp hentry
    cases last with
    | branch edges => exact absurd hmarker List.not_mem_nil
    | commutative position edges => exact absurd hmarker List.not_mem_nil
    | accept markers => exact ⟨path, number, markers, hpath, hmarker⟩
  · rintro ⟨path, number, markers, hpath, hmarker⟩
    exact ⟨(number, .accept markers), mem_numbered_iff.mpr ⟨path, hpath⟩, hmarker⟩

/-- What stands behind an edge of a path. -/
theorem Descends.behind (h : Descends place path last) {edge : Edge} (hedge : edge ∈ path) :
    ∃ rest, Descends (edge.id, edge.target) rest last := by
  induction h with
  | here place => exact absurd hedge List.not_mem_nil
  | down _ rest ih =>
    rcases List.mem_cons.mp hedge with rfl | hedge
    · exact ⟨_, rest⟩
    · exact ih hedge

/-- Every state of a tree has its shape. -/
theorem Descends.formed (h : Descends place path last) (hformed : place.2.Formed matchers stage) :
    ∃ stage, last.2.Formed matchers stage := by
  induction h generalizing stage with
  | here place => exact ⟨stage, hformed⟩
  | down hedge rest ih =>
    obtain ⟨next, hnext⟩ := Option.isSome_iff_exists.mp (hformed.sound hedge).leads
    exact ih (hformed.target hedge hnext)

/-- **An edge lists the patterns whose paths use it.** -/
theorem Edge.Sound.mem_patterns_iff {edge : Edge} (h : edge.Sound matchers stage)
    (hplace : Descends place path last) (hedge : edge ∈ last.2.edges) (pattern : Nat) :
    pattern ∈ edge.patterns ↔ ∃ path id markers, Descends place path (id, .accept markers) ∧
      edge ∈ path ∧ ∃ m ∈ markers, m.pattern = pattern := by
  rw [h.users]
  constructor
  · rintro ⟨m, hm, hpattern⟩
    obtain ⟨rest, number, markers, hrest, hm⟩ := (State.mem_markers_iff edge.id).mp hm
    exact ⟨path ++ edge :: rest, number, markers, hplace.append (.down hedge hrest),
      List.mem_append_right _ List.mem_cons_self, m, hm, hpattern⟩
  · rintro ⟨path, number, markers, hpath, hused, m, hm, hpattern⟩
    obtain ⟨rest, hrest⟩ := hpath.behind hused
    exact ⟨m, (State.mem_markers_iff edge.id).mpr ⟨rest, number, markers, hrest, hm⟩, hpattern⟩

end TermNet
