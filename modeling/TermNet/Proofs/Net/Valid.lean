import Mathlib.Data.List.Nodup
import TermNet.Proofs.Commutative.Matching
import TermNet.Proofs.Net.Explore

namespace TermNet

/-!
# What is true of every state of a net

A pattern is spelled out as a sequence of labels that tells by itself where it ends,
so that a state is either passed through or accepted in, never both.  Constraints are
checked where their variables are bound, and every pattern finds its own constraints
on its path or at its end.

* `Stage`, `Label.next?` — how many operations are open, and whether the pattern ends;
* `State.markers` — the markers below a state;
* `State.Valid` — the invariant of all states of a net;
* `State.Valid.mono` — it does not mind more checks and more bindings before the state.
-/

/-! ### Stages -/

/-- Where a pattern stands between two labels. -/
inductive Stage where
  /-- Within so many operations. -/
  | within (depth : Nat)
  /-- At a commutative operation, whose pattern is still to be chosen. -/
  | choosing (depth : Nat) (head : Head)
  /-- At the end. -/
  | finished
deriving DecidableEq

/-- After an argument within so many operations; the subject itself stands in none. -/
def Stage.settled : Nat → Stage
  | 0 => finished
  | depth + 1 => within (depth + 1)

/-- The stage behind a label, if it may stand there. -/
def Label.next? : Label → Stage → Option Stage
  | enter _, .within depth => some (.within (depth + 1))
  | close, .within (depth + 1) => some (.settled depth)
  | atom _, .within depth | one .., .within depth | run .., .within depth =>
    some (.settled depth)
  | commutative head, .within depth => some (.choosing depth head)
  | operands _, .choosing depth _ => some (.settled depth)
  | _, _ => none

/-- Where a pattern may end or go on, none is to be chosen. -/
theorem Stage.settled_ne_choosing (depth : Nat) : ∀ d head, settled depth ≠ choosing d head := by
  intro d head h
  cases depth <;> simp [settled] at h

/-- Only commutative labels lead to the choice of a pattern. -/
theorem Label.next?_ne_choosing {label : Label} {stage next : Stage}
    (hlabel : ∀ head, label ≠ commutative head) (h : label.next? stage = some next) :
    ∀ d head, next ≠ .choosing d head := by
  intro d head heq
  subst heq
  unfold next? at h
  split at h <;> first
    | exact absurd rfl (hlabel _)
    | exact Stage.settled_ne_choosing _ d head (Option.some.inj h)
    | simp at h

/-- Where a pattern is to be chosen, only such an edge follows. -/
theorem Label.next?_choosing {label : Label} {depth : Nat} {head : Head} {next : Stage}
    (h : label.next? (.choosing depth head) = some next) :
    ∃ index, label = operands index := by
  cases label <;> first
    | exact ⟨_, rfl⟩
    | simp [next?] at h

/-- The label of a commutative operation comes before the choice of its pattern. -/
theorem Label.next?_commutative {stage next : Stage} {head : Head}
    (h : (commutative head).next? stage = some next) :
    ∃ depth, stage = .within depth ∧ next = .choosing depth head := by
  cases stage with
  | within depth => exact ⟨depth, rfl, (Option.some.inj h).symm⟩
  | choosing depth other => simp [next?] at h
  | finished => simp [next?] at h

/-! ### Markers below a state -/

mutual

/-- The markers below a state. -/
def State.markers : State → List Marker
  | .branch edges | .commutative _ edges => markersBelow edges
  | .accept markers => markers
termination_by structural state => state

/-- The markers below a list of edges. -/
def markersBelow : List Edge → List Marker
  | [] => []
  | ⟨_, _, _, _, _, target⟩ :: rest => State.markers target ++ markersBelow rest
termination_by structural edges => edges

end

/-- The markers below edges are those below one of their targets. -/
theorem mem_markersBelow {edges : List Edge} {marker : Marker} :
    marker ∈ markersBelow edges ↔ ∃ edge ∈ edges, marker ∈ edge.target.markers := by
  induction edges with
  | nil => simp [markersBelow]
  | cons edge rest ih =>
    obtain ⟨label, name, patterns, constraints, id, target⟩ := edge
    simp [markersBelow, ih]

/-- The state behind an edge is smaller than the list of edges. -/
theorem sizeOf_target_lt {edge : Edge} (edges : List Edge) (h : edge ∈ edges) :
    sizeOf edge.target < sizeOf edges := by
  have hedge := List.sizeOf_lt_of_mem h
  have htarget : sizeOf edge.target < sizeOf edge := by
    obtain ⟨label, name, patterns, constraints, id, target⟩ := edge
    simp only [Edge.mk.sizeOf_spec]
    omega
  exact Nat.lt_trans htarget hedge

/-- **Induction over the states of a tree,** with the states that one or two edges lead
    to; a commutative operation takes two. -/
theorem State.inductionOn {motive : State → Prop}
    (step : ∀ state : State, (∀ edge ∈ state.edges, motive edge.target) →
      (∀ edge ∈ state.edges, ∀ branch ∈ edge.target.edges, motive branch.target) → motive state)
    (state : State) : motive state := by
  -- The states behind edges are smaller, and so are those behind two of them.
  have hlt : ∀ (state : State), ∀ edge ∈ state.edges, sizeOf edge.target < sizeOf state := by
    intro state edge hedge
    cases state with
    | branch edges =>
      have := sizeOf_target_lt edges hedge
      simp only [State.branch.sizeOf_spec]
      omega
    | commutative matcher edges =>
      have := sizeOf_target_lt edges hedge
      simp only [State.commutative.sizeOf_spec]
      omega
    | accept markers => simp [State.edges] at hedge
  induction hsize : sizeOf state using Nat.strongRecOn generalizing state with
  | _ size ih =>
    refine step state (fun edge hedge => ?_) fun edge hedge branch hbranch => ?_
    · exact ih _ (hsize ▸ hlt state edge hedge) edge.target rfl
    · have := Nat.lt_trans (hlt edge.target branch hbranch) (hlt state edge hedge)
      exact ih _ (hsize ▸ this) branch.target rfl

/-! ### The invariant -/

/-- The position of the matcher for a head. -/
def matcherPosition? (matchers : List OperandMatcher) (head : Head) : Option Nat :=
  matchers.findIdx? (·.head = head)

/-- A constraint with this position is registered, and all its variables are among
    `bound`. -/
def ConstraintRegistry.IsBound (registry : ConstraintRegistry) (id : ConstraintId)
    (bound : List String) : Prop :=
  ∃ c, registry.get? id = some c ∧ ∀ name ∈ c.variableNames, name ∈ bound

/-- The constraints of the marker's pattern are those that are checked at the end, and
    some of those that have been checked before. -/
structure Marker.Valid (registry : ConstraintRegistry) (checked : List ConstraintId)
    (marker : Marker) : Prop where
  owned : ∀ id, marker.pattern ∈ registry.owners id → id ∈ checked ∨ id ∈ marker.globals
  globals : ∀ id ∈ marker.globals, marker.pattern ∈ registry.owners id

/-- What labels of commutative operations need: those of patterns bind nothing of their
    own and name a pattern of the matcher, and those before them check nothing. -/
def Label.Allowed (matcher : Option OperandMatcher) (name : Option String)
    (constraints : List ConstraintId) : Label → Prop
  | operands index => name = none ∧ ∃ m, matcher = some m ∧ index < m.patterns.length
  | commutative _ => constraints = []
  | _ => True

/-- All places behind the label have these names bound. -/
def Label.Bounds (label : Label) (matcher : Option OperandMatcher) (name : Option String)
    (names : List String) : Prop :=
  ∀ place, ∀ after ∈ label.advance matcher name place, ∀ x ∈ names, after.subst.Binds x

mutual

/-- **The invariant of a state** at some stage, behind checks of the constraints
    `checked` and bindings of the variables `bound`. -/
def State.Valid (matchers : List OperandMatcher) (registry : ConstraintRegistry) :
    State → Stage → (checked : List ConstraintId) → (bound : List String) → Prop
  | .branch edges => fun stage checked bound =>
    (stage = .finished → edges = []) ∧ (∀ depth head, stage ≠ .choosing depth head) ∧
      edgesValid matchers registry none edges stage checked bound
  | .commutative position edges => fun stage checked bound =>
    (∃ depth head, stage = .choosing depth head ∧
      matcherPosition? matchers head = some position) ∧
      (edges.map Edge.label).Nodup ∧
      edgesValid matchers registry matchers[position]? edges stage checked bound
  | .accept markers => fun stage checked _ =>
    stage = .finished ∧ ∀ marker ∈ markers, marker.Valid registry checked
termination_by structural state => state

/-- The invariant of the edges of a list. -/
def edgesValid (matchers : List OperandMatcher) (registry : ConstraintRegistry)
    (matcher : Option OperandMatcher) :
    List Edge → Stage → (checked : List ConstraintId) → (bound : List String) → Prop
  | [] => fun _ _ _ => True
  | edge :: rest => fun stage checked bound =>
    edgeValid matchers registry matcher edge stage checked bound ∧
      edgesValid matchers registry matcher rest stage checked bound
termination_by structural edges => edges

/-- The invariant of an edge: it names all patterns below it, it may stand where it
    stands, and its constraints only look at what is bound behind it. -/
def edgeValid (matchers : List OperandMatcher) (registry : ConstraintRegistry)
    (matcher : Option OperandMatcher) :
    Edge → Stage → (checked : List ConstraintId) → (bound : List String) → Prop
  | ⟨label, name, patterns, constraints, _, target⟩ => fun stage checked bound =>
    label.Allowed matcher name constraints ∧ (∀ m ∈ State.markers target, m.pattern ∈ patterns) ∧
      ∃ next names, label.next? stage = some next ∧ label.Bounds matcher name names ∧
        (∀ id ∈ constraints, registry.IsBound id (bound ++ names)) ∧
        State.Valid matchers registry target next (checked ++ constraints) (bound ++ names)
termination_by structural edge => edge

end

variable {matchers : List OperandMatcher} {registry : ConstraintRegistry}
variable {matcher : Option OperandMatcher} {stage : Stage} {checked : List ConstraintId}
variable {bound : List String}

/-- Edges are valid one by one. -/
theorem edgesValid_iff {edges : List Edge} :
    edgesValid matchers registry matcher edges stage checked bound ↔
      ∀ edge ∈ edges, edgeValid matchers registry matcher edge stage checked bound := by
  induction edges with
  | nil => simp [edgesValid]
  | cons edge rest ih => simp [edgesValid, ih]

/-- The invariant of an edge, by the names of its parts. -/
theorem edgeValid_iff {edge : Edge} :
    edgeValid matchers registry matcher edge stage checked bound ↔
      edge.label.Allowed matcher edge.variableName edge.constraints ∧
      (∀ m ∈ edge.target.markers, m.pattern ∈ edge.patterns) ∧
      ∃ next names, edge.label.next? stage = some next ∧
        edge.label.Bounds matcher edge.variableName names ∧
        (∀ id ∈ edge.constraints, registry.IsBound id (bound ++ names)) ∧
        edge.target.Valid matchers registry next (checked ++ edge.constraints)
          (bound ++ names) := by
  obtain ⟨label, name, patterns, constraints, id, target⟩ := edge
  rfl

/-- Constraints whose variables are bound stay such with more bindings. -/
theorem ConstraintRegistry.IsBound.mono {id : ConstraintId} {more : List String}
    (h : registry.IsBound id bound) (hsub : ∀ x ∈ bound, x ∈ more) : registry.IsBound id more := by
  obtain ⟨c, hc, hnames⟩ := h
  exact ⟨c, hc, fun x hx => hsub x (hnames x hx)⟩

/-- A marker does not mind more checks in front of it. -/
theorem Marker.Valid.mono {marker : Marker} {more : List ConstraintId}
    (h : marker.Valid registry checked) (hsub : ∀ id ∈ checked, id ∈ more) :
    marker.Valid registry more :=
  ⟨fun id hid => (h.owned id hid).imp_left (hsub id), h.globals⟩

/-- Behind a commutative label stands the state of its patterns. -/
theorem State.Valid.eq_commutative {state : State} {depth : Nat} {head : Head}
    (h : state.Valid matchers registry (.choosing depth head) checked bound) :
    ∃ position branches, state = .commutative position branches := by
  cases state with
  | branch edges => exact absurd rfl (h.2.1 depth head)
  | commutative position edges => exact ⟨position, edges, rfl⟩
  | accept markers => exact absurd h.1 (by simp)

/-- **More checks and more bindings** before a state do no harm. -/
theorem State.Valid.mono {state : State} (h : state.Valid matchers registry stage checked bound)
    {moreChecked : List ConstraintId} {moreBound : List String}
    (hchecked : ∀ id ∈ checked, id ∈ moreChecked) (hbound : ∀ x ∈ bound, x ∈ moreBound) :
    state.Valid matchers registry stage moreChecked moreBound := by
  induction state using State.inductionOn
    generalizing stage checked bound moreChecked moreBound with
  | step state ih _ =>
    -- Whatever an edge adds is added to both, so the induction hypothesis fits behind it.
    have hedges : ∀ matcher,
        edgesValid matchers registry matcher state.edges stage checked bound →
          edgesValid matchers registry matcher state.edges stage moreChecked moreBound := by
      intro matcher hall
      rw [edgesValid_iff] at hall ⊢
      intro edge hedge
      have hvalid := hall edge hedge
      rw [edgeValid_iff] at hvalid ⊢
      obtain ⟨hallowed, hmarkers, next, names, hnext, hnames, hids, htarget⟩ := hvalid
      have hboundNames : ∀ x ∈ bound ++ names, x ∈ moreBound ++ names := by
        intro x hx
        exact (List.mem_append.mp hx).elim (fun hx => List.mem_append_left _ (hbound x hx))
          (List.mem_append_right _)
      have hcheckedIds : ∀ id ∈ checked ++ edge.constraints,
          id ∈ moreChecked ++ edge.constraints := by
        intro id hid
        exact (List.mem_append.mp hid).elim (fun hid => List.mem_append_left _ (hchecked id hid))
          (List.mem_append_right _)
      exact ⟨hallowed, hmarkers, next, names, hnext, hnames,
        fun id hid => (hids id hid).mono hboundNames, ih edge hedge htarget hcheckedIds hboundNames⟩
    cases state with
    | branch edges => exact ⟨h.1, h.2.1, hedges none h.2.2⟩
    | commutative position edges => exact ⟨h.1, h.2.1, hedges _ h.2.2⟩
    | accept markers => exact ⟨h.1, fun marker hmarker => (h.2 marker hmarker).mono hchecked⟩

end TermNet
