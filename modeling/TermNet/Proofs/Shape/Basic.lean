import TermNet.Proofs.Net.Growth

namespace TermNet

/-!
# The shape of a tree

Where a state stands decides what it may be: the state of a commutative operation stands behind
the label of that operation, the end of patterns stands at the end, and every other state
branches.  No two edges of a state are alike, and an edge lists the patterns below it.

* `positionOf?`, `Enlarges` — matchers and their positions;
* `State.Stands`, `Edge.Sound`, `State.Formed` — the shape of a state and of all below it;
* `State.ids` — the numbers of the states below a state;
* `Step.Stands`, `Runs` — steps that keep the shape;
* `State.Formed.enlarge`, `Runs.enlarge` — more matchers and more patterns do no harm.
-/

/-! ### Matchers -/

/-- The position of the matcher of a head. -/
def positionOf? (matchers : List CommutativeMatcher) (head : Head) : Option Nat :=
  matchers.findIdx? (·.head = head)

/-- Every matcher is where it was, and has no fewer patterns. -/
def Enlarges (old new : List CommutativeMatcher) : Prop :=
  ∀ (position : Nat) (m : CommutativeMatcher), old[position]? = some m →
    ∃ m', new[position]? = some m' ∧ m'.head = m.head ∧ m.patterns.length ≤ m'.patterns.length

/-- Matchers to which nothing is added. -/
theorem Enlarges.refl (matchers : List CommutativeMatcher) : Enlarges matchers matchers :=
  fun _ m hm => ⟨m, hm, rfl, Nat.le_refl _⟩

/-- Matchers that are enlarged twice. -/
theorem Enlarges.trans {old between new : List CommutativeMatcher} (h : Enlarges old between)
    (hmore : Enlarges between new) : Enlarges old new := by
  intro position m hm
  obtain ⟨m', hm', hhead, hlength⟩ := h position m hm
  obtain ⟨m'', hm'', hhead', hlength'⟩ := hmore position m' hm'
  exact ⟨m'', hm'', hhead'.trans hhead, Nat.le_trans hlength hlength'⟩

/-- The matcher of a head keeps its position. -/
theorem Enlarges.positionOf? {old new : List CommutativeMatcher} (h : Enlarges old new)
    {head : Head} {position : Nat} (hposition : positionOf? old head = some position) :
    TermNet.positionOf? new head = some position := by
  refine findIdx?_of_kept (fun i m hm => ?_) hposition
  obtain ⟨m', hm', hhead, -⟩ := h i m hm
  exact ⟨m', hm', by rw [hhead]⟩

/-- At the position of a head there is a matcher with that head. -/
theorem exists_of_positionOf? {matchers : List CommutativeMatcher} {head : Head} {position : Nat}
    (h : positionOf? matchers head = some position) :
    ∃ m, matchers[position]? = some m ∧ m.head = head := by
  obtain ⟨hlt, hhead, -⟩ := List.findIdx?_eq_some_iff_getElem.mp h
  exact ⟨_, List.getElem?_eq_getElem hlt, of_decide_eq_true hhead⟩

/-! ### States -/

/-- What a state at some stage may be. -/
def State.Stands (matchers : List CommutativeMatcher) (stage : Stage) : State → Prop
  | branch _ => ∀ depth head, stage ≠ .choosing depth head
  | commutative position _ =>
    ∃ depth head, stage = .choosing depth head ∧ positionOf? matchers head = some position
  | accept _ => stage = .finished

/-- The label of a pattern names one of the patterns of the matcher that the stage asks for. -/
def Label.Known (matchers : List CommutativeMatcher) (stage : Stage) (label : Label) : Prop :=
  ∀ index depth head, label = operands index → stage = .choosing depth head →
    ∃ position m, positionOf? matchers head = some position ∧ matchers[position]? = some m ∧
      index < m.patterns.length

/-- What tells the edges of a state apart. -/
def Edge.key (edge : Edge) : Label × Option String := (edge.label, edge.variableName)

/-- **An edge at some stage** may stand there, and lists the patterns below it. -/
structure Edge.Sound (matchers : List CommutativeMatcher) (stage : Stage) (edge : Edge) :
    Prop where
  leads : (edge.label.next? stage).isSome
  known : edge.label.Known matchers stage
  ascending : edge.patterns.Pairwise (· < ·)
  users : ∀ pattern, pattern ∈ edge.patterns ↔ ∃ m ∈ edge.target.markers, m.pattern = pattern

/-- **The shape of a state,** and of the states below it. -/
inductive State.Formed (matchers : List CommutativeMatcher) : Stage → State → Prop where
  | intro {stage : Stage} {state : State} (stands : state.Stands matchers stage)
      (distinct : (state.edges.map Edge.key).Nodup)
      (sound : ∀ edge ∈ state.edges, edge.Sound matchers stage)
      (targets : ∀ edge ∈ state.edges, ∀ next, edge.label.next? stage = some next →
        State.Formed matchers next edge.target) :
      State.Formed matchers stage state

variable {matchers old new : List CommutativeMatcher} {stage next final : Stage} {state : State}

namespace State.Formed

/-- A state of the right shape stands where it may. -/
theorem stands (h : state.Formed matchers stage) : state.Stands matchers stage := by
  cases h with | intro stands => exact stands

/-- No two edges of such a state are alike. -/
theorem distinct (h : state.Formed matchers stage) : (state.edges.map Edge.key).Nodup := by
  cases h with | intro _ distinct => exact distinct

/-- The edges of such a state are sound. -/
theorem sound (h : state.Formed matchers stage) {edge : Edge} (hedge : edge ∈ state.edges) :
    edge.Sound matchers stage := by
  cases h with | intro _ _ sound => exact sound edge hedge

/-- The states behind these edges have the right shape, too. -/
theorem target (h : state.Formed matchers stage) {edge : Edge} (hedge : edge ∈ state.edges)
    (hnext : edge.label.next? stage = some next) : edge.target.Formed matchers next := by
  cases h with | intro _ _ _ targets => exact targets edge hedge next hnext

end State.Formed

/-- Nothing stands behind the end. -/
theorem Label.next?_finished (label : Label) : label.next? .finished = none := by
  cases label <;> rfl

/-- A state that a label may leave does not accept. -/
theorem State.Stands.ne_accept (h : state.Stands matchers stage) {label : Label}
    (hleads : (label.next? stage).isSome) : ∀ markers, state ≠ .accept markers := by
  rintro markers rfl
  obtain rfl : stage = .finished := h
  rw [label.next?_finished] at hleads
  exact absurd hleads (by decide)

/-- At the end there are no edges. -/
theorem State.Formed.edges_eq_nil (h : state.Formed matchers .finished) : state.edges = [] := by
  refine List.eq_nil_iff_forall_not_mem.mpr fun edge hedge => ?_
  have hleads := (h.sound hedge).leads
  rw [edge.label.next?_finished] at hleads
  exact absurd hleads (by decide)

/-! ### Numbers -/

/-- The numbers of the states that edges lead to, and of those below them. -/
def idsBelow (edges : List Edge) : List StateId := (State.numberedBelow edges).map Prod.fst

/-- The numbers of the states below a state. -/
def State.ids (state : State) : List StateId := idsBelow state.edges

/-- The numbers of a tree: that of its root, and those below. -/
theorem map_fst_numbered (id : StateId) (state : State) :
    (state.numbered id).map Prod.fst = id :: state.ids := by
  cases state <;> rfl

/-- The numbers below the first edge, and those below the others. -/
theorem idsBelow_cons (edge : Edge) (rest : List Edge) :
    idsBelow (edge :: rest) = edge.id :: edge.target.ids ++ idsBelow rest := by
  obtain ⟨label, name, patterns, constraints, id, target⟩ := edge
  rw [idsBelow, State.numberedBelow, List.map_append, map_fst_numbered]
  rfl

/-- The numbers below two lists of edges. -/
theorem idsBelow_append (edges more : List Edge) :
    idsBelow (edges ++ more) = idsBelow edges ++ idsBelow more := by
  induction edges with
  | nil => rfl
  | cons edge rest ih =>
    rw [List.cons_append, idsBelow_cons, idsBelow_cons, ih, List.append_assoc]

/-! ### Steps -/

/-- **A step that keeps the shape:** it leads from one stage to another, and brings a state
    without edges and markers that may stand there. -/
structure Step.Stands (matchers : List CommutativeMatcher) (stage next : Stage) (step : Step) :
    Prop where
  leads : step.label.next? stage = some next
  known : step.label.Known matchers stage
  fresh : step.fresh.Stands matchers next
  bare : step.fresh.edges = [] ∧ step.fresh.markers = []

/-- Steps that lead from one stage to another. -/
def Runs (matchers : List CommutativeMatcher) : Stage → List Step → Stage → Prop
  | stage, [], final => stage = final
  | stage, step :: rest, final =>
    ∃ next, step.Stands matchers stage next ∧ Runs matchers next rest final

/-- Steps that run somewhere, and steps that run on from there. -/
theorem Runs.append {steps more : List Step} {middle : Stage} (h : Runs matchers stage steps middle)
    (hmore : Runs matchers middle more final) : Runs matchers stage (steps ++ more) final := by
  induction steps generalizing stage with
  | nil =>
    obtain rfl : stage = middle := h
    exact hmore
  | cons step rest ih =>
    obtain ⟨next, hstep, hrest⟩ := h
    exact ⟨next, hstep, ih hrest⟩

/-! ### More matchers and more patterns -/

/-- More matchers do not change where a state may stand. -/
theorem State.Stands.enlarge (h : state.Stands old stage) (henlarges : Enlarges old new) :
    state.Stands new stage := by
  cases state with
  | branch edges => exact h
  | commutative position edges =>
    obtain ⟨depth, head, rfl, hposition⟩ := h
    exact ⟨depth, head, rfl, henlarges.positionOf? hposition⟩
  | accept markers => exact h

/-- A label that is known stays so with more patterns. -/
theorem Label.Known.enlarge {label : Label} (h : label.Known old stage)
    (henlarges : Enlarges old new) : label.Known new stage := by
  intro index depth head hlabel hstage
  obtain ⟨position, m, hposition, hm, hlt⟩ := h index depth head hlabel hstage
  obtain ⟨m', hm', -, hlength⟩ := henlarges position m hm
  exact ⟨position, m', henlarges.positionOf? hposition, hm', Nat.lt_of_lt_of_le hlt hlength⟩

/-- **The shape of a state** is kept when matchers are added and get more patterns. -/
theorem State.Formed.enlarge (h : state.Formed old stage) (henlarges : Enlarges old new) :
    state.Formed new stage := by
  induction h with
  | intro stands distinct sound targets ih =>
    refine .intro (stands.enlarge henlarges) distinct (fun edge hedge => ?_) ih
    have hedge := sound edge hedge
    exact ⟨hedge.leads, hedge.known.enlarge henlarges, hedge.ascending, hedge.users⟩

/-- Steps run the same way with more matchers. -/
theorem Runs.enlarge {steps : List Step} (h : Runs old stage steps final)
    (henlarges : Enlarges old new) : Runs new stage steps final := by
  induction steps generalizing stage with
  | nil => exact h
  | cons step rest ih =>
    obtain ⟨next, hstep, hrest⟩ := h
    exact ⟨next, ⟨hstep.leads, hstep.known.enlarge henlarges, hstep.fresh.enlarge henlarges,
      hstep.bare⟩, ih hrest⟩

end TermNet
