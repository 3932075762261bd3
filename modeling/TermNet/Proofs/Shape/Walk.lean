import TermNet.Proofs.Shape.Net

namespace TermNet

/-!
# Matching with a net of the right shape

Checked matching only stops where a state does not stand where it should.

* `CheckedWalk.Agrees` — checked matching that does not stop and finds the same;
* `State.Formed.agrees` — matching from a state of the right shape;
* `Net.Formed.matches?_eq` — all matches of a subject.
-/

/-- **Checked matching does not stop,** and finds what matching finds. -/
def CheckedWalk.Agrees (checked : CheckedWalk) (walk : Walk) : Prop :=
  ∀ queue subst active, checked queue subst active = some (walk queue subst active)

namespace CheckedWalk.Agrees

variable {checked more : CheckedWalk} {walk other : Walk}

/-- A walk that finds nothing. -/
theorem nothing : CheckedWalk.nothing.Agrees .nothing := fun _ _ _ => rfl

/-- One walk after another. -/
theorem andThen (h : checked.Agrees walk) (hmore : more.Agrees other) :
    (checked.andThen more).Agrees (walk.andThen other) := by
  intro queue subst active
  rw [CheckedWalk.andThen, h queue subst active]
  simp only [Option.bind_eq_bind, Option.bind_some, hmore _ subst active]
  rfl

/-- A walk behind a guard that is dropped in the end. -/
theorem guarded (h : checked.Agrees walk) (guard : ArgumentQueue.Guard) :
    (checked.guarded guard).Agrees (walk.guarded guard) := by
  intro queue subst active
  rw [CheckedWalk.guarded, h queue subst active]
  rfl

/-- Binding a variable in front of a walk. -/
theorem binding (h : checked.Agrees walk) (name : Option String) (value : Binding) :
    (checked.binding name value).Agrees (walk.binding name value) := by
  intro queue subst active
  cases name with
  | none => exact h queue subst active
  | some name =>
    simp only [CheckedWalk.binding, Walk.binding]
    cases subst.extend? name value with
    | none => rfl
    | some extended => exact h queue extended active

/-- Binding the default in front of a walk, if there is one. -/
theorem skipping (h : checked.Agrees walk) (name : Option String) (default : Option Term) :
    (checked.skipping name default).Agrees (walk.skipping name default) := by
  cases default with
  | none => exact nothing
  | some default => exact h.binding name (.single default)

/-- Taking a longer and longer run in front of a walk. -/
theorem growing (h : checked.Agrees walk) (name : Option String) (wrap : Option Head)
    (longer : Nat) (run : List Term) :
    (checked.growing name wrap longer run).Agrees (walk.growing name wrap longer run) := by
  induction longer generalizing run with
  | zero =>
    intro queue subst active
    simp only [CheckedWalk.growing, h.binding name (.ofRun run wrap) queue subst active]
    rfl
  | succ longer ih =>
    intro queue subst active
    simp only [CheckedWalk.growing, h.binding name (.ofRun run wrap) queue subst active,
      Walk.growing, Option.bind_eq_bind, Option.bind_some]
    cases (walk.binding name (.ofRun run wrap) queue subst active).2.grow? run with
    | none => rfl
    | some grown =>
      simp only [ih grown.1 grown.2 subst active]
      rfl

/-- Checking constraints in front of a walk. -/
theorem proceed (h : checked.Agrees walk) (registry : ConstraintRegistry) (patterns : List Nat)
    (constraints : List ConstraintId) :
    (proceed? registry patterns constraints checked).Agrees
      (TermNet.proceed registry patterns constraints walk) := by
  intro queue subst active
  simp only [proceed?, TermNet.proceed]
  split
  · exact h queue subst _
  · rfl

/-- Ordinary labels. -/
theorem consume (h : checked.Agrees walk) (name : Option String) {label : Label}
    (hcommutative : ∀ head, label ≠ .commutative head) (hoperands : ∀ i, label ≠ .operands i) :
    (label.consume? name checked).Agrees (label.consume name walk) := by
  cases label with
  | enter head =>
    intro queue subst active
    simp only [Label.consume?, Label.consume]
    cases queue.enter? head with
    | none => rfl
    | some entered => exact h.guarded _ _ subst active
  | close =>
    intro queue subst active
    simp only [Label.consume?, Label.consume]
    cases queue.close? with
    | none => rfl
    | some outer => exact h.guarded _ _ subst active
  | atom expected =>
    intro queue subst active
    simp only [Label.consume?, Label.consume]
    cases queue.takeIf? (· = expected) with
    | none => rfl
    | some taken => exact h.guarded _ _ subst active
  | one kind default =>
    simp only [Label.consume?, Label.consume]
    refine (h.skipping name default).andThen fun queue subst active => ?_
    cases queue.takeIf? fun t => kind.all t.isSymbolOf with
    | none => rfl
    | some taken => exact (h.binding name _).guarded _ _ subst active
  | run minCount wrap default =>
    simp only [Label.consume?, Label.consume]
    refine (h.skipping name default).andThen fun queue subst active => ?_
    cases queue.takeRun? (if default.isSome then max minCount 1 else minCount) with
    | none => rfl
    | some taken => exact h.growing name wrap _ _ _ subst active
  | commutative head => exact absurd rfl (hcommutative head)
  | operands index => exact absurd rfl (hoperands index)

end CheckedWalk.Agrees

/-! ### Commutative operations -/

/-- Going on with each match that has been found. -/
theorem walkFound?_eq {checked : Nat → CheckedWalk} {walk : Nat → Walk}
    (h : ∀ index, (checked index).Agrees (walk index)) (active : IndexSet) (found : List Match)
    (queue : ArgumentQueue) :
    walkFound? checked active found queue = some (walkFound walk active found queue) := by
  induction found generalizing queue with
  | nil => rfl
  | cons first rest ih =>
    rw [walkFound?, h first.1 queue first.2 active]
    simp only [Option.bind_eq_bind, Option.bind_some, ih]
    rfl

/-- **A commutative operation** whose matcher is there. -/
theorem CheckedWalk.Agrees.commutative {checked : Nat → CheckedWalk} {walk : Nat → Walk}
    (h : ∀ index, (checked index).Agrees (walk index)) (head : Head) (m : OperandMatcher)
    (branches : List Edge) :
    (walkCommutative? head (some m) branches checked).Agrees
      (walkCommutative head (some m) branches walk) := by
  intro queue subst active
  simp only [walkCommutative?, walkCommutative, Option.bind_eq_bind, Option.bind_some]
  cases wantedPatterns branches active with
  | nil => rfl
  | cons first wanted =>
    dsimp only
    cases queue.takeIf? (·.hasHead head) with
    | none => rfl
    | some taken =>
      simp only [walkFound?_eq h]
      rfl

variable {registry : ConstraintRegistry} {matchers : List OperandMatcher}

/-- The branch of a pattern. -/
theorem agrees_walkBranch {branches : List Edge} (h : ∀ branch ∈ branches,
    (branch.target.walk? registry matchers).Agrees (branch.target.walk registry matchers))
    (index : Nat) :
    (walkBranch? registry matchers branches index).Agrees
      (walkBranch registry matchers branches index) := by
  induction branches with
  | nil => exact .nothing
  | cons branch rest ih =>
    obtain ⟨label, name, patterns, constraints, id, target⟩ := branch
    rw [walkBranch?, walkBranch]
    split
    · exact (h _ List.mem_cons_self).proceed registry patterns constraints
    · exact ih fun other hother => h other (List.mem_cons_of_mem _ hother)

/-- The edges of a state, by induction on them. -/
theorem agrees_walkEdges {edges : List Edge} (h : ∀ edge ∈ edges,
    (walkEdge? registry matchers edge).Agrees (walkEdge registry matchers edge)) :
    (walkEdges? registry matchers edges).Agrees (walkEdges registry matchers edges) := by
  induction edges with
  | nil => exact .nothing
  | cons edge rest ih =>
    exact (h edge List.mem_cons_self).andThen
      (ih fun other hother => h other (List.mem_cons_of_mem _ hother))

/-! ### The whole walk -/

/-- Walking through an ordinary edge. -/
theorem agrees_walkEdge {edge : Edge} (hcommutative : ∀ head, edge.label ≠ .commutative head)
    (hoperands : ∀ i, edge.label ≠ .operands i)
    (h : (edge.target.walk? registry matchers).Agrees (edge.target.walk registry matchers)) :
    (walkEdge? registry matchers edge).Agrees (walkEdge registry matchers edge) := by
  obtain ⟨label, name, patterns, constraints, number, target⟩ := edge
  have hproceed := (h.proceed registry patterns constraints).consume name hcommutative hoperands
  intro queue subst active
  cases label with
  | commutative head => exact absurd rfl (hcommutative head)
  | _ =>
    simp only [walkEdge?, walkEdge]
    split
    · exact hproceed queue subst active
    · rfl

/-- Walking through the edge of a commutative operation, and through the branches behind it. -/
theorem agrees_walkEdge_commutative {head : Head} {name : Option String} {patterns : List Nat}
    {constraints : List ConstraintId} {id position : Nat} {branches : List Edge}
    {m : OperandMatcher} (hm : matchers[position]? = some m) (h : ∀ branch ∈ branches,
      (branch.target.walk? registry matchers).Agrees (branch.target.walk registry matchers)) :
    (walkEdge? registry matchers
        ⟨.commutative head, name, patterns, constraints, id, .commutative position branches⟩).Agrees
      (walkEdge registry matchers
        ⟨.commutative head, name, patterns, constraints, id, .commutative position branches⟩) := by
  intro queue subst active
  simp only [walkEdge?, walkEdge, hm]
  split
  · exact CheckedWalk.Agrees.commutative (agrees_walkBranch h) head m branches queue subst active
  · rfl

/-- **Matching from a state of the right shape** comes to no case that must not happen. -/
theorem State.Formed.agrees {own : List CommutativeMatcher} {stage : Stage} {state : State}
    (h : state.Formed own stage) (hstage : ∀ depth head, stage ≠ .choosing depth head) :
    (state.walk? registry (operandMatchers own)).Agrees
      (state.walk registry (operandMatchers own)) := by
  induction state using State.inductionOn generalizing stage with
  | step state ih ihbranches =>
    cases state with
    | accept markers =>
      intro queue subst active
      simp only [State.walk?, State.walk]
      split <;> rfl
    | commutative position edges =>
      obtain ⟨depth, head, heq, -⟩ := h.stands
      exact absurd heq (hstage depth head)
    | branch edges =>
      refine agrees_walkEdges fun edge hedge => ?_
      obtain ⟨next, hnext⟩ := Option.isSome_iff_exists.mp (h.sound hedge).leads
      have htarget := h.target hedge hnext
      have hoperands : ∀ i, edge.label ≠ .operands i := by
        intro i hlabel
        rw [hlabel] at hnext
        cases stage with
        | choosing depth head => exact hstage depth head rfl
        | within depth => exact absurd hnext (by simp [Label.next?])
        | finished => exact absurd hnext (by simp [Label.next?])
      -- Behind an operation the walk is at the branches of its patterns, two states further on.
      by_cases hcommutative : ∃ head, edge.label = .commutative head
      · obtain ⟨head, hlabel⟩ := hcommutative
        have hbranches := ihbranches edge hedge
        rw [hlabel] at hnext
        obtain ⟨depth, rfl, rfl⟩ := Label.next?_commutative hnext
        obtain ⟨label, name, patterns, constraints, id, target⟩ := edge
        obtain rfl : label = .commutative head := hlabel
        cases target with
        | branch others => exact absurd rfl (htarget.stands depth head)
        | accept markers => exact Stage.noConfusion htarget.stands
        | commutative position branches =>
          obtain ⟨d, other, hchoosing, hposition⟩ := htarget.stands
          obtain ⟨m, hm, -⟩ := exists_of_positionOf? hposition
          have hget : (operandMatchers own)[position]? = some m.operandMatcher := by
            rw [operandMatchers_eq, List.getElem?_map, hm]
            rfl
          refine agrees_walkEdge_commutative hget fun branch hbranch => ?_
          obtain ⟨after, hafter⟩ := Option.isSome_iff_exists.mp (htarget.sound hbranch).leads
          refine hbranches branch hbranch (htarget.target hbranch hafter) ?_
          refine Label.next?_ne_choosing (fun h heq => ?_) hafter
          rw [heq] at hafter
          exact absurd hafter (by simp [Label.next?])
      · have hne : ∀ head, edge.label ≠ .commutative head := fun head hlabel =>
          hcommutative ⟨head, hlabel⟩
        exact agrees_walkEdge hne hoperands
          (ih edge hedge htarget (Label.next?_ne_choosing hne hnext))

/-- **All matches of a subject** are found without coming to a case that must not happen. -/
theorem Net.Formed.matches?_eq {net : Net} (h : net.Formed) (subject : Term) :
    net.matches? subject = some (net.matches subject) := by
  have hwalk : (net.root.walk? net.registry (operandMatchers net.matchers)).Agrees
      (net.root.walk net.registry (operandMatchers net.matchers)) :=
    h.root.agrees fun depth head heq => Stage.noConfusion heq
  unfold Net.matches?
  rw [hwalk]
  obtain ⟨root, stateCount, registry, matchers, patternCount⟩ := net
  rfl

end TermNet
