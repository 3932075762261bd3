import Mathlib.Data.List.TakeDrop
import Mathlib.Data.List.TakeWhile
import TermNet.Proofs.Net.Active
import TermNet.Proofs.Pattern.Registry

namespace TermNet

/-!
# Following the steps of one pattern

* `Stage.context` — the matcher of the operation whose pattern is to be chosen;
* `follow` — the places behind a sequence of steps;
* `Step.Sound`, `Lead` — steps that lead from one stage to another, and bind what they
  promise;
* `Scheduled` — constraints that stand behind the bindings of their variables;
* `State.extend_cons` — one step of inserting a pattern, seen as a change of one edge;
* `mem_readyConstraints`, `scheduled_schedule`, `exists_mem_schedule` — each local constraint
  stands at the step that binds the last of its variables, so that it is checked as early as
  possible, and every one is.
-/

/-- The matcher of the operation whose pattern is to be chosen. -/
def Stage.context (matchers : List OperandMatcher) : Stage → Option OperandMatcher
  | choosing _ head => (matcherPosition? matchers head).bind (matchers[·]?)
  | within _ | finished => none

/-- **The places behind steps** that begin at some stage. -/
def follow (matchers : List OperandMatcher) : Stage → List Step → Place → List Place
  | _, [], place => [place]
  | stage, step :: rest, place =>
    match step.label.next? stage with
    | some next =>
      (step.label.advance (stage.context matchers) step.variableName place).flatMap
        (follow matchers next rest)
    | none => []

/-- What a new edge leads to at this stage. -/
def IsFresh (matchers : List OperandMatcher) : Stage → State → Prop
  | .choosing _ head, state =>
    ∃ position, state = .commutative position [] ∧ matcherPosition? matchers head = some position
  | .within _, state | .finished, state => state = .branch []

/-- A step that may stand at some stage, leads to a state of the next one, and binds what
    it promises. -/
structure Step.Sound (matchers : List OperandMatcher) (stage next : Stage)
    (step : Step) : Prop where
  leads : step.label.next? stage = some next
  allowed : step.label.Allowed (stage.context matchers) step.variableName []
  bounds : step.label.Bounds (stage.context matchers) step.variableName step.binds
  fresh : IsFresh matchers next step.fresh
  quiet : ∀ head, step.label = .commutative head → step.binds = []

/-- The steps lead from one stage to another. -/
def Lead (matchers : List OperandMatcher) : Stage → List Step → Stage → Prop
  | stage, [], final => stage = final
  | stage, step :: rest, final =>
    ∃ next, step.Sound matchers stage next ∧ Lead matchers next rest final

/-- The constraints at each step only look at what is bound behind it; a step that binds
    nothing has none. -/
def Scheduled (registry : ConstraintRegistry) :
    (bound : List String) → List (Step × List ConstraintId) → Prop
  | _, [] => True
  | bound, (step, ids) :: rest =>
    (∀ id ∈ ids, registry.IsBound id (bound ++ step.binds)) ∧ (step.binds = [] → ids = []) ∧
      Scheduled registry (bound ++ step.binds) rest

variable {matchers : List OperandMatcher} {registry : ConstraintRegistry}
variable {stage next final : Stage} {checked : List ConstraintId} {bound : List String}

/-- Constraints that may be checked with few bindings may be checked with more. -/
theorem Scheduled.mono {steps : List (Step × List ConstraintId)} {more : List String}
    (h : Scheduled registry bound steps) (hsub : ∀ x ∈ bound, x ∈ more) :
    Scheduled registry more steps := by
  induction steps generalizing bound more with
  | nil => trivial
  | cons first rest ih =>
    obtain ⟨step, ids⟩ := first
    obtain ⟨hids, hquiet, hrest⟩ := h
    have hnames : ∀ x ∈ bound ++ step.binds, x ∈ more ++ step.binds := by
      intro x hx
      exact (List.mem_append.mp hx).elim (fun hx => List.mem_append_left _ (hsub x hx))
        (List.mem_append_right _)
    exact ⟨fun id hid => (hids id hid).mono hnames, hquiet, ih hrest hnames⟩

/-! ### Steps one after the other -/

/-- Steps that lead somewhere, and steps that lead on from there. -/
theorem Lead.append {steps more : List Step} {middle : Stage}
    (h : Lead matchers stage steps middle) (hmore : Lead matchers middle more final) :
    Lead matchers stage (steps ++ more) final := by
  induction steps generalizing stage with
  | nil =>
    obtain rfl : stage = middle := h
    exact hmore
  | cons step rest ih =>
    obtain ⟨next, hstep, hrest⟩ := h
    exact ⟨next, hstep, ih hrest⟩

/-- The first step is followed, and then the others. -/
theorem follow_cons {step : Step} {rest : List Step} {place : Place}
    (h : step.label.next? stage = some next) :
    follow matchers stage (step :: rest) place =
      (step.label.advance (stage.context matchers) step.variableName place).flatMap
        (follow matchers next rest) := by
  rw [follow, h]

/-- Some steps are followed, and then some more. -/
theorem follow_append {steps more : List Step} {middle : Stage}
    (h : Lead matchers stage steps middle) (place : Place) :
    follow matchers stage (steps ++ more) place =
      (follow matchers stage steps place).flatMap (follow matchers middle more) := by
  induction steps generalizing stage place with
  | nil =>
    obtain rfl : stage = middle := h
    rw [follow, List.flatMap_singleton]
    rfl
  | cons step rest ih =>
    obtain ⟨next, hstep, hrest⟩ := h
    rw [List.cons_append, follow_cons hstep.leads, follow_cons hstep.leads, List.flatMap_assoc]
    exact List.flatMap_congr fun after _ => ih hrest after

/-! ### Fresh states -/

/-- A fresh state has nothing below it that could be wrong. -/
theorem IsFresh.valid {state : State} (h : IsFresh matchers stage state) :
    state.Valid matchers registry stage checked bound := by
  cases stage with
  | within depth =>
    obtain rfl : state = .branch [] := h
    exact ⟨fun _ => rfl, fun d head => by simp, trivial⟩
  | finished =>
    obtain rfl : state = .branch [] := h
    exact ⟨fun _ => rfl, fun d head => by simp, trivial⟩
  | choosing depth head =>
    obtain ⟨position, rfl, hposition⟩ := h
    exact ⟨⟨depth, head, rfl, hposition⟩, .nil, trivial⟩

/-- A fresh state has no markers below it. -/
theorem IsFresh.markers_eq_nil {state : State} (h : IsFresh matchers stage state) :
    state.markers = [] := by
  cases stage with
  | within depth =>
    obtain rfl : state = .branch [] := h
    rfl
  | finished =>
    obtain rfl : state = .branch [] := h
    rfl
  | choosing depth head =>
    obtain ⟨position, rfl, -⟩ := h
    rfl

/-- The steps of a pattern bring no markers with them. -/
theorem Lead.fresh_markers {steps : List (Step × List ConstraintId)}
    (h : Lead matchers stage (steps.map Prod.fst) final) :
    ∀ step ∈ steps, step.1.fresh.markers = [] := by
  induction steps generalizing stage with
  | nil => simp
  | cons first rest ih =>
    obtain ⟨next, hstep, hrest⟩ := h
    intro step hmem
    rcases List.mem_cons.mp hmem with rfl | hmem
    · exact hstep.fresh.markers_eq_nil
    · exact ih hrest step hmem

/-- The matcher that a valid state looks at is that of its stage. -/
theorem State.Valid.context_eq {edges : List Edge} {position : Nat}
    (h : (State.commutative position edges).Valid matchers registry stage checked bound) :
    stage.context matchers = matchers[position]? := by
  obtain ⟨⟨depth, head, rfl, hposition⟩, -⟩ := h
  rw [Stage.context, hposition]
  rfl

/-- Where a state has ordinary edges, no pattern is to be chosen. -/
theorem State.Valid.context_eq_none {edges : List Edge}
    (h : (State.branch edges).Valid matchers registry stage checked bound) :
    stage.context matchers = none := by
  cases stage with
  | within depth => rfl
  | finished => rfl
  | choosing depth head => exact absurd rfl (h.2.1 depth head)

/-! ### One step of inserting -/

/-- **Inserting a step** changes one edge: the one that fits the step, or a new one behind
    the others. -/
theorem State.extend_cons (marker : Marker) (step : Step) (ids : List ConstraintId)
    (rest : List (Step × List ConstraintId)) (state : State) (next : StateId) :
    ∃ before edge after newest,
      (∀ other ∈ before, step.fits other = false) ∧ step.fits edge = true ∧
      (state.edges = before ++ edge :: after ∧ newest = next ∨
        state.edges = before ∧ after = [] ∧ edge = step.edge next ∧ newest = next + 1) ∧
      state.extend marker ((step, ids) :: rest) next =
        (state.withEdges (before ++
          edge.usedBy marker.pattern ids (edge.target.extend marker rest newest).1 :: after),
          (edge.target.extend marker rest newest).2) := by
  -- The first edge that fits stands behind all those in front of it that do not.
  let others := state.edges.takeWhile fun edge => !step.fits edge
  have hspan : (state.edges.span fun edge => !step.fits edge) =
      (others, state.edges.dropWhile fun edge => !step.fits edge) :=
    List.span_eq_takeWhile_dropWhile _ _
  have hsplit : others ++ state.edges.dropWhile (fun edge => !step.fits edge) = state.edges :=
    List.takeWhile_append_dropWhile
  have hothers : ∀ other ∈ others, step.fits other = false := by
    intro other hother
    have hnot := List.mem_takeWhile_imp hother
    simpa using hnot
  rw [State.extend, hspan]
  cases hdrop : state.edges.dropWhile fun edge => !step.fits edge with
  | nil =>
    rw [hdrop, List.append_nil] at hsplit
    refine ⟨others, step.edge next, [], next + 1, hothers, ?_,
      .inr ⟨hsplit.symm, rfl, rfl, rfl⟩, rfl⟩
    simp [Step.fits, Step.edge]
  | cons edge after =>
    rw [hdrop] at hsplit
    refine ⟨others, edge, after, next, hothers, ?_, .inl ⟨hsplit.symm, rfl⟩, rfl⟩
    have hhead := List.head_dropWhile_not (p := fun edge => !step.fits edge) (l := state.edges)
    simpa [hdrop] using hhead

/-! ### Scheduling the constraints of a pattern -/

section Schedule

variable {registry : ConstraintRegistry} {locals : List ConstraintId} {fresh bound : List String}

/-- The list of a registry has what is registered, with its numbers. -/
theorem ConstraintRegistry.mem_toList {id : ConstraintId} {c : Constraint} :
    (id, c) ∈ registry.toList ↔ registry.get? id = some c := by
  rw [toList, List.mem_map, get?_eq_some]
  constructor
  · rintro ⟨⟨entry, position⟩, hmem, heq⟩
    obtain ⟨rfl, rfl⟩ := Prod.mk.injEq .. ▸ heq
    exact ⟨entry, List.mk_mem_zipIdx_iff_getElem?.mp hmem, rfl⟩
  · rintro ⟨entry, hentry, rfl⟩
    exact ⟨(entry, id), List.mk_mem_zipIdx_iff_getElem?.mpr hentry, rfl⟩

/-- **The constraints at one step** are the local ones about what is bound, some variable
    of which is new. -/
theorem mem_readyConstraints {id : ConstraintId} :
    id ∈ readyConstraints registry locals fresh bound ↔
      id ∈ locals ∧ ∃ c, registry.get? id = some c ∧ (∃ x ∈ c.variableNames, x ∈ fresh) ∧
        ∀ x ∈ c.variableNames, x ∈ bound := by
  unfold readyConstraints
  rw [List.mem_filterMap]
  constructor
  · rintro ⟨⟨other, c⟩, hmem, h⟩
    obtain ⟨hready, rfl⟩ : _ ∧ other = id := by
      simpa only [Option.ite_none_right_eq_some, Option.some.injEq] using h
    rw [ConstraintRegistry.mem_toList] at hmem
    simp only [Bool.and_eq_true, List.contains_eq_mem, decide_eq_true_eq, List.any_eq_true,
      Constraint.isAbout, List.all_eq_true] at hready
    exact ⟨hready.1.1, c, hmem, hready.1.2, hready.2⟩
  · rintro ⟨hlocal, c, hget, hfresh, hbound⟩
    refine ⟨(id, c), ConstraintRegistry.mem_toList.mpr hget, ?_⟩
    have hready : (locals.contains id && c.variableNames.any fresh.contains && c.isAbout bound) =
        true := by
      simp only [Bool.and_eq_true, List.contains_eq_mem, decide_eq_true_eq, List.any_eq_true,
        Constraint.isAbout, List.all_eq_true]
      exact ⟨⟨hlocal, hfresh⟩, hbound⟩
    simp only [hready, if_true]

/-- Scheduling constraints keeps the steps. -/
theorem map_fst_schedule (registry : ConstraintRegistry) (locals : List ConstraintId)
    (bound : List String) (steps : List Step) :
    (schedule registry locals bound steps).map Prod.fst = steps := by
  induction steps generalizing bound with
  | nil => rfl
  | cons step rest ih => rw [schedule, List.map_cons, ih]

/-- Variables that are bound anew are added to those that were bound. -/
theorem mem_append_fresh {names : List String} {x : String} :
    x ∈ bound ++ (names.filter fun name => !bound.contains name) ↔ x ∈ bound ∨ x ∈ names := by
  by_cases hx : x ∈ bound <;> simp [hx]

/-- **The constraints at each step** only look at what is bound. -/
theorem scheduled_schedule (registry : ConstraintRegistry) (locals : List ConstraintId)
    (bound : List String) (steps : List Step) :
    Scheduled registry bound (schedule registry locals bound steps) := by
  induction steps generalizing bound with
  | nil => trivial
  | cons step rest ih =>
    refine ⟨fun id hid => ?_, fun hnone => ?_, ?_⟩
    · obtain ⟨-, c, hget, -, hbound⟩ := mem_readyConstraints.mp hid
      exact ⟨c, hget, fun x hx => List.mem_append.mpr (mem_append_fresh.mp (hbound x hx))⟩
    · refine List.eq_nil_iff_forall_not_mem.mpr fun id hid => ?_
      obtain ⟨-, c, -, ⟨x, -, hfresh⟩, -⟩ := mem_readyConstraints.mp hid
      rw [hnone] at hfresh
      exact absurd hfresh (by simp)
    · exact (ih _).mono fun x hx => List.mem_append.mpr (mem_append_fresh.mp hx)

/-- **Every local constraint stands at some step,** if the steps bind its variables and
    not all of them are bound before. -/
theorem exists_mem_schedule {id : ConstraintId} {c : Constraint} (hlocal : id ∈ locals)
    (hget : registry.get? id = some c) {steps : List Step}
    (hopen : ¬ ∀ x ∈ c.variableNames, x ∈ bound)
    (hbinds : ∀ x ∈ c.variableNames, x ∈ bound ∨ x ∈ steps.flatMap Step.binds) :
    id ∈ (schedule registry locals bound steps).flatMap Prod.snd := by
  induction steps generalizing bound with
  | nil => exact absurd (fun x hx => (hbinds x hx).resolve_right (by simp)) hopen
  | cons step rest ih =>
    let fresh := step.binds.filter fun name => !bound.contains name
    rw [schedule, List.flatMap_cons, List.mem_append]
    -- Either this step binds the last variables of the constraint, or some later one does.
    by_cases hbound : ∀ x ∈ c.variableNames, x ∈ bound ++ fresh
    · refine .inl (mem_readyConstraints.mpr ⟨hlocal, c, hget, ?_, hbound⟩)
      by_contra hnone
      refine hopen fun x hx => ?_
      rcases List.mem_append.mp (hbound x hx) with hold | hnew
      · exact hold
      · exact absurd ⟨x, hx, hnew⟩ hnone
    · refine .inr (ih hbound fun x hx => ?_)
      rw [mem_append_fresh]
      have hwhere := hbinds x hx
      rw [List.flatMap_cons, List.mem_append, ← or_assoc] at hwhere
      exact hwhere

end Schedule

end TermNet
