import TermNet.Proofs.Shape.Net
import TermNet.Proofs.Shape.Paths

namespace TermNet

/-!
# Constraints where they become checkable

An edge binds variables, and a constraint should be checked at the edge that binds the last of
its variables: before that edge it would hold whatever is bound later, and behind it the walk
would go on for nothing.

* `Label.binds`, `boundAlong` — the variables that an edge binds, and those that a path does;
* `ConstraintRegistry.Opens` — a constraint that becomes checkable at an edge;
* `State.Timely` — edges list such constraints, and all those of a pattern stand on the path to
  its marker;
* `State.Timely.along`, `State.Timely.nodup` — what this says of a path;
* `Continues`, `State.Timely.continued` — more matchers, patterns and constraints do no harm.
-/

/-! ### Variables that are bound -/

/-- The variables of a pattern of a matcher: those of its operands, and its sequence variables. -/
def CommutativeMatcher.boundBy (matcher : CommutativeMatcher) (pattern : CommutativePattern) :
    List String :=
  (pattern.operands.filterMap (matcher.operands[·]?)).flatMap (·.tree.variableNames) ++
    pattern.sequenceVars.filterMap (·.name)

/-- **The variables that a label binds** at a state, which tells what the label of a commutative
    pattern means. -/
def Label.binds (matchers : List CommutativeMatcher) (state : State) (name : Option String) :
    Label → List String
  | one .. | run .. => name.toList
  | operands index =>
    match state with
    | .commutative position _ =>
      (matchers[position]?.bind fun m => m.patterns[index]?.map m.boundBy).getD []
    | _ => []
  | _ => []

/-- The variables that an edge out of a state binds. -/
def Edge.binds (matchers : List CommutativeMatcher) (state : State) (edge : Edge) : List String :=
  edge.label.binds matchers state edge.variableName

/-- **The variables that are bound along a path** from a state. -/
def boundAlong (matchers : List CommutativeMatcher) : State → List Edge → List String
  | _, [] => []
  | state, edge :: path => edge.binds matchers state ++ boundAlong matchers edge.target path

variable {matchers old new : List CommutativeMatcher} {stage : Stage} {state : State}
variable {registry more : ConstraintRegistry} {locals : List (List Constraint)}
variable {bound : List String} {checked : List ConstraintId}
variable {place last : StateId × State} {path : List Edge}

/-- What a label binds does not depend on the edges beside it. -/
theorem Label.binds_withEdges (matchers : List CommutativeMatcher) (state : State)
    (edges : List Edge) (name : Option String) (label : Label) :
    label.binds matchers (state.withEdges edges) name = label.binds matchers state name := by
  cases label <;> cases state <;> rfl

/-- What is bound along a path that goes on. -/
theorem Descends.boundAlong_append (h : Descends place path last) (rest : List Edge) :
    boundAlong matchers place.2 (path ++ rest) =
      boundAlong matchers place.2 path ++ boundAlong matchers last.2 rest := by
  induction h with
  | here place => rfl
  | down hedge further ih =>
    rw [List.cons_append, boundAlong, boundAlong, ih, List.append_assoc]

/-- An edge of a path stands between what comes before it and what comes behind it. -/
theorem Descends.split {before after : List Edge} {edge : Edge}
    (h : Descends place (before ++ edge :: after) last) :
    ∃ between, Descends place before between ∧ edge ∈ between.2.edges ∧
      Descends (edge.id, edge.target) after last := by
  induction before generalizing place with
  | nil =>
    cases h with
    | down hedge rest => exact ⟨_, .here _, hedge, rest⟩
  | cons first before ih =>
    cases h with
    | down hedge rest =>
      obtain ⟨between, hbefore, hbetween, hafter⟩ := ih rest
      exact ⟨between, .down hedge hbefore, hbetween, hafter⟩

/-! ### Constraints that become checkable -/

/-- **A constraint becomes checkable** where `names` are bound besides `bound`: all of its
    variables are bound then, and not all of them were before. -/
def ConstraintRegistry.Opens (registry : ConstraintRegistry) (bound names : List String)
    (id : ConstraintId) : Prop :=
  ∃ c, registry.get? id = some c ∧ (∀ x ∈ c.variableNames, x ∈ bound ++ names) ∧
    ∃ x ∈ c.variableNames, x ∉ bound

/-- All constraints of a list are registered, with positions among `ids`. -/
def ConstraintRegistry.Covers (registry : ConstraintRegistry) (ids : List ConstraintId)
    (cs : List Constraint) : Prop :=
  ∀ c ∈ cs, ∃ id ∈ ids, ∃ d, registry.get? id = some d ∧ d.same c = true

/-- **Constraints are checked in time** below a state, behind bindings of `bound` and checks of
    `checked`: an edge lists what becomes checkable, in order, and where a pattern ends all its
    constraints, which `locals` lists pattern by pattern, are checked. -/
inductive State.Timely (registry : ConstraintRegistry) (matchers : List CommutativeMatcher)
    (locals : List (List Constraint)) : List String → List ConstraintId → State → Prop where
  | intro {bound : List String} {checked : List ConstraintId} {state : State}
      (opens : ∀ edge ∈ state.edges, ∀ id ∈ edge.constraints,
        registry.Opens bound (edge.binds matchers state) id)
      (ascending : ∀ edge ∈ state.edges, edge.constraints.Pairwise (· < ·))
      (complete : ∀ marker ∈ state.finals, ∃ cs, locals[marker.pattern]? = some cs ∧
        registry.Covers checked cs)
      (targets : ∀ edge ∈ state.edges, State.Timely registry matchers locals
        (bound ++ edge.binds matchers state) (checked ++ edge.constraints) edge.target) :
      State.Timely registry matchers locals bound checked state

/-- More numbers cover no less. -/
theorem ConstraintRegistry.Covers.mono {ids others : List ConstraintId} {cs : List Constraint}
    (h : registry.Covers ids cs) (hids : ∀ id ∈ ids, id ∈ others) : registry.Covers others cs := by
  intro c hc
  obtain ⟨id, hid, hregistered⟩ := h c hc
  exact ⟨id, hids id hid, hregistered⟩

namespace State.Timely

/-- Constraints stand at the edge that binds the last of their variables. -/
theorem opens (h : state.Timely registry matchers locals bound checked) :
    ∀ edge ∈ state.edges, ∀ id ∈ edge.constraints,
      registry.Opens bound (edge.binds matchers state) id := by
  cases h with | intro opens => exact opens

/-- The constraints of an edge are in increasing order. -/
theorem ascending (h : state.Timely registry matchers locals bound checked) :
    ∀ edge ∈ state.edges, edge.constraints.Pairwise (· < ·) := by
  cases h with | intro _ ascending => exact ascending

/-- All constraints of a pattern have been checked where it ends. -/
theorem complete (h : state.Timely registry matchers locals bound checked) :
    ∀ marker ∈ state.finals, ∃ cs, locals[marker.pattern]? = some cs ∧
      registry.Covers checked cs := by
  cases h with | intro _ _ complete => exact complete

/-- What is true of a state is true of those behind its edges. -/
theorem target (h : state.Timely registry matchers locals bound checked) {edge : Edge}
    (hedge : edge ∈ state.edges) : edge.target.Timely registry matchers locals
      (bound ++ edge.binds matchers state) (checked ++ edge.constraints) := by
  cases h with | intro _ _ _ targets => exact targets edge hedge

/-- More checks do no harm. -/
theorem mono (h : state.Timely registry matchers locals bound checked)
    {others : List ConstraintId} (hids : ∀ id ∈ checked, id ∈ others) :
    state.Timely registry matchers locals bound others := by
  induction h generalizing others with
  | intro opens ascending complete targets ih =>
    refine .intro opens ascending (fun marker hmarker => ?_) fun edge hedge => ?_
    · obtain ⟨cs, hcs, hcovers⟩ := complete marker hmarker
      exact ⟨cs, hcs, hcovers.mono hids⟩
    · refine ih edge hedge fun id hid => ?_
      exact List.mem_append.mpr ((List.mem_append.mp hid).imp_left (hids id))

/-! ### Paths -/

/-- **Along a path** variables are bound and constraints are checked. -/
theorem along (hpath : Descends place path last)
    (h : place.2.Timely registry matchers locals bound checked) :
    last.2.Timely registry matchers locals (bound ++ boundAlong matchers place.2 path)
      (checked ++ path.flatMap Edge.constraints) := by
  induction hpath generalizing bound checked with
  | here place =>
    rw [boundAlong, List.flatMap_nil, List.append_nil, List.append_nil]
    exact h
  | down hedge rest ih =>
    rw [boundAlong, List.flatMap_cons, ← List.append_assoc, ← List.append_assoc]
    exact ih (h.target hedge)

/-- A constraint all of whose variables are bound is not listed any more. -/
theorem not_mem_of_bound (hpath : Descends place path last)
    (h : place.2.Timely registry matchers locals bound checked) {id : ConstraintId} {c : Constraint}
    (hget : registry.get? id = some c) (hbound : ∀ x ∈ c.variableNames, x ∈ bound) :
    id ∉ path.flatMap Edge.constraints := by
  induction hpath generalizing bound checked with
  | here place => exact List.not_mem_nil
  | down hedge rest ih =>
    rw [List.flatMap_cons, List.mem_append]
    rintro (hid | hid)
    · obtain ⟨d, hd, -, x, hx, hfresh⟩ := h.opens _ hedge id hid
      obtain rfl : c = d := Option.some.inj (hget.symm.trans hd)
      exact hfresh (hbound x hx)
    · exact ih (h.target hedge) (fun x hx => List.mem_append_left _ (hbound x hx)) hid

/-- **No constraint is listed twice along a path.** -/
theorem nodup (hpath : Descends place path last)
    (h : place.2.Timely registry matchers locals bound checked) :
    (path.flatMap Edge.constraints).Nodup := by
  induction hpath generalizing bound checked with
  | here place => exact .nil
  | down hedge rest ih =>
    rw [List.flatMap_cons, List.nodup_append]
    refine ⟨(h.ascending _ hedge).imp Nat.ne_of_lt, ih (h.target hedge), ?_⟩
    rintro id hid _ hother rfl
    obtain ⟨c, hget, hall, -⟩ := h.opens _ hedge id hid
    exact not_mem_of_bound rest (h.target hedge) hget hall hother

end State.Timely

/-! ### More matchers, patterns and constraints -/

/-- A matcher that goes on with the operands and the patterns it has. -/
structure CommutativeMatcher.ContinuedBy (old new : CommutativeMatcher) : Prop where
  head : new.head = old.head
  patterns : old.patterns <+: new.patterns
  operands : old.operands <+: new.operands

namespace CommutativeMatcher.ContinuedBy

variable {m m' m'' : CommutativeMatcher}

/-- A matcher to which nothing is added. -/
theorem refl (m : CommutativeMatcher) : m.ContinuedBy m :=
  ⟨rfl, List.prefix_refl _, List.prefix_refl _⟩

/-- A matcher that is continued twice. -/
theorem trans (h : m.ContinuedBy m') (hmore : m'.ContinuedBy m'') : m.ContinuedBy m'' :=
  ⟨hmore.head.trans h.head, h.patterns.trans hmore.patterns, h.operands.trans hmore.operands⟩

/-- An operand stays where it is. -/
theorem operand (h : m.ContinuedBy m') {index : Nat} (hindex : index < m.operands.length) :
    m'.operands[index]? = m.operands[index]? := by
  obtain ⟨rest, hrest⟩ := h.operands
  rw [← hrest, List.getElem?_append_left hindex]

/-- The variables of a pattern stay the same. -/
theorem boundBy (h : m.ContinuedBy m') {pattern : CommutativePattern}
    (hbounded : ∀ o ∈ pattern.operands, o < m.operands.length) :
    m'.boundBy pattern = m.boundBy pattern := by
  unfold CommutativeMatcher.boundBy
  rw [List.filterMap_congr fun o ho => h.operand (hbounded o ho)]

end CommutativeMatcher.ContinuedBy

/-- Every matcher is where it was, and goes on with what it has. -/
def Continues (old new : List CommutativeMatcher) : Prop :=
  ∀ (position : Nat) (m : CommutativeMatcher), old[position]? = some m →
    ∃ m', new[position]? = some m' ∧ m.ContinuedBy m'

namespace Continues

/-- Matchers to which nothing is added. -/
theorem refl (matchers : List CommutativeMatcher) : Continues matchers matchers :=
  fun _ m hm => ⟨m, hm, .refl m⟩

/-- Matchers that are continued twice. -/
theorem trans {between : List CommutativeMatcher} (h : Continues old between)
    (hmore : Continues between new) : Continues old new := by
  intro position m hm
  obtain ⟨m', hm', hcontinued⟩ := h position m hm
  obtain ⟨m'', hm'', hcontinued'⟩ := hmore position m' hm'
  exact ⟨m'', hm'', hcontinued.trans hcontinued'⟩

/-- Matchers that are continued are enlarged. -/
theorem enlarges (h : Continues old new) : Enlarges old new := by
  intro position m hm
  obtain ⟨m', hm', hcontinued⟩ := h position m hm
  exact ⟨m', hm', hcontinued.head, hcontinued.patterns.length_le⟩

/-- **What a label binds** stays the same where the label may stand. -/
theorem binds (h : Continues old new) (hlisted : ∀ m ∈ old, m.Listed) {label : Label}
    (hstands : state.Stands old stage) (hleads : (label.next? stage).isSome)
    (hknown : label.Known old stage) (name : Option String) :
    label.binds new state name = label.binds old state name := by
  cases label with
  | operands index =>
    cases stage with
    | within depth => exact absurd hleads (by simp [Label.next?])
    | finished => exact absurd hleads (by simp [Label.next?])
    | choosing depth head =>
      cases state with
      | branch edges => exact absurd rfl (hstands depth head)
      | accept markers => exact Stage.noConfusion hstands
      | commutative position edges =>
        obtain ⟨d, other, heq, hposition⟩ := hstands
        obtain ⟨rfl, rfl⟩ := Stage.choosing.inj heq
        obtain ⟨position', m, hposition', hm, hindex⟩ := hknown index depth head rfl rfl
        obtain rfl : position = position' := Option.some.inj (hposition.symm.trans hposition')
        obtain ⟨m', hm', hcontinued⟩ := h position m hm
        have hpattern := List.getElem?_eq_getElem hindex
        -- Patterns are only added behind the others, and so are operands.
        have hpattern' : m'.patterns[index]? = some m.patterns[index] := by
          obtain ⟨rest, hrest⟩ := hcontinued.patterns
          rw [← hrest, List.getElem?_append_left hindex, hpattern]
        have hbounded := (hlisted m (List.mem_of_getElem? hm)).bounded _ (List.getElem_mem hindex)
        simp only [Label.binds, hm, hm', Option.bind_some, hpattern, hpattern', Option.map_some,
          hcontinued.boundBy hbounded]
  | _ => rfl

/-- An edge binds the same variables when the matchers are continued. -/
theorem edge_binds (h : Continues old new) (hlisted : ∀ m ∈ old, m.Listed)
    (hformed : state.Formed old stage) {edge : Edge} (hedge : edge ∈ state.edges) :
    edge.binds new state = edge.binds old state :=
  h.binds hlisted hformed.stands (hformed.sound hedge).leads (hformed.sound hedge).known _

end Continues

/-- What becomes checkable, if nothing that was registered is lost. -/
theorem ConstraintRegistry.Opens.keeps {names : List String} {id : ConstraintId}
    (h : registry.Opens bound names id)
    (hkeeps : ∀ id c, registry.get? id = some c → more.get? id = some c) :
    more.Opens bound names id := by
  obtain ⟨c, hget, hopens⟩ := h
  exact ⟨c, hkeeps id c hget, hopens⟩

/-- What is covered stays so when more is registered. -/
theorem ConstraintRegistry.Covers.keeps {ids : List ConstraintId} {cs : List Constraint}
    (h : registry.Covers ids cs)
    (hkeeps : ∀ id c, registry.get? id = some c → more.get? id = some c) : more.Covers ids cs := by
  intro c hc
  obtain ⟨id, hid, d, hget, hsame⟩ := h c hc
  exact ⟨id, hid, d, hkeeps id d hget, hsame⟩

/-- **Constraints are still checked in time** when there are more matchers, patterns and
    constraints. -/
theorem State.Timely.continued (h : state.Timely registry old locals bound checked)
    (hformed : state.Formed old stage) (hlisted : ∀ m ∈ old, m.Listed)
    (hcontinues : Continues old new)
    (hkeeps : ∀ id c, registry.get? id = some c → more.get? id = some c)
    (others : List (List Constraint)) :
    state.Timely more new (locals ++ others) bound checked := by
  induction h generalizing stage with
  | intro opens ascending complete targets ih =>
    refine .intro (fun edge hedge id hid => ?_) ascending (fun marker hmarker => ?_)
      fun edge hedge => ?_
    · rw [hcontinues.edge_binds hlisted hformed hedge]
      exact (opens edge hedge id hid).keeps hkeeps
    · obtain ⟨cs, hcs, hcovers⟩ := complete marker hmarker
      refine ⟨cs, ?_, hcovers.keeps hkeeps⟩
      rw [List.getElem?_append_left (List.getElem?_eq_some_iff.mp hcs).1, hcs]
    · obtain ⟨next, hnext⟩ := Option.isSome_iff_exists.mp (hformed.sound hedge).leads
      rw [hcontinues.edge_binds hlisted hformed hedge]
      exact ih edge hedge (hformed.target hedge hnext)

end TermNet
