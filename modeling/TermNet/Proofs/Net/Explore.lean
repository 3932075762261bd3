import Mathlib.Data.List.Basic
import TermNet.Net.Match
import TermNet.Proofs.Substitution

namespace TermNet

/-!
# Exploring a net without pruning

A walk threads one queue through all alternatives and drops those that no active
pattern needs.  An exploration passes on a copy of the queue and drops nothing, so
that it is a plain recursion over the tree.

* `Place` — the arguments that are left and the bindings so far;
* `Label.advance` — the places behind an edge, in the order of the walk;
* `State.explore` — the markers that are reached, with the bindings at each of them;
* `consume_eq` — a walk through an edge puts back what it has consumed, and finds what
  it finds at the places behind the edge.
-/

/-- The arguments that are left, and the bindings so far. -/
structure Place where
  queue : ArgumentQueue
  subst : Substitution

/-- The place at the beginning of a subject. -/
def Place.ofSubject (t : Term) : Place := ⟨.ofSubject t, .empty⟩

/-- The place with one more binding, if that is possible. -/
def Place.binding (place : Place) (name : Option String) (value : Binding) : List Place :=
  match name with
  | none => [place]
  | some name => (place.subst.extend? name value).toList.map (⟨place.queue, ·⟩)

/-- The place with the default bound, if there is one. -/
def Place.skipping (place : Place) (name : Option String) : Option Term → List Place
  | some default => place.binding name (.single default)
  | none => []

/-- The places behind a run and behind the longer ones. -/
def Place.growing (name : Option String) (wrap : Option Head) :
    (longer : Nat) → (run : List Term) → Place → List Place
  | 0, run, place => place.binding name (.ofRun run wrap)
  | longer + 1, run, place =>
    place.binding name (.ofRun run wrap) ++
      match place.queue.grow? run with
      | some (run, queue) => growing name wrap longer run { place with queue }
      | none => []

/-- The matches of one commutative pattern on an argument list. -/
def OperandMatcher.solve (matcher : OperandMatcher) (args : List Term) (σ : Substitution)
    (index : Nat) : List Substitution :=
  match matcher.patterns[index]? with
  | none => []
  | some pattern =>
    pattern.matchSorted matcher.head (sortBy Term.le args)
      ((sortBy Term.le args).map matcher.matchOperand) σ

/-- **The places behind an edge.**  A commutative operation is taken by the label of its
    pattern, the label before it only looks at its head. -/
def Label.advance (matcher : Option OperandMatcher) (name : Option String) :
    Label → Place → List Place
  | enter head, place =>
    match place.queue.enter? head with
    | some (_, inner) => [{ place with queue := inner }]
    | none => []
  | close, place =>
    match place.queue.close? with
    | some outer => [{ place with queue := outer }]
    | none => []
  | atom expected, place =>
    match place.queue.takeIf? (· = expected) with
    | some (_, rest) => [{ place with queue := rest }]
    | none => []
  | one kind default, place =>
    place.skipping name default ++
      match place.queue.takeIf? fun t => kind.all t.isSymbolOf with
      | some (item, rest) => Place.binding { place with queue := rest } name (.single item)
      | none => []
  | run minCount wrap default, place =>
    place.skipping name default ++
      match place.queue.takeRun? (if default.isSome then max minCount 1 else minCount) with
      | some (taken, rest) =>
        Place.growing name wrap rest.remaining taken { place with queue := rest }
      | none => []
  | commutative head, place =>
    match place.queue.takeIf? (·.hasHead head) with
    | some _ => [place]
    | none => []
  | operands index, place =>
    match matcher, place.queue.takeIf? fun _ => true with
    | some matcher, some (item, rest) =>
      (matcher.solve item.args place.subst index).map (⟨rest, ·⟩)
    | _, _ => []

mutual

/-- **The markers that are reached** from a state, with the bindings at each of them. -/
def State.explore (matchers : List OperandMatcher) : State → Place → List (Marker × Substitution)
  | .branch edges => exploreEdges matchers none edges
  | .commutative matcher edges => exploreEdges matchers matchers[matcher]? edges
  | .accept markers => fun place =>
    if place.queue.isExhausted then markers.map (·, place.subst) else []
termination_by structural state => state

/-- The markers that are reached through the edges of a list. -/
def exploreEdges (matchers : List OperandMatcher) (matcher : Option OperandMatcher) :
    List Edge → Place → List (Marker × Substitution)
  | [] => fun _ => []
  | edge :: rest => fun place =>
    exploreEdge matchers matcher edge place ++ exploreEdges matchers matcher rest place
termination_by structural edges => edges

/-- The markers that are reached through an edge. -/
def exploreEdge (matchers : List OperandMatcher) (matcher : Option OperandMatcher) :
    Edge → Place → List (Marker × Substitution)
  | ⟨label, name, _, _, _, target⟩ => fun place =>
    (label.advance matcher name place).flatMap (State.explore matchers target)
termination_by structural edge => edge

end

/-- Edges are explored one after the other. -/
theorem exploreEdges_eq (matchers : List OperandMatcher) (matcher : Option OperandMatcher)
    (edges : List Edge) (place : Place) :
    exploreEdges matchers matcher edges place =
      edges.flatMap fun edge => exploreEdge matchers matcher edge place := by
  induction edges with
  | nil => rfl
  | cons edge rest ih =>
    rw [List.flatMap_cons, ← ih, exploreEdges]

/-! ### Putting back -/

namespace ArgumentQueue

/-- The level of a queue is what it has been given. -/
theorem withLevel_level (queue : ArgumentQueue) (terms : List Term) :
    (queue.withLevel terms).level = terms := by
  obtain ⟨root, nested⟩ := queue
  cases nested <;> rfl

/-- The level that is given last counts. -/
theorem withLevel_withLevel (queue : ArgumentQueue) (terms others : List Term) :
    (queue.withLevel terms).withLevel others = queue.withLevel others := by
  obtain ⟨root, nested⟩ := queue
  cases nested <;> rfl

/-- Giving a queue its own level changes nothing. -/
theorem withLevel_eq_self (queue : ArgumentQueue) : queue.withLevel queue.level = queue := by
  obtain ⟨root, nested⟩ := queue
  cases nested <;> rfl

/-- Arguments go back in front of those that are left. -/
theorem giveBack_withLevel {queue : ArgumentQueue} {taken rest : List Term}
    (h : queue.level = taken ++ rest) : (queue.withLevel rest).giveBack taken = queue := by
  rw [giveBack, withLevel_level, withLevel_withLevel, ← h, withLevel_eq_self]

/-- What has been taken was in front, and was acceptable. -/
theorem takeIf?_eq_some {queue rest : ArgumentQueue} {accept : Term → Bool} {item : Term}
    (h : queue.takeIf? accept = some (item, rest)) :
    ∃ terms, queue.level = item :: terms ∧ rest = queue.withLevel terms ∧ accept item = true := by
  unfold takeIf? at h
  split at h
  · rename_i first terms hlevel
    split at h
    · rename_i haccept
      obtain ⟨rfl, rfl⟩ := Prod.mk.injEq .. ▸ Option.some.inj h
      exact ⟨terms, hlevel, rfl, haccept⟩
    · simp at h
  · simp at h

/-- Putting back what has been taken. -/
theorem release_taken {queue rest : ArgumentQueue} {accept : Term → Bool} {item : Term}
    (h : queue.takeIf? accept = some (item, rest)) :
    Guard.release (.taken item) rest = queue := by
  obtain ⟨terms, hlevel, rfl, -⟩ := takeIf?_eq_some h
  exact giveBack_withLevel hlevel

/-- What has been entered was in front; its arguments are the innermost level. -/
theorem enter?_eq_some {queue inner : ArgumentQueue} {head : Head} {item : Term}
    (h : queue.enter? head = some (item, inner)) :
    ∃ terms, queue.level = item :: terms ∧ item.hasHead head = true ∧
      inner = ⟨(queue.withLevel terms).root, item.args :: (queue.withLevel terms).nested⟩ := by
  unfold enter? at h
  split at h
  · rename_i first terms hlevel
    split at h
    · rename_i hhead
      obtain ⟨rfl, rfl⟩ := Prod.mk.injEq .. ▸ Option.some.inj h
      exact ⟨terms, hlevel, hhead, rfl⟩
    · simp at h
  · simp at h

/-- Putting back what has been entered. -/
theorem release_entered {queue inner : ArgumentQueue} {head : Head} {item : Term}
    (h : queue.enter? head = some (item, inner)) :
    Guard.release (.entered item) inner = queue := by
  obtain ⟨terms, hlevel, -, rfl⟩ := enter?_eq_some h
  exact giveBack_withLevel hlevel

/-- A level that is closed was exhausted. -/
theorem close?_eq_some {queue outer : ArgumentQueue} (h : queue.close? = some outer) :
    queue = ⟨outer.root, [] :: outer.nested⟩ := by
  obtain ⟨root, nested⟩ := queue
  unfold close? at h
  split at h
  · rename_i levels hnested
    rw [← Option.some.inj h]
    exact congrArg (ArgumentQueue.mk root) hnested
  · simp at h

/-- A run that has been taken was in front, and has as many terms as wanted. -/
theorem takeRun?_eq_some {queue rest : ArgumentQueue} {count : Nat} {taken : List Term}
    (h : queue.takeRun? count = some (taken, rest)) :
    ∃ terms, queue.level = taken ++ terms ∧ taken.length = count ∧
      rest = queue.withLevel terms := by
  unfold takeRun? at h
  split at h
  · simp at h
  · rename_i hcount
    obtain ⟨rfl, rfl⟩ := Prod.mk.injEq .. ▸ Option.some.inj h
    refine ⟨queue.level.drop count, (List.take_append_drop _ _).symm, ?_, rfl⟩
    rw [List.length_take]
    have hle : count ≤ queue.level.length := Nat.not_lt.mp hcount
    omega

/-- Putting back a run. -/
theorem release_run {queue rest : ArgumentQueue} {count : Nat} {taken : List Term}
    (h : queue.takeRun? count = some (taken, rest)) :
    Guard.release (.run taken) rest = queue := by
  obtain ⟨terms, hlevel, -, rfl⟩ := takeRun?_eq_some h
  exact giveBack_withLevel hlevel

/-- A run grows by the term that is in front. -/
theorem grow?_eq_some {queue rest : ArgumentQueue} {run longer : List Term}
    (h : queue.grow? run = some (longer, rest)) :
    ∃ item terms, queue.level = item :: terms ∧ longer = run ++ [item] ∧
      rest = queue.withLevel terms := by
  unfold grow? at h
  split at h
  · rename_i item terms hlevel
    obtain ⟨rfl, rfl⟩ := Prod.mk.injEq .. ▸ Option.some.inj h
    exact ⟨item, terms, hlevel, rfl, rfl⟩
  · simp at h

/-- A longer run goes back to the same place. -/
theorem release_grow {queue rest : ArgumentQueue} {run longer : List Term}
    (h : queue.grow? run = some (longer, rest)) :
    Guard.release (.run longer) rest = Guard.release (.run run) queue := by
  obtain ⟨item, terms, hlevel, rfl, rfl⟩ := grow?_eq_some h
  show (queue.withLevel terms).giveBack (run ++ [item]) = queue.giveBack run
  rw [giveBack, giveBack, withLevel_level, withLevel_withLevel, hlevel, List.append_assoc]
  rfl

end ArgumentQueue

/-! ### Walking through an edge -/

variable {walk : Walk} {results : Place → List Match} {active : IndexSet}

/-- At all places of a list, the walk finds certain results and leaves the queue alone. -/
def Walk.FindsAt (walk : Walk) (active : IndexSet) (results : Place → List Match)
    (places : List Place) : Prop :=
  ∀ place ∈ places, walk place.queue place.subst active = (results place, place.queue)

/-- Binding a variable, and walking on from there. -/
theorem binding_eq (name : Option String) (value : Binding) (place : Place)
    (h : walk.FindsAt active results (place.binding name value)) :
    walk.binding name value place.queue place.subst active =
      ((place.binding name value).flatMap results, place.queue) := by
  unfold Walk.binding Place.binding
  cases name with
  | none =>
    rw [h place (List.mem_singleton_self place)]
    simp
  | some name =>
    cases hextend : place.subst.extend? name value with
    | none => simp [hextend]
    | some extended =>
      have hmem : ⟨place.queue, extended⟩ ∈ place.binding (some name) value := by
        simp [Place.binding, hextend]
      have hfound := h _ hmem
      simp [hfound, hextend]

/-- Binding the default, and walking on from there. -/
theorem skipping_eq {name : Option String} {default : Option Term} {place : Place}
    (h : walk.FindsAt active results (place.skipping name default)) :
    walk.skipping name default place.queue place.subst active =
      ((place.skipping name default).flatMap results, place.queue) := by
  cases default with
  | none => rfl
  | some value => exact binding_eq name _ place h

/-- Growing a run finds what is found behind all runs, and puts all of them back. -/
theorem growing_eq (name : Option String) (wrap : Option Head) (longer : Nat) (run : List Term)
    (place : Place)
    (h : walk.FindsAt active results (Place.growing name wrap longer run place)) :
    walk.growing name wrap longer run place.queue place.subst active =
      ((Place.growing name wrap longer run place).flatMap results,
        ArgumentQueue.Guard.release (.run run) place.queue) := by
  induction longer generalizing run place with
  | zero =>
    rw [Place.growing] at h ⊢
    simp only [Walk.growing, binding_eq name _ place h]
  | succ longer ih =>
    rw [Place.growing] at h ⊢
    have hbinding := binding_eq name (.ofRun run wrap) place fun p hp =>
      h p (List.mem_append_left _ hp)
    simp only [Walk.growing, hbinding]
    -- Longer runs come behind the run itself, and are put back before it is.
    cases hgrow : place.queue.grow? run with
    | none => simp
    | some grown =>
      obtain ⟨more, rest⟩ := grown
      have hrest := ih more { place with queue := rest } fun p hp => h p (by
        rw [hgrow]
        exact List.mem_append_right _ hp)
      simp only [hrest, List.flatMap_append, ArgumentQueue.release_grow hgrow]

/-- **A walk through an edge** finds what it finds behind the edge, and puts back what the
    edge has consumed. -/
theorem consume_eq {matcher : Option OperandMatcher} {name : Option String} {label : Label}
    {place : Place} (hcommutative : ∀ head, label ≠ .commutative head)
    (hoperands : ∀ index, label ≠ .operands index)
    (h : walk.FindsAt active results (label.advance matcher name place)) :
    label.consume name walk place.queue place.subst active =
      ((label.advance matcher name place).flatMap results, place.queue) := by
  -- Whatever is found behind the label, its guard puts back what has been consumed.
  cases label with
  | commutative head => exact absurd rfl (hcommutative head)
  | operands index => exact absurd rfl (hoperands index)
  | enter head =>
    simp only [Label.consume, Label.advance] at h ⊢
    cases henter : place.queue.enter? head with
    | none => rfl
    | some entered =>
      obtain ⟨item, inner⟩ := entered
      rw [henter] at h
      have hfound := h _ (List.mem_singleton_self _)
      simp [Walk.guarded, hfound, ArgumentQueue.release_entered henter]
  | close =>
    simp only [Label.consume, Label.advance] at h ⊢
    cases hclose : place.queue.close? with
    | none => rfl
    | some outer =>
      rw [hclose] at h
      have hfound := h _ (List.mem_singleton_self _)
      have hrelease : ArgumentQueue.Guard.release .closed outer = place.queue :=
        (ArgumentQueue.close?_eq_some hclose).symm
      simp [Walk.guarded, hfound, hrelease]
  | atom expected =>
    simp only [Label.consume, Label.advance] at h ⊢
    cases htake : place.queue.takeIf? (· = expected) with
    | none => rfl
    | some taken =>
      obtain ⟨item, rest⟩ := taken
      rw [htake] at h
      have hfound := h _ (List.mem_singleton_self _)
      simp [Walk.guarded, hfound, ArgumentQueue.release_taken htake]
  | one kind default =>
    have hskip := skipping_eq fun p hp => h p (List.mem_append_left _ hp)
    simp only [Label.consume, Label.advance, Walk.andThen, hskip, List.flatMap_append]
    cases htake : place.queue.takeIf? fun t => kind.all t.isSymbolOf with
    | none => simp
    | some taken =>
      obtain ⟨item, rest⟩ := taken
      have hbinding := binding_eq name (.single item) { place with queue := rest } fun p hp =>
        h p (by
          rw [Label.advance, htake]
          exact List.mem_append_right _ hp)
      simp only [Walk.guarded, hbinding, ArgumentQueue.release_taken htake]
  | run minCount wrap default =>
    have hskip := skipping_eq fun p hp => h p (List.mem_append_left _ hp)
    simp only [Label.consume, Label.advance, Walk.andThen, hskip, List.flatMap_append]
    cases htake : place.queue.takeRun? (if default.isSome then max minCount 1 else minCount) with
    | none => simp
    | some taken =>
      obtain ⟨run, rest⟩ := taken
      have hgrowing := growing_eq name wrap rest.remaining run { place with queue := rest }
        fun p hp => h p (by
          rw [Label.advance, htake]
          exact List.mem_append_right _ hp)
      simp only [hgrowing, ArgumentQueue.release_run htake]

end TermNet
