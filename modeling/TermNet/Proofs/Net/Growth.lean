import TermNet.Proofs.Net.Follow

namespace TermNet

/-!
# Growing matchers

Inserting a pattern adds to the matchers that the states look at.  Patterns that were
there before keep their positions and their matches, so that nothing changes for the
states and steps that were made for the smaller matchers.

* `OperandMatcher.Extends`, `Grows` — matchers with more patterns;
* `Label.advance_grows`, `State.explore_grows`, `follow_grows` — the same places and
  markers;
* `State.Valid.grows`, `Lead.grows` — the invariants are kept.
-/

/-- A matcher that knows more patterns, and matches the old ones as before. -/
structure OperandMatcher.Extends (old new : OperandMatcher) : Prop where
  head : new.head = old.head
  length : old.patterns.length ≤ new.patterns.length
  solve : ∀ index < old.patterns.length, ∀ args σ, new.solve args σ index = old.solve args σ index

/-- A matcher to which nothing is added. -/
theorem OperandMatcher.Extends.refl (m : OperandMatcher) : m.Extends m :=
  ⟨rfl, Nat.le_refl _, fun _ _ _ _ => rfl⟩

/-- A matcher to which patterns are added twice. -/
theorem OperandMatcher.Extends.trans {m between more : OperandMatcher} (h : m.Extends between)
    (hmore : between.Extends more) : m.Extends more where
  head := hmore.head.trans h.head
  length := Nat.le_trans h.length hmore.length
  solve index hindex args σ :=
    (hmore.solve index (Nat.lt_of_lt_of_le hindex h.length) args σ).trans
      (h.solve index hindex args σ)

/-- **Matchers that have grown:** every matcher is where it was, and extended. -/
def Grows (old new : List OperandMatcher) : Prop :=
  ∀ (position : Nat) (m : OperandMatcher), old[position]? = some m →
    ∃ m', new[position]? = some m' ∧ m.Extends m'

/-- The matcher that is looked at has grown. -/
def ContextGrows (old new : Option OperandMatcher) : Prop :=
  ∀ m, old = some m → ∃ m', new = some m' ∧ m.Extends m'

variable {old new : List OperandMatcher} {registry more : ConstraintRegistry}
variable {stage next final : Stage} {checked : List ConstraintId} {bound : List String}

/-- Matchers to which nothing is added. -/
theorem Grows.refl (matchers : List OperandMatcher) : Grows matchers matchers :=
  fun _ m hm => ⟨m, hm, .refl m⟩

/-- Matchers that grow twice. -/
theorem Grows.trans {newest : List OperandMatcher} (h : Grows old new) (hmore : Grows new newest) :
    Grows old newest := by
  intro position m hm
  obtain ⟨m', hm', hextends⟩ := h position m hm
  obtain ⟨m'', hm'', hmore⟩ := hmore position m' hm'
  exact ⟨m'', hm'', hextends.trans hmore⟩

/-- Where there were no matchers, there may be any. -/
theorem Grows.nil (matchers : List OperandMatcher) : Grows [] matchers := by
  intro position m hm
  simp at hm

/-- The first matcher grows, and so do the others. -/
theorem Grows.cons {m m' : OperandMatcher} (hfirst : m.Extends m') (h : Grows old new) :
    Grows (m :: old) (m' :: new) := by
  intro position n hn
  cases position with
  | zero =>
    obtain rfl : m = n := by simpa using hn
    exact ⟨m', rfl, hfirst⟩
  | succ position => exact h position n (by simpa using hn)

/-- The first of the elements that satisfy a predicate stays the first, if the elements before
    it stay where they are. -/
theorem findIdx?_of_kept {α β : Type} {p : α → Bool} {q : β → Bool} {as : List α} {bs : List β}
    (h : ∀ (i : Nat) (a : α), as[i]? = some a → ∃ b, bs[i]? = some b ∧ q b = p a) {position : Nat}
    (hposition : as.findIdx? p = some position) : bs.findIdx? q = some position := by
  obtain ⟨hlt, hholds, hbefore⟩ := List.findIdx?_eq_some_iff_getElem.mp hposition
  have hsame : ∀ i (hi : i < as.length), ∃ hi' : i < bs.length, q bs[i] = p as[i] := by
    intro i hi
    obtain ⟨b, hb, hsame⟩ := h i as[i] (List.getElem?_eq_getElem hi)
    obtain ⟨hi', rfl⟩ := List.getElem?_eq_some_iff.mp hb
    exact ⟨hi', hsame⟩
  obtain ⟨hlt', hsame'⟩ := hsame position hlt
  refine List.findIdx?_eq_some_iff_getElem.mpr ⟨hlt', hsame'.trans hholds, fun i hi => ?_⟩
  obtain ⟨hi', hsame'⟩ := hsame i (Nat.lt_trans hi hlt)
  rw [hsame']
  exact hbefore i hi

/-- The matcher of a head stays where it is. -/
theorem Grows.matcherPosition? (h : Grows old new) {head : Head} {position : Nat}
    (hposition : matcherPosition? old head = some position) :
    TermNet.matcherPosition? new head = some position := by
  refine findIdx?_of_kept (fun i m hm => ?_) hposition
  obtain ⟨m', hm', hextends⟩ := h i m hm
  exact ⟨m', hm', by rw [hextends.head]⟩

/-- The matcher that is looked at has grown, too. -/
theorem Grows.context (h : Grows old new) (stage : Stage) :
    ContextGrows (stage.context old) (stage.context new) := by
  intro m hm
  cases stage with
  | within depth => simp [Stage.context] at hm
  | finished => simp [Stage.context] at hm
  | choosing depth head =>
    obtain ⟨position, hposition, hm⟩ := Option.bind_eq_some_iff.mp hm
    obtain ⟨m', hm', hextends⟩ := h position m hm
    exact ⟨m', Option.bind_eq_some_iff.mpr ⟨position, h.matcherPosition? hposition, hm'⟩, hextends⟩

/-! ### Labels -/

variable {matcher grown : Option OperandMatcher} {name : Option String}

/-- A label that is allowed stays so: its pattern keeps its position. -/
theorem Label.Allowed.grows {label : Label} {ids : List ConstraintId}
    (h : label.Allowed matcher name ids) (hgrows : ContextGrows matcher grown) :
    label.Allowed grown name ids := by
  cases label with
  | operands index =>
    obtain ⟨hname, m, hm, hindex⟩ := h
    obtain ⟨m', hm', hextends⟩ := hgrows m hm
    exact ⟨hname, m', hm', Nat.lt_of_lt_of_le hindex hextends.length⟩
  | _ => exact h

/-- **The places behind a label** stay the same. -/
theorem Label.advance_grows {label : Label} {ids : List ConstraintId}
    (h : label.Allowed matcher name ids) (hgrows : ContextGrows matcher grown) (place : Place) :
    label.advance grown name place = label.advance matcher name place := by
  cases label with
  | operands index =>
    obtain ⟨-, m, rfl, hindex⟩ := h
    obtain ⟨m', rfl, hextends⟩ := hgrows m rfl
    unfold advance
    dsimp only
    cases place.queue.takeIf? fun _ => true with
    | none => rfl
    | some taken => simp only [hextends.solve index hindex]
  | _ => rfl

/-- A label binds the same variables. -/
theorem Label.Bounds.grows {label : Label} {ids : List ConstraintId} {names : List String}
    (h : label.Bounds matcher name names) (hallowed : label.Allowed matcher name ids)
    (hgrows : ContextGrows matcher grown) : label.Bounds grown name names := by
  intro place
  rw [advance_grows hallowed hgrows]
  exact h place

/-! ### States -/


/-- Labels that may stand before one matcher may stand before the other, and bind as much. -/
def Serves (matcher other : Option OperandMatcher) : Prop :=
  ∀ (label : Label) (name : Option String) (ids : List ConstraintId),
    label.Allowed matcher name ids → label.Allowed other name ids ∧
      ∀ names, label.Bounds matcher name names → label.Bounds other name names

/-- Where no matcher is looked at, nothing has to be kept. -/
theorem Serves.none : Serves none none := fun _ _ _ h => ⟨h, fun _ hbounds => hbounds⟩

/-- A matcher that has grown serves in place of the smaller one. -/
theorem ContextGrows.serves (h : ContextGrows matcher grown) : Serves matcher grown :=
  fun _ _ _ hallowed => ⟨hallowed.grows h, fun _ hbounds => hbounds.grows hallowed h⟩

/-- **The invariant of a state** only depends on what its matchers serve for, on the
    variables of the constraints and on their owners. -/
theorem State.Valid.transfer {state : State} (h : state.Valid old registry stage checked bound)
    (hposition : ∀ head position, matcherPosition? old head = some position →
      matcherPosition? new head = some position)
    (hserves : ∀ position : Nat, Serves old[position]? new[position]?)
    (hbound : ∀ id names, registry.IsBound id names → more.IsBound id names)
    (howns : ∀ m ∈ state.markers, ∀ id,
      m.pattern ∈ more.owners id ↔ m.pattern ∈ registry.owners id) :
    state.Valid new more stage checked bound := by
  induction state using State.inductionOn generalizing stage checked bound with
  | step state ih _ =>
    -- The labels of edges are served by the new matcher of the state as by the old one.
    have hedges : ∀ matcher other, Serves matcher other →
        state.markers = markersBelow state.edges →
        edgesValid old registry matcher state.edges stage checked bound →
          edgesValid new more other state.edges stage checked bound := by
      intro matcher other hserve hbelow hall
      rw [edgesValid_iff] at hall ⊢
      intro edge hedge
      obtain ⟨hallowed, hmarkers, next, names, hnext, hnames, hids, htarget⟩ :=
        edgeValid_iff.mp (hall edge hedge)
      obtain ⟨hallowed', hbounds⟩ := hserve _ _ _ hallowed
      refine edgeValid_iff.mpr ⟨hallowed', hmarkers, next, names, hnext, hbounds _ hnames,
        fun id hid => hbound _ _ (hids id hid), ih edge hedge htarget fun m hm => howns m ?_⟩
      rw [hbelow]
      exact mem_markersBelow.mpr ⟨edge, hedge, hm⟩
    cases state with
    | branch edges => exact ⟨h.1, h.2.1, hedges none none .none rfl h.2.2⟩
    | commutative position edges =>
      obtain ⟨⟨depth, head, hstage, hhead⟩, hnodup, hall⟩ := h
      exact ⟨⟨depth, head, hstage, hposition _ _ hhead⟩, hnodup,
        hedges _ _ (hserves position) rfl hall⟩
    | accept markers =>
      refine ⟨h.1, fun m hm => ⟨fun id hid => ?_, fun id hid => ?_⟩⟩
      · exact (h.2 m hm).owned id ((howns m hm id).mp hid)
      · exact (howns m hm id).mpr ((h.2 m hm).globals id hid)

/-- **The invariant of a state** is kept when matchers grow and constraints are added. -/
theorem State.Valid.grows {state : State} (h : state.Valid old registry stage checked bound)
    (hgrows : Grows old new) (hkeeps : ∀ id c, registry.get? id = some c → more.get? id = some c)
    (howns : ∀ m ∈ state.markers, ∀ id,
      m.pattern ∈ more.owners id ↔ m.pattern ∈ registry.owners id) :
    state.Valid new more stage checked bound :=
  h.transfer (fun _ _ hhead => hgrows.matcherPosition? hhead)
    (fun position => ContextGrows.serves (hgrows position))
    (fun _ _ ⟨c, hc, hnames⟩ => ⟨c, hkeeps _ c hc, hnames⟩) howns

/-- **The markers that are reached** stay the same. -/
theorem State.explore_grows {state : State} (h : state.Valid old registry stage checked bound)
    (hgrows : Grows old new) (place : Place) :
    state.explore new place = state.explore old place := by
  induction state using State.inductionOn generalizing stage checked bound place with
  | step state ih _ =>
    have hedges : ∀ matcher grown, ContextGrows matcher grown →
        edgesValid old registry matcher state.edges stage checked bound →
          exploreEdges new grown state.edges place =
            exploreEdges old matcher state.edges place := by
      intro matcher grown hcontext hall
      rw [exploreEdges_eq, exploreEdges_eq]
      refine List.flatMap_congr fun edge hedge => ?_
      obtain ⟨hallowed, -, next, names, -, -, -, htarget⟩ :=
        edgeValid_iff.mp (edgesValid_iff.mp hall edge hedge)
      -- Only patterns that the label may name are asked for, and these are not changed.
      rw [exploreEdge_eq, exploreEdge_eq, Label.advance_grows hallowed hcontext]
      exact List.flatMap_congr fun after _ => ih edge hedge htarget after
    cases state with
    | branch edges =>
      refine hedges none none ?_ h.2.2
      intro m hm
      exact absurd hm (by simp)
    | commutative position edges => exact hedges _ _ (hgrows position) h.2.2
    | accept markers => rfl

/-! ### Steps -/

/-- A fresh state stays fresh. -/
theorem IsFresh.grows {state : State} (h : IsFresh old stage state) (hgrows : Grows old new) :
    IsFresh new stage state := by
  cases stage with
  | choosing depth head =>
    obtain ⟨position, hstate, hposition⟩ := h
    exact ⟨position, hstate, hgrows.matcherPosition? hposition⟩
  | within depth => exact h
  | finished => exact h

/-- **A step stays sound** when the matchers grow. -/
theorem Step.Sound.grows {step : Step} (h : step.Sound old stage next) (hgrows : Grows old new) :
    step.Sound new stage next where
  leads := h.leads
  allowed := h.allowed.grows (hgrows.context stage)
  bounds := h.bounds.grows h.allowed (hgrows.context stage)
  fresh := h.fresh.grows hgrows
  quiet := h.quiet

/-- **Steps still lead** where they have led. -/
theorem Lead.grows {steps : List Step} (h : Lead old stage steps final) (hgrows : Grows old new) :
    Lead new stage steps final := by
  induction steps generalizing stage with
  | nil => exact h
  | cons step rest ih =>
    obtain ⟨next, hstep, hrest⟩ := h
    exact ⟨next, hstep.grows hgrows, ih hrest⟩

/-- **The places behind steps** stay the same. -/
theorem follow_grows {steps : List Step} (h : Lead old stage steps final)
    (hgrows : Grows old new) (place : Place) :
    follow new stage steps place = follow old stage steps place := by
  induction steps generalizing stage place with
  | nil => rfl
  | cons step rest ih =>
    obtain ⟨next, hstep, hrest⟩ := h
    rw [follow_cons hstep.leads, follow_cons hstep.leads,
      Label.advance_grows hstep.allowed (hgrows.context stage)]
    exact List.flatMap_congr fun after _ => ih hrest after

end TermNet
