import TermNet.Proofs.Net.Growth
import TermNet.Proofs.Net.Insertion
import TermNet.Proofs.Net.Follow
import TermNet.Proofs.Net.Walk
import TermNet.Proofs.Pattern.Places

namespace TermNet

/-!
# Nets with one more pattern

The invariant of a net speaks of its tree, of its registry and of its matchers, whose
nets have to find what the operand patterns find by themselves.

* `Net.TreeValid`, `Net.Valid` — the invariant;
* `Net.matches_eq` — what a net finds;
* `Net.Valid.insertSteps` — inserting a pattern keeps the invariant;
* `Net.matches_insertSteps_other`, `Net.matches_insertSteps_own` — what is found
  afterwards.
-/

open CommutativePattern (fits)

/-! ### The invariant -/

/-- The invariant of a net, its matchers apart. -/
structure Net.TreeValid (meaning : Meaning) (net : Net) : Prop where
  root : net.root.Valid (operandMatchers net.matchers) net.registry (.within 0) [] []
  markers : ∀ m ∈ net.root.markers, m.pattern < net.patternCount
  owners : ∀ id, ∀ pattern ∈ net.registry.owners id, pattern < net.patternCount
  follows : net.registry.Follows meaning

/-- The invariant of a matcher, its net apart: the net finds what the operands find by
    themselves, and the patterns only speak of operands that are there. -/
structure CommutativeMatcher.OperandsValid (meaning : Meaning) (matcher : CommutativeMatcher) :
    Prop where
  count : matcher.net.patternCount = matcher.operands.length
  ordered : ∀ pattern ∈ matcher.patterns, pattern.operands.Pairwise (· ≤ ·)
  bounded : ∀ pattern ∈ matcher.patterns, ∀ o ∈ pattern.operands, o < matcher.operands.length
  follows : ∀ operand ∈ matcher.operands, ∀ c ∈ operand.constraints, c.Follows meaning
  faithful : ∀ index operand, matcher.operands[index]? = some operand →
    ∀ t, (fits index (matcher.net.matches t)).Perm (operand.solutions t)

mutual

/-- **The invariant of a net.** -/
def Net.Valid (meaning : Meaning) : Net → Prop
  | ⟨root, stateCount, registry, matchers, patternCount⟩ =>
    Net.TreeValid meaning ⟨root, stateCount, registry, matchers, patternCount⟩ ∧
      matchersValid meaning matchers
termination_by structural net => net

/-- The invariant of matchers. -/
def matchersValid (meaning : Meaning) : List CommutativeMatcher → Prop
  | [] => True
  | matcher :: rest => CommutativeMatcher.Valid meaning matcher ∧ matchersValid meaning rest
termination_by structural matchers => matchers

/-- The invariant of a matcher. -/
def CommutativeMatcher.Valid (meaning : Meaning) : CommutativeMatcher → Prop
  | ⟨head, net, operands, patterns⟩ =>
    CommutativeMatcher.OperandsValid meaning ⟨head, net, operands, patterns⟩ ∧
      Net.Valid meaning net
termination_by structural matcher => matcher

end

variable {meaning : Meaning} {net : Net} {matchers : List CommutativeMatcher}

/-- Matchers are valid one by one. -/
theorem matchersValid_iff :
    matchersValid meaning matchers ↔ ∀ matcher ∈ matchers, matcher.Valid meaning := by
  induction matchers with
  | nil => simp [matchersValid]
  | cons matcher rest ih => simp [matchersValid, ih]

/-- A net is valid if its tree and its matchers are. -/
theorem Net.valid_iff :
    net.Valid meaning ↔
      net.TreeValid meaning ∧ ∀ matcher ∈ net.matchers, matcher.Valid meaning := by
  obtain ⟨root, stateCount, registry, matchers, patternCount⟩ := net
  rw [Net.Valid, matchersValid_iff]

/-- A matcher is valid if its net is, and finds what its operands find. -/
theorem CommutativeMatcher.valid_iff {matcher : CommutativeMatcher} :
    matcher.Valid meaning ↔ matcher.OperandsValid meaning ∧ matcher.net.Valid meaning := by
  obtain ⟨head, net, operands, patterns⟩ := matcher
  rfl

/-- **Induction over nets,** with the nets of their matchers. -/
theorem Net.inductionOn {motive : Net → Prop}
    (step : ∀ net : Net, (∀ matcher ∈ net.matchers, motive matcher.net) → motive net)
    (net : Net) : motive net := by
  have hlt : ∀ net : Net, ∀ matcher ∈ net.matchers, sizeOf matcher.net < sizeOf net := by
    rintro ⟨root, stateCount, registry, matchers, patternCount⟩ ⟨head, net, operands, patterns⟩
      hmatcher
    have hsize := List.sizeOf_lt_of_mem hmatcher
    simp only [CommutativeMatcher.mk.sizeOf_spec] at hsize
    simp only [Net.mk.sizeOf_spec]
    omega
  induction hsize : sizeOf net using Nat.strongRecOn generalizing net with
  | _ size ih =>
    exact step net fun matcher hmatcher => ih _ (hsize ▸ hlt net matcher hmatcher) matcher.net rfl

/-! ### What a net finds -/

/-- **What a net finds:** the markers that are reached, as far as their patterns accept the
    bindings. -/
theorem Net.matches_of_valid_root
    (h : net.root.Valid (operandMatchers net.matchers) net.registry (.within 0) [] []) (t : Term) :
    net.matches t = ((net.root.explore (operandMatchers net.matchers) (.ofSubject t)).filterMap
      (matchOf net.registry fun pattern => decide (pattern < net.patternCount))) := by
  obtain ⟨root, stateCount, registry, matchers, patternCount⟩ := net
  have hready : Ready registry (fun pattern => decide (pattern < patternCount)) [] []
      (Place.ofSubject t).subst (.full patternCount) := by
    refine ⟨fun pattern => ?_, by simp, by simp⟩
    simp [IndexSet.contains_full]
  have hwalk := root.walk_eq h (by simp) hready
  exact congrArg Prod.fst hwalk

/-- **A net finds** what is reached in its tree, with the constraints of each pattern. -/
theorem Net.matches_eq (h : net.TreeValid meaning) (t : Term) :
    net.matches t = ((net.root.explore (operandMatchers net.matchers) (.ofSubject t)).filterMap
      (matchOf net.registry fun pattern => decide (pattern < net.patternCount))) :=
  matches_of_valid_root h.root t

/-- Everything that is found belongs to a pattern of the net. -/
theorem Net.lt_of_mem_matches (h : net.TreeValid meaning) {t : Term} {found : Match}
    (hfound : found ∈ net.matches t) : found.1 < net.patternCount := by
  rw [matches_eq h, List.mem_filterMap] at hfound
  obtain ⟨⟨marker, σ⟩, -, hmatch⟩ := hfound
  simp only [matchOf, Option.ite_none_right_eq_some, Option.some.injEq, Bool.and_eq_true,
    decide_eq_true_eq] at hmatch
  obtain ⟨⟨hlt, -⟩, rfl⟩ := hmatch
  exact hlt

/-! ### Registering the constraints of a pattern -/

namespace ConstraintRegistry

variable {registry more : ConstraintRegistry} {owner : Nat} {cs : List Constraint}
variable {ids : List ConstraintId}

/-- Only a constraint that is registered has owners. -/
theorem exists_get?_of_mem_owners {id : ConstraintId} {pattern : Nat}
    (h : pattern ∈ registry.owners id) : ∃ c, registry.get? id = some c := by
  obtain ⟨entry, hentry, -⟩ := mem_owners.mp h
  exact ⟨entry.constraint, get?_eq_some.mpr ⟨entry, hentry, rfl⟩⟩

/-- The other patterns accept what they accepted before. -/
theorem Adds.accepts_other (h : registry.Adds owner cs ids more) {pattern : Nat}
    (hpattern : pattern ≠ owner) (σ : Substitution) :
    more.accepts pattern σ = registry.accepts pattern σ := by
  rw [Bool.eq_iff_iff, accepts_iff, accepts_iff]
  refine forall_congr' fun id => ?_
  have howns : pattern ∈ more.owners id ↔ pattern ∈ registry.owners id := by
    rw [h.owns]
    simp [hpattern]
  rw [howns]
  refine forall_congr' fun hmem => ?_
  obtain ⟨c, hc⟩ := exists_get?_of_mem_owners hmem
  rw [holds, holds, hc, h.keeps id c hc]

/-- A new pattern accepts what satisfies its constraints. -/
theorem Adds.accepts_own (h : registry.Adds owner cs ids more)
    (hnew : ∀ id, owner ∉ registry.owners id) (σ : Substitution) :
    more.accepts owner σ = cs.all (·.holds σ) := by
  rw [Bool.eq_iff_iff, accepts_iff, List.all_eq_true]
  have howns : ∀ id, owner ∈ more.owners id ↔ id ∈ ids := by
    intro id
    rw [h.owns]
    simp [hnew id]
  constructor
  · intro hall c hc
    obtain ⟨id, hid, hget⟩ := Bipartite.exists_row_of_mem h.gains.flip hc
    have hholds := hall id ((howns id).mpr hid)
    rwa [holds, hget] at hholds
  · intro hall id hid
    obtain ⟨c, hc, hget⟩ := Bipartite.exists_row_of_mem h.gains ((howns id).mp hid)
    rw [holds, hget]
    exact hall c hc

end ConstraintRegistry

/-! ### Inserting -/

namespace Net

variable {entry : Entry} {steps : List Step}

/-- The registry and the positions of the local and the global constraints. -/
def registered (net : Net) (entry : Entry) :
    ConstraintRegistry × List ConstraintId × List ConstraintId :=
  let (registry, locals) := net.registry.registerAll entry.index entry.locals
  let (registry, globals) := registry.registerAll entry.index entry.globals
  (registry, locals, globals)

/-- What has to be known of a pattern that is inserted. -/
structure Insertable (meaning : Meaning) (net : Net) (entry : Entry) (steps : List Step)
    (matchers : List CommutativeMatcher) : Prop where
  index : entry.index = net.patternCount
  grows : Grows (operandMatchers net.matchers) (operandMatchers matchers)
  leads : Lead (operandMatchers matchers) (.within 0) steps .finished
  follows : ∀ c ∈ entry.locals ++ entry.globals, c.Follows meaning
  bound : ∀ c ∈ entry.locals,
    c.variableNames ≠ [] ∧ ∀ x ∈ c.variableNames, x ∈ steps.flatMap Step.binds

/-- The marker of an inserted pattern. -/
def markerOf (net : Net) (entry : Entry) : Marker :=
  ⟨entry.index, entry.pairs, (net.registered entry).2.2.eraseDups⟩

/-- The root of the net with one more pattern. -/
theorem root_insertSteps (net : Net) (entry : Entry) (steps : List Step)
    (matchers : List CommutativeMatcher) :
    (net.insertSteps entry steps matchers).root =
      (net.root.extend (net.markerOf entry)
        (schedule (net.registered entry).1 (net.registered entry).2.1 [] steps)
        net.stateCount).1 := rfl

/-- The constraints of the new pattern are registered before its steps are inserted. -/
theorem registry_insertSteps (net : Net) (entry : Entry) (steps : List Step)
    (matchers : List CommutativeMatcher) :
    (net.insertSteps entry steps matchers).registry = (net.registered entry).1 := rfl

/-- What the registry gains, the local constraints first. -/
theorem exists_adds_registered (hnet : net.TreeValid meaning)
    (hfollows : ∀ c ∈ entry.locals ++ entry.globals, c.Follows meaning) :
    ∃ between, net.registry.Adds entry.index entry.locals (net.registered entry).2.1 between ∧
      between.Adds entry.index entry.globals (net.registered entry).2.2
        (net.registered entry).1 := by
  have hlocals : ∀ c ∈ entry.locals, c.Follows meaning := fun c hc =>
    hfollows c (List.mem_append_left _ hc)
  have hfirst := ConstraintRegistry.adds_registerAll hnet.follows hlocals entry.index
  exact ⟨_, hfirst, ConstraintRegistry.adds_registerAll (hfirst.follows hnet.follows hlocals)
    (fun c hc => hfollows c (List.mem_append_right _ hc)) entry.index⟩

/-- The constraints of the new pattern are added, in their order. -/
theorem adds_registered (hnet : net.TreeValid meaning)
    (hfollows : ∀ c ∈ entry.locals ++ entry.globals, c.Follows meaning) :
    net.registry.Adds entry.index (entry.locals ++ entry.globals)
      ((net.registered entry).2.1 ++ (net.registered entry).2.2) (net.registered entry).1 := by
  obtain ⟨between, hfirst, hsecond⟩ := exists_adds_registered hnet hfollows
  exact hfirst.trans hsecond

/-- Nothing is registered for a new pattern. -/
theorem Insertable.new (h : Insertable meaning net entry steps matchers)
    (hnet : net.TreeValid meaning) (id : ConstraintId) :
    entry.index ∉ net.registry.owners id := by
  intro hmem
  have hlt := hnet.owners id entry.index hmem
  rw [h.index] at hlt
  exact Nat.lt_irrefl _ hlt

/-- The marker of the new pattern is not in the tree yet. -/
theorem Insertable.marker_ne (h : Insertable meaning net entry steps matchers)
    (hnet : net.TreeValid meaning) :
    ∀ m ∈ net.root.markers, m.pattern ≠ (net.markerOf entry).pattern := by
  intro m hm heq
  have hlt := hnet.markers m hm
  have hindex : m.pattern = net.patternCount := heq.trans h.index
  omega

/-- The marker of an inserted pattern finds its constraints on its path or at its end. -/
theorem Insertable.marker_valid (h : Insertable meaning net entry steps matchers)
    (hnet : net.TreeValid meaning) :
    (net.markerOf entry).Valid (net.registered entry).1
      ((schedule (net.registered entry).1 (net.registered entry).2.1 [] steps).flatMap
        Prod.snd) := by
  have hadds := adds_registered hnet h.follows
  have howns : ∀ id, entry.index ∈ (net.registered entry).1.owners id ↔
      id ∈ (net.registered entry).2.1 ++ (net.registered entry).2.2 := by
    intro id
    rw [hadds.owns]
    simp [h.new hnet id]
  have hlocals : List.Forall₂ (fun c id => (net.registered entry).1.get? id = some c)
      entry.locals (net.registered entry).2.1 := by
    obtain ⟨between, hfirst, hsecond⟩ := exists_adds_registered hnet h.follows
    exact hfirst.gains.imp fun _ _ => hsecond.keeps _ _
  constructor
  · intro id hid
    rcases List.mem_append.mp ((howns id).mp hid) with hlocal | hglobal
    -- A local constraint is checked by the first edge that has all its variables bound.
    · obtain ⟨c, hc, hget⟩ := Bipartite.exists_row_of_mem hlocals hlocal
      obtain ⟨hnames, hbinds⟩ := h.bound c hc
      refine .inl (exists_mem_schedule hlocal hget (fun hall => hnames ?_) fun x hx =>
        .inr (hbinds x hx))
      exact List.eq_nil_iff_forall_not_mem.mpr fun x hx => absurd (hall x hx) (by simp)
    · exact .inr (List.mem_eraseDups.mpr hglobal)
  · intro id hid
    exact (howns id).mpr (List.mem_append_right _ (List.mem_eraseDups.mp hid))

/-- The old tree is valid for the new matchers and the new registry. -/
theorem Insertable.root_valid (h : Insertable meaning net entry steps matchers)
    (hnet : net.TreeValid meaning) :
    net.root.Valid (operandMatchers matchers) (net.registered entry).1 (.within 0) [] [] := by
  have hadds := adds_registered hnet h.follows
  refine hnet.root.grows h.grows hadds.keeps fun m hm id => ?_
  have hne : m.pattern ≠ entry.index := h.marker_ne hnet m hm
  rw [hadds.owns]
  simp [hne]

/-- There is one more pattern. -/
theorem patternCount_insertSteps (h : Insertable meaning net entry steps matchers) :
    (net.insertSteps entry steps matchers).patternCount = net.patternCount + 1 := by
  show max net.patternCount (entry.index + 1) = net.patternCount + 1
  rw [h.index]
  exact Nat.max_eq_right (Nat.le_succ _)

/-- The matchers are those that came with the steps. -/
theorem matchers_insertSteps :
    (net.insertSteps entry steps matchers).matchers = matchers := rfl

/-- **Inserting a pattern keeps the invariant of the tree.** -/
theorem TreeValid.insertSteps (hnet : net.TreeValid meaning)
    (h : Insertable meaning net entry steps matchers) :
    (net.insertSteps entry steps matchers).TreeValid meaning := by
  have hadds := adds_registered hnet h.follows
  have hleads : Lead (operandMatchers matchers) (.within 0)
      ((schedule (net.registered entry).1 (net.registered entry).2.1 [] steps).map Prod.fst)
      .finished := by
    rw [map_fst_schedule]
    exact h.leads
  constructor
  · exact (h.root_valid hnet).extend hleads (scheduled_schedule _ _ _ _) (h.marker_valid hnet) _
  · intro m hm
    rw [patternCount_insertSteps h]
    rcases State.mem_markers_extend hleads.fresh_markers hm with rfl | hm
    · show entry.index < net.patternCount + 1
      rw [h.index]
      exact Nat.lt_succ_self _
    · exact Nat.lt_succ_of_lt (hnet.markers m hm)
  · intro id pattern hpattern
    rw [patternCount_insertSteps h]
    rcases (hadds.owns id pattern).mp hpattern with hold | ⟨rfl, -⟩
    · exact Nat.lt_succ_of_lt (hnet.owners id pattern hold)
    · rw [h.index]
      exact Nat.lt_succ_self _
  · exact hadds.follows hnet.follows h.follows

/-- The matches of the other patterns are those at their markers. -/
theorem filter_filterMap_matchOf {registry : ConstraintRegistry} {allowed : Nat → Bool}
    (index : Nat) (reached : List (Marker × Substitution)) :
    (reached.filterMap (matchOf registry allowed)).filter (·.1 ≠ index) =
      (reached.filter (·.1.pattern ≠ index)).filterMap (matchOf registry allowed) := by
  rw [List.filter_filterMap, List.filterMap_filter]
  refine congrArg (List.filterMap · reached) (funext fun ⟨marker, σ⟩ => ?_)
  simp only [matchOf]
  by_cases hindex : marker.pattern = index <;> split <;> simp [hindex]

/-- The matches of one pattern are those at its markers. -/
theorem fits_filterMap_matchOf {registry : ConstraintRegistry} {allowed : Nat → Bool}
    (index : Nat) (reached : List (Marker × Substitution)) :
    fits index (reached.filterMap (matchOf registry allowed)) =
      (reached.filter (·.1.pattern = index)).filterMap
        fun r => (matchOf registry allowed r).map Prod.snd := by
  unfold fits
  rw [List.filterMap_filterMap, List.filterMap_filter]
  refine congrArg (List.filterMap · reached) (funext fun ⟨marker, σ⟩ => ?_)
  simp only [matchOf]
  by_cases hindex : marker.pattern = index <;> split <;> simp [hindex]

/-- **The other patterns find what they found before,** in the same order. -/
theorem matches_insertSteps_other (hnet : net.TreeValid meaning)
    (h : Insertable meaning net entry steps matchers) (t : Term) :
    ((net.insertSteps entry steps matchers).matches t).filter (·.1 ≠ entry.index) =
      net.matches t := by
  have hadds := adds_registered hnet h.follows
  have hfresh : ∀ step ∈ schedule (net.registered entry).1 (net.registered entry).2.1 [] steps,
      step.1.fresh.markers = [] := by
    refine Lead.fresh_markers (?_ : Lead (operandMatchers matchers) (.within 0) _ .finished)
    rw [map_fst_schedule]
    exact h.leads
  have hexplore := @State.explore_extend_other (operandMatchers matchers) _ _ _ hfresh
    (h.marker_ne hnet) net.stateCount (.ofSubject t)
  rw [matches_eq (hnet.insertSteps h), matches_eq hnet, filter_filterMap_matchOf,
    matchers_insertSteps, root_insertSteps]
  have hindex : (net.markerOf entry).pattern = entry.index := rfl
  rw [hindex] at hexplore
  -- The old markers are reached as before, and grown matchers change nothing for them.
  rw [hexplore, State.explore_grows hnet.root h.grows]
  refine List.filterMap_congr fun ⟨marker, σ⟩ hreached => ?_
  have hmarker := mem_markers_of_mem_explore hreached
  have hlt := hnet.markers marker hmarker
  have hne : marker.pattern ≠ entry.index := h.marker_ne hnet marker hmarker
  simp only [matchOf, registry_insertSteps, hadds.accepts_other hne, patternCount_insertSteps h,
    hlt, Nat.lt_succ_of_lt hlt, decide_true]

/-- **The new pattern finds what its steps lead to.** -/
theorem matches_insertSteps_own (hnet : net.TreeValid meaning)
    (h : Insertable meaning net entry steps matchers) (t : Term) :
    fits entry.index ((net.insertSteps entry steps matchers).matches t) =
      accepted (entry.locals ++ entry.globals) entry.pairs
        (follow (operandMatchers matchers) (.within 0) steps (.ofSubject t)) := by
  have hadds := adds_registered hnet h.follows
  have hleads : Lead (operandMatchers matchers) (.within 0)
      ((schedule (net.registered entry).1 (net.registered entry).2.1 [] steps).map Prod.fst)
      .finished := by
    rw [map_fst_schedule]
    exact h.leads
  have hexplore := State.explore_extend_own (h.root_valid hnet) hleads (h.marker_ne hnet)
    net.stateCount (.ofSubject t)
  have hindex : (net.markerOf entry).pattern = entry.index := rfl
  have hlt : entry.index < (net.insertSteps entry steps matchers).patternCount := by
    rw [patternCount_insertSteps h, h.index]
    exact Nat.lt_succ_self _
  -- The edges on its path check some of its constraints and the marker the others, together all.
  rw [map_fst_schedule, hindex] at hexplore
  rw [matches_eq (hnet.insertSteps h), fits_filterMap_matchOf, matchers_insertSteps,
    root_insertSteps, hexplore, List.filterMap_map, List.filterMap_filter, accepted]
  refine congrArg (List.filterMap · _) (funext fun place => ?_)
  simp only [Function.comp_apply, matchOf, registry_insertSteps, hindex, hlt, decide_true,
    hadds.accepts_own (h.new hnet), Bool.true_and]
  cases place.queue.isExhausted <;>
    cases (entry.locals ++ entry.globals).all (·.holds place.subst) <;> rfl

end Net

end TermNet
