import TermNet.Proofs.Net.Active

namespace TermNet

/-!
# Walks are filtered explorations

Pruning only takes away what would be refused in the end, and every step puts back what
it has consumed.

* `proceed_eq` — going on behind an edge;
* `walkCommutative_eq` — a commutative operation, with the branches of its patterns;
* `State.walk_eq` — what a walk finds, and that it leaves the queue as it was.
-/

variable {matchers : List OperandMatcher} {registry : ConstraintRegistry}
variable {allowed : Nat → Bool} {checked : List ConstraintId} {bound : List String}
variable {place : Place} {active : IndexSet}

/-! ### Walking behind an edge -/

/-- If none of some patterns is active, each of them is not. -/
theorem contains_eq_false_of_not_meets {patterns : List Nat}
    (h : ¬ active.meets patterns = true) {pattern : Nat} (hpattern : pattern ∈ patterns) :
    active.contains pattern = false := by
  by_contra hcontains
  rw [Bool.not_eq_false] at hcontains
  exact h (IndexSet.meets_eq_true_iff.mpr ⟨pattern, hpattern, hcontains⟩)

/-- What a state finds wherever its invariant holds and the active patterns agree. -/
def State.WalksAs (matchers : List OperandMatcher) (registry : ConstraintRegistry)
    (state : State) : Prop :=
  ∀ {stage checked bound allowed} {place : Place} {active},
    state.Valid matchers registry stage checked bound → (∀ d head, stage ≠ .choosing d head) →
    Ready registry allowed checked bound place.subst active →
    state.walk registry matchers place.queue place.subst active =
      ((state.explore matchers place).filterMap (matchOf registry allowed), place.queue)

/-- **Going on behind an edge** finds what is reached there, as far as active patterns allow. -/
theorem proceed_eq {patterns : List Nat} {constraints : List ConstraintId} {target : State}
    {stage : Stage} {after : Place}
    (hwalk : target.WalksAs matchers registry)
    (hvalid : target.Valid matchers registry stage checked bound)
    (hstage : ∀ d head, stage ≠ .choosing d head)
    (hmarkers : ∀ m ∈ target.markers, m.pattern ∈ patterns)
    (hready : Ready registry allowed checked bound after.subst
      (registry.narrow constraints after.subst active)) :
    proceed registry patterns constraints (target.walk registry matchers) after.queue
        after.subst active =
      ((target.explore matchers after).filterMap (matchOf registry allowed), after.queue) := by
  unfold proceed
  by_cases hmeets : (registry.narrow constraints after.subst active).meets patterns = true
  · rw [if_pos hmeets]
    exact hwalk hvalid hstage hready
  · rw [if_neg hmeets, hready.filterMap_eq_nil]
    rintro ⟨marker, τ⟩ hmem
    obtain ⟨hmarker, hbelow⟩ := explore_below hmem
    exact ⟨hbelow, contains_eq_false_of_not_meets hmeets (hmarkers marker hmarker)⟩

/-- An edge that no active pattern uses leads to nothing. -/
theorem exploreEdge_eq_nil {matcher : Option OperandMatcher} {edge : Edge}
    (hmarkers : ∀ m ∈ edge.target.markers, m.pattern ∈ edge.patterns)
    (hready : Ready registry allowed checked bound place.subst active)
    (hmeets : ¬ active.meets edge.patterns = true) :
    (exploreEdge matchers matcher edge place).filterMap (matchOf registry allowed) = [] := by
  refine hready.filterMap_eq_nil ?_
  rintro ⟨marker, τ⟩ hmem
  rw [exploreEdge_eq, List.mem_flatMap] at hmem
  obtain ⟨after, hafter, hmem⟩ := hmem
  obtain ⟨hmarker, hbelow⟩ := explore_below hmem
  exact ⟨(advance_below hafter).trans hbelow,
    contains_eq_false_of_not_meets hmeets (hmarkers marker hmarker)⟩

/-! ### Commutative operations -/

/-- The matches of a commutative operation are gone on with one after the other. -/
theorem walkFound_eq {branch : Nat → Walk} {found : List Match} {queue : ArgumentQueue}
    {results : Match → List Match}
    (h : ∀ m ∈ found, branch m.1 queue m.2 active = (results m, queue)) :
    walkFound branch active found queue = (found.flatMap results, queue) := by
  induction found with
  | nil => rfl
  | cons m rest ih =>
    have hfirst := h m List.mem_cons_self
    have hrest := ih fun m hm => h m (List.mem_cons_of_mem _ hm)
    simp only [walkFound, hfirst, hrest, List.flatMap_cons]

/-- The matches of the wanted patterns, one pattern after the other. -/
theorem matchCommutative_eq (m : OperandMatcher) (args : List Term) (σ : Substitution)
    (wanted : List Nat) :
    matchCommutative m args σ wanted =
      wanted.flatMap fun index => (m.solve args σ index).map (index, ·) := by
  unfold matchCommutative OperandMatcher.solve
  refine congrArg (List.flatMap · wanted) (funext fun index => ?_)
  cases m.patterns[index]? <;> rfl

/-- The first branch of a pattern is the only one. -/
theorem walkBranch_eq {branches : List Edge} (hnodup : (branches.map Edge.label).Nodup)
    {branch : Edge} (hbranch : branch ∈ branches) {index : Nat}
    (hlabel : branch.label = .operands index) :
    walkBranch registry matchers branches index =
      proceed registry branch.patterns branch.constraints
        (branch.target.walk registry matchers) := by
  induction branches with
  | nil => simp at hbranch
  | cons first rest ih =>
    rw [List.map_cons, List.nodup_cons] at hnodup
    obtain ⟨label, name, patterns, constraints, id, target⟩ := first
    rw [walkBranch]
    rcases List.mem_cons.mp hbranch with rfl | hbranch
    · rw [if_pos hlabel]
    · have hmem : branch.label ∈ rest.map Edge.label := List.mem_map_of_mem hbranch
      have hne : label ≠ .operands index := fun heq => hnodup.1 (by
        rw [hlabel, ← heq] at hmem
        exact hmem)
      rw [if_neg hne]
      exact ih hnodup.2 hbranch

/-- Only patterns of branches are wanted. -/
theorem exists_of_mem_wantedPatterns {branches : List Edge} {index : Nat}
    (h : index ∈ wantedPatterns branches active) :
    ∃ branch ∈ branches, branch.label = .operands index := by
  obtain ⟨branch, hbranch, h⟩ := List.mem_filterMap.mp h
  refine ⟨branch, hbranch, ?_⟩
  split at h
  · rename_i k hlabel
    split at h
    · rw [hlabel, Option.some.inj h]
    · simp at h
  · simp at h

/-- Without a matcher, or without an operation with the head, nothing is found. -/
theorem walkCommutative_of_none {head : Head} {matcher : Option OperandMatcher}
    {branches : List Edge} {branch : Nat → Walk} {queue : ArgumentQueue} {σ : Substitution}
    (h : matcher = none ∨ queue.takeIf? (·.hasHead head) = none) :
    walkCommutative head matcher branches branch queue σ active = ([], queue) := by
  unfold walkCommutative
  split
  · rfl
  · rfl
  · rw [h.resolve_left (by simp)]

/-- **A commutative operation** that is in front is taken, matched, and put back. -/
theorem walkCommutative_of_some {head : Head} {m : OperandMatcher} {branches : List Edge}
    {branch : Nat → Walk} {queue rest : ArgumentQueue} {σ : Substitution} {item : Term}
    {results : Match → List Match} (htake : queue.takeIf? (·.hasHead head) = some (item, rest))
    (h : ∀ found ∈ matchCommutative m item.args σ (wantedPatterns branches active),
      branch found.1 rest found.2 active = (results found, rest)) :
    walkCommutative head (some m) branches branch queue σ active =
      ((matchCommutative m item.args σ (wantedPatterns branches active)).flatMap results,
        queue) := by
  cases hwanted : wantedPatterns branches active with
  | nil => simp [walkCommutative, hwanted, matchCommutative]
  | cons index others =>
    rw [hwanted] at h
    simp only [walkCommutative, hwanted, htake, walkFound_eq h,
      ArgumentQueue.release_taken htake]

/-- The places behind a branch are those of the matches of its pattern. -/
theorem advance_operands {m : OperandMatcher} {name : Option String} {index : Nat} {item : Term}
    {rest : ArgumentQueue} {head : Head}
    (htake : place.queue.takeIf? (·.hasHead head) = some (item, rest)) :
    (Label.operands index).advance (some m) name place =
      (m.solve item.args place.subst index).map (⟨rest, ·⟩) := by
  have hany : place.queue.takeIf? (fun _ => true) = some (item, rest) := by
    obtain ⟨terms, hlevel, rfl, -⟩ := ArgumentQueue.takeIf?_eq_some htake
    simp [ArgumentQueue.takeIf?, hlevel]
  simp only [Label.advance, hany]

/-- The matches of one branch, if an active pattern uses it. -/
theorem flatMap_wanted_eq {m : OperandMatcher} {args : List Term} {σ : Substitution}
    {branches : List Edge} {results : Match → List Match} {others : Edge → List Match}
    (hlabels : ∀ branch ∈ branches, ∃ index, branch.label = .operands index ∧
      (active.meets branch.patterns = true →
        ((m.solve args σ index).map (index, ·)).flatMap results = others branch) ∧
      (¬ active.meets branch.patterns = true → others branch = [])) :
    (matchCommutative m args σ (wantedPatterns branches active)).flatMap results =
      branches.flatMap others := by
  rw [matchCommutative_eq, wantedPatterns, CommutativePattern.filterMap_flatMap_eq,
    List.flatMap_assoc]
  refine List.flatMap_congr fun branch hbranch => ?_
  obtain ⟨index, hlabel, hactive, hinactive⟩ := hlabels branch hbranch
  rw [hlabel]
  by_cases hmeets : active.meets branch.patterns = true
  · rw [← hactive hmeets]
    simp [hmeets]
  · rw [hinactive hmeets]
    simp [hmeets]

/-- Without a matcher nothing is found behind the branches. -/
theorem exploreEdges_operands_none {branches : List Edge}
    (hlabels : ∀ branch ∈ branches, ∃ index, branch.label = .operands index) :
    exploreEdges matchers none branches place = [] := by
  rw [exploreEdges_eq, List.flatMap_eq_nil_iff]
  intro branch hmem
  obtain ⟨index, hlabel⟩ := hlabels branch hmem
  rw [exploreEdge_eq, hlabel]
  rfl

/-- **Walking through a commutative operation** finds what is found behind the branches of
    its patterns. -/
theorem walkCommutative_eq {head : Head} {name : Option String} {matcher : Option OperandMatcher}
    {branches : List Edge} (hnodup : (branches.map Edge.label).Nodup)
    (hlabels : ∀ branch ∈ branches, ∃ index, branch.label = .operands index)
    (hinactive : ∀ branch ∈ branches, ¬ active.meets branch.patterns = true →
      (exploreEdge matchers matcher branch place).filterMap (matchOf registry allowed) = [])
    (hbranch : ∀ branch ∈ branches,
      ∀ after ∈ branch.label.advance matcher branch.variableName place,
        proceed registry branch.patterns branch.constraints (branch.target.walk registry matchers)
            after.queue after.subst active =
          ((branch.target.explore matchers after).filterMap (matchOf registry allowed),
            after.queue)) :
    walkCommutative head matcher branches (walkBranch registry matchers branches)
        place.queue place.subst active =
      ((((Label.commutative head).advance none name place).flatMap
          (exploreEdges matchers matcher branches)).filterMap (matchOf registry allowed),
        place.queue) := by
  cases htake : place.queue.takeIf? (·.hasHead head) with
  | none =>
    rw [walkCommutative_of_none (.inr htake), Label.advance, htake]
    rfl
  | some taken =>
    obtain ⟨item, rest⟩ := taken
    have hadvance : (Label.commutative head).advance none name place = [place] := by
      rw [Label.advance, htake]
    rw [hadvance, List.flatMap_singleton]
    cases matcher with
    | none =>
      rw [walkCommutative_of_none (.inl rfl), exploreEdges_operands_none hlabels]
      rfl
    | some m =>
      -- The matches of a pattern are walked on with at its own branch.
      have hwalk : ∀ branch ∈ branches, ∀ index, branch.label = .operands index →
          ∀ τ ∈ m.solve item.args place.subst index,
            walkBranch registry matchers branches index rest τ active =
              ((branch.target.explore matchers ⟨rest, τ⟩).filterMap (matchOf registry allowed),
                rest) := by
        intro branch hmem index hlabel τ hτ
        rw [walkBranch_eq hnodup hmem hlabel]
        refine hbranch branch hmem ⟨rest, τ⟩ ?_
        rw [hlabel, advance_operands htake]
        exact List.mem_map_of_mem hτ
      let results := fun found : Match =>
        (walkBranch registry matchers branches found.1 rest found.2 active).1
      have hresults : ∀ found ∈ matchCommutative m item.args place.subst
          (wantedPatterns branches active),
            walkBranch registry matchers branches found.1 rest found.2 active =
              (results found, rest) := by
        intro found hmem
        rw [matchCommutative_eq, List.mem_flatMap] at hmem
        obtain ⟨index, hindex, hmem⟩ := hmem
        obtain ⟨τ, hτ, rfl⟩ := List.mem_map.mp hmem
        obtain ⟨branch, hbranchMem, hlabel⟩ := exists_of_mem_wantedPatterns hindex
        have hfound := hwalk branch hbranchMem index hlabel τ hτ
        simp only [results, hfound]
      rw [walkCommutative_of_some htake hresults, exploreEdges_eq, List.filterMap_flatMap]
      refine congrArg (·, place.queue) (flatMap_wanted_eq fun branch hmem => ?_)
      obtain ⟨index, hlabel⟩ := hlabels branch hmem
      refine ⟨index, hlabel, fun _ => ?_, hinactive branch hmem⟩
      rw [exploreEdge_eq, hlabel, advance_operands htake, List.flatMap_map, List.flatMap_map,
        List.filterMap_flatMap]
      refine List.flatMap_congr fun τ hτ => ?_
      have hfound := hwalk branch hmem index hlabel τ hτ
      simp only [results, hfound]

/-! ### The whole walk -/

/-- Going on behind an edge that is no commutative operation. -/
theorem proceed_after {matcher : Option OperandMatcher} {edge : Edge} {stage : Stage}
    (hwalk : edge.target.WalksAs matchers registry)
    (hvalid : edgeValid matchers registry matcher edge stage checked bound)
    (hlabel : ∀ head, edge.label ≠ .commutative head)
    (hready : Ready registry allowed checked bound place.subst active) :
    ∀ after ∈ edge.label.advance matcher edge.variableName place,
      proceed registry edge.patterns edge.constraints (edge.target.walk registry matchers)
          after.queue after.subst active =
        ((edge.target.explore matchers after).filterMap (matchOf registry allowed),
          after.queue) := by
  intro after hafter
  obtain ⟨-, hmarkers, next, names, hnext, hnames, hids, htarget⟩ := edgeValid_iff.mp hvalid
  exact proceed_eq hwalk htarget (Label.next?_ne_choosing hlabel hnext) hmarkers
    (hready.advance (advance_below hafter) (hnames place after hafter) hids)

/-- Any other edge consumes what it asks for, and goes on. -/
theorem walkEdge_of_not_commutative {edge : Edge} {queue : ArgumentQueue} {σ : Substitution}
    (hlabel : ∀ head, edge.label ≠ .commutative head)
    (hmeets : active.meets edge.patterns = true) :
    walkEdge registry matchers edge queue σ active =
      edge.label.consume edge.variableName (proceed registry edge.patterns edge.constraints
        (edge.target.walk registry matchers)) queue σ active := by
  obtain ⟨label, name, patterns, constraints, id, target⟩ := edge
  cases label with
  | commutative head => exact absurd rfl (hlabel head)
  | _ =>
    simp only [walkEdge]
    exact if_pos hmeets

/-- An edge that no active pattern needs finds nothing. -/
theorem walkEdge_of_not_meets {edge : Edge} {queue : ArgumentQueue} {σ : Substitution}
    (hmeets : ¬ active.meets edge.patterns = true) :
    walkEdge registry matchers edge queue σ active = ([], queue) := by
  obtain ⟨label, name, patterns, constraints, id, target⟩ := edge
  cases label <;> cases target <;> exact if_neg hmeets

/-- Walking through an edge. -/
theorem walkEdge_eq {edge : Edge} {stage : Stage} (hwalk : edge.target.WalksAs matchers registry)
    (hbranches : ∀ branch ∈ edge.target.edges, branch.target.WalksAs matchers registry)
    (hvalid : edgeValid matchers registry none edge stage checked bound)
    (hstage : ∀ d head, stage ≠ .choosing d head)
    (hready : Ready registry allowed checked bound place.subst active) :
    walkEdge registry matchers edge place.queue place.subst active =
      ((exploreEdge matchers none edge place).filterMap (matchOf registry allowed),
        place.queue) := by
  obtain ⟨hallowed, hmarkers, next, names, hnext, hnames, hids, htarget⟩ := edgeValid_iff.mp hvalid
  by_cases hmeets : active.meets edge.patterns = true
  -- A walk goes on from a commutative operation at the branches of its patterns, and from
  -- what any other edge consumes at its target.
  · obtain ⟨label, name, patterns, constraints, id, target⟩ := edge
    by_cases hcommutative : ∃ head, label = .commutative head
    · obtain ⟨head, rfl⟩ := hcommutative
      obtain ⟨depth, rfl, rfl⟩ := Label.next?_commutative hnext
      obtain ⟨position, branches, rfl⟩ := htarget.eq_commutative
      have hnone : constraints = [] := hallowed
      subst hnone
      have hwalked : walkEdge registry matchers
            ⟨.commutative head, name, patterns, [], id, .commutative position branches⟩
            place.queue place.subst active =
          walkCommutative head matchers[position]? branches
            (walkBranch registry matchers branches) place.queue place.subst active := by
        simp only [walkEdge]
        rw [if_pos hmeets]
      rw [hwalked]
      cases htake : place.queue.takeIf? (·.hasHead head) with
      | none =>
        rw [walkCommutative_of_none (.inr htake), exploreEdge_eq, Label.advance, htake]
        rfl
      | some taken =>
        have hplace : place ∈ (Label.commutative head).advance none name place := by
          simp [Label.advance, htake]
        have hthere : Ready registry allowed (checked ++ []) (bound ++ names) place.subst active :=
          hready.advance (.refl _) (hnames place place hplace) hids
        have hedges := edgesValid_iff.mp htarget.2.2
        have hlabels : ∀ branch ∈ branches, ∃ index, branch.label = .operands index := by
          intro branch hbranch
          obtain ⟨-, -, _, _, hnext, -⟩ := edgeValid_iff.mp (hedges branch hbranch)
          exact Label.next?_choosing hnext
        refine walkCommutative_eq htarget.2.1 hlabels (fun branch hbranch hinactive => ?_)
          fun branch hbranch => ?_
        · obtain ⟨-, hbelow, -⟩ := edgeValid_iff.mp (hedges branch hbranch)
          exact exploreEdge_eq_nil hbelow hthere hinactive
        · obtain ⟨index, hlabel⟩ := hlabels branch hbranch
          exact proceed_after (hbranches branch hbranch) (hedges branch hbranch)
            (fun head => by simp [hlabel]) hthere
    · have hlabel : ∀ head, label ≠ .commutative head := fun head heq => hcommutative ⟨head, heq⟩
      have hoperands : ∀ index, label ≠ .operands index := by
        rintro index rfl
        cases stage with
        | choosing depth head => exact absurd rfl (hstage depth head)
        | within depth => simp [Label.next?] at hnext
        | finished => simp [Label.next?] at hnext
      have hconsume := consume_eq hlabel hoperands (proceed_after hwalk hvalid hlabel hready)
      rw [walkEdge_of_not_commutative hlabel hmeets, exploreEdge_eq, List.filterMap_flatMap]
      exact hconsume
  · have hnil := @exploreEdge_eq_nil matchers _ _ _ _ _ _ none _ hmarkers hready hmeets
    rw [hnil]
    exact walkEdge_of_not_meets hmeets

/-- **What a walk finds:** the markers that an exploration reaches, as far as their
    patterns accept the bindings.  The queue is left as it was. -/
theorem State.walk_eq (state : State) : state.WalksAs matchers registry := by
  induction state using State.inductionOn with
  | step state ih ihBranch =>
    intro stage checked bound allowed place active hvalid hstage hready
    cases state with
    | commutative position edges =>
      obtain ⟨⟨depth, head, heq, -⟩, -⟩ := hvalid
      exact absurd heq (hstage depth head)
    | accept markers =>
      simp only [State.walk, State.explore]
      by_cases hexhausted : place.queue.isExhausted = true
      · rw [if_pos hexhausted, if_pos hexhausted, List.filterMap_map]
        refine congrArg (·, place.queue) (List.filterMap_congr fun marker hmarker => ?_)
        have hmarker := hvalid.2 marker hmarker
        -- The constraints that no edge checks are the marker's; the others hold by `hready`.
        have hiff : (active.contains marker.pattern &&
            marker.globals.all (registry.holds · place.subst)) =
              (allowed marker.pattern && registry.accepts marker.pattern place.subst) := by
          rw [Bool.eq_iff_iff, Bool.and_eq_true, Bool.and_eq_true, hready.agrees,
            List.all_eq_true, ConstraintRegistry.accepts_iff, and_assoc]
          refine and_congr_right fun _ => ⟨fun h id hid => ?_, fun h => ⟨fun id _ => h id, ?_⟩⟩
          · rcases hmarker.owned id hid with hchecked | hglobal
            · exact h.1 id hchecked hid
            · exact h.2 id hglobal
          · exact fun id hid => h id (hmarker.globals id hid)
        rw [hiff]
        rfl
      · rw [if_neg hexhausted, if_neg hexhausted]
        rfl
    | branch edges =>
      have hedges := edgesValid_iff.mp hvalid.2.2
      -- By induction on the edges that are left, which is why they are only some of `edges`.
      have hall : ∀ more, (∀ edge ∈ more, edge ∈ edges) →
          walkEdges registry matchers more place.queue place.subst active =
            ((exploreEdges matchers none more place).filterMap (matchOf registry allowed),
              place.queue) := by
        intro more hmore
        induction more with
        | nil => rfl
        | cons edge rest ihRest =>
          have hedge := hmore edge List.mem_cons_self
          have hfirst := walkEdge_eq (ih edge hedge) (ihBranch edge hedge) (hedges edge hedge)
            hstage hready
          have hrest := ihRest fun other hother => hmore other (List.mem_cons_of_mem edge hother)
          simp only [walkEdges, exploreEdges, Walk.andThen, hfirst, hrest, List.filterMap_append]
      exact hall edges fun edge hedge => hedge

end TermNet
