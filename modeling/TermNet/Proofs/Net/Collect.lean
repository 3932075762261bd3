import TermNet.Proofs.Net.Operands

namespace TermNet

/-!
# The steps of a tree

The steps of a tree lead, with the matchers that come with them, to the places behind
the tree by itself.

* `Collected`, `CollectedAll`, `CollectedOperands` — what is true of the steps of a tree,
  of ordered arguments, and of the operands among commutative ones;
* `collected_collectSteps` — the steps of every tree are such.
-/

variable {meaning : Meaning} {constraints : List Constraint}

/-- **What is true of the steps of a tree** and of the matchers with its operations. -/
structure Collected (meaning : Meaning) (constraints : List Constraint) (parent : Option Head)
    (p : PatternTerm) (matchers : List CommutativeMatcher)
    (result : List Step × List CommutativeMatcher) : Prop where
  valid : ∀ m ∈ result.2, m.Valid meaning
  grows : Grows (operandMatchers matchers) (operandMatchers result.2)
  leads : ∀ depth, Lead (operandMatchers result.2) (.within depth) result.1 (.settled depth)
  places : ∀ depth place, (follow (operandMatchers result.2) (.within depth) result.1 place).Perm
    (p.places constraints parent place)
  binds : ∀ x ∈ p.variableNames, x ∈ result.1.flatMap Step.binds

/-- What is true of the steps of ordered arguments. -/
structure CollectedAll (meaning : Meaning) (constraints : List Constraint) (parent : Head)
    (args : List PatternTerm) (matchers : List CommutativeMatcher)
    (result : List Step × List CommutativeMatcher) : Prop where
  valid : ∀ m ∈ result.2, m.Valid meaning
  grows : Grows (operandMatchers matchers) (operandMatchers result.2)
  leads : ∀ depth,
    Lead (operandMatchers result.2) (.within (depth + 1)) result.1 (.within (depth + 1))
  places : ∀ depth place,
    (follow (operandMatchers result.2) (.within (depth + 1)) result.1 place).Perm
      (placesAll constraints parent args place)
  binds : ∀ p ∈ args, ∀ x ∈ p.variableNames, x ∈ result.1.flatMap Step.binds

/-- What is true of the operands among commutative arguments. -/
structure CollectedOperands (meaning : Meaning) (constraints : List Constraint) (head : Head)
    (args : List PatternTerm) (matcher : CommutativeMatcher)
    (result : List Nat × CommutativeMatcher) : Prop where
  valid : result.2.Valid meaning
  grows : matcher.GrowsTo result.2
  located : Located result.2.operands (operandPatterns constraints head args) result.1

/-- The steps of a tree can be collected wherever it stands. -/
def Collects (meaning : Meaning) (p : PatternTerm) : Prop :=
  ∀ constraints parent matchers, (∀ c ∈ constraints, c.Follows meaning) →
    (∀ m ∈ matchers, CommutativeMatcher.Valid meaning m) →
      Collected meaning constraints parent p matchers (collectSteps constraints parent p matchers)

/-! ### Leaves -/

/-- A step that leads to an ordinary state and binds what its label binds. -/
theorem Lead.single {matchers : List OperandMatcher} {step : Step} {depth : Nat}
    (hleads : step.label.next? (.within depth) = some (.settled depth))
    (hallowed : step.label.Allowed none step.variableName [])
    (hbounds : step.label.Bounds none step.variableName step.binds)
    (hfresh : step.fresh = .branch [])
    (hquiet : ∀ head, step.label = .commutative head → step.binds = []) :
    Lead matchers (.within depth) [step] (.settled depth) := by
  refine ⟨.settled depth, ⟨hleads, hallowed, hbounds, ?_, hquiet⟩, rfl⟩
  rw [hfresh]
  cases depth <;> exact rfl

/-- One step leads to the places behind its label. -/
theorem follow_single {matchers : List OperandMatcher} {step : Step} {stage next : Stage}
    (h : step.label.next? stage = some next) (place : Place) :
    follow matchers stage [step] place =
      step.label.advance (stage.context matchers) step.variableName place := by
  rw [follow_cons h]
  exact List.flatMap_singleton' _

/-- The steps of an atom are one edge. -/
theorem collects_atom (t : Term) : Collects meaning (.atom t) := by
  intro constraints parent matchers _ hmatchers
  refine ⟨hmatchers, .refl _, fun depth => ?_, fun depth place => ?_, fun x hx => ?_⟩
  · refine Lead.single rfl trivial ?_ rfl fun _ _ => rfl
    intro place after _ x hx
    exact absurd hx List.not_mem_nil
  · exact .of_eq (follow_single rfl place)
  · obtain ⟨w, hw, -⟩ := PatternTerm.mem_variableNames.mp hx
    exact absurd hw (by simp [PatternTerm.wildcards])

/-- The steps of a wildcard are one edge. -/
theorem collects_wildcard (w : Wildcard) : Collects meaning (.wildcard w) := by
  intro constraints parent matchers _ hmatchers
  have hnext : ∀ depth, (wildcardStep parent w).label.next? (.within depth) =
      some (.settled depth) := by
    intro depth
    rcases label_wildcardStep parent w with ⟨kind, hlabel⟩ | ⟨minCount, wrap, hlabel⟩ <;>
      rw [hlabel] <;> rfl
  have hordinary : (∀ name, (wildcardStep parent w).label.Allowed none name []) ∧
      ∀ head, (wildcardStep parent w).label ≠ .commutative head := by
    rcases label_wildcardStep parent w with ⟨kind, hlabel⟩ | ⟨minCount, wrap, hlabel⟩ <;>
      rw [hlabel] <;> exact ⟨fun _ => trivial, by simp⟩
  refine ⟨hmatchers, .refl _, fun depth => ?_, fun depth place => ?_, fun x hx => ?_⟩
  · refine Lead.single (hnext depth) (hordinary.1 _) ?_ rfl fun head h =>
      absurd h (hordinary.2 head)
    intro place after hafter x hx
    have hname : w.name = some x := Option.mem_toList.mp hx
    exact binds_of_mem_wildcard hname hafter
  · exact .of_eq (follow_single (hnext depth) place)
  · have hname := PatternTerm.mem_variableNames_wildcard.mp hx
    show x ∈ [wildcardStep parent w].flatMap Step.binds
    simp [wildcardStep, hname]

/-! ### Ordered arguments -/

/-- The steps of ordered arguments, one after the other. -/
theorem collected_collectStepsAll {args : List PatternTerm} (hargs : ∀ p ∈ args, Collects meaning p)
    (hconstraints : ∀ c ∈ constraints, c.Follows meaning) (parent : Head)
    {matchers : List CommutativeMatcher} (hmatchers : ∀ m ∈ matchers, m.Valid meaning) :
    CollectedAll meaning constraints parent args matchers
      (collectStepsAll constraints parent args matchers) := by
  induction args generalizing matchers with
  | nil => exact ⟨hmatchers, .refl _, fun _ => rfl, fun _ _ => .refl _, by simp⟩
  | cons p ps ih =>
    rw [collectStepsAll]
    have hfirst := hargs p List.mem_cons_self constraints (some parent) matchers hconstraints
      hmatchers
    have hrest := ih (fun q hq => hargs q (List.mem_cons_of_mem p hq)) hfirst.valid
    -- The first steps are still good when later arguments have added to the matchers.
    have hleads : ∀ depth, Lead _ (.within (depth + 1)) _ (.within (depth + 1)) := fun depth =>
      (hfirst.leads (depth + 1)).grows hrest.grows
    refine ⟨hrest.valid, hfirst.grows.trans hrest.grows, fun depth => ?_, fun depth place => ?_,
      fun q hq x hx => ?_⟩
    · exact (hleads depth).append (hrest.leads depth)
    · dsimp only
      rw [follow_append (hleads depth), follow_grows (hfirst.leads (depth + 1)) hrest.grows]
      exact (hfirst.places (depth + 1) place).flatMap fun after _ => hrest.places depth after
    · dsimp only
      rw [List.flatMap_append, List.mem_append]
      rcases List.mem_cons.mp hq with rfl | hq
      · exact .inl (hfirst.binds x hx)
      · exact .inr (hrest.binds q hq x hx)

/-- **An ordered operation** is entered, its arguments follow, and it is closed. -/
theorem collects_ordered {head : Head} (hcomm : head.isCommutative = false)
    {args : List PatternTerm} (hargs : ∀ p ∈ args, Collects meaning p) :
    Collects meaning (.node head args) := by
  intro constraints parent matchers hconstraints hmatchers
  have hall := collected_collectStepsAll hargs hconstraints head hmatchers
  rw [collectSteps, if_neg (by simp [hcomm])]
  dsimp only
  generalize collectStepsAll constraints head args matchers = result at hall ⊢
  -- Neither the head nor the end of an operation binds anything.
  have henter : ∀ depth, Lead (operandMatchers result.2) (.within depth) [{ label := .enter head }]
      (.within (depth + 1)) := by
    intro depth
    refine ⟨.within (depth + 1), ⟨rfl, trivial, ?_, rfl, fun _ _ => rfl⟩, rfl⟩
    intro place after _ x hx
    exact absurd hx List.not_mem_nil
  have hclose : ∀ depth, Lead (operandMatchers result.2) (.within (depth + 1))
      [{ label := .close }] (.settled depth) := by
    intro depth
    refine ⟨.settled depth, ⟨rfl, trivial, ?_, ?_, fun _ _ => rfl⟩, rfl⟩
    · intro place after _ x hx
      exact absurd hx List.not_mem_nil
    · cases depth <;> exact rfl
  refine ⟨hall.valid, hall.grows, fun depth => ?_, fun depth place => ?_, fun x hx => ?_⟩
  · exact ((henter depth).append (hall.leads depth)).append (hclose depth)
  · show (follow (operandMatchers result.2) (.within depth)
      ([{ label := .enter head }] ++ result.1 ++ [{ label := .close }]) place).Perm _
    rw [follow_append ((henter depth).append (hall.leads depth)), follow_append (henter depth),
      follow_single rfl, places_ordered hcomm, List.flatMap_assoc]
    refine List.Perm.flatMap_left _ fun inside _ => ?_
    refine (hall.places depth inside).flatMap fun after _ => ?_
    exact .of_eq (follow_single rfl after)
  · obtain ⟨p, hp, hx⟩ := PatternTerm.mem_variableNames_node.mp hx
    show x ∈ (([{ label := .enter head }] : List Step) ++ result.1 ++
      ([{ label := .close }] : List Step)).flatMap Step.binds
    rw [List.flatMap_append, List.flatMap_append]
    exact List.mem_append_left _ (List.mem_append_right _ (hall.binds p hp x hx))

/-! ### Commutative arguments -/

/-- Operands keep their positions when more are added behind them. -/
theorem Located.mono {operands more wanted : List OperandPattern} {indices : List Nat}
    (h : Located operands wanted indices) (hmore : operands <+: more) :
    Located more wanted indices := by
  obtain ⟨rest, rfl⟩ := hmore
  refine h.imp fun operand index hindex => ?_
  rw [List.findIdx?_append, hindex]
  rfl

/-- The steps of an operand can be inserted into the net of its matcher. -/
theorem insertable_operand {m : CommutativeMatcher} (hm : m.OperandsValid meaning)
    (hconstraints : ∀ c ∈ constraints, c.Follows meaning) {p : PatternTerm}
    {result : List Step × List CommutativeMatcher}
    (h : Collected meaning (operandConstraints constraints p) none p m.net.matchers result) :
    Net.Insertable meaning m.net (m.entryOf ⟨p, operandConstraints constraints p⟩) result.1
      result.2 where
  index := hm.count.symm
  grows := h.grows
  leads := h.leads 0
  follows c hc := by
    have hlocal : c ∈ operandConstraints constraints p := by
      simpa [CommutativeMatcher.entryOf] using hc
    exact follows_operandConstraints hconstraints p c hlocal
  bound c hc := by
    have hkept := (List.mem_filter.mp hc).2
    simp only [Bool.and_eq_true, Bool.not_eq_true', List.isEmpty_eq_false_iff, Constraint.isAbout,
      List.all_eq_true, List.contains_iff_mem] at hkept
    exact ⟨hkept.1, fun x hx => h.binds x (hkept.2 x hx)⟩

/-- The operands of a commutative operation, and the matcher that knows them. -/
theorem collected_collectOperands {args : List PatternTerm}
    (hargs : ∀ p ∈ args, Collects meaning p) (hconstraints : ∀ c ∈ constraints, c.Follows meaning)
    (head : Head) {m : CommutativeMatcher} (hm : m.Valid meaning) :
    CollectedOperands meaning constraints head args m
      (collectOperands constraints head args m) := by
  induction args generalizing m with
  | nil => exact ⟨hm, .refl m, .nil⟩
  | cons p ps ih =>
    have hps : ∀ q ∈ ps, Collects meaning q := fun q hq => hargs q (List.mem_cons_of_mem p hq)
    rw [collectOperands]
    cases hvar : p.sequenceVariable? head with
    | some var =>
      have hsame : operandPatterns constraints head (p :: ps) =
          operandPatterns constraints head ps := by
        simp [operandPatterns, hvar]
      obtain ⟨hvalid, hgrows, hlocated⟩ := ih hps hm
      exact ⟨hvalid, hgrows, hsame ▸ hlocated⟩
    | none =>
      let operand : OperandPattern := ⟨p, operandConstraints constraints p⟩
      have hcons : operandPatterns constraints head (p :: ps) =
          operand :: operandPatterns constraints head ps := by
        simp [operandPatterns, hvar, operand]
      -- Whether the operand is there or new, it has a position in a valid matcher.
      have hfinish : ∀ (index : Nat) (next : CommutativeMatcher), next.Valid meaning →
          m.GrowsTo next → next.operands.findIdx? operand.same = some index →
          CollectedOperands meaning constraints head (p :: ps) m
            (index :: (collectOperands constraints head ps next).1,
              (collectOperands constraints head ps next).2) := by
        intro index next hnext hgrows hindex
        obtain ⟨hvalid, hmore, hlocated⟩ := ih hps hnext
        refine ⟨hvalid, hgrows.trans hmore, ?_⟩
        rw [hcons]
        have hfirst : Located next.operands [operand] [index] := .cons hindex .nil
        exact List.rel_append (hfirst.mono hmore.operands) hlocated
      dsimp only
      cases hfind : m.operands.findIdx? operand.same with
      | some index => exact hfinish index m hm (.refl m) hfind
      | none =>
        obtain ⟨hoperands, hnet⟩ := CommutativeMatcher.valid_iff.mp hm
        obtain ⟨htree, hmatchers⟩ := Net.valid_iff.mp hnet
        have hcollected := hargs p List.mem_cons_self (operandConstraints constraints p) none
          m.net.matchers (follows_operandConstraints hconstraints p) hmatchers
        have hinsert := insertable_operand hoperands hconstraints hcollected
        refine hfinish m.operands.length _ (hm.withOperand hinsert hcollected.valid fun t =>
          hcollected.places 0 (.ofSubject t))
          (CommutativeMatcher.withOperand_growsTo htree hinsert) ?_
        have hself : operand.same ⟨p, operandConstraints constraints p⟩ = true :=
          operand.same_self
        rw [CommutativeMatcher.withOperand_eq, List.findIdx?_append, hfind]
        simp [hself]

/-- What is known once a commutative operation is registered: the position of the matcher
    of its head, and a pattern of that matcher that finds what the operation finds. -/
structure Registered (constraints : List Constraint) (head : Head) (args : List PatternTerm)
    (matchers : List CommutativeMatcher) (position index : Nat) : Prop where
  context : ∀ depth, ∃ m : OperandMatcher,
    (Stage.choosing depth head).context (operandMatchers matchers) = some m ∧
    index < m.patterns.length ∧
    ∀ ts σ, (m.solve ts σ index).Perm ((alone constraints head args).solve ts σ 0)
  position : matcherPosition? (operandMatchers matchers) head = some position

/-- The places behind a commutative operation are those behind the operation by itself. -/
theorem Registered.advance_perm {head : Head} {args : List PatternTerm}
    {matchers : List CommutativeMatcher} {position index : Nat}
    (h : Registered constraints head args matchers position index) (depth : Nat)
    (place : Place) :
    ((Label.operands index).advance
        ((Stage.choosing depth head).context (operandMatchers matchers)) none place).Perm
      ((Label.operands 0).advance (some (alone constraints head args)) none place) := by
  obtain ⟨m, hcontext, -, hperm⟩ := h.context depth
  rw [hcontext]
  unfold Label.advance
  dsimp only
  cases place.queue.takeIf? fun _ => true with
  | none => exact .refl _
  | some taken => exact (hperm taken.1.args place.subst).map _

/-- The two steps of a commutative operation. -/
theorem Registered.leads {head : Head} {args : List PatternTerm}
    {matchers : List CommutativeMatcher} {position index : Nat}
    (h : Registered constraints head args matchers position index) (depth : Nat) :
    Lead (operandMatchers matchers) (.within depth)
      [{ label := .commutative head, fresh := .commutative position [] },
        { label := .operands index, binds := (PatternTerm.node head args).variableNames }]
      (.settled depth) := by
  refine ⟨.choosing depth head, ⟨rfl, rfl, ?_, ⟨position, rfl, h.position⟩, fun _ _ => rfl⟩,
    .settled depth, ⟨rfl, ?_, ?_, ?_, ?_⟩, rfl⟩
  · intro place after _ x hx
    exact absurd hx List.not_mem_nil
  · obtain ⟨m, hcontext, hindex, -⟩ := h.context depth
    exact ⟨rfl, m, hcontext, hindex⟩
  · intro place after hafter x hx
    -- The matcher finds what the operation finds by itself, which binds all its variables.
    have halone := (h.advance_perm depth place).mem_iff.mp hafter
    obtain ⟨item, rest, τ, -, hτ, rfl⟩ := mem_advance_operands.mp halone
    obtain ⟨fitting, parts, hmatch⟩ := mem_solve_alone_iff.mp hτ
    exact hmatch.binds_all (fun p _ _ _ _ _ h => p.binds_of_mem_places h) x hx
  · cases depth <;> exact rfl
  · intro other hother
    exact absurd hother (by simp)

/-- The change of a matcher that registers a commutative operation. -/
def registerOperation (constraints : List Constraint) (head : Head) (args : List PatternTerm)
    (matcher : CommutativeMatcher) : Nat × CommutativeMatcher :=
  let (operands, matcher) := collectOperands constraints head args matcher
  matcher.register ⟨sortBy (· ≤ ·) operands, sequenceVariables head args⟩

/-- A commutative operation is registered as its operands in order and its sequence variables. -/
theorem registerOperation_eq (constraints : List Constraint) (head : Head)
    (args : List PatternTerm) (matcher : CommutativeMatcher) :
    registerOperation constraints head args matcher =
      (collectOperands constraints head args matcher).2.register
        ⟨sortBy (· ≤ ·) (collectOperands constraints head args matcher).1,
          sequenceVariables head args⟩ := rfl

/-- The steps of a commutative operation, by the change that registers it. -/
theorem collectSteps_commutative {head : Head} (hcomm : head.isCommutative = true)
    (constraints : List Constraint) (parent : Option Head) (args : List PatternTerm)
    (matchers : List CommutativeMatcher) :
    collectSteps constraints parent (.node head args) matchers =
      let changed := CommutativeMatcher.change head (registerOperation constraints head args)
        matchers
      ([{ label := .commutative head, fresh := .commutative changed.1 [] },
        { label := .operands changed.2.1, binds := (PatternTerm.node head args).variableNames }],
        changed.2.2) := by
  rw [collectSteps, if_pos hcomm]
  rfl

/-- The steps of an ordered operation, spelled out. -/
theorem collectSteps_ordered {head : Head} (hcomm : head.isCommutative = false)
    (constraints : List Constraint) (parent : Option Head) (args : List PatternTerm)
    (matchers : List CommutativeMatcher) :
    collectSteps constraints parent (.node head args) matchers =
      let collected := collectStepsAll constraints head args matchers
      ({ label := .enter head } :: collected.1 ++ [{ label := .close }], collected.2) := by
  rw [collectSteps, if_neg (by simp [hcomm])]

/-- Registering an operation keeps the matcher valid. -/
theorem valid_registerOperation {args : List PatternTerm} (hargs : ∀ p ∈ args, Collects meaning p)
    (hconstraints : ∀ c ∈ constraints, c.Follows meaning) (head : Head) (m : CommutativeMatcher)
    (hm : m.Valid meaning) :
    (registerOperation constraints head args m).2.Valid meaning ∧
      m.GrowsTo (registerOperation constraints head args m).2 := by
  obtain ⟨hvalid, hgrows, hlocated⟩ := collected_collectOperands hargs hconstraints head hm
  refine ⟨hvalid.register (pairwise_sortBy_le _) fun o ho => ?_,
    hgrows.trans (CommutativeMatcher.register_growsTo _ _)⟩
  have hmem := (sortBy_perm _ _).mem_iff.mp ho
  obtain ⟨operand, -, hindex⟩ := Bipartite.exists_row_of_mem hlocated hmem
  exact (List.findIdx?_eq_some_iff_getElem.mp hindex).1

/-- **A matcher with a commutative operation** finds what the operation finds by itself. -/
theorem solve_registerOperation {head : Head} {args : List PatternTerm}
    (hargs : ∀ p ∈ args, Collects meaning p) (hconstraints : ∀ c ∈ constraints, c.Follows meaning)
    {m : CommutativeMatcher} (hm : m.Valid meaning) (hhead : m.head = head) :
    let registered := registerOperation constraints head args m
    registered.1 < registered.2.operandMatcher.patterns.length ∧
      ∀ ts σ, (registered.2.operandMatcher.solve ts σ registered.1).Perm
        ((alone constraints head args).solve ts σ 0) := by
  intro registered
  have hcollected := collected_collectOperands hargs hconstraints head hm
  obtain ⟨hvalid, hgrows⟩ := valid_registerOperation hargs hconstraints head m hm
  let collected := collectOperands constraints head args m
  obtain ⟨hpattern, -⟩ := collected.2.register_eq
    ⟨sortBy (· ≤ ·) collected.1, sequenceVariables head args⟩
  have hlocated : Located (registerOperation constraints head args m).2.operands
      (operandPatterns constraints head args) collected.1 :=
    hcollected.located.mono (CommutativeMatcher.register_growsTo _ _).operands
  refine ⟨?_, fun ts σ => ?_⟩
  · rw [CommutativeMatcher.operandMatcher_eq]
    exact (List.getElem?_eq_some_iff.mp hpattern).1
  · exact solve_perm_alone (CommutativeMatcher.valid_iff.mp hvalid).1 hconstraints
      (hgrows.head.trans hhead) hlocated hpattern ts σ

/-- Registering the operation in the matcher of its head. -/
theorem registered_change {head : Head} {args : List PatternTerm}
    (hargs : ∀ p ∈ args, Collects meaning p) (hconstraints : ∀ c ∈ constraints, c.Follows meaning)
    {matchers : List CommutativeMatcher} (hmatchers : ∀ m ∈ matchers, m.Valid meaning) :
    let changed := CommutativeMatcher.change head (registerOperation constraints head args) matchers
    (∀ m ∈ changed.2.2, m.Valid meaning) ∧
      Grows (operandMatchers matchers) (operandMatchers changed.2.2) ∧
      Registered constraints head args changed.2.2 changed.1 changed.2.1 := by
  intro changed
  have hchanged : Changed meaning head (registerOperation constraints head args) matchers changed :=
    change_spec (fun m hm _ => valid_registerOperation hargs hconstraints head m hm) hmatchers
  obtain ⟨hvalid, hgrows, hposition, m, hm, hhead, hresult, hget⟩ := hchanged
  obtain ⟨hindex, hperm⟩ := solve_registerOperation hargs hconstraints hm hhead
  refine ⟨hvalid, hgrows, fun depth =>
    ⟨(registerOperation constraints head args m).2.operandMatcher, ?_, ?_, ?_⟩, hposition⟩
  · rw [Stage.context, hposition]
    show (operandMatchers changed.2.2)[changed.1]? = _
    rw [operandMatchers_eq, List.getElem?_map, hget]
    rfl
  · rw [hresult]
    exact hindex
  · rw [hresult]
    exact hperm

/-- **A commutative operation** is one edge for its head and one for its pattern. -/
theorem collects_commutative {head : Head} (hcomm : head.isCommutative = true)
    {args : List PatternTerm} (hargs : ∀ p ∈ args, Collects meaning p) :
    Collects meaning (.node head args) := by
  intro constraints parent matchers hconstraints hmatchers
  obtain ⟨hvalid, hgrows, hregistered⟩ := registered_change hargs hconstraints hmatchers
  rw [collectSteps, if_pos hcomm]
  refine ⟨hvalid, hgrows, hregistered.leads, fun depth place => ?_, fun x hx => ?_⟩
  · rw [places_commutative hcomm]
    dsimp only
    rw [follow_cons rfl]
    refine List.Perm.flatMap_left _ fun after _ => ?_
    rw [follow_single rfl]
    exact hregistered.advance_perm depth after
  · exact List.mem_flatMap.mpr ⟨_, List.mem_cons_of_mem _ (List.mem_singleton_self _), hx⟩

/-- **The steps of every tree lead to the places behind it.** -/
theorem collected_collectSteps (p : PatternTerm) : Collects meaning p := by
  induction p using PatternTerm.inductionOn with
  | atom t => exact collects_atom t
  | wildcard w => exact collects_wildcard w
  | node head args ih =>
    cases hcomm : head.isCommutative with
    | true => exact collects_commutative hcomm ih
    | false => exact collects_ordered hcomm ih

end TermNet
