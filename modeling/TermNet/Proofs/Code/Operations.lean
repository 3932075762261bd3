import TermNet.Proofs.Code.Edges
import TermNet.Proofs.Net.Walk

namespace TermNet.Code

/-!
# The code of the edges of a state

The branches behind a commutative operation are emitted within the edge before it: first the
patterns that are wanted are collected, then every match runs the arm of its pattern.  With
that, what is emitted for the edges of a state does what a walk through them does.

* `runAll_requests`, `runFirst_arms` — the two parts of the code of a branch;
* `performsWithin_emitCommutative` — a commutative operation;
* `Linked` — what the code of an edge relies on;
* `performs_emitEdges` — the edges of a state.
-/

variable {env : Environment} {scope : NetScope} {edge : Edge} {block : List Statement}
variable {e e' : Emission} {active : IndexSet} {matchers : List OperandMatcher}
variable {branches : List Edge} {wanted : String} {parts : List (Statement × Arm)}

/-! ### Branches -/

/-- A branch is emitted like going on from an edge. -/
theorem steady_emitBranch (scope : NetScope) (wanted : String) (branch : Edge) :
    Steady (emitBranch scope wanted branch) := by
  unfold emitBranch
  split
  · exact (steady_emitProceed scope branch).bind fun _ => steady_pure _
  · exact steady_pure _

/-- The branches behind a commutative operation, by induction on them. -/
theorem steady_emitBranches (scope : NetScope) (wanted : String) (branches : List Edge) :
    Steady (emitBranches scope wanted branches) := by
  induction branches with
  | nil => exact steady_pure _
  | cons branch rest ih =>
    exact (steady_emitBranch scope wanted branch).bind fun _ => ih.bind fun _ => steady_pure _

/-- What is emitted for a branch, if it is one for a pattern. -/
theorem emits_emitBranch {branch : Edge} {part : Option (Statement × Arm)}
    (h : Emits (emitBranch scope wanted branch) e part e') :
    (∃ index next, branch.label = .operands index ∧ Emits (emitProceed scope branch) e next e' ∧
      part = some (.ifActive branch.patterns [.pushWanted wanted index], ⟨index, next⟩)) ∨
    (∀ index, branch.label ≠ .operands index) ∧ part = none := by
  unfold emitBranch at h
  split at h
  · rename_i index hlabel
    simp only [emits_bind, emits_pure] at h
    obtain ⟨next, _, hnext, rfl, rfl⟩ := h
    exact .inl ⟨index, next, hlabel, hnext, rfl⟩
  · rename_i hlabel
    obtain ⟨rfl, -⟩ := emits_pure.mp h
    exact .inr ⟨hlabel, rfl⟩

/-- One more pattern is wanted if an active pattern uses its branch. -/
theorem run_request {patterns known : List Nat} {index : Nat} {locals : List (String × Local)}
    (s : Scope) (hactive : s.active = active)
    (hlocals : s.locals = (wanted, .wanted known) :: locals) :
    Statement.run env (.ifActive patterns [.pushWanted wanted index]) s =
      { s with locals := (wanted, .wanted (known ++ if active.meets patterns then [index] else []))
        :: locals } := by
  subst hactive
  simp only [Statement.run, Statement.runAll]
  split
  · simp [Scope.within, Scope.leave, Scope.wanted, Scope.find?, Scope.assign, Scope.assignIn,
      hlocals]
  · rw [List.append_nil, ← hlocals]

/-- **The requests** collect the patterns that are worth matching. -/
theorem runAll_requests (h : Emits (emitBranches scope wanted branches) e parts e')
    {known : List Nat} {locals : List (String × Local)} (s : Scope) (hactive : s.active = active)
    (hlocals : s.locals = (wanted, .wanted known) :: locals) :
    Statement.runAll env (parts.map Prod.fst) s =
      { s with
        locals := (wanted, .wanted (known ++ wantedPatterns branches active)) :: locals } := by
  induction branches generalizing e e' parts known s with
  | nil =>
    obtain ⟨rfl, -⟩ := emits_pure.mp h
    rw [wantedPatterns, List.filterMap_nil, List.append_nil, ← hlocals]
    rfl
  | cons branch rest ih =>
    simp only [emitBranches, emits_bind, emits_pure] at h
    obtain ⟨part, _, hpart, later, _, hlater, rfl, -⟩ := h
    obtain ⟨index, next, hlabel, -, rfl⟩ | ⟨hlabel, rfl⟩ := emits_emitBranch hpart
    · show Statement.runAll env (later.map Prod.fst) (Statement.run env _ s) = _
      rw [run_request s hactive hlocals]
      refine (ih hlater { s with
        locals := (wanted, .wanted (known ++ if active.meets branch.patterns then [index] else []))
          :: locals } hactive rfl).trans ?_
      simp only [wantedPatterns, List.filterMap_cons, hlabel, List.append_assoc]
      split <;> rfl
    · refine (ih hlater s hactive hlocals).trans ?_
      unfold wantedPatterns
      rw [List.filterMap_cons_none]
      split
      · rename_i index heq
        exact absurd heq (hlabel index)
      · rfl

/-- **The arm of a pattern** goes on from the branch of the pattern. -/
theorem runFirst_arms (h : Emits (emitBranches scope wanted branches) e parts e')
    (hon : ∀ branch ∈ branches,
      GoesOn env scope branch (branch.target.walk scope.registry matchers))
    {index : Nat} (hmeets : ∀ branch ∈ branches, branch.label = .operands index →
      active.meets branch.patterns = true)
    (s : Scope) (hactive : s.active = active) :
    Arm.runFirst env index (parts.map Prod.snd) s =
      s.after (walkBranch scope.registry matchers branches index s.queue s.subst active) := by
  induction branches generalizing e e' parts with
  | nil =>
    obtain ⟨rfl, -⟩ := emits_pure.mp h
    exact Scope.after_nothing.symm
  | cons branch rest ih =>
    simp only [emitBranches, emits_bind, emits_pure] at h
    obtain ⟨part, _, hpart, later, _, hlater, rfl, -⟩ := h
    have hrest := ih hlater (fun b hb => hon b (List.mem_cons_of_mem _ hb))
      (fun b hb => hmeets b (List.mem_cons_of_mem _ hb))
    have hhead := hon branch List.mem_cons_self
    have hheadMeets := hmeets branch List.mem_cons_self
    obtain ⟨label, name, patterns, constraints, id, target⟩ := branch
    obtain ⟨other, next, hlabel, hnext, rfl⟩ | ⟨hlabel, rfl⟩ := emits_emitBranch hpart
    · obtain rfl : label = .operands other := hlabel
      simp only [Option.toList_some, List.singleton_append, List.map_cons, Arm.runFirst,
        walkBranch, Label.operands.injEq]
      -- Branches have different patterns, so the first arm that fits is the only one.
      by_cases hindex : other = index
      · simp only [hindex, if_true, Arm.run]
        rw [within_eq (performsWithin_emitProceed hnext hhead
          (hheadMeets (by rw [hindex])) s hactive)]
      · simp only [hindex, if_false]
        exact hrest
    · have hne : label ≠ .operands index := hlabel index
      simp only [Option.toList_none, List.nil_append, walkBranch, hne, if_false]
      exact hrest

/-! ### Commutative operations -/

/-- The name of a local variable begins with what it is for. -/
theorem exists_of_emits_freshName {base name : String} (h : Emits (freshName base) e name e') :
    ∃ rest : String, name = base ++ rest := by
  simp only [freshName, emits_bind, emits_get, emits_set, emits_pure] at h
  obtain ⟨_, _, ⟨rfl, rfl⟩, _, _, -, rfl, -⟩ := h
  exact ⟨_, String.append_assoc⟩

/-- Local variables for different things have different names. -/
theorem freshName_ne {base other name name' : String} {before after : Emission}
    (h : Emits (freshName base) e name e') (h' : Emits (freshName other) before name' after)
    (hbase : base.toList.head? ≠ other.toList.head?) (hnonempty : base ≠ "" ∧ other ≠ "") :
    name ≠ name' := by
  obtain ⟨rest, rfl⟩ := exists_of_emits_freshName h
  obtain ⟨rest', rfl⟩ := exists_of_emits_freshName h'
  intro heq
  have hhead (s t : String) (hs : s ≠ "") : (s ++ t).toList.head? = s.toList.head? := by
    rw [String.toList_append, List.head?_append_of_ne_nil]
    exact fun hnil => hs (by simpa using hnil)
  refine hbase ?_
  rw [← hhead base rest hnonempty.1, ← hhead other rest' hnonempty.2, heq]

/-- Only patterns that are wanted are found. -/
theorem mem_wanted_of_mem_matchCommutative {m : OperandMatcher} {args : List Term}
    {σ : Substitution} {wanted : List Nat} {found : Match}
    (h : found ∈ matchCommutative m args σ wanted) : found.1 ∈ wanted := by
  rw [matchCommutative_eq] at h
  obtain ⟨index, hindex, h⟩ := List.mem_flatMap.mp h
  obtain ⟨union, -, rfl⟩ := List.mem_map.mp h
  exact hindex

/-- A branch with a wanted label is used by an active pattern, since no other branch has it. -/
theorem meets_of_mem_wantedPatterns (hnodup : (branches.map Edge.label).Nodup) {index : Nat}
    (hindex : index ∈ wantedPatterns branches active) {branch : Edge} (hbranch : branch ∈ branches)
    (hlabel : branch.label = .operands index) : active.meets branch.patterns = true := by
  obtain ⟨other, hother, hwanted⟩ := List.mem_filterMap.mp hindex
  have hsame : other.label = .operands index ∧ active.meets other.patterns = true := by
    split at hwanted
    · rename_i found heq
      split at hwanted
      · rename_i hmeets
        exact ⟨by rw [heq, Option.some.inj hwanted], hmeets⟩
      · simp at hwanted
    · simp at hwanted
  have heq : branch = other :=
    List.inj_on_of_nodup_map hnodup hbranch hother (hlabel.trans hsame.1.symm)
  exact heq ▸ hsame.2

/-- **The loop over the matches** of a commutative operation. -/
theorem run_forFound {pattern found operation matcherName : String} {item : Term}
    {m : OperandMatcher} (h : Emits (emitBranches scope wanted branches) e parts e')
    (hon : ∀ branch ∈ branches,
      GoesOn env scope branch (branch.target.walk scope.registry matchers))
    (hnodup : (branches.map Edge.label).Nodup) (hmatcher : env.matchers matcherName = some m)
    (hne : pattern ≠ found) (s : Scope) (hactive : s.active = active)
    (hitem : s.item? operation = some item)
    (hwanted : s.wanted wanted = wantedPatterns branches active) :
    Statement.run env (.forFound pattern found matcherName operation wanted
        [.shadowSubst found, .matchPattern pattern (parts.map Prod.snd)]) s =
      s.after (walkFound (walkBranch scope.registry matchers branches) active
        (matchCommutative m item.args s.subst (wantedPatterns branches active)) s.queue) := by
  simp only [Statement.run, hmatcher, hitem, hwanted]
  -- One round: the arm of the pattern runs under the substitution that has been found.
  refine foundLoop_eq (fun result hresult inner hinner => ?_) s hactive
  have hindex := mem_wanted_of_mem_matchCommutative hresult
  obtain ⟨index, σ⟩ := result
  have harms := runFirst_arms h hon
    (fun branch hbranch hlabel => meets_of_mem_wantedPatterns hnodup hindex hbranch hlabel)
    { (inner.define pattern (.pattern index)).define found (.subst σ) with subst := σ } hinner
  have hopens : inner.Opens
      { (inner.define pattern (.pattern index)).define found (.subst σ) with subst := σ } :=
    ⟨⟨[(found, .subst σ), (pattern, .pattern index)], rfl⟩, rfl⟩
  refine Scope.Ends.of_opens ?_ hopens
  have hpattern : ({ (inner.define pattern (.pattern index)).define found (.subst σ) with
      subst := σ } : Scope).find? pattern = some (.pattern index) :=
    (Scope.find?_define_of_ne hne _).trans (Scope.find?_define _ _)
  show Scope.Ends _ _ (Statement.run env (.matchPattern pattern _)
    (Statement.run env (.shadowSubst found) _))
  simp only [Statement.run, Scope.find?_define, hpattern]
  rw [harms]
  exact Scope.ends_after

/-- What is done with an operation that a guard has opened. -/
theorem ends_operation {guard operation pattern found matcherName : String} {item : Term}
    {m : OperandMatcher} (hparts : Emits (emitBranches scope wanted branches) e parts e')
    (hon : ∀ branch ∈ branches,
      GoesOn env scope branch (branch.target.walk scope.registry matchers))
    (hnodup : (branches.map Edge.label).Nodup) (hmatcher : env.matchers matcherName = some m)
    (hguard : wanted ≠ guard) (hoperation : wanted ≠ operation) (hfound : pattern ≠ found)
    (s : Scope) (hwanted : s.wanted wanted = wantedPatterns branches s.active) :
    (s.define guard (.guard (.taken item))).Ends
      (walkFound (walkBranch scope.registry matchers branches) s.active
        (matchCommutative m item.args s.subst (wantedPatterns branches s.active)) s.queue)
      (Statement.runAll env [.letItem operation guard, .shadowSubjects guard,
        .forFound pattern found matcherName operation wanted
          [.shadowSubst found, .matchPattern pattern (parts.map Prod.snd)]]
        (s.define guard (.guard (.taken item)))) := by
  refine Scope.Ends.of_opens ?_ (Scope.opens_define operation (.item item))
  have hitem : (s.define guard (.guard (.taken item))).item? guard = some item := by
    simp [Scope.item?]
  have hlet : Statement.run env (.letItem operation guard) (s.define guard (.guard (.taken item))) =
      (s.define guard (.guard (.taken item))).define operation (.item item) := by
    simp only [Statement.run, hitem]
  -- The two definitions hide neither the wanted patterns nor the operation.
  have hwanted' : ((s.define guard (.guard (.taken item))).define operation (.item item)).wanted
      wanted = wantedPatterns branches s.active := by
    rw [← hwanted]
    unfold Scope.wanted
    rw [Scope.find?_define_of_ne hoperation, Scope.find?_define_of_ne hguard]
  have hitem' : ((s.define guard (.guard (.taken item))).define operation (.item item)).item?
      operation = some item := by
    simp [Scope.item?]
  have hrun := run_forFound hparts hon hnodup hmatcher hfound _ rfl hitem' hwanted'
  show Scope.Ends _ _ (Statement.run env (.forFound _ _ _ _ _ _)
    (Statement.run env (.letItem operation guard) _))
  rw [hlet, hrun]
  exact Scope.ends_after

/-- **Matching an operation,** if any of its patterns are wanted. -/
theorem run_ifWanted {headName guard operation pattern found matcherName : String} {head : Head}
    {m : OperandMatcher} (hparts : Emits (emitBranches scope wanted branches) e parts e')
    (hon : ∀ branch ∈ branches,
      GoesOn env scope branch (branch.target.walk scope.registry matchers))
    (hnodup : (branches.map Edge.label).Nodup) (hmatcher : env.matchers matcherName = some m)
    (hhead : env.heads headName = some head) (hguard : wanted ≠ guard)
    (hoperation : wanted ≠ operation) (hfound : pattern ≠ found) (s : Scope)
    (hactive : s.active = active) (hwanted : s.wanted wanted = wantedPatterns branches active) :
    Statement.run env (.ifWanted wanted [.ifOpens guard (.takeOperation headName)
        [.letItem operation guard, .shadowSubjects guard,
          .forFound pattern found matcherName operation wanted
            [.shadowSubst found, .matchPattern pattern (parts.map Prod.snd)]]]) s =
      s.after (walkCommutative head (some m) branches
        (walkBranch scope.registry matchers branches) s.queue s.subst active) := by
  subst hactive
  have hopens := run_ifOpens env guard (.takeOperation headName)
    [.letItem operation guard, .shadowSubjects guard,
      .forFound pattern found matcherName operation wanted
        [.shadowSubst found, .matchPattern pattern (parts.map Prod.snd)]] s
    (fun opened => match opened with
      | .taken item => fun queue σ active =>
        walkFound (walkBranch scope.registry matchers branches) active
          (matchCommutative m item.args σ (wantedPatterns branches active)) queue
      | _ => .nothing) ?_
  -- Where no pattern is wanted, neither the code nor the walk looks at the subject.
  · unfold walkCommutative
    cases hpatterns : wantedPatterns branches s.active with
    | nil =>
      simp only [Statement.run, hwanted, hpatterns, List.isEmpty_nil, if_true]
      exact Scope.after_nothing.symm
    | cons index rest =>
      rw [Statement.run]
      simp only [hwanted, hpatterns, List.isEmpty_cons, Bool.false_eq_true, if_false]
      have hends : s.Ends _ (Statement.run env (.ifOpens guard (.takeOperation headName)
          [.letItem operation guard, .shadowSubjects guard,
            .forFound pattern found matcherName operation wanted
              [.shadowSubst found, .matchPattern pattern (parts.map Prod.snd)]]) s) :=
        hopens ▸ Scope.ends_after
      refine (within_eq hends).trans (congrArg s.after ?_)
      simp only [Opening.apply, hhead, Option.bind_some, takeGuard]
      cases s.queue.takeIf? (·.hasHead head) with
      | none => rfl
      | some taken => simp only [Option.map_some, Walk.guarded, hpatterns]
  · intro opened queue hopened
    simp only [Opening.apply, hhead, Option.bind_some, takeGuard] at hopened
    obtain ⟨⟨item, rest⟩, -, hopened⟩ := Option.map_eq_some_iff.mp hopened
    obtain ⟨rfl, rfl⟩ := Prod.mk.inj hopened
    exact ends_operation hparts hon hnodup hmatcher hguard hoperation hfound
      { s with queue := rest }
      hwanted

/-- A commutative operation names its variables and adds the item of its head. -/
theorem steady_emitCommutative (scope : NetScope) (head : Head) (matcher : Nat)
    (branches : List Edge) : Steady (emitCommutative scope head matcher branches) :=
  (steady_emitHead head).bind fun _ => (steady_freshName _).bind fun _ =>
    (steady_freshName _).bind fun _ => (steady_freshName _).bind fun _ =>
      (steady_freshName _).bind fun _ => (steady_freshName _).bind fun _ =>
        (steady_emitBranches scope _ branches).bind fun _ => steady_pure _

/-- **The code of a commutative operation** does what a walk through the operation does. -/
theorem performsWithin_emitCommutative {head : Head} {position : Nat} {m : OperandMatcher}
    (h : Emits (emitCommutative scope head position branches) e block e')
    (hon : ∀ branch ∈ branches,
      GoesOn env scope branch (branch.target.walk scope.registry matchers))
    (hnodup : (branches.map Edge.label).Nodup)
    (hmatcher : env.matchers (scope.matcherTypes[position]?.getD "") = some m)
    (hknown : HeadsKnown e'.heads env.heads) :
    PerformsWithin env active block
      (walkCommutative head (some m) branches (walkBranch scope.registry matchers branches)) := by
  simp only [emitCommutative, emits_bind, emits_pure] at h
  obtain ⟨headName, afterHead, hhead, wanted, _, hwanted, guard, _, hguard, operation, _,
    hoperation, pattern, _, hpattern, found, _, hfound, parts, last, hparts, rfl, rfl⟩ := h
  have hreaches : afterHead.Reaches last :=
    (steady_freshName _ _ _ _ hwanted).trans <| (steady_freshName _ _ _ _ hguard).trans <|
      (steady_freshName _ _ _ _ hoperation).trans <| (steady_freshName _ _ _ _ hpattern).trans <|
        (steady_freshName _ _ _ _ hfound).trans <| steady_emitBranches _ _ _ _ _ _ hparts
  obtain ⟨-, index, hindex, rfl⟩ := emits_emitHead hhead
  have hheadName : env.heads (headName index) = some head :=
    hknown.of_isPrefix hreaches.isPrefix.1 index head hindex
  rintro s rfl
  -- First the requests are collected, then the operation is matched if there are some.
  have hrequests : Statement.runAll env (parts.map Prod.fst) (s.define wanted (.wanted [])) =
      s.define wanted (.wanted (wantedPatterns branches s.active)) :=
    runAll_requests hparts (s.define wanted (.wanted [])) rfl rfl
  have hrun := run_ifWanted hparts hon hnodup hmatcher hheadName
    (freshName_ne hwanted hguard (by decide) (by decide))
    (freshName_ne hwanted hoperation (by decide) (by decide))
    (freshName_ne hpattern hfound (by decide) (by decide))
    (s.define wanted (.wanted (wantedPatterns branches s.active))) rfl
    (by rw [Scope.wanted, Scope.find?_define]; rfl)
  refine Scope.Ends.of_opens ?_
    (Scope.opens_define wanted (.wanted (wantedPatterns branches s.active)))
  rw [List.cons_append]
  show Scope.Ends _ _ (Statement.runAll env (_ ++ _) (s.define wanted (.wanted [])))
  rw [runAll_append, hrequests]
  show Scope.Ends _ _ (Statement.run env (.ifWanted _ _) _)
  rw [hrun]
  exact Scope.ends_after

/-! ### Edges -/

/-- **What the code of an edge relies on:** the functions that it calls do what walks from the
    targets do, and the matcher that it asks is the one of the net. -/
structure Linked (env : Environment) (scope : NetScope) (matchers : List OperandMatcher)
    (edge : Edge) : Prop where
  ordinary : (∀ head, edge.label ≠ .commutative head) →
    GoesOn env scope edge (edge.target.walk scope.registry matchers)
  commutative : ∀ head, edge.label = .commutative head → ∃ position branches m,
    edge.target = .commutative position branches ∧ matchers[position]? = some m ∧
      env.matchers (scope.matcherTypes[position]?.getD "") = some m ∧
      (branches.map Edge.label).Nodup ∧
      ∀ branch ∈ branches, GoesOn env scope branch (branch.target.walk scope.registry matchers)

/-- The code of an edge that takes a run. -/
theorem emitTake_run {minCount : Nat} {wrap : Option Head} {default : Option Term}
    (hlabel : edge.label = .run minCount wrap default) :
    emitTake scope edge = do
      let skipped ← emitSkip scope edge default
      let wrapName ← emitWrap wrap
      let run ← freshName "run"
      let binding ← freshName "binding"
      let next ← emitBind scope edge (.binding binding)
      return skipped
        ++ [.ifOpens run (.takeRun (if default.isSome then max minCount 1 else minCount))
          [.growing run [.letBinding binding run wrapName,
            .block (.shadowSubjects run :: next)]]] := by
  simp only [emitTake, hlabel]
  cases wrap <;> rfl

/-- **The code of an edge** adds static items only, whatever its label. -/
theorem steady_emitTake (scope : NetScope) (edge : Edge) : Steady (emitTake scope edge) := by
  cases hlabel : edge.label with
  | enter head =>
    simp only [emitTake, hlabel]
    exact (steady_emitHead _).bind fun _ => steady_emitGuarded _ _ _ _
  | close =>
    simp only [emitTake, hlabel]
    exact steady_emitGuarded _ _ _ _
  | atom t =>
    simp only [emitTake, hlabel]
    exact (steady_emitExpression _).bind fun _ => steady_emitGuarded _ _ _ _
  | one kind default =>
    simp only [emitTake, hlabel]
    exact (steady_emitSkip _ _ _).bind fun _ => (steady_freshName _).bind fun _ =>
      (steady_freshName _).bind fun _ => (steady_emitBind _ _ _).bind fun _ => steady_pure _
  | run minCount wrap default =>
    rw [emitTake_run hlabel]
    exact (steady_emitSkip _ _ _).bind fun _ => (steady_emitWrap _).bind fun _ =>
      (steady_freshName _).bind fun _ => (steady_freshName _).bind fun _ =>
        (steady_emitBind _ _ _).bind fun _ => steady_pure _
  | commutative head =>
    simp only [emitTake, hlabel]
    split
    · exact steady_emitCommutative _ _ _ _
    · exact steady_pure _
  | operands index =>
    simp only [emitTake, hlabel]
    exact steady_pure _

/-- **Consuming what an ordinary edge asks for** and going on from it. -/
theorem performs_emitTake (h : Emits (emitTake scope edge) e block e') {target : Walk}
    (hordinary : ∀ head, edge.label ≠ .commutative head) (hplain : edge.Plain)
    (hon : GoesOn env scope edge target) (hmeets : active.meets edge.patterns = true)
    (hknown : e'.KnownTo env.heads env.expressions) :
    Performs env active block (edge.label.consume edge.variableName
      (scope.behind edge target)) := by
  have hquiet (hlabel : ∀ index, edge.label ≠ .operands index) :
      edge.variableName = none → edge.constraints = [] := fun hname => hplain.quiet hname hlabel
  have hterms := hplain.canonical
  cases hlabel : edge.label with
  | enter head =>
    simp only [emitTake, hlabel] at h
    obtain ⟨name, between, hname, hguarded⟩ := emits_bind.mp h
    obtain ⟨-, index, hindex, rfl⟩ := emits_emitHead hname
    have hhead : env.heads (headName index) = some head :=
      (hknown.of_reaches (steady_emitGuarded _ _ _ _ _ _ _ hguarded)).heads index head hindex
    rintro s rfl
    rw [performs_emitGuarded hguarded hon hmeets s rfl]
    simp only [Opening.apply, hhead, Option.bind_some, Label.consume]
    cases s.queue.enter? head <;> rfl
  | close =>
    simp only [emitTake, hlabel] at h
    rintro s rfl
    rw [performs_emitGuarded h hon hmeets s rfl]
    simp only [Opening.apply, Label.consume]
    cases s.queue.close? <;> rfl
  | atom t =>
    simp only [emitTake, hlabel] at h
    obtain ⟨name, between, hname, hguarded⟩ := emits_bind.mp h
    obtain ⟨-, index, hindex, rfl⟩ := emits_emitExpression hname
    have hterm : env.expressions (expressionName index) = some t :=
      (hknown.of_reaches (steady_emitGuarded _ _ _ _ _ _ _ hguarded)).expressions index t hindex
        (hterms t (by rw [hlabel]; exact List.mem_singleton_self t))
    rintro s rfl
    rw [performs_emitGuarded hguarded hon hmeets s rfl]
    simp only [Opening.apply, hterm, Option.bind_some, takeGuard, Label.consume]
    cases s.queue.takeIf? (· = t) <;> rfl
  | one kind default =>
    simp only [emitTake, hlabel, emits_bind, emits_pure] at h
    obtain ⟨skipped, between, hskip, guard, _, hguard, item, _, hitem, next, last, hnext, rfl,
      rfl⟩ := h
    -- Names that are known at the end were known when the default was written.
    have hreaches : between.Reaches last :=
      (steady_freshName _ _ _ _ hguard).trans <| (steady_freshName _ _ _ _ hitem).trans <|
        steady_emitBind _ _ _ _ _ _ hnext
    have hskipped := performs_emitSkip hskip hon hmeets (hquiet (by simp [hlabel]))
      (fun t ht => hterms t (by rw [hlabel]; simpa [Label.terms] using ht))
      (hknown.of_reaches hreaches)
    refine hskipped.append (performs_take (fun queue => ?_) hnext hon hmeets
      (hquiet (by simp [hlabel])))
    cases kind with
    | none => rfl
    | some kind => rfl
  | run minCount wrap default =>
    rw [emitTake_run hlabel] at h
    simp only [emits_bind, emits_pure] at h
    obtain ⟨skipped, between, hskip, wrapName, afterWrap, hwrap, run, _, hrun, binding, _, hbinding,
      next, last, hnext, rfl, rfl⟩ := h
    have hreaches : afterWrap.Reaches last :=
      (steady_freshName _ _ _ _ hrun).trans <| (steady_freshName _ _ _ _ hbinding).trans <|
        steady_emitBind _ _ _ _ _ _ hnext
    have hskipped := performs_emitSkip hskip hon hmeets (hquiet (by simp [hlabel]))
      (fun t ht => hterms t (by rw [hlabel]; simpa [Label.terms] using ht))
      (hknown.of_reaches ((steady_emitWrap _ _ _ _ hwrap).trans hreaches))
    have hname := bind_emitWrap hwrap (hknown.of_reaches hreaches).heads
    exact hskipped.append (performs_growing
      (performsRun_emitBind hname hnext hon hmeets (hquiet (by simp [hlabel]))) _)
  | commutative head => exact absurd hlabel (hordinary head)
  | operands index =>
    simp only [emitTake, hlabel] at h
    obtain ⟨rfl, -⟩ := emits_pure.mp h
    exact performs_nil

/-- The code of the edges of a state, by induction on them. -/
theorem steady_emitEdges (scope : NetScope) (edges : List Edge) :
    Steady (emitEdges scope edges) := by
  induction edges with
  | nil => exact steady_pure _
  | cons edge rest ih =>
    exact (steady_emitTake scope edge).bind fun _ => ih.bind fun _ => steady_pure _

/-- **The code of an edge** does what a walk through the edge does. -/
theorem performs_emitEdge {body : List Statement} (h : Emits (emitTake scope edge) e body e')
    (hplain : edge.Plain) (hlinked : Linked env scope matchers edge)
    (hknown : e'.KnownTo env.heads env.expressions) :
    Performs env active [.ifActive edge.patterns body]
      (walkEdge scope.registry matchers edge) := by
  by_cases hcommutative : ∃ head, edge.label = .commutative head
  · obtain ⟨head, hlabel⟩ := hcommutative
    obtain ⟨position, branches, m, htarget, hm, hmatcher, hnodup, hon⟩ :=
      hlinked.commutative head hlabel
    simp only [emitTake, hlabel, htarget] at h
    intro s hactive
    rw [performs_ifActive (fun _ => performsWithin_emitCommutative h hon hnodup hmatcher
      hknown.heads) s hactive]
    obtain ⟨label, name, patterns, constraints, id, target⟩ := edge
    obtain rfl : label = .commutative head := hlabel
    obtain rfl : target = .commutative position branches := htarget
    simp only [walkEdge, hm]
  · have hordinary : ∀ head, edge.label ≠ .commutative head := fun head hlabel =>
      hcommutative ⟨head, hlabel⟩
    intro s hactive
    rw [performs_ifActive (fun hmeets => (performs_emitTake h hordinary hplain
      (hlinked.ordinary hordinary) hmeets hknown).within) s hactive]
    -- Both the code and the walk pass over an edge that no active pattern uses.
    by_cases hmeets : active.meets edge.patterns = true
    · simp only [walkEdge_of_not_commutative hordinary hmeets, hmeets, if_true]
    · simp only [walkEdge_of_not_meets hmeets, hmeets, if_false, Bool.false_eq_true]

/-- **The code of the edges of a state** does what a walk from the state does. -/
theorem performs_emitEdges {edges : List Edge} (h : Emits (emitEdges scope edges) e block e')
    (hedges : ∀ edge ∈ edges, edge.Plain ∧ Linked env scope matchers edge)
    (hknown : e'.KnownTo env.heads env.expressions) :
    Performs env active block (walkEdges scope.registry matchers edges) := by
  induction edges generalizing e e' block with
  | nil =>
    obtain ⟨rfl, -⟩ := emits_pure.mp h
    exact performs_nil
  | cons edge rest ih =>
    simp only [emitEdges, emits_bind, emits_pure] at h
    obtain ⟨body, _, hbody, later, last, hlater, rfl, rfl⟩ := h
    have hedge := hedges edge List.mem_cons_self
    exact (performs_emitEdge hbody hedge.1 hedge.2
      (hknown.of_reaches (steady_emitEdges _ _ _ _ _ hlater))).append
      (ih hlater (fun edge hedge => hedges edge (List.mem_cons_of_mem _ hedge)) hknown)

end TermNet.Code
