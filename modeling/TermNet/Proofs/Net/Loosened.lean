import TermNet.Proofs.Net.Relaxed

namespace TermNet

/-!
# The steps of a tree without constraints

Constraints only decide which matches of an operand are kept.  The steps of a tree, the
positions of its operands and those of its commutative patterns are the same without
them.

* `SameLocals` — constraints that look alike from below a tree;
* `Loosens` — the steps of a tree with and without constraints;
* `loosens_collectSteps` — they correspond for every tree.
-/

open CommutativePattern (fits)

variable {meaning : Meaning} {constraints locals : List Constraint}

/-! ### Constraints of operands -/

/-- Operands below a tree get the same constraints out of either list. -/
def SameLocals (constraints locals : List Constraint) (p : PatternTerm) : Prop :=
  ∀ q : PatternTerm, (∀ x ∈ q.variableNames, x ∈ p.variableNames) →
    operandConstraints locals q = operandConstraints constraints q

/-- Operands below an argument are operands below the operation. -/
theorem SameLocals.arg {head : Head} {args : List PatternTerm}
    (h : SameLocals constraints locals (.node head args)) {p : PatternTerm} (hp : p ∈ args) :
    SameLocals constraints locals p := fun q hq =>
  h q fun x hx => PatternTerm.mem_variableNames_node.mpr ⟨p, hp, hq x hx⟩

/-- The constraints of an operand are all that matters below it. -/
theorem SameLocals.operand {p : PatternTerm} (h : SameLocals constraints locals p) :
    SameLocals constraints (operandConstraints locals p) p := by
  intro q hq
  rw [← h q hq]
  unfold operandConstraints
  rw [List.filter_filter]
  refine List.filter_congr fun c _ => ?_
  cases habout : c.isAbout q.variableNames with
  | false => simp
  | true =>
    have hmore : c.isAbout p.variableNames = true := by
      simp only [Constraint.isAbout, List.all_eq_true, List.contains_iff_mem] at habout ⊢
      exact fun x hx => hq x (habout x hx)
    simp [hmore]

/-- Without constraints no operand has any. -/
theorem operandConstraints_nil (p : PatternTerm) : operandConstraints [] p = [] := rfl

/-! ### Steps with and without constraints -/

/-- The same steps, and matchers one of which are without constraints. -/
structure Loosened (constraints : List Constraint)
    (result free : List Step × List CommutativeMatcher) : Prop where
  steps : result.1 = free.1
  matchers : List.Forall₂ (CommutativeMatcher.Relaxes constraints) result.2 free.2

/-- The steps of a tree are the same without constraints, wherever it stands. -/
def Loosens (meaning : Meaning) (constraints : List Constraint) (p : PatternTerm) : Prop :=
  ∀ locals parent matchers free, SameLocals constraints locals p →
    (∀ c ∈ locals, c.Follows meaning) →
    (∀ m ∈ matchers, CommutativeMatcher.Valid meaning m) →
    (∀ m ∈ free, CommutativeMatcher.Valid meaning m) →
    List.Forall₂ (CommutativeMatcher.Relaxes constraints) matchers free →
      Loosened constraints (collectSteps locals parent p matchers) (collectSteps [] parent p free)

/-- Ordered arguments have the same steps without constraints if each of them has. -/
theorem loosened_collectStepsAll {args : List PatternTerm}
    (hargs : ∀ p ∈ args, Loosens meaning constraints p)
    (hsame : ∀ p ∈ args, SameLocals constraints locals p)
    (hlocals : ∀ c ∈ locals, c.Follows meaning) (parent : Head)
    {matchers free : List CommutativeMatcher} (hmatchers : ∀ m ∈ matchers, m.Valid meaning)
    (hfree : ∀ m ∈ free, m.Valid meaning)
    (h : List.Forall₂ (CommutativeMatcher.Relaxes constraints) matchers free) :
    Loosened constraints (collectStepsAll locals parent args matchers)
      (collectStepsAll [] parent args free) := by
  induction args generalizing matchers free with
  | nil => exact ⟨rfl, h⟩
  | cons p ps ih =>
    rw [collectStepsAll, collectStepsAll]
    obtain ⟨hsteps, hfirst⟩ := hargs p List.mem_cons_self locals (some parent) matchers free
      (hsame p List.mem_cons_self) hlocals hmatchers hfree h
    have hvalid := (collected_collectSteps p locals (some parent) matchers hlocals hmatchers).valid
    have hnone : ∀ c ∈ ([] : List Constraint), c.Follows meaning := by simp
    have hvalid' := (collected_collectSteps p [] (some parent) free hnone hfree).valid
    obtain ⟨hmore, hrest⟩ := ih (fun q hq => hargs q (List.mem_cons_of_mem p hq))
      (fun q hq => hsame q (List.mem_cons_of_mem p hq)) hvalid hvalid' hfirst
    exact ⟨congrArg₂ (· ++ ·) hsteps hmore, hrest⟩

/-! ### One more operand -/

variable {m free : CommutativeMatcher}

/-- A matcher stays valid when an operand is inserted into its net. -/
theorem CommutativeMatcher.Valid.withCollected (hm : m.Valid meaning) (p : PatternTerm)
    (hlocals : ∀ c ∈ locals, c.Follows meaning) :
    let collected := collectSteps (operandConstraints locals p) none p m.net.matchers
    (m.withOperand ⟨p, operandConstraints locals p⟩ collected.1 collected.2).2.Valid meaning := by
  intro collected
  obtain ⟨hoperands, hnet⟩ := valid_iff.mp hm
  have hcollected : Collected meaning (operandConstraints locals p) none p m.net.matchers
      collected :=
    collected_collectSteps p _ none _ (follows_operandConstraints hlocals p)
      (Net.valid_iff.mp hnet).2
  exact hm.withOperand (insertable_operand hoperands hlocals hcollected) hcollected.valid
    fun t => hcollected.places 0 (.ofSubject t)

/-- **One more operand,** with and without its constraints. -/
theorem CommutativeMatcher.Relaxes.withOperand {p : PatternTerm}
    (hp : Loosens meaning constraints p) (hsame : SameLocals constraints locals p)
    (hlocals : ∀ c ∈ locals, c.Follows meaning) (hm : m.Valid meaning)
    (hfree : free.Valid meaning) (h : m.Relaxes constraints free) :
    let collected := collectSteps (operandConstraints locals p) none p m.net.matchers
    let bare := collectSteps [] none p free.net.matchers
    (m.withOperand ⟨p, operandConstraints locals p⟩ collected.1 collected.2).1 =
        (free.withOperand ⟨p, []⟩ bare.1 bare.2).1 ∧
      (m.withOperand ⟨p, operandConstraints locals p⟩ collected.1 collected.2).2.Relaxes
        constraints (free.withOperand ⟨p, []⟩ bare.1 bare.2).2 := by
  intro collected bare
  obtain ⟨hoperandsValid, hnet⟩ := valid_iff.mp hm
  obtain ⟨hoperandsValid', hnet'⟩ := valid_iff.mp hfree
  obtain ⟨htree, hinner⟩ := Net.valid_iff.mp hnet
  obtain ⟨htree', hinner'⟩ := Net.valid_iff.mp hnet'
  obtain ⟨trees, hhead, hpatterns, hoperands, hbare, hfound, hmatchers⟩ := h
  have hown := follows_operandConstraints hlocals p
  have hcollected : Collected meaning (operandConstraints locals p) none p m.net.matchers
      collected := collected_collectSteps p _ none _ hown hinner
  have hnone : ∀ c ∈ ([] : List Constraint), c.Follows meaning := by simp
  have hcollected' : Collected meaning [] none p free.net.matchers bare :=
    collected_collectSteps p _ none _ hnone hinner'
  obtain ⟨hsteps, hmore⟩ : Loosened constraints collected bare :=
    hp _ none _ _ hsame.operand hown hinner hinner' hmatchers
  have hinsert := insertable_operand hoperandsValid hlocals hcollected
  have hinsert' : Net.Insertable meaning free.net (free.entryOf ⟨p, []⟩) bare.1 bare.2 :=
    insertable_operand hoperandsValid' hnone hcollected'
  -- Both matchers have the same trees, so that the new operand gets the same position.
  have hlength : m.operands.length = trees.length := by
    rw [hoperands, operandsUnder, List.length_map]
  have hlength' : free.operands.length = trees.length := by
    rw [hbare, operandsUnder, List.length_map]
  have hgrows := withOperand_growsTo htree hinsert
  have hgrows' := withOperand_growsTo htree' hinsert'
  have hlocal := hsame p fun x hx => hx
  refine ⟨hlength.trans hlength'.symm, .intro (trees ++ [p]) hhead hpatterns ?_ ?_ ?_ hmore⟩
  · show m.operands ++ [_] = _
    rw [hoperands, operandsUnder, operandsUnder, List.map_append, List.map_singleton, hlocal]
  · show free.operands ++ [_] = _
    rw [hbare, operandsUnder, operandsUnder, List.map_append, List.map_singleton,
      operandConstraints_nil]
  · intro o ho t
    rw [List.length_append, List.length_singleton] at ho
    rcases Nat.lt_succ_iff_lt_or_eq.mp ho with ho | rfl
    · rw [hgrows.found o (hlength ▸ ho) t, hgrows'.found o (hlength' ▸ ho) t]
      exact hfound o ho t
    -- The new operand checks at the end what may have been refused on the way.
    · have hlast := fits_withOperand htree hinsert t
      have hlast' := fits_withOperand htree' hinsert' t
      rw [hlength] at hlast
      rw [hlength'] at hlast'
      rw [hlast, hlast', hsteps]
      refine accepted_sifted (follow_sifted (persistent_refused constraints)
        (forall₂_operandMatchers hmore hcollected'.valid) _ _ _) (fun c hc => ?_)
        fun place hplace x hx => ?_
      · rw [hlocal] at hc
        exact (List.mem_filter.mp hc).1
      · have hbehind := (hcollected'.places 0 (.ofSubject t)).mem_iff.mp hplace
        exact (p.mem_of_binds_places hbehind hx).resolve_left (Substitution.not_binds_empty x)

/-- The operands of commutative arguments, with and without constraints. -/
theorem loosened_collectOperands (head : Head) {args : List PatternTerm}
    (hargs : ∀ p ∈ args, Loosens meaning constraints p)
    (hsame : ∀ p ∈ args, SameLocals constraints locals p)
    (hlocals : ∀ c ∈ locals, c.Follows meaning) (hm : m.Valid meaning)
    (hfree : free.Valid meaning) (h : m.Relaxes constraints free) :
    (collectOperands locals head args m).1 = (collectOperands [] head args free).1 ∧
      (collectOperands locals head args m).2.Relaxes constraints
        (collectOperands [] head args free).2 := by
  induction args generalizing m free with
  | nil => exact ⟨rfl, h⟩
  | cons p ps ih =>
    have hps : ∀ {m free : CommutativeMatcher}, m.Valid meaning → free.Valid meaning →
        m.Relaxes constraints free →
          (collectOperands locals head ps m).1 = (collectOperands [] head ps free).1 ∧
            (collectOperands locals head ps m).2.Relaxes constraints
              (collectOperands [] head ps free).2 :=
      ih (fun q hq => hargs q (List.mem_cons_of_mem p hq))
        fun q hq => hsame q (List.mem_cons_of_mem p hq)
    rw [collectOperands, collectOperands]
    cases hvar : p.sequenceVariable? head with
    | some var => exact hps hm hfree h
    | none =>
      -- A tree is known to the one matcher just if it is known to the other.
      have hfind : m.operands.findIdx? (OperandPattern.same ⟨p, operandConstraints locals p⟩) =
          free.operands.findIdx? (OperandPattern.same ⟨p, operandConstraints [] p⟩) := by
        obtain ⟨trees, -, -, hoperands, hbare, -, -⟩ := h
        rw [hoperands, hbare, hsame p List.mem_cons_self p fun x hx => hx,
          CommutativeMatcher.findIdx?_operandsUnder, CommutativeMatcher.findIdx?_operandsUnder]
      dsimp only
      rw [hfind]
      cases free.operands.findIdx? (OperandPattern.same ⟨p, operandConstraints [] p⟩) with
      | some index =>
        obtain ⟨hindices, hrelaxes⟩ := hps hm hfree h
        exact ⟨congrArg (index :: ·) hindices, hrelaxes⟩
      | none =>
        obtain ⟨hindex, hmore⟩ := h.withOperand (hargs p List.mem_cons_self)
          (hsame p List.mem_cons_self) hlocals hm hfree
        have hvalid := hm.withCollected p hlocals
        have hnone : ∀ c ∈ ([] : List Constraint), c.Follows meaning := by simp
        have hvalid' := hfree.withCollected p hnone
        obtain ⟨hindices, hrelaxes⟩ := hps hvalid hvalid' hmore
        exact ⟨congrArg₂ (· :: ·) hindex hindices, hrelaxes⟩

/-- **The steps of every tree are the same without constraints.** -/
theorem loosens_collectSteps (constraints : List Constraint) (p : PatternTerm) :
    Loosens meaning constraints p := by
  induction p using PatternTerm.inductionOn with
  | atom t => exact fun _ _ _ _ _ _ _ _ h => ⟨rfl, h⟩
  | wildcard w => exact fun _ _ _ _ _ _ _ _ h => ⟨rfl, h⟩
  | node head args ih =>
    intro locals parent matchers free hsame hlocals hmatchers hfree h
    have hbelow : ∀ p ∈ args, SameLocals constraints locals p := fun p hp => hsame.arg hp
    cases hcomm : head.isCommutative with
    | true =>
      -- The operands get the same numbers, so that the pattern that is registered is the same.
      have hregister : ∀ m free : CommutativeMatcher, m.Valid meaning → free.Valid meaning →
          m.Relaxes constraints free →
          (registerOperation locals head args m).1 = (registerOperation [] head args free).1 ∧
            (registerOperation locals head args m).2.Relaxes constraints
              (registerOperation [] head args free).2 := by
        intro m free hm hfree hrelaxes
        obtain ⟨hindices, hmore⟩ := loosened_collectOperands head ih hbelow hlocals hm hfree
          hrelaxes
        rw [registerOperation_eq, registerOperation_eq, hindices]
        exact hmore.register _
      obtain ⟨hposition, hpattern, hchanged⟩ :=
        CommutativeMatcher.forall₂_change head hregister hmatchers hfree h
      rw [collectSteps_commutative hcomm, collectSteps_commutative hcomm]
      refine ⟨?_, hchanged⟩
      dsimp only
      rw [hposition, hpattern]
    | false =>
      obtain ⟨hsteps, hmore⟩ := loosened_collectStepsAll ih hbelow hlocals head hmatchers hfree h
      rw [collectSteps_ordered hcomm, collectSteps_ordered hcomm]
      refine ⟨?_, hmore⟩
      dsimp only
      rw [hsteps]

end TermNet
