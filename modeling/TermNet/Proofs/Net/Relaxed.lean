import TermNet.Proofs.Commutative.Sifting
import TermNet.Proofs.Net.Patterns
import TermNet.Proofs.Pattern.Scope

namespace TermNet

/-!
# Nets without constraints

The operands of commutative operations carry the constraints that are only about their
variables, so that the matches of an operand are refused before they are put together.
Without constraints the same operands stand at the same positions, and what is found is
the same list with some more substitutions, which a constraint refuses in the end.

* `Refused` — a constraint fails, which it does for good;
* `OperandMatcher.Relaxes`, `follow_sifted` — matchers that refuse some matches, and the
  places behind steps that use them;
* `CommutativeMatcher.Relaxes` — two matchers with the same operands, one of them without
  constraints;
* `accepted_sifted` — the matches of an operand, with and without constraints.
-/

open CommutativePattern (fits Persistent)

variable {meaning : Meaning} {constraints locals : List Constraint}

/-! ### Refused substitutions -/

/-- Some constraint fails. -/
def Refused (constraints : List Constraint) (σ : Substitution) : Prop :=
  ∃ c ∈ constraints, c.holds σ = false

/-- A constraint only fails where all its variables are bound. -/
theorem Constraint.binds_of_not_holds {c : Constraint} {σ : Substitution}
    (h : c.holds σ = false) : ∀ x ∈ c.variableNames, σ.Binds x := by
  have hall : ∀ names : List String, (σ.findAll? names).isSome → ∀ x ∈ names, σ.Binds x := by
    intro names
    induction names with
    | nil => simp
    | cons name names ih =>
      rw [Substitution.findAll?_cons]
      intro hsome x hx
      obtain ⟨bindings, hbindings⟩ := Option.isSome_iff_exists.mp hsome
      obtain ⟨b, hb, hrest⟩ := Option.bind_eq_some_iff.mp hbindings
      rcases List.mem_cons.mp hx with rfl | hx
      · exact ⟨b, hb⟩
      · obtain ⟨others, hothers, -⟩ := Option.map_eq_some_iff.mp hrest
        exact ih (by rw [hothers]; rfl) x hx
  refine hall c.variableNames ?_
  unfold holds Substitution.satisfies at h
  split at h
  · rename_i hfound
    rw [hfound]
    rfl
  · simp at h

/-- **What is refused is refused for good.** -/
theorem persistent_refused (constraints : List Constraint) :
    Persistent (Refused constraints) := by
  rintro σ τ hbelow ⟨c, hc, hfails⟩
  refine ⟨c, hc, ?_⟩
  rw [← hfails]
  exact Substitution.satisfies_of_below hbelow (Constraint.binds_of_not_holds hfails) _

/-- A substitution is refused if some constraint does not hold. -/
theorem refused_iff {σ : Substitution} :
    Refused constraints σ ↔ (constraints.all fun c => c.holds σ) = false := by
  simp [Refused]

/-! ### Steps -/

variable {bad : Substitution → Prop} {matchers free : List OperandMatcher}

/-- A matcher with the patterns of another one, which leaves out bad matches of some
    operands. -/
structure OperandMatcher.Relaxes (bad : Substitution → Prop) (m free : OperandMatcher) :
    Prop where
  head : m.head = free.head
  patterns : m.patterns = free.patterns
  found : ∀ pattern ∈ free.patterns, ∀ o ∈ pattern.operands, ∀ t,
    Sifted bad (fits o (m.matchOperand t)) (fits o (free.matchOperand t))

/-- The matcher of a head has the same position with and without constraints. -/
theorem matcherPosition?_eq (h : List.Forall₂ (OperandMatcher.Relaxes bad) matchers free)
    (head : Head) : matcherPosition? matchers head = matcherPosition? free head := by
  unfold matcherPosition?
  induction h with
  | nil => rfl
  | cons hfirst _ ih => rw [List.findIdx?_cons, List.findIdx?_cons, ih, hfirst.head]

/-- The matchers at one position. -/
theorem getElem?_relaxes (h : List.Forall₂ (OperandMatcher.Relaxes bad) matchers free)
    (position : Nat) :
    Option.Rel (OperandMatcher.Relaxes bad) matchers[position]? free[position]? := by
  induction h generalizing position with
  | nil => exact .none
  | cons hfirst _ ih =>
    cases position with
    | zero => exact .some hfirst
    | succ position => exact ih position

/-- The matchers at the choice of a pattern. -/
theorem Stage.context_relaxes (h : List.Forall₂ (OperandMatcher.Relaxes bad) matchers free)
    (stage : Stage) :
    Option.Rel (OperandMatcher.Relaxes bad) (stage.context matchers) (stage.context free) := by
  cases stage with
  | within depth => exact .none
  | finished => exact .none
  | choosing depth head =>
    rw [context, context, matcherPosition?_eq h]
    cases matcherPosition? free head with
    | none => exact .none
    | some position => exact getElem?_relaxes h position

/-- **The places behind a label,** where the matcher leaves out bad matches. -/
theorem Label.advance_sifted (hpersistent : Persistent bad) {matcher other : Option OperandMatcher}
    (h : Option.Rel (OperandMatcher.Relaxes bad) matcher other) (label : Label)
    (name : Option String) (place : Place) :
    Sifted (fun after => bad after.subst) (label.advance matcher name place)
      (label.advance other name place) := by
  cases label with
  | operands index =>
    cases h with
    | none => exact .refl _
    | @some m m' hrelaxes =>
      unfold Label.advance
      dsimp only
      cases place.queue.takeIf? fun _ => true with
      | none => exact .refl _
      | some taken =>
        -- Only the label of a pattern asks the matcher.
        have hsolve := CommutativePattern.sifted_solve hpersistent hrelaxes.head hrelaxes.patterns
          (fun pattern (hpattern : m'.patterns[index]? = some pattern) =>
            hrelaxes.found pattern (List.mem_of_getElem? hpattern)) taken.1.args place.subst
        exact hsolve.map fun _ _ hbad => hbad
  | enter head => exact .refl _
  | close => exact .refl _
  | atom t => exact .refl _
  | one kind default => exact .refl _
  | run minCount wrap default => exact .refl _
  | commutative head => exact .refl _

/-- Steps take no bindings back. -/
theorem follow_below {stage : Stage} {steps : List Step} {place after : Place}
    (h : after ∈ follow matchers stage steps place) : place.subst.Below after.subst := by
  induction steps generalizing stage place with
  | nil =>
    rw [List.mem_singleton.mp h]
    exact .refl _
  | cons step rest ih =>
    rw [follow] at h
    split at h
    · obtain ⟨between, hbetween, hafter⟩ := List.mem_flatMap.mp h
      exact (advance_below hbetween).trans (ih hafter)
    · simp at h

/-- **The places behind steps,** where matchers leave out bad matches. -/
theorem follow_sifted (hpersistent : Persistent bad)
    (h : List.Forall₂ (OperandMatcher.Relaxes bad) matchers free) (stage : Stage)
    (steps : List Step) (place : Place) :
    Sifted (fun after => bad after.subst) (follow matchers stage steps place)
      (follow free stage steps place) := by
  induction steps generalizing stage place with
  | nil => exact .refl _
  | cons step rest ih =>
    rw [follow, follow]
    cases step.label.next? stage with
    | none => exact .refl _
    | some next =>
      refine (step.label.advance_sifted hpersistent (stage.context_relaxes h) step.variableName
        place).flatMap (fun after _ => ih next after) fun between _ hbad after hafter => ?_
      exact hpersistent _ _ (follow_below hafter) hbad

/-! ### Matchers -/

/-- The operands of trees, with those of the constraints that are only about them. -/
def operandsUnder (constraints : List Constraint) (trees : List PatternTerm) :
    List OperandPattern :=
  trees.map fun p => ⟨p, operandConstraints constraints p⟩

/-- **A matcher and the same one without constraints:** operands and patterns stand at the
    same positions, and only matches that a constraint refuses are left out. -/
inductive CommutativeMatcher.Relaxes (constraints : List Constraint) :
    CommutativeMatcher → CommutativeMatcher → Prop
  | intro {m free : CommutativeMatcher} (trees : List PatternTerm) (head : m.head = free.head)
    (patterns : m.patterns = free.patterns)
    (operands : m.operands = operandsUnder constraints trees)
    (bare : free.operands = operandsUnder [] trees)
    (found : ∀ o < trees.length, ∀ t,
      Sifted (Refused constraints) (fits o (m.net.matches t)) (fits o (free.net.matches t)))
    (matchers : List.Forall₂ (CommutativeMatcher.Relaxes constraints)
      m.net.matchers free.net.matchers) :
    CommutativeMatcher.Relaxes constraints m free

namespace CommutativeMatcher

variable {m free : CommutativeMatcher}

/-- Both matchers have the same head. -/
theorem Relaxes.head_eq (h : Relaxes constraints m free) : m.head = free.head := by
  cases h
  assumption

/-- What is asked of both matchers differs in refused matches only. -/
theorem Relaxes.operandMatcher (h : Relaxes constraints m free)
    (hfree : free.OperandsValid meaning) :
    m.operandMatcher.Relaxes (Refused constraints) free.operandMatcher := by
  obtain ⟨trees, hhead, hpatterns, -, hbare, hfound, -⟩ := h
  rw [operandMatcher_eq, operandMatcher_eq]
  refine ⟨hhead, hpatterns, fun pattern hpattern o ho t => hfound o ?_ t⟩
  have hlt := hfree.bounded pattern hpattern o ho
  rwa [hbare, operandsUnder, List.length_map] at hlt

/-- What is asked of the matchers, one by one. -/
theorem forall₂_operandMatchers {matchers free : List CommutativeMatcher}
    (h : List.Forall₂ (Relaxes constraints) matchers free)
    (hfree : ∀ m ∈ free, m.Valid meaning) :
    List.Forall₂ (OperandMatcher.Relaxes (Refused constraints)) (operandMatchers matchers)
      (operandMatchers free) := by
  rw [operandMatchers_eq, operandMatchers_eq, List.forall₂_map_left_iff,
    List.forall₂_map_right_iff]
  induction h with
  | nil => exact .nil
  | cons hfirst _ ih =>
    exact .cons (hfirst.operandMatcher (valid_iff.mp (hfree _ List.mem_cons_self)).1)
      (ih fun m hm => hfree m (List.mem_cons_of_mem _ hm))

/-- A matcher without operands has no constraints to leave out. -/
theorem Relaxes.ofHead (head : Head) : Relaxes constraints (ofHead head) (ofHead head) :=
  .intro [] rfl rfl rfl rfl (fun _ _ _ => .refl _) .nil

/-- An operand stands at the same position with and without constraints. -/
theorem findIdx?_operandsUnder (constraints : List Constraint) (trees : List PatternTerm)
    (p : PatternTerm) :
    (operandsUnder constraints trees).findIdx?
        (OperandPattern.same ⟨p, operandConstraints constraints p⟩) =
      trees.findIdx? (p = ·) := by
  rw [operandsUnder, List.findIdx?_map]
  refine congrArg (trees.findIdx? ·) (funext fun q => ?_)
  by_cases hsame : p = q
  · subst hsame
    simp [OperandPattern.same_self]
  · simp [OperandPattern.same, hsame]

/-- Registering a pattern in both matchers. -/
theorem Relaxes.register (h : Relaxes constraints m free) (pattern : CommutativePattern) :
    (m.register pattern).1 = (free.register pattern).1 ∧
      Relaxes constraints (m.register pattern).2 (free.register pattern).2 := by
  obtain ⟨trees, hhead, hpatterns, hoperands, hbare, hfound, hmatchers⟩ := h
  unfold CommutativeMatcher.register
  rw [hpatterns]
  cases free.patterns.findIdx? fun p => decide (p = pattern) with
  | some index => exact ⟨rfl, .intro trees hhead hpatterns hoperands hbare hfound hmatchers⟩
  | none => exact ⟨rfl, .intro trees hhead rfl hoperands hbare hfound hmatchers⟩

/-- Changing both matchers of a head. -/
theorem forall₂_change {α : Type} (head : Head) {f g : CommutativeMatcher → α × CommutativeMatcher}
    (hfg : ∀ m free : CommutativeMatcher, m.Valid meaning → free.Valid meaning →
      Relaxes constraints m free → (f m).1 = (g free).1 ∧ Relaxes constraints (f m).2 (g free).2)
    {matchers free : List CommutativeMatcher} (hmatchers : ∀ m ∈ matchers, m.Valid meaning)
    (hfree : ∀ m ∈ free, m.Valid meaning)
    (h : List.Forall₂ (Relaxes constraints) matchers free) :
    (change head f matchers).1 = (change head g free).1 ∧
      (change head f matchers).2.1 = (change head g free).2.1 ∧
      List.Forall₂ (Relaxes constraints) (change head f matchers).2.2
        (change head g free).2.2 := by
  induction h with
  | nil =>
    obtain ⟨hresult, hrelaxes⟩ :=
      hfg _ _ (valid_ofHead head) (valid_ofHead head) (Relaxes.ofHead head)
    rw [change, change]
    exact ⟨rfl, hresult, .cons hrelaxes .nil⟩
  | @cons m m' rest rest' hfirst hrest ih =>
    have hm := hmatchers m List.mem_cons_self
    have hm' := hfree m' List.mem_cons_self
    rw [change, change, hfirst.head_eq]
    by_cases hsame : m'.head = head
    · rw [if_pos hsame, if_pos hsame]
      obtain ⟨hresult, hrelaxes⟩ := hfg m m' hm hm' hfirst
      exact ⟨rfl, hresult, .cons hrelaxes hrest⟩
    · rw [if_neg hsame, if_neg hsame]
      obtain ⟨hposition, hresult, hrelaxes⟩ := ih
        (fun n hn => hmatchers n (List.mem_cons_of_mem _ hn))
        fun n hn => hfree n (List.mem_cons_of_mem _ hn)
      exact ⟨congrArg (· + 1) hposition, hresult, .cons hfirst hrelaxes⟩

end CommutativeMatcher

/-! ### Accepted places -/

/-- The first place is accepted or not, and then the others. -/
theorem accepted_cons (constraints : List Constraint) (pairs : List (String × String))
    (place : Place) (ends : List Place) :
    accepted constraints pairs (place :: ends) =
      (if place.queue.isExhausted && constraints.all (·.holds place.subst) then
        [place.subst.renamed pairs] else []) ++ accepted constraints pairs ends := by
  unfold accepted
  rw [List.filterMap_cons]
  split <;> rename_i h <;> split at h <;> simp_all

/-- **The matches of an operand,** some of which its constraints refuse. -/
theorem accepted_sifted {ends others : List Place} {p : PatternTerm}
    (h : Sifted (fun place => Refused constraints place.subst) ends others)
    (hlocals : ∀ c ∈ locals, c ∈ constraints)
    (hnames : ∀ place ∈ others, ∀ x, place.subst.Binds x → x ∈ p.variableNames) :
    Sifted (Refused constraints) (accepted locals (samePairs p.variableNames) ends)
      (accepted [] (samePairs p.variableNames) others) := by
  induction h with
  | nil => exact .nil
  | @keep place ends others _ ih =>
    have hrest := ih fun other hother => hnames other (List.mem_cons_of_mem _ hother)
    have hsame := renamed_samePairs_of_binds (hnames place List.mem_cons_self)
    rw [accepted_cons, accepted_cons [] _ place others, hsame, List.all_nil, Bool.and_true]
    refine .append ?_ hrest
    -- A place that the constraints refuse is left out on one side only.
    cases hall : locals.all fun c => c.holds place.subst with
    | true => exact .of_eq (by rw [Bool.and_true])
    | false =>
      obtain ⟨c, hc, hfails⟩ := refused_iff.mpr hall
      rw [Bool.and_false]
      exact dropped ⟨c, hlocals c hc, hfails⟩
  | @drop place hbad ends others _ ih =>
    have hrest := ih fun other hother => hnames other (List.mem_cons_of_mem _ hother)
    have hsame := renamed_samePairs_of_binds (hnames place List.mem_cons_self)
    rw [accepted_cons [] _ place others, hsame]
    exact (dropped hbad).append hrest
where
  dropped {σ : Substitution} {kept : Bool} (hbad : Refused constraints σ) :
      Sifted (Refused constraints) [] (if kept then [σ] else []) := by
    cases kept with
    | true => exact .drop hbad .nil
    | false => exact .nil

end TermNet
