import TermNet.Proofs.Net.Active
import TermNet.Proofs.Pattern.Alone

namespace TermNet

/-!
# The variables of a tree are bound behind it

* `mem_advance_operands` — the places behind a commutative operation;
* `PatternTerm.below_of_mem_places` — bindings are never taken back;
* `PatternTerm.binds_of_mem_places` — all variables of a tree are bound behind it.
-/

variable {constraints : List Constraint} {parent : Option Head}

/-! ### Places behind trees -/

/-- The places behind a commutative operation. -/
theorem mem_advance_operands {m : OperandMatcher} {index : Nat} {name : Option String}
    {place after : Place} :
    after ∈ (Label.operands index).advance (some m) name place ↔
      ∃ item rest τ, place.queue.takeIf? (fun _ => true) = some (item, rest) ∧
        τ ∈ m.solve item.args place.subst index ∧ after = ⟨rest, τ⟩ := by
  unfold Label.advance
  dsimp only
  cases htake : place.queue.takeIf? fun _ => true with
  | none => simp
  | some taken =>
    obtain ⟨item, rest⟩ := taken
    simp only [List.mem_map, Option.some.injEq, Prod.mk.injEq]
    constructor
    · rintro ⟨τ, hτ, rfl⟩
      exact ⟨item, rest, τ, ⟨rfl, rfl⟩, hτ, rfl⟩
    · rintro ⟨_, _, τ, ⟨rfl, rfl⟩, hτ, rfl⟩
      exact ⟨τ, hτ, rfl⟩

/-- The places behind an atom. -/
theorem places_atom (t : Term) (place : Place) :
    (PatternTerm.atom t).places constraints parent place =
      (Label.atom t).advance none none place := rfl

/-- The places behind a wildcard. -/
theorem places_wildcard (w : Wildcard) (place : Place) :
    (PatternTerm.wildcard w).places constraints parent place =
      (wildcardStep parent w).label.advance none w.name place := rfl

/-- The places behind a commutative operation: a matcher for it alone finds its arguments. -/
theorem places_commutative {head : Head} (hcomm : head.isCommutative = true)
    (args : List PatternTerm) (place : Place) :
    (PatternTerm.node head args).places constraints parent place =
      ((Label.commutative head).advance none none place).flatMap
        ((Label.operands 0).advance (some (alone constraints head args)) none) := by
  rw [PatternTerm.places, if_pos hcomm]

/-- The places behind an operation with ordered arguments: behind its head, its arguments and its
    end. -/
theorem places_ordered {head : Head} (hcomm : head.isCommutative = false)
    (args : List PatternTerm) (place : Place) :
    (PatternTerm.node head args).places constraints parent place =
      ((Label.enter head).advance none none place).flatMap fun inside =>
        (placesAll constraints head args inside).flatMap (Label.close.advance none none) := by
  rw [PatternTerm.places, if_neg (by simp [hcomm])]

/-- Arguments keep what is bound if each of them does. -/
theorem below_of_mem_placesAll {head : Head} {args : List PatternTerm} {place after : Place}
    (hargs : ∀ p ∈ args, ∀ place after, after ∈ p.places constraints (some head) place →
      place.subst.Below after.subst)
    (h : after ∈ placesAll constraints head args place) : place.subst.Below after.subst := by
  induction args generalizing place with
  | nil =>
    rw [List.mem_singleton.mp h]
    exact .refl _
  | cons p ps ih =>
    obtain ⟨between, hbetween, hafter⟩ := List.mem_flatMap.mp h
    have hfirst := hargs p List.mem_cons_self place between hbetween
    exact hfirst.trans (ih (fun q hq => hargs q (List.mem_cons_of_mem p hq)) hafter)

/-- **Bindings are never taken back** behind a tree. -/
theorem PatternTerm.below_of_mem_places (p : PatternTerm) {place after : Place}
    (h : after ∈ p.places constraints parent place) : place.subst.Below after.subst := by
  induction p using PatternTerm.inductionOn generalizing parent place after with
  | atom t =>
    rw [places_atom] at h
    exact advance_below h
  | wildcard w =>
    rw [places_wildcard] at h
    exact advance_below h
  | node head args ih =>
    cases hcomm : head.isCommutative with
    | true =>
      rw [places_commutative hcomm] at h
      obtain ⟨between, hbetween, hafter⟩ := List.mem_flatMap.mp h
      exact (advance_below hbetween).trans (advance_below hafter)
    | false =>
      rw [places_ordered hcomm] at h
      obtain ⟨inside, hinside, h⟩ := List.mem_flatMap.mp h
      obtain ⟨behind, hbehind, hafter⟩ := List.mem_flatMap.mp h
      have hargs := below_of_mem_placesAll (fun p hp _ _ => ih p hp) hbehind
      exact (advance_below hinside).trans (hargs.trans (advance_below hafter))

/-! ### Bound variables -/

/-- The labels of wildcards. -/
theorem label_wildcardStep (parent : Option Head) (w : Wildcard) :
    (∃ kind, (wildcardStep parent w).label = .one kind w.default) ∨
      ∃ minCount wrap, (wildcardStep parent w).label = .run minCount wrap w.default := by
  unfold wildcardStep
  dsimp only
  split
  · exact .inr ⟨_, _, rfl⟩
  · exact .inr ⟨_, _, rfl⟩
  · exact .inl ⟨_, rfl⟩

/-- Behind a wildcard its variable is bound. -/
theorem binds_of_mem_wildcard {w : Wildcard} {x : String} (hname : w.name = some x)
    {matcher : Option OperandMatcher} {place after : Place}
    (h : after ∈ (wildcardStep parent w).label.advance matcher w.name place) :
    after.subst.Binds x := by
  have hrebinds := rebinds_of_mem_advance h
  have hgains : ∃ value, place.subst.Gains w.name value after.subst := by
    rcases label_wildcardStep parent w with ⟨kind, hlabel⟩ | ⟨minCount, wrap, hlabel⟩
    · rwa [hlabel] at hrebinds
    · rwa [hlabel] at hrebinds
  obtain ⟨value, hgains⟩ := hgains
  exact ⟨value, (hgains x value).mpr (.inr ⟨hname, rfl⟩)⟩

/-- Behind all arguments the variables of each of them are bound. -/
theorem binds_of_mem_placesAll {head : Head} {args : List PatternTerm} {place after : Place}
    (hargs : ∀ p ∈ args, ∀ place after, after ∈ p.places constraints (some head) place →
      ∀ x ∈ p.variableNames, after.subst.Binds x)
    (h : after ∈ placesAll constraints head args place) :
    ∀ p ∈ args, ∀ x ∈ p.variableNames, after.subst.Binds x := by
  induction args generalizing place with
  | nil => simp
  | cons p ps ih =>
    obtain ⟨between, hbetween, hafter⟩ := List.mem_flatMap.mp h
    intro q hq x hx
    rcases List.mem_cons.mp hq with rfl | hq
    · have hbelow := below_of_mem_placesAll
        (fun p _ _ _ h => PatternTerm.below_of_mem_places p h) hafter
      exact hbelow.binds (hargs q List.mem_cons_self place between hbetween x hx)
    · exact ih (fun q hq => hargs q (List.mem_cons_of_mem p hq)) hafter q hq x hx

/-- The matches of an operand bind its variables if the places behind it do. -/
theorem OperandPattern.binds_of_mem_solutions {operand : OperandPattern}
    (hplaces : ∀ constraints parent place after,
      after ∈ operand.tree.places constraints parent place →
        ∀ x ∈ operand.tree.variableNames, after.subst.Binds x)
    {t : Term} {τ : Substitution} (h : τ ∈ operand.solutions t) :
    ∀ x ∈ operand.tree.variableNames, τ.Binds x := by
  intro x hx
  obtain ⟨place, hplace, -, -, rfl⟩ := mem_accepted.mp h
  obtain ⟨b, hb⟩ := hplaces _ _ _ place hplace x hx
  refine ⟨b, ?_⟩
  rw [find?_renamed_samePairs, if_pos hx, hb]

/-- Every member of a list is paired with one of the other list. -/
theorem exists_mem_zip {α β : Type} {R : α → β → Prop} {xs : List α} {ys : List β}
    (h : List.Forall₂ R xs ys) {x : α} (hx : x ∈ xs) : ∃ y, (x, y) ∈ xs.zip ys := by
  have hmap : (xs.zip ys).map Prod.fst = xs := List.map_fst_zip (Nat.le_of_eq h.length_eq)
  rw [← hmap] at hx
  obtain ⟨⟨_, y⟩, hmem, rfl⟩ := List.mem_map.mp hx
  exact ⟨y, hmem⟩

/-- A match of a commutative operation binds all variables below it. -/
theorem IsAloneMatch.binds_all {head : Head} {args : List PatternTerm} {ts : List Term}
    {σ ρ : Substitution} {fitting : List (OperandPattern × Term × Substitution)}
    {parts : List (List Term)} (h : IsAloneMatch constraints head args ts σ ρ fitting parts)
    (hargs : ∀ p ∈ args, ∀ constraints parent place after,
      after ∈ p.places constraints parent place → ∀ x ∈ p.variableNames, after.subst.Binds x) :
    ∀ x ∈ (PatternTerm.node head args).variableNames, ρ.Binds x := by
  intro x hx
  obtain ⟨p, hp, hx⟩ := PatternTerm.mem_variableNames_node.mp hx
  cases hvar : p.sequenceVariable? head with
  | some var =>
    obtain ⟨w, rfl, hw⟩ := PatternTerm.sequenceVariable?_eq_some hvar
    obtain ⟨v, hv, hname⟩ := exists_sequenceVariable hp hvar
    rw [sequenceVariable?_name hw, PatternTerm.mem_variableNames_wildcard.mp hx] at hname
    -- Every sequence variable has its part.
    obtain ⟨run, hrun⟩ := exists_mem_zip h.admitted hv
    have hmem : (x, CommutativePattern.runBinding head v run) ∈
        CommutativePattern.runBindings head (sequenceVariables head args) parts := by
      refine List.mem_filterMap.mpr ⟨(v, run), hrun, ?_⟩
      simp only [hname, Option.map_some]
    exact ⟨_, (h.binds x _).mpr (.inr (.inr hmem))⟩
  | none =>
    have hoperand : (⟨p, operandConstraints constraints p⟩ : OperandPattern) ∈
        operandPatterns constraints head args :=
      List.mem_map.mpr ⟨p, List.mem_filter.mpr ⟨hp, by simp [hvar]⟩, rfl⟩
    -- Every operand has its argument, and a solution there.
    rw [← h.operands] at hoperand
    obtain ⟨f, hf, hfirst⟩ := List.mem_map.mp hoperand
    have hplaces : ∀ constraints parent place after,
        after ∈ f.1.tree.places constraints parent place →
          ∀ x ∈ f.1.tree.variableNames, after.subst.Binds x := by
      rw [hfirst]
      exact hargs p hp
    have htree : x ∈ f.1.tree.variableNames := by
      rw [hfirst]
      exact hx
    obtain ⟨b, hb⟩ := OperandPattern.binds_of_mem_solutions hplaces (h.ways f hf) x htree
    exact ⟨b, (h.binds x b).mpr (.inr (.inl ⟨f, hf, hb⟩))⟩

/-- **All variables of a tree are bound behind it.** -/
theorem PatternTerm.binds_of_mem_places (p : PatternTerm) {place after : Place}
    (h : after ∈ p.places constraints parent place) :
    ∀ x ∈ p.variableNames, after.subst.Binds x := by
  induction p using PatternTerm.inductionOn generalizing constraints parent place after with
  | atom t =>
    intro x hx
    obtain ⟨w, hw, -⟩ := mem_variableNames.mp hx
    exact absurd hw (by simp [wildcards])
  | wildcard w =>
    intro x hx
    rw [places_wildcard] at h
    exact binds_of_mem_wildcard (mem_variableNames_wildcard.mp hx) h
  | node head args ih =>
    cases hcomm : head.isCommutative with
    | true =>
      rw [places_commutative hcomm] at h
      obtain ⟨between, -, hafter⟩ := List.mem_flatMap.mp h
      obtain ⟨item, rest, τ, -, hτ, rfl⟩ := mem_advance_operands.mp hafter
      obtain ⟨fitting, parts, hmatch⟩ := mem_solve_alone_iff.mp hτ
      exact hmatch.binds_all fun p hp _ _ _ _ => ih p hp
    | false =>
      rw [places_ordered hcomm] at h
      obtain ⟨inside, -, h⟩ := List.mem_flatMap.mp h
      obtain ⟨behind, hbehind, hafter⟩ := List.mem_flatMap.mp h
      intro x hx
      obtain ⟨p, hp, hx⟩ := mem_variableNames_node.mp hx
      have hbinds := binds_of_mem_placesAll (fun p hp _ _ h => ih p hp h) hbehind p hp x hx
      exact (advance_below hafter).binds hbinds

end TermNet
