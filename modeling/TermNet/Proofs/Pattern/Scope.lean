import TermNet.Proofs.Pattern.Bound
import TermNet.Proofs.Pattern.Shares

namespace TermNet

/-!
# Only the variables of a tree are bound behind it

* `binds_of_mem_advance` — a label binds nothing but its variable;
* `OperandPattern.mem_of_binds_solutions` — the matches of an operand bind its variables only;
* `PatternTerm.mem_of_binds_places` — what is bound behind a tree.
-/

variable {constraints : List Constraint} {parent : Option Head}

/-! ### Labels -/

/-- **A label binds nothing but its variable,** unless it stands for a pattern. -/
theorem binds_of_mem_advance {matcher : Option OperandMatcher} {name : Option String}
    {label : Label} (hlabel : ∀ index, label ≠ .operands index) {place after : Place}
    (h : after ∈ label.advance matcher name place) {x : String} (hx : after.subst.Binds x) :
    place.subst.Binds x ∨ name = some x := by
  have hrebinds := rebinds_of_mem_advance h
  have hgains : (∃ value, place.subst.Gains name value after.subst) →
      place.subst.Binds x ∨ name = some x := by
    rintro ⟨value, hgains⟩
    obtain ⟨b, hb⟩ := hx
    exact ((hgains x b).mp hb).imp (fun hb => ⟨b, hb⟩) And.left
  cases label with
  | one kind default => exact hgains hrebinds
  | run minCount wrap default => exact hgains hrebinds
  | operands index => exact absurd rfl (hlabel index)
  | _ =>
    have hsame : after.subst = place.subst := hrebinds
    exact .inl (hsame ▸ hx)

/-- A label without a variable binds nothing, unless it stands for a pattern. -/
theorem binds_of_mem_advance_none {matcher : Option OperandMatcher} {label : Label}
    (hlabel : ∀ index, label ≠ .operands index) {place after : Place}
    (h : after ∈ label.advance matcher none place) {x : String} (hx : after.subst.Binds x) :
    place.subst.Binds x :=
  (binds_of_mem_advance hlabel h hx).resolve_right (Option.some_ne_none x ·.symm)

/-! ### Commutative operations -/

/-- Renaming variables to themselves changes nothing where no others are bound. -/
theorem renamed_samePairs_of_binds {σ : Substitution} {p : PatternTerm}
    (h : ∀ x, σ.Binds x → x ∈ p.variableNames) : σ.renamed (samePairs p.variableNames) = σ := by
  refine NameMap.ext_find? fun x => ?_
  rw [find?_renamed_samePairs]
  by_cases hx : x ∈ p.variableNames
  · rw [if_pos hx]
  · rw [if_neg hx]
    cases hfind : σ.find? x with
    | none => rfl
    | some b => exact absurd (h x ⟨b, hfind⟩) hx

/-- **The matches of an operand** bind its variables only. -/
theorem OperandPattern.mem_of_binds_solutions {operand : OperandPattern} {t : Term}
    {τ : Substitution} (h : τ ∈ operand.solutions t) {x : String} (hx : τ.Binds x) :
    x ∈ operand.tree.variableNames := by
  obtain ⟨place, -, -, -, rfl⟩ := mem_accepted.mp h
  obtain ⟨b, hb⟩ := hx
  rw [find?_renamed_samePairs] at hb
  by_contra hnot
  rw [if_neg hnot] at hb
  exact Option.some_ne_none b hb.symm

/-- Sequence variables have the names of arguments. -/
theorem mem_of_name_sequenceVariable {head : Head} {args : List PatternTerm}
    {v : SequenceVariable} (h : v ∈ sequenceVariables head args) {x : String}
    (hname : v.name = some x) : x ∈ (PatternTerm.node head args).variableNames := by
  obtain ⟨p, hp, hvar⟩ := List.mem_filterMap.mp (base_mem_occurring h)
  obtain ⟨w, rfl, hw⟩ := PatternTerm.sequenceVariable?_eq_some hvar
  refine PatternTerm.mem_variableNames_node.mpr ⟨.wildcard w, hp, ?_⟩
  exact PatternTerm.mem_variableNames_wildcard.mpr ((sequenceVariable?_name hw).symm.trans hname)

/-- A match of a commutative operation binds no other variables than those below it. -/
theorem IsAloneMatch.mem_of_binds {head : Head} {args : List PatternTerm} {ts : List Term}
    {σ ρ : Substitution} {fitting : List (OperandPattern × Term × Substitution)}
    {parts : List (List Term)} (h : IsAloneMatch constraints head args ts σ ρ fitting parts)
    {x : String} (hx : ρ.Binds x) :
    σ.Binds x ∨ x ∈ (PatternTerm.node head args).variableNames := by
  obtain ⟨b, hb⟩ := hx
  rcases (h.binds x b).mp hb with hb | ⟨f, hf, hb⟩ | hb
  · exact .inl ⟨b, hb⟩
  · have hoperand : f.1 ∈ operandPatterns constraints head args :=
      h.operands ▸ List.mem_map_of_mem hf
    obtain ⟨p, hp, heq⟩ := List.mem_map.mp hoperand
    have hx := OperandPattern.mem_of_binds_solutions (h.ways f hf) ⟨b, hb⟩
    rw [← heq] at hx
    exact .inr (PatternTerm.mem_variableNames_node.mpr ⟨p, (List.mem_filter.mp hp).1, hx⟩)
  · obtain ⟨⟨v, run⟩, hv, heq⟩ := List.mem_filterMap.mp hb
    obtain ⟨name, hname, heq⟩ := Option.map_eq_some_iff.mp heq
    obtain ⟨rfl, -⟩ := Prod.mk.inj heq
    exact .inr (mem_of_name_sequenceVariable (List.of_mem_zip hv).1 hname)

/-! ### Trees -/

/-- Arguments bind no other variables than those in them. -/
theorem mem_of_binds_placesAll {head : Head} {args : List PatternTerm} {place after : Place}
    (hargs : ∀ p ∈ args, ∀ {place after : Place}, after ∈ p.places constraints (some head) place →
      ∀ {x : String}, after.subst.Binds x → place.subst.Binds x ∨ x ∈ p.variableNames)
    (h : after ∈ placesAll constraints head args place) {x : String} (hx : after.subst.Binds x) :
    place.subst.Binds x ∨ ∃ p ∈ args, x ∈ p.variableNames := by
  induction args generalizing place with
  | nil =>
    rw [List.mem_singleton.mp h] at hx
    exact .inl hx
  | cons p ps ih =>
    obtain ⟨between, hbetween, hafter⟩ := List.mem_flatMap.mp h
    rcases ih (fun q hq => hargs q (List.mem_cons_of_mem _ hq)) hafter with hx | ⟨q, hq, hx⟩
    · rcases hargs p List.mem_cons_self hbetween hx with hx | hx
      · exact .inl hx
      · exact .inr ⟨p, List.mem_cons_self, hx⟩
    · exact .inr ⟨q, List.mem_cons_of_mem _ hq, hx⟩

/-- **Only the variables of a tree** are bound behind it, and those that were bound. -/
theorem PatternTerm.mem_of_binds_places (p : PatternTerm) {place after : Place}
    (h : after ∈ p.places constraints parent place) {x : String} (hx : after.subst.Binds x) :
    place.subst.Binds x ∨ x ∈ p.variableNames := by
  induction p using PatternTerm.inductionOn generalizing constraints parent place after x with
  | atom t =>
    rw [places_atom] at h
    exact .inl (binds_of_mem_advance_none (fun _ => Label.noConfusion) h hx)
  | wildcard w =>
    rw [places_wildcard] at h
    have hordinary : ∀ index, (wildcardStep parent w).label ≠ .operands index := by
      intro index hlabel
      rcases label_wildcardStep parent w with ⟨kind, h⟩ | ⟨minCount, wrap, h⟩
      · exact nomatch h.symm.trans hlabel
      · exact nomatch h.symm.trans hlabel
    exact (binds_of_mem_advance hordinary h hx).imp_right mem_variableNames_wildcard.mpr
  | node head args ih =>
    cases hcomm : head.isCommutative with
    | true =>
      rw [places_commutative hcomm] at h
      obtain ⟨between, hbetween, hafter⟩ := List.mem_flatMap.mp h
      obtain ⟨item, rest, τ, -, hτ, rfl⟩ := mem_advance_operands.mp hafter
      obtain ⟨fitting, parts, hmatch⟩ := mem_solve_alone_iff.mp hτ
      rcases hmatch.mem_of_binds hx with hx | hx
      · exact .inl (binds_of_mem_advance_none (fun _ => Label.noConfusion) hbetween hx)
      · exact .inr hx
    | false =>
      rw [places_ordered hcomm] at h
      obtain ⟨inside, hinside, h⟩ := List.mem_flatMap.mp h
      obtain ⟨behind, hbehind, hafter⟩ := List.mem_flatMap.mp h
      have hx := binds_of_mem_advance_none (fun _ => Label.noConfusion) hafter hx
      rcases mem_of_binds_placesAll (fun p hp _ _ h _ hx => ih p hp h hx) hbehind hx with hx | hx
      · exact .inl (binds_of_mem_advance_none (fun _ => Label.noConfusion) hinside hx)
      · exact .inr (mem_variableNames_node.mpr hx)

end TermNet
