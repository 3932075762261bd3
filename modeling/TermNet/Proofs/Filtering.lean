import TermNet.Proofs.Net.Loosened
import TermNet.Proofs.Pattern.Positional

namespace TermNet

/-!
# Constraints are a filter

Constraints are checked as soon as their variables are bound, once more in the matchers of
operands, and the global ones at the end.  All of this finds what a net without
constraints finds, in the same order, as far as the pattern accepts it.

* `Pattern.bare` — a pattern without its constraints;
* `Pattern.ConstraintsAgree` — custom constraints are told apart by path and variables;
* `follow_bare_sifted`, `accepted_eq_filter` — what is refused on the way and at the end;
* `constraints_filter_matches` — constraints only filter.
-/

open CommutativePattern (fits)

namespace Pattern

/-- The pattern without its constraints. -/
def bare (pattern : Pattern) : Pattern := { pattern with constraints := [], globals := [] }

/-- The bare pattern is what the tree gives. -/
theorem Built.ofTree_bare {pattern : Pattern} (h : pattern.Built) :
    Pattern.ofTree pattern.tree = .ok pattern.bare := by
  rw [Pattern.ofTree, h.variableKinds]
  rfl

/-- Without constraints there is nothing that has a meaning. -/
theorem follows_bare (pattern : Pattern) (meaning : Meaning) : pattern.bare.Follows meaning :=
  fun c hc => absurd hc (by simp [positionalLocals, positionalGlobals, bare])

/-- **Custom constraints with the same path and the same variables have the same
    function.** -/
def ConstraintsAgree (pattern : Pattern) : Prop :=
  ∀ c ∈ pattern.constraints ++ pattern.globals, ∀ d ∈ pattern.constraints ++ pattern.globals,
    ∀ path f g, c.check = .custom path f → d.check = .custom path g →
      c.variableNames = d.variableNames → f = g

/-- Variables are told apart by their positions. -/
theorem map_position_injective {pattern : Pattern} {xs ys : List String}
    (hxs : ∀ x ∈ xs, x ∈ pattern.tree.variableNames)
    (hys : ∀ y ∈ ys, y ∈ pattern.tree.variableNames)
    (h : xs.map pattern.position = ys.map pattern.position) : xs = ys := by
  induction xs generalizing ys with
  | nil => exact (List.map_eq_nil_iff.mp h.symm).symm
  | cons x xs ih =>
    cases ys with
    | nil => simp at h
    | cons y ys =>
      obtain ⟨hfirst, hrest⟩ := List.cons.inj h
      obtain ⟨position, hx⟩ := PatternTerm.exists_positionalName _ (hxs x List.mem_cons_self)
      obtain ⟨other, hy⟩ := PatternTerm.exists_positionalName _ (hys y List.mem_cons_self)
      rw [position_eq hx, position_eq hy] at hfirst
      have hsame := PatternTerm.positionalNames_injective _ hx (hfirst ▸ hy)
      have hmore := ih (fun z hz => hxs z (List.mem_cons_of_mem _ hz))
        (fun z hz => hys z (List.mem_cons_of_mem _ hz)) hrest
      rw [hsame, hmore]

/-- Where constraints agree, they have meanings. -/
theorem ConstraintsAgree.exists_meaning {pattern : Pattern} (h : pattern.ConstraintsAgree)
    (hbuilt : pattern.Built) : ∃ meaning, pattern.Follows meaning := by
  classical
  -- Any custom function with this path and these names will do, since they are equal.
  let isCustom := fun path names f => ∃ c ∈ pattern.constraints ++ pattern.globals,
    c.check = .custom path f ∧ c.variableNames.map pattern.position = names
  let meaning : Meaning := fun path names =>
    if hpath : ∃ f, isCustom path names f then hpath.choose else fun _ => true
  refine ⟨meaning, fun positional hpositional => ?_⟩
  obtain ⟨c, hc, rfl⟩ := mem_positional.mp hpositional
  let names := c.variableNames.map pattern.position
  show c.check.Follows (meaning · names)
  cases hcheck : c.check with
  | builtin predicate => trivial
  | custom path f =>
    have hpath : ∃ f, isCustom path names f := ⟨f, c, hc, hcheck, rfl⟩
    obtain ⟨d, hd, hchosen, hnames⟩ := hpath.choose_spec
    show f = meaning path names
    rw [show meaning path names = hpath.choose from dif_pos hpath]
    exact h c hc d hd path f _ hcheck hchosen
      (map_position_injective (hbuilt.constraint d hd).2 (hbuilt.constraint c hc).2 hnames).symm

end Pattern

variable {meaning : Meaning} {pattern : Pattern}

/-- All matches of a net with one pattern, by what is found for it. -/
theorem matches_single_eq (hbuilt : pattern.Built) (hfollows : pattern.Follows meaning) (t : Term) :
    (Net.ofPatterns [pattern]).matches t =
      (fits 0 ((Net.ofPatterns [pattern]).matches t)).map (0, ·) := by
  have hindex : ∀ found ∈ (Net.ofPatterns [pattern]).matches t, found.1 = 0 := by
    intro found hfound
    have hlt := Net.lt_of_mem_ofPatterns (by simpa using hbuilt) (by simpa using hfollows) hfound
    rwa [List.length_singleton, Nat.lt_one_iff] at hlt
  generalize (Net.ofPatterns [pattern]).matches t = found at hindex
  induction found with
  | nil => rfl
  | cons first rest ih =>
    obtain ⟨index, σ⟩ := first
    obtain rfl : index = 0 := hindex _ List.mem_cons_self
    have hrest := ih fun found hfound => hindex found (List.mem_cons_of_mem _ hfound)
    exact congrArg ((0, σ) :: ·) hrest

/-- The matches of one pattern are those at the places behind its steps. -/
theorem fits_single_eq (hbuilt : pattern.Built) (hfollows : pattern.Follows meaning) (t : Term) :
    fits 0 ((Net.ofPatterns [pattern]).matches t) =
      accepted (pattern.positionalLocals ++ pattern.positionalGlobals)
        pattern.tree.positionalNames.entries
        (follow (operandMatchers (Net.empty.collectedFor pattern).2) (.within 0)
          (Net.empty.collectedFor pattern).1 (.ofSubject t)) :=
  Net.matches_insertSteps_own (Net.valid_iff.mp Net.valid_empty).1
    (Net.insertable_entryFor Net.valid_empty hbuilt hfollows) t

/-- A net without constraints takes the same steps, but its matchers refuse nothing. -/
theorem follow_bare_sifted (hfollows : pattern.Follows meaning) (place : Place) :
    (Net.empty.collectedFor pattern).1 = (Net.empty.collectedFor pattern.bare).1 ∧
      Sifted (fun place => Refused pattern.positionalLocals place.subst)
        (follow (operandMatchers (Net.empty.collectedFor pattern).2) (.within 0)
          (Net.empty.collectedFor pattern).1 place)
        (follow (operandMatchers (Net.empty.collectedFor pattern.bare).2) (.within 0)
          (Net.empty.collectedFor pattern).1 place) := by
  have hlocals : ∀ c ∈ pattern.positionalLocals, c.Follows meaning := fun c hc =>
    hfollows c (List.mem_append_left _ hc)
  obtain ⟨hsteps, hmatchers⟩ : Loosened pattern.positionalLocals
      (Net.empty.collectedFor pattern) (Net.empty.collectedFor pattern.bare) :=
    loosens_collectSteps pattern.positionalLocals pattern.positionalTree _ none [] []
      (fun _ _ => rfl) hlocals (by simp) (by simp) .nil
  have hvalid := (Net.collected_collectedFor Net.valid_empty (pattern.follows_bare meaning)).valid
  exact ⟨hsteps, follow_sifted (persistent_refused pattern.positionalLocals)
    (CommutativeMatcher.forall₂_operandMatchers hmatchers hvalid) _ _ _⟩

/-- **What is refused on the way would have been refused at the end.** -/
theorem accepted_eq_filter (hbuilt : pattern.Built) {places free : List Place}
    (h : Sifted (fun place => Refused pattern.positionalLocals place.subst) places free) :
    accepted (pattern.positionalLocals ++ pattern.positionalGlobals)
        pattern.tree.positionalNames.entries places =
      (accepted [] pattern.tree.positionalNames.entries free).filter pattern.accepts := by
  have haccepts : ∀ place : Place,
      pattern.accepts (place.subst.renamed pattern.tree.positionalNames.entries) =
        (pattern.positionalLocals ++ pattern.positionalGlobals).all fun c =>
          c.holds place.subst := by
    intro place
    rw [Bool.eq_iff_iff, List.all_eq_true]
    exact hbuilt.accepts_iff fun x hx => (pattern.find?_renamed_position place.subst hx).symm
  have hrefused : ∀ place : Place, Refused pattern.positionalLocals place.subst →
      ((pattern.positionalLocals ++ pattern.positionalGlobals).all fun c =>
        c.holds place.subst) = false := by
    rintro place ⟨c, hc, hfails⟩
    exact refused_iff.mp ⟨c, List.mem_append_left _ hc, hfails⟩
  -- Places that are refused on the way are not accepted at the end.
  have hend := h.filterMap_eq (f := fun place =>
    if place.queue.isExhausted &&
        (pattern.positionalLocals ++ pattern.positionalGlobals).all (·.holds place.subst) then
      some (place.subst.renamed pattern.tree.positionalNames.entries)
    else none) fun place _ hbad => by rw [hrefused place hbad, Bool.and_false]; rfl
  refine hend.trans ?_
  unfold accepted
  rw [List.filter_filterMap]
  refine List.filterMap_congr fun place _ => ?_
  have hnone : ([] : List Constraint).all (Constraint.holds · place.subst) = true := rfl
  rw [← haccepts place, hnone, Bool.and_true]
  cases place.queue.isExhausted with
  | false => rfl
  | true => rfl

/-- **Constraints are exactly a filter.**  The matches of a pattern are those of its tree
    without constraints that the pattern accepts, in the same order. -/
theorem constraints_filter_matches (pattern : Pattern) (hbuilt : pattern.Built)
    (hagree : pattern.ConstraintsAgree) (subject : Term) :
    Pattern.ofTree pattern.tree = .ok pattern.bare ∧
      (Net.ofPatterns [pattern]).matches subject =
        ((Net.ofPatterns [pattern.bare]).matches subject).filter fun found =>
          pattern.accepts found.2 := by
  obtain ⟨meaning, hfollows⟩ := hagree.exists_meaning hbuilt
  have hbare : pattern.bare.Built := .ofTree hbuilt.ofTree_bare
  refine ⟨hbuilt.ofTree_bare, ?_⟩
  obtain ⟨hsteps, hsifted⟩ := follow_bare_sifted hfollows (.ofSubject subject)
  rw [matches_single_eq hbuilt hfollows, matches_single_eq hbare (pattern.follows_bare meaning),
    fits_single_eq hbuilt hfollows, fits_single_eq hbare (pattern.follows_bare meaning),
    ← hsteps, List.filter_map]
  exact congrArg (List.map _) (accepted_eq_filter hbuilt hsifted)

/-- A check that holds of the integer 1. -/
def sampleUnit (name : String) : Constraint :=
  .custom "checks::is_unit" [name] fun bindings => bindings = [.single (.integer 1)]

/-- The sum of a unit and a variable. -/
def sampleUnitSum : Pattern := { sampleSum with constraints := [sampleUnit "x"] }

/-- Only one of the two ways to split a sum has the unit in its place. -/
theorem constraints_filter_matches_for_units :
    ((Net.ofPatterns [sampleUnitSum.bare]).matches
      (.build .sum [.integer 1, .integer 2])).length = 2 ∧
    ((Net.ofPatterns [sampleUnitSum]).matches (.build .sum [.integer 1, .integer 2])).length = 1 ∧
    (Net.ofPatterns [sampleUnitSum]).matches (.build .sum [.integer 1, .integer 2]) =
      ((Net.ofPatterns [sampleUnitSum.bare]).matches
        (.build .sum [.integer 1, .integer 2])).filter fun found =>
          sampleUnitSum.accepts found.2 := by
  have htree : Pattern.ofTree sampleSum.tree = .ok sampleUnitSum.bare := rfl
  have hconstraint : sampleUnitSum.bare.withConstraint "x" (sampleUnit "x") =
      .ok sampleUnitSum := rfl
  have hagree : sampleUnitSum.ConstraintsAgree := by
    intro c hc d hd path f g hf hg _
    obtain rfl := List.mem_singleton.mp hc
    obtain rfl := List.mem_singleton.mp hd
    exact (Check.custom.inj hf).2.symm.trans (Check.custom.inj hg).2
  refine ⟨by decide +kernel, by decide +kernel, ?_⟩
  exact (constraints_filter_matches sampleUnitSum (.withConstraint (.ofTree htree) hconstraint)
    hagree _).2

end TermNet
