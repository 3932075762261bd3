import TermNet.Proofs.Net.Interpreted
import TermNet.Proofs.Net.Relaxed

namespace TermNet

/-!
# Nets that trust their custom constraints

Where custom constraints with one path have different functions, a shared net asks the
function that was registered first.  Whatever it answers, the net finds no more than the
one whose custom constraints always hold.

* `trusting` — the meaning under which custom constraints always hold;
* `State.explore_sifted` — exploring with matchers that leave out bad matches;
* `Net.matches_sublist_trusting` — a net finds no more than the one that trusts;
* `Pattern.trusting` — patterns whose custom constraints always hold.
-/

open CommutativePattern (fits Persistent)

/-- Every custom constraint holds. -/
def trusting : Meaning := fun _ _ _ => true

/-! ### Exploring -/

variable {bad : Substitution → Prop} {matchers free : List OperandMatcher}

/-- **The markers that are reached,** where matchers leave out bad matches. -/
theorem State.explore_sifted (hpersistent : Persistent bad)
    (h : List.Forall₂ (OperandMatcher.Relaxes bad) matchers free) (state : State)
    (place : Place) :
    Sifted (fun reached => bad reached.2) (state.explore matchers place)
      (state.explore free place) := by
  induction state using State.inductionOn generalizing place with
  | step state ih _ =>
    have hedges : ∀ matcher other, Option.Rel (OperandMatcher.Relaxes bad) matcher other →
        Sifted (fun reached => bad reached.2) (exploreEdges matchers matcher state.edges place)
          (exploreEdges free other state.edges place) := by
      intro matcher other hmatcher
      rw [exploreEdges_eq, exploreEdges_eq]
      refine Sifted.flatMap_of_forall fun edge hedge => ?_
      rw [exploreEdge_eq, exploreEdge_eq]
      refine (edge.label.advance_sifted hpersistent hmatcher edge.variableName place).flatMap
        (fun after _ => ih edge hedge after) fun after _ hbad reached hreached => ?_
      -- What is bad stays bad, so nothing is lost that would be good behind the edge.
      exact hpersistent _ _ (explore_below hreached).2 hbad
    cases state with
    | branch edges => exact hedges none none .none
    | commutative position edges => exact hedges _ _ (getElem?_relaxes h position)
    | accept markers => exact .refl _

/-- **The invariant of a state** does not mind matchers that find less. -/
theorem State.Valid.relaxes {registry more : ConstraintRegistry} {stage : Stage}
    {checked : List ConstraintId} {bound : List String} {state : State}
    (h : state.Valid free registry stage checked bound) (hpersistent : Persistent bad)
    (hrelaxes : List.Forall₂ (OperandMatcher.Relaxes bad) matchers free)
    (hbound : ∀ id names, registry.IsBound id names → more.IsBound id names)
    (howns : ∀ m ∈ state.markers, ∀ id,
      m.pattern ∈ more.owners id ↔ m.pattern ∈ registry.owners id) :
    state.Valid matchers more stage checked bound := by
  refine h.transfer (fun head position hhead => ?_) (fun position label name ids hallowed => ?_)
    hbound howns
  · rw [matcherPosition?_eq hrelaxes, hhead]
  · have hrel := getElem?_relaxes hrelaxes position
    refine ⟨?_, fun names hbounds place after hafter => ?_⟩
    -- Labels of patterns name a matcher, and the one that finds less has as many patterns.
    · cases label with
      | operands index =>
        obtain ⟨hname, m, hm, hindex⟩ := hallowed
        rw [hm] at hrel
        cases hmatcher : matchers[position]? with
        | none =>
          rw [hmatcher] at hrel
          cases hrel
        | some m' =>
          rw [hmatcher] at hrel
          cases hrel with
          | some hfewer => exact ⟨hname, m', rfl, hfewer.patterns ▸ hindex⟩
      | commutative head => exact hallowed
      | enter head => trivial
      | close => trivial
      | atom t => trivial
      | one kind default => trivial
      | run minCount wrap default => trivial
    · exact hbounds place after ((label.advance_sifted hpersistent hrel name place).sublist.subset
        hafter)

/-! ### Matches -/

/-- What is left of fewer things, some of which are dropped, is less. -/
theorem sublist_filterMap {α β : Type} {xs ys : List α} (h : xs.Sublist ys) {f g : α → Option β}
    (hfg : ∀ x, f x = none ∨ f x = g x) : (xs.filterMap f).Sublist (ys.filterMap g) := by
  induction h with
  | slnil => exact .slnil
  | @cons xs ys y _ ih =>
    cases hy : g y with
    | none => rwa [List.filterMap_cons_none hy]
    | some b =>
      rw [List.filterMap_cons_some hy]
      exact ih.cons b
  | @cons_cons xs ys x _ ih =>
    rcases hfg x with hx | hx
    · rw [List.filterMap_cons_none hx]
      cases hy : g x with
      | none => rwa [List.filterMap_cons_none hy]
      | some b =>
        rw [List.filterMap_cons_some hy]
        exact ih.cons b
    · cases hy : g x with
      | none => rwa [List.filterMap_cons_none (hx.trans hy), List.filterMap_cons_none hy]
      | some b =>
        rw [List.filterMap_cons_some (hx.trans hy), List.filterMap_cons_some hy]
        exact ih.cons_cons b

/-- What holds also holds where custom constraints are trusted. -/
theorem Constraint.holds_trusting {c : Constraint} {σ : Substitution} (h : c.holds σ = true) :
    (c.interpret trusting).holds σ = true := by
  obtain ⟨check, names⟩ := c
  cases check with
  | builtin predicate => exact h
  | custom path f =>
    unfold holds Substitution.satisfies
    split <;> rfl

/-- A pattern that is accepted is accepted by the registry that trusts. -/
theorem ConstraintRegistry.accepts_trusting {registry : ConstraintRegistry} {pattern : Nat}
    {σ : Substitution} (h : registry.accepts pattern σ = true) :
    (registry.interpret trusting).accepts pattern σ = true := by
  unfold accepts interpret at *
  rw [List.all_map]
  rw [List.all_eq_true] at h ⊢
  intro entry hentry
  have hholds := h entry hentry
  simp only [Bool.or_eq_true] at hholds
  simp only [Function.comp_apply, Bool.or_eq_true]
  exact hholds.imp_right Constraint.holds_trusting

/-- Fewer matches have fewer that fit a pattern. -/
theorem fits_sublist {found others : List Match} (h : found.Sublist others) (index : Nat) :
    (fits index found).Sublist (fits index others) := h.filterMap _

/-- Matchers whose nets find no more than those that trust. -/
theorem Net.relaxes_trusting {net : Net} (hmatches : ∀ m ∈ net.matchers, ∀ t,
      (m.net.matches t).Sublist ((m.net.interpret trusting).matches t)) :
    List.Forall₂ (OperandMatcher.Relaxes fun _ => True) (operandMatchers net.matchers)
      (operandMatchers (net.interpret trusting).matchers) := by
  rw [interpret_eq, operandMatchers_eq, operandMatchers_eq, List.map_map,
    List.forall₂_map_left_iff, List.forall₂_map_right_iff]
  refine List.forall₂_same.mpr fun m hm => ?_
  rw [Function.comp_apply, CommutativeMatcher.interpret_eq, CommutativeMatcher.operandMatcher_eq,
    CommutativeMatcher.operandMatcher_eq]
  exact ⟨rfl, rfl, fun _ _ o _ s => .of_sublist (fits_sublist (hmatches m hm s) o)
    fun _ _ => trivial⟩

/-- The tree of a net keeps its invariant when custom constraints are not trusted. -/
theorem Net.valid_root_of_trusting {net : Net} (h : (net.interpret trusting).Valid trusting)
    (hrelaxes : List.Forall₂ (OperandMatcher.Relaxes fun _ => True)
      (operandMatchers net.matchers) (operandMatchers (net.interpret trusting).matchers)) :
    net.root.Valid (operandMatchers net.matchers) net.registry (.within 0) [] [] := by
  have hvalid : net.root.Valid (operandMatchers (net.interpret trusting).matchers)
      (net.registry.interpret trusting) (.within 0) [] [] := by
    have hroot := (valid_iff.mp h).1.root
    rw [interpret_eq] at hroot ⊢
    exact hroot
  refine hvalid.relaxes (fun _ _ _ _ => trivial) hrelaxes (fun id names hid => ?_) fun _ _ id => ?_
  · obtain ⟨c, hc, hnames⟩ := hid
    rw [ConstraintRegistry.get?_interpret] at hc
    obtain ⟨d, hd, rfl⟩ := Option.map_eq_some_iff.mp hc
    exact ⟨d, hd, hnames⟩
  · rw [ConstraintRegistry.owners_interpret]

/-- The nets of the matchers are valid if they trust, too. -/
theorem Net.valid_matcher_interpret {net : Net} (h : (net.interpret trusting).Valid trusting)
    {m : CommutativeMatcher} (hm : m ∈ net.matchers) :
    (m.net.interpret trusting).Valid trusting := by
  have hmatchers := (valid_iff.mp h).2
  rw [interpret_eq] at hmatchers
  have hvalid := hmatchers _ (List.mem_map_of_mem hm)
  rw [CommutativeMatcher.interpret_eq] at hvalid
  exact (CommutativeMatcher.valid_iff.mp hvalid).2

/-- **A net finds no more than the one that trusts** its custom constraints. -/
theorem Net.matches_sublist_trusting (net : Net) (h : (net.interpret trusting).Valid trusting)
    (t : Term) : (net.matches t).Sublist ((net.interpret trusting).matches t) := by
  induction net using Net.inductionOn generalizing t with
  | step net ih =>
    have hrelaxes := Net.relaxes_trusting fun m hm => ih m hm (Net.valid_matcher_interpret h hm)
    rw [matches_of_valid_root (Net.valid_root_of_trusting h hrelaxes),
      matches_eq (valid_iff.mp h).1]
    have hsifted := net.root.explore_sifted (fun _ _ _ _ => trivial) hrelaxes (.ofSubject t)
    rw [interpret_eq] at hsifted ⊢
    refine sublist_filterMap hsifted.sublist fun (marker, σ) => ?_
    unfold matchOf
    dsimp only
    cases haccepts : net.registry.accepts marker.pattern σ with
    | false => exact .inl (by rw [Bool.and_false]; rfl)
    | true => exact .inr (by rw [ConstraintRegistry.accepts_trusting haccepts])

/-! ### Patterns -/

namespace Pattern

/-- The pattern whose custom constraints always hold. -/
def trusting (pattern : Pattern) : Pattern :=
  { pattern with
    constraints := pattern.constraints.map (Constraint.interpret TermNet.trusting)
    globals := pattern.globals.map (Constraint.interpret TermNet.trusting) }

variable {pattern : Pattern}

/-- Constraints do not matter to how a pattern is built. -/
theorem Built.trusting (h : pattern.Built) : pattern.trusting.Built := by
  refine built_of_constraint h.variableKinds fun c hc => ?_
  rw [Pattern.trusting, ← List.map_append] at hc
  obtain ⟨d, hd, rfl⟩ := List.mem_map.mp hc
  exact h.constraint d hd

/-- A pattern that trusts has the same paths and variables. -/
theorem interprets_trusting (pattern : Pattern) :
    pattern.Interprets TermNet.trusting pattern.trusting where
  tree := rfl
  locals := by
    unfold positionalLocals Pattern.trusting
    rw [List.map_map, List.map_map]
    rfl
  globals := by
    unfold positionalGlobals Pattern.trusting
    rw [List.map_map, List.map_map]
    rfl

/-- A pattern that trusts follows the meaning that does. -/
theorem follows_trusting (pattern : Pattern) : pattern.trusting.Follows TermNet.trusting := by
  intro c hc
  have h := pattern.interprets_trusting
  rw [h.locals, h.globals, ← List.map_append] at hc
  obtain ⟨d, -, rfl⟩ := List.mem_map.mp hc
  exact d.follows_interpret

end Pattern

/-! ### Lists of patterns -/

section Lists

variable {patterns : List Pattern}

/-- All patterns of a list are built as they were. -/
theorem built_trusting (hbuilt : ∀ p ∈ patterns, p.Built) :
    ∀ p ∈ patterns.map Pattern.trusting, p.Built := by
  intro p hp
  obtain ⟨q, hq, rfl⟩ := List.mem_map.mp hp
  exact (hbuilt q hq).trusting

/-- All patterns of a list follow the meaning that trusts. -/
theorem follows_trusting (patterns : List Pattern) :
    ∀ p ∈ patterns.map Pattern.trusting, p.Follows trusting := by
  intro p hp
  obtain ⟨q, -, rfl⟩ := List.mem_map.mp hp
  exact q.follows_trusting

/-- **A list of patterns finds no more** than the patterns that trust. -/
theorem matches_sublist_map_trusting (hbuilt : ∀ p ∈ patterns, p.Built) (t : Term) :
    ((Net.ofPatterns patterns).matches t).Sublist
      ((Net.ofPatterns (patterns.map Pattern.trusting)).matches t) := by
  have hinterprets : List.Forall₂ (Pattern.Interprets trusting) patterns
      (patterns.map Pattern.trusting) :=
    List.forall₂_map_right_iff.mpr (List.forall₂_same.mpr fun p _ => p.interprets_trusting)
  have htrusting := Net.ofPatterns_interpret hinterprets
  obtain ⟨hvalid, -⟩ := Net.valid_ofPatterns (built_trusting hbuilt) (follows_trusting patterns)
  have hsublist := (Net.ofPatterns patterns).matches_sublist_trusting (htrusting ▸ hvalid) t
  rwa [← htrusting] at hsublist

/-- Every match belongs to a pattern of the list, which finds it if it trusts. -/
theorem exists_solution_of_mem_matches (hbuilt : ∀ p ∈ patterns, p.Built) {t : Term}
    {found : Match} (h : found ∈ (Net.ofPatterns patterns).matches t) :
    ∃ hindex : found.1 < patterns.length, found.2 ∈ patterns[found.1].trusting.solutions t := by
  have hmem := (matches_sublist_map_trusting hbuilt t).subset h
  have hlt := Net.lt_of_mem_ofPatterns (built_trusting hbuilt) (follows_trusting patterns) hmem
  rw [List.length_map] at hlt
  have hindex : (patterns.map Pattern.trusting)[found.1]? = some patterns[found.1].trusting := by
    rw [List.getElem?_map, List.getElem?_eq_getElem hlt]
    rfl
  have hperm := Net.fits_ofPatterns (built_trusting hbuilt) (follows_trusting patterns) hindex t
  exact ⟨hlt, hperm.mem_iff.mp (List.mem_filterMap.mpr ⟨found, hmem, if_pos rfl⟩)⟩

end Lists

end TermNet
