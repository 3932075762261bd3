import TermNet.Proofs.Filtering
import TermNet.Proofs.Pattern.Settled
import TermNet.Proofs.Relabel.Patterns
import TermNet.Proofs.Term.Canonical

namespace TermNet

/-!
# Neither names nor the order of commutative operands matter

The declared names of variables and the order in which the operands of commutative
operations are written go into the texts by which operands are sorted, into positional
names, and into the numbers of operands.  The matches do not show any of this.

* `Pattern.IsVariant` — a pattern that is built from a reordered tree, with other names;
* `written_order_makes_no_difference` — such patterns find the same, apart from the names;
* `equal_texts_tell_orders_apart` — which fails where different operands have one text.
-/

open CommutativePattern (fits)

/-- The name that stands for a variable; other variables keep their names. -/
def NameMap.rename (names : NameMap String) (x : String) : String := (names.find? x).getD x

/-- **A pattern that differs in how it is written:** `pattern` is built bottom-up from `tree`, and
    `other` from `reordered`, where commutative arguments stand in other orders and the
    variables are renamed, the constraints with them. -/
structure Pattern.IsVariant (names : NameMap String) (tree reordered : PatternTerm)
    (pattern other : Pattern) : Prop where
  alike : Alike Eq tree reordered
  injective : Set.InjOn names.rename {x | x ∈ tree.variableNames}
  tree : pattern.tree = tree.mapVariables id
  otherTree : other.tree = reordered.mapVariables names.rename
  constraints : other.constraints = pattern.constraints.map (·.renamed names)
  globals : other.globals = pattern.globals.map (·.renamed names)

/-- A variant is alike, up to the names of its variables. -/
theorem Pattern.IsVariant.alikeBy {names : NameMap String} {tree reordered : PatternTerm}
    {pattern other : Pattern} (h : Pattern.IsVariant names tree reordered pattern other) :
    pattern.AlikeBy names.rename other where
  tree := by
    rw [h.tree, h.otherTree]
    exact h.alike.mapVariables fun x _ y hxy => congrArg names.rename hxy.symm
  injective := by
    have hsub : ∀ x ∈ pattern.tree.variableNames, x ∈ tree.variableNames := by
      intro x hx
      rw [h.tree] at hx
      obtain ⟨y, hy, rfl⟩ := (PatternTerm.mem_variableNames_mapVariables _ _).mp hx
      exact hy
    exact fun x hx y hy heq => h.injective (hsub x hx) (hsub y hy) heq
  constraints := h.constraints
  globals := h.globals

/-- The matches of one pattern are its solutions. -/
theorem matches_single_perm_map {meaning : Meaning} {pattern : Pattern} (hbuilt : pattern.Built)
    (hfollows : pattern.Follows meaning) (t : Term) :
    ((Net.ofPatterns [pattern]).matches t).Perm ((pattern.solutions t).map (0, ·)) := by
  rw [matches_single_eq hbuilt hfollows]
  exact (Net.fits_ofPatterns (by simpa using hbuilt) (by simpa using hfollows) rfl t).map _

/-- **Neither declared names nor the written order of commutative operands matter,** as long as
    no commutative operation has different operands that only differ in the order of
    commutative arguments: the matches are the same up to the names, each as often. -/
theorem written_order_makes_no_difference (names : NameMap String) (tree reordered : PatternTerm)
    (pattern other : Pattern) (hpattern : pattern.Built) (hother : other.Built)
    (hvariant : Pattern.IsVariant names tree reordered pattern other)
    (hsettled : pattern.positionalTree.Settled) (hotherSettled : other.positionalTree.Settled)
    (subject : Term) :
    ((Net.ofPatterns [other]).matches subject).Perm
      (((Net.ofPatterns [pattern]).matches subject).map fun found =>
        (found.1, found.2.relabel names.rename)) := by
  -- Of custom constraints that a net takes for the same one, it asks the first.
  have hresolved := hvariant.alikeBy.resolved hpattern
  have hsolutions := hresolved.solutions hpattern.resolved hsettled hotherSettled subject
  rw [← other.matches_resolved, ← pattern.matches_resolved]
  refine (matches_single_perm_map hother.resolved other.follows_resolved subject).trans ?_
  refine (hsolutions.map _).trans (.trans (.of_eq ?_)
    ((matches_single_perm_map hpattern.resolved pattern.follows_resolved subject).symm.map _))
  rw [List.map_map, List.map_map]
  rfl

/-- The variables `x` and `y` with the names `b` and `a`. -/
def sampleNames : NameMap String := .ofList [("x", "b"), ("y", "a")]

/-- The sum of a variable and the double of another one. -/
def sampleLinear : PatternTerm :=
  .node .sum [.wildcard (.fixed "x"), .node .product [.integer 2, .wildcard (.fixed "y")]]

/-- The same sum, written in another order. -/
def sampleReordered : PatternTerm :=
  .node .sum [.node .product [.wildcard (.fixed "y"), .integer 2], .wildcard (.fixed "x")]

/-- Sums of multiples, with a constraint on the first variable. -/
def samplePattern : Pattern where
  tree := sampleLinear.mapVariables id
  variableKinds := .ofList [("x", .single), ("y", .single)]
  constraints := [sampleConstraint "x"]

/-- Sums of multiples, written differently. -/
def sampleVariant : Pattern where
  tree := sampleReordered.mapVariables sampleNames.rename
  variableKinds := .ofList [("a", .single), ("b", .single)]
  constraints := [sampleConstraint "b"]

/-- A tree and the same one written in another order. -/
theorem alike_sampleReordered : Alike Eq sampleLinear sampleReordered := by
  have hproduct : Alike Eq (.node .product [.integer 2, .wildcard (.fixed "y")])
      (.node .product [.wildcard (.fixed "y"), .integer 2]) :=
    .node ((Head.Reorders.iff_perm rfl).mpr (.swap _ _ _))
      (List.forall₂_same.mpr fun p _ => .refl p)
  exact .node ((Head.Reorders.iff_perm rfl).mpr (.swap _ _ _))
    (.cons hproduct (.cons (.refl _) .nil))

/-- `1 + 2*3` is such a sum, of either form. -/
theorem written_order_makes_no_difference_for_sums :
    ((Net.ofPatterns [sampleVariant]).matches
        (.build .sum [.integer 1, .build .product [.integer 2, .integer 3]])).length = 1 ∧
    ((Net.ofPatterns [sampleVariant]).matches
        (.build .sum [.integer 1, .build .product [.integer 2, .integer 3]])).Perm
      (((Net.ofPatterns [samplePattern]).matches
        (.build .sum [.integer 1, .build .product [.integer 2, .integer 3]])).map fun found =>
          (found.1, found.2.relabel sampleNames.rename)) := by
  have hpattern : samplePattern.Built := by
    have htree : Pattern.ofTree samplePattern.tree = .ok { samplePattern with constraints := [] } :=
      rfl
    have hconstraint : Pattern.withConstraint { samplePattern with constraints := [] } "x"
        (sampleConstraint "x") = .ok samplePattern := rfl
    exact .withConstraint (.ofTree htree) hconstraint
  have hvariant : sampleVariant.Built := by
    have htree : Pattern.ofTree sampleVariant.tree = .ok { sampleVariant with constraints := [] } :=
      rfl
    have hconstraint : Pattern.withConstraint { sampleVariant with constraints := [] } "b"
        (sampleConstraint "b") = .ok sampleVariant := rfl
    exact .withConstraint (.ofTree htree) hconstraint
  have hinjective : Set.InjOn sampleNames.rename {x | x ∈ sampleLinear.variableNames} := by
    have hnames : ∀ x ∈ sampleLinear.variableNames, ∀ y ∈ sampleLinear.variableNames,
        sampleNames.rename x = sampleNames.rename y → x = y := by decide +kernel
    exact fun x hx y hy heq => hnames x hx y hy heq
  refine ⟨by decide +kernel, written_order_makes_no_difference sampleNames sampleLinear
    sampleReordered _ _ hpattern hvariant ⟨alike_sampleReordered, hinjective, rfl, rfl, rfl, rfl⟩
    ((PatternTerm.arranged_mapVariables _ _).settled (by decide +kernel))
    ((PatternTerm.arranged_mapVariables _ _).settled (by decide +kernel)) _⟩

/-! ### Operands with one text -/

/-- A commutative operation `g` of two commutative operations `c`, each of them of a term and an
    operation with the text of the term, in this order or the other one. -/
def sampleClash (swapped : Bool) : PatternTerm :=
  let term := PatternTerm.atom (.build ⟨"f", .plain⟩ [.ofName "a"])
  let operation := PatternTerm.node ⟨"f", .plain⟩ [.symbol "a"]
  let anything := PatternTerm.wildcard (.fixed none)
  .node ⟨"g", .commutative⟩ [.node ⟨"c", .commutative⟩ [term, operation, anything],
    .node ⟨"c", .commutative⟩ (if swapped then [operation, term, anything]
      else [term, operation, anything])]

/-- The pattern of such an operation. -/
def sampleClashPattern (swapped : Bool) : Pattern where
  tree := (sampleClash swapped).mapVariables id
  variableKinds := .empty

/-- A subject that it matches. -/
def sampleClashSubject : Term :=
  let fits := fun last => Term.build ⟨"c", .commutative⟩
    [.build ⟨"f", .plain⟩ [.ofName "a"], .build ⟨"f", .plain⟩ [.ofName "a"], .integer last]
  .build ⟨"g", .commutative⟩ [fits 1, fits 2]

/-- **Different operands with one text** stay in the order in which they are written.  So two
    operations with the same operands count as one where these are written in the same
    order, and as two where they are not, which shows in the number of matches. -/
theorem equal_texts_tell_orders_apart :
    (sampleClashPattern true).Built ∧ (sampleClashPattern false).Built ∧
    Pattern.IsVariant .empty (sampleClash true) (sampleClash false) (sampleClashPattern true)
      (sampleClashPattern false) ∧
    sampleClashSubject.Canonical ∧
    ¬ ((Net.ofPatterns [sampleClashPattern false]).matches sampleClashSubject).Perm
      (((Net.ofPatterns [sampleClashPattern true]).matches sampleClashSubject).map fun found =>
        (found.1, found.2.relabel NameMap.empty.rename)) := by
  have hlengths : ((Net.ofPatterns [sampleClashPattern false]).matches
        sampleClashSubject).length = 1 ∧
      ((Net.ofPatterns [sampleClashPattern true]).matches sampleClashSubject).length = 2 := by
    decide +kernel
  have htree : ∀ swapped, Pattern.ofTree (sampleClashPattern swapped).tree =
      .ok (sampleClashPattern swapped) := fun swapped => by cases swapped <;> rfl
  have halike : Alike Eq (sampleClash true) (sampleClash false) := by
    refine .node (.refl _ _) (.cons (.refl _) (.cons ?_ .nil))
    exact .node ((Head.Reorders.iff_perm rfl).mpr (.swap _ _ _))
      (List.forall₂_same.mpr fun p _ => .refl p)
  have hnames : (sampleClash true).variableNames = [] := by decide +kernel
  have hterm : (Term.build ⟨"f", .plain⟩ [.ofName "a"]).Canonical :=
    .build _ fun t ht => List.mem_singleton.mp ht ▸ .symbol _
  have hfits : ∀ last : Int64, (Term.build ⟨"c", .commutative⟩
      [.build ⟨"f", .plain⟩ [.ofName "a"], .build ⟨"f", .plain⟩ [.ofName "a"],
        .integer last]).Canonical := by
    refine fun last => .build _ ?_
    simp only [List.forall_mem_cons, List.not_mem_nil, false_implies, implies_true, and_true]
    exact ⟨hterm, hterm, .integer last⟩
  refine ⟨.ofTree (htree true), .ofTree (htree false), ⟨halike, ?_, rfl, rfl, rfl, rfl⟩,
    .build _ ?_, fun hperm => ?_⟩
  · have hnone : ∀ x, x ∉ (sampleClash true).variableNames := by simp [hnames]
    exact fun x hx => absurd hx (hnone x)
  · simp only [List.forall_mem_cons, List.not_mem_nil, false_implies, implies_true, and_true]
    exact ⟨hfits 1, hfits 2⟩
  · have hlength := hperm.length_eq
    rw [List.length_map, hlengths.1, hlengths.2] at hlength
    exact absurd hlength (by decide)

end TermNet
