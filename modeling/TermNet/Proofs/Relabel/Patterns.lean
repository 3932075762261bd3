import Mathlib.Logic.Equiv.Fintype
import TermNet.Proofs.Net.Resolved
import TermNet.Proofs.Relabel.Operands

namespace TermNet

/-!
# Alike patterns match alike

The variables of a pattern are named by their positions while it is matched.  These
positions change with the order of the arguments, so that one renaming of the positional
names belongs to a renaming of the declared ones.

* `PatternTerm.places_of_alike` — the places behind alike trees are the same in some order,
  apart from the names;
* `Pattern.AlikeBy` — patterns that are alike once the variables of the first are renamed;
* `AlikeBy.exists_rename` — the renaming of the positional names;
* `AlikeBy.solutions` — alike patterns have the same matches, apart from the names;
* `AlikeBy.resolved` — their custom constraints stand for the same functions.
-/

/-! ### Alike trees -/

section Trees

variable {rename : String → String} {p q : PatternTerm} {head : Head}
variable {args others : List PatternTerm}

/-- Behind the second tree are the places behind the first one, with renamed variables. -/
def PlacesRenamed (rename : String → String) (p q : PatternTerm) : Prop :=
  ∀ constraints parent place,
    (q.places (constraints.map (·.relabel rename)) parent (place.relabel rename)).Perm
      ((p.places constraints parent place).map (·.relabel rename))

section Injective

variable (hrename : Function.Injective rename) {constraints : List Constraint}
  {parent : Option Head} {place : Place}

include hrename

/-- A label that is no operation, followed by steps that rename their places. -/
theorem flatMap_advance_relabel (label : Label) (hlabel : ∀ index, label ≠ .operands index)
    {next more : Place → List Place}
    (hnext : ∀ place, (more (place.relabel rename)).Perm ((next place).map (·.relabel rename))) :
    ((label.advance none none (place.relabel rename)).flatMap more).Perm
      (((label.advance none none place).flatMap next).map (·.relabel rename)) := by
  have hadvance := Label.advance_relabel hrename none place none none label hlabel
  rw [Option.map_none] at hadvance
  rw [hadvance, List.flatMap_map, List.map_flatMap]
  exact List.Perm.flatMap_left _ fun after _ => hnext after

omit hrename in
/-- The places behind alike lists of arguments are the renamed places, in some order. -/
theorem placesAll_of_alike (hargs : List.Forall₂ (PlacesRenamed rename) args others)
    (constraints : List Constraint) (head : Head) (place : Place) :
    (placesAll (constraints.map (·.relabel rename)) head others (place.relabel rename)).Perm
      ((placesAll constraints head args place).map (·.relabel rename)) := by
  induction hargs generalizing place with
  | nil => exact .refl _
  | @cons p q args others hpq _ ih =>
    rw [placesAll, placesAll, List.map_flatMap]
    refine ((hpq constraints (some head) place).flatMap_right _).trans ?_
    rw [List.flatMap_map]
    exact List.Perm.flatMap_left _ fun after _ => ih after

/-- Alike operands have the same matches, apart from the names. -/
theorem solutions_of_alike (halike : AlikeBy rename p q) (hplaces : PlacesRenamed rename p q)
    (constraints : List Constraint) (t : Term) :
    (OperandPattern.solutions
      ⟨q, operandConstraints (constraints.map (·.relabel rename)) q⟩ t).Perm
        ((OperandPattern.solutions ⟨p, operandConstraints constraints p⟩ t).map
          (·.relabel rename)) := by
  unfold OperandPattern.solutions
  rw [operandConstraints_of_alike hrename halike]
  refine accepted_relabel hrename ?_ fun place _ =>
    renamed_samePairs_relabel hrename halike place.subst
  exact hplaces (operandConstraints constraints p) none (.ofSubject t)

/-- A commutative operation. -/
theorem places_of_alike_commutative (hcomm : head.isCommutative = true)
    (hargs : ArgsAlike (fun x y => y = rename x) head args others)
    (hsettled : (PatternTerm.node head args).Settled)
    (hsettled' : (PatternTerm.node head others).Settled)
    (hplaces : ∀ p ∈ args, ∀ q ∈ others, AlikeBy rename p q → PlacesRenamed rename p q) :
    PlacesRenamed rename (.node head args) (.node head others) := by
  intro constraints parent place
  rw [PatternTerm.places, PatternTerm.places, if_pos hcomm, if_pos hcomm]
  refine flatMap_advance_relabel hrename (.commutative head) (by simp) fun place => ?_
  simp only [Label.advance, show (place.relabel rename).queue = place.queue from rfl]
  cases place.queue.takeIf? fun _ => true with
  | none => exact .refl _
  | some taken =>
    obtain ⟨item, rest⟩ := taken
    have hsolve := solve_alone_of_alike hrename constraints hcomm hargs hsettled
      hsettled' (fun p hp q hq hpq => solutions_of_alike hrename hpq (hplaces p hp q hq hpq)
        constraints) item.args place.subst
    refine (hsolve.map _).trans (.of_eq ?_)
    rw [List.map_map, List.map_map]
    rfl

/-- **Alike trees are matched alike:** the places behind them are the same in some order,
    apart from the names. -/
theorem PatternTerm.places_of_alike (halike : AlikeBy rename p q) (hsettled : p.Settled)
    (hsettled' : q.Settled) : PlacesRenamed rename p q := by
  induction p using PatternTerm.inductionOn generalizing q with
  | atom t =>
    obtain rfl := alike_atom.mp halike
    intro constraints parent place
    have hadvance := Label.advance_relabel hrename none place none none (.atom t)
      (by simp)
    rw [places, places]
    exact .of_eq hadvance
  | wildcard w =>
    obtain ⟨name, hname, rfl⟩ := alike_wildcard.mp halike
    intro constraints parent place
    rw [places, places, eq_map_of_rel hname]
    have hlabel : ∀ index, (wildcardStep parent w).label ≠ .operands index := by
      intro index
      unfold wildcardStep
      dsimp only
      split <;> simp
    exact .of_eq (Label.advance_relabel hrename w.name place none none _ hlabel)
  | node head args ih =>
    obtain ⟨others, rfl, hargs⟩ := alike_node.mp halike
    cases hcomm : head.isCommutative with
    | true =>
      exact places_of_alike_commutative hrename hcomm hargs hsettled hsettled' fun p hp q hq hpq =>
        ih p hp hpq (hsettled.of_mem p hp) (hsettled'.of_mem q hq)
    | false =>
      intro constraints parent place
      obtain ⟨middle, hreorder, hargs⟩ := hargs
      -- The arguments of an ordered operation correspond one to one, in order.
      obtain rfl := (Head.Reorders.iff_eq hcomm).mp hreorder
      have hplaces : List.Forall₂ (PlacesRenamed rename) args others := by
        have hleft := (List.forall₂_and_left args others).mpr ⟨fun p hp => hp, hargs⟩
        have hboth := ((List.forall₂_and_left others args).mpr ⟨fun q hq => hq, hleft.flip⟩).flip
        refine hboth.imp ?_
        rintro p q ⟨hq, hp, hpq⟩
        exact ih p hp hpq (hsettled.of_mem p hp) (hsettled'.of_mem q hq)
      rw [places, places, if_neg (Bool.eq_false_iff.mp hcomm), if_neg (Bool.eq_false_iff.mp hcomm)]
      refine flatMap_advance_relabel hrename (.enter head) (by simp) fun inside => ?_
      rw [List.map_flatMap]
      refine ((placesAll_of_alike hplaces constraints head inside).flatMap_right _).trans ?_
      rw [List.flatMap_map]
      refine List.Perm.flatMap_left _ fun after _ => .of_eq ?_
      exact Label.advance_relabel hrename none after none none .close (by simp)

end Injective

end Trees

/-! ### Alike patterns -/

namespace Pattern

/-- **The patterns are alike** once the variables of the first one are renamed, its constraints
    with them, and different variables keep different names. -/
structure AlikeBy (declared : String → String) (pattern other : Pattern) : Prop where
  tree : TermNet.AlikeBy declared pattern.tree other.tree
  injective : Set.InjOn declared {x | x ∈ pattern.tree.variableNames}
  constraints : other.constraints = pattern.constraints.map (·.relabel declared)
  globals : other.globals = pattern.globals.map (·.relabel declared)

variable {pattern other : Pattern} {declared : String → String}

/-- Positions tell variables apart. -/
theorem position_injOn (pattern : Pattern) :
    Set.InjOn pattern.position {x | x ∈ pattern.tree.variableNames} := by
  intro x hx y hy heq
  obtain ⟨position, hposition⟩ := PatternTerm.exists_positionalName _ hx
  obtain ⟨more, hmore⟩ := PatternTerm.exists_positionalName _ hy
  rw [position_eq hposition, position_eq hmore] at heq
  exact PatternTerm.positionalNames_injective _ hposition (heq ▸ hmore)

/-- The variables of a pattern are renamed to those of an alike one. -/
theorem AlikeBy.mem_variableNames (h : pattern.AlikeBy declared other) {x : String}
    (hx : x ∈ pattern.tree.variableNames) : declared x ∈ other.tree.variableNames :=
  (mem_variableNames_of_alike h.tree).mpr ⟨x, hx, rfl⟩

/-- **The positional names are renamed** along with the declared ones. -/
theorem AlikeBy.exists_rename (h : pattern.AlikeBy declared other) :
    ∃ rename : String → String, Function.Injective rename ∧
      ∀ x ∈ pattern.tree.variableNames,
        rename (pattern.position x) = other.position (declared x) := by
  have hdeclared : Set.InjOn (fun x => other.position (declared x))
      {x | x ∈ pattern.tree.variableNames} := fun x hx y hy heq =>
    h.injective hx hy (other.position_injOn (h.mem_variableNames hx) (h.mem_variableNames hy) heq)
  obtain ⟨rename, hrename⟩ := Equiv.Perm.exists_extending_pair
    (fun x : {x // x ∈ pattern.tree.variableNames} => pattern.position x)
    (fun x => other.position (declared x)) (Set.injOn_iff_injective.mp pattern.position_injOn)
    (Set.injOn_iff_injective.mp hdeclared)
  exact ⟨rename, rename.injective, fun x hx => hrename ⟨x, hx⟩⟩

section Rename

variable {rename : String → String}
  (hrename : ∀ x ∈ pattern.tree.variableNames,
    rename (pattern.position x) = other.position (declared x))

include hrename

/-- The positional trees are alike. -/
theorem AlikeBy.positionalTree (h : pattern.AlikeBy declared other) :
    TermNet.AlikeBy rename pattern.positionalTree other.positionalTree := by
  refine h.tree.mapVariables fun x hx y hy => ?_
  show other.position y = rename (pattern.position x)
  rw [hrename x hx, hy]

/-- The constraints on the positional variables are renamed. -/
theorem map_positional_relabel {cs : List Constraint}
    (hcs : ∀ c ∈ cs, ∀ x ∈ c.variableNames, x ∈ pattern.tree.variableNames) :
    (cs.map (·.relabel declared)).map (·.renamed other.tree.positionalNames) =
      (cs.map (·.renamed pattern.tree.positionalNames)).map (·.relabel rename) := by
  rw [List.map_map, List.map_map]
  refine List.map_congr_left fun c hc => ?_
  have hnames : (c.variableNames.map declared).map other.position =
      (c.variableNames.map pattern.position).map rename := by
    rw [List.map_map, List.map_map]
    exact List.map_congr_left fun x hx => (hrename x (hcs c hc x hx)).symm
  exact congrArg (Constraint.mk c.check) hnames

/-- Going back from the positional names to the declared ones. -/
theorem AlikeBy.renamed_relabel (h : pattern.AlikeBy declared other)
    (hinjective : Function.Injective rename) (σ : Substitution) :
    (σ.relabel rename).renamed other.tree.positionalNames.entries =
      (σ.renamed pattern.tree.positionalNames.entries).relabel declared := by
  have hbound : ∀ x, (σ.renamed pattern.tree.positionalNames.entries).Binds x →
      x ∈ pattern.tree.variableNames := by
    rintro x ⟨binding, hx⟩
    by_contra hmem
    rw [pattern.find?_renamed_of_not_mem σ hmem] at hx
    simp at hx
  have hfind : ∀ x ∈ pattern.tree.variableNames,
      ((σ.relabel rename).renamed other.tree.positionalNames.entries).find? (declared x) =
        (σ.renamed pattern.tree.positionalNames.entries).find? x := by
    intro x hx
    rw [other.find?_renamed_position _ (h.mem_variableNames hx), ← hrename x hx,
      Substitution.find?_relabel hinjective, pattern.find?_renamed_position σ hx]
  -- Only declared variables are bound on either side, and for these both ways agree.
  refine NameMap.ext_some fun name binding => ?_
  rw [Substitution.find?_relabel_eq_some_iff fun x y hx hy =>
    h.injective (hbound x hx) (hbound y hy)]
  constructor
  · intro hbinding
    have hname : name ∈ other.tree.variableNames := by
      by_contra hmem
      rw [other.find?_renamed_of_not_mem _ hmem] at hbinding
      simp at hbinding
    obtain ⟨x, hx, rfl⟩ := (mem_variableNames_of_alike h.tree).mp hname
    exact ⟨x, rfl, hfind x hx ▸ hbinding⟩
  · rintro ⟨x, rfl, hx⟩
    rw [hfind x (hbound x ⟨binding, hx⟩), hx]

end Rename

/-- Alike patterns have alike constraints on their positional variables. -/
theorem AlikeBy.positionalConstraints (h : pattern.AlikeBy declared other) (hbuilt : pattern.Built)
    {rename : String → String} (hrename : ∀ x ∈ pattern.tree.variableNames,
      rename (pattern.position x) = other.position (declared x)) :
    other.positionalLocals = pattern.positionalLocals.map (·.relabel rename) ∧
      other.positionalGlobals = pattern.positionalGlobals.map (·.relabel rename) := by
  have hknown : ∀ c ∈ pattern.constraints ++ pattern.globals,
      ∀ x ∈ c.variableNames, x ∈ pattern.tree.variableNames := fun c hc =>
    (hbuilt.constraint c hc).2
  rw [positionalLocals, positionalGlobals, h.constraints, h.globals]
  exact ⟨map_positional_relabel hrename fun c hc => hknown c (List.mem_append_left _ hc),
    map_positional_relabel hrename fun c hc => hknown c (List.mem_append_right _ hc)⟩

/-- **Alike patterns have the same matches,** apart from the names. -/
theorem AlikeBy.solutions (h : pattern.AlikeBy declared other) (hbuilt : pattern.Built)
    (hsettled : pattern.positionalTree.Settled) (hsettled' : other.positionalTree.Settled)
    (t : Term) :
    (other.solutions t).Perm ((pattern.solutions t).map (·.relabel declared)) := by
  obtain ⟨rename, hinjective, hrename⟩ := h.exists_rename
  obtain ⟨hlocals, hglobals⟩ := h.positionalConstraints hbuilt hrename
  have hplaces := PatternTerm.places_of_alike hinjective (h.positionalTree hrename) hsettled
    hsettled' pattern.positionalLocals none (.ofSubject t)
  rw [Pattern.solutions, Pattern.solutions, hlocals, hglobals, ← List.map_append]
  exact accepted_relabel hinjective hplaces fun place _ =>
    h.renamed_relabel hrename hinjective place.subst

/-! ### Custom constraints -/

/-- Renaming keeps the function of a custom constraint. -/
theorem function?_relabel {rename : String → String} (hrename : Function.Injective rename)
    (path : String) (names : List String) (c : Constraint) :
    (c.relabel rename).function? path (names.map rename) = c.function? path names := by
  obtain ⟨check, own⟩ := c
  cases check with
  | builtin predicate => rfl
  | custom other f =>
    have hnames : own.map rename = names.map rename ↔ own = names :=
      (List.map_injective_iff.mpr hrename).eq_iff
    simp [Constraint.function?, Constraint.relabel, hnames]

/-- Custom constraints on renamed variables stand for the same functions. -/
theorem firstMeaning_relabel {rename : String → String} (hrename : Function.Injective rename)
    (cs : List Constraint) (path : String) (names : List String) :
    firstMeaning (cs.map (·.relabel rename)) path (names.map rename) =
      firstMeaning cs path names := by
  unfold firstMeaning
  rw [List.findSome?_map]
  refine congrArg (fun find => (List.findSome? find cs).getD fun _ => true) (funext fun c => ?_)
  exact function?_relabel hrename path names c

/-- **Alike patterns resolve their custom constraints alike.** -/
theorem AlikeBy.resolved (h : pattern.AlikeBy declared other) (hbuilt : pattern.Built) :
    pattern.resolved.AlikeBy declared other.resolved := by
  obtain ⟨rename, hinjective, hrename⟩ := h.exists_rename
  obtain ⟨hlocals, hglobals⟩ := h.positionalConstraints hbuilt hrename
  have hresolve : ∀ c ∈ pattern.constraints ++ pattern.globals,
      other.resolve (c.relabel declared) = (pattern.resolve c).relabel declared := by
    intro c hc
    have hnames : (c.variableNames.map declared).map other.position =
        (c.variableNames.map pattern.position).map rename := by
      rw [List.map_map, List.map_map]
      exact List.map_congr_left fun x hx => (hrename x ((hbuilt.constraint c hc).2 x hx)).symm
    -- The first constraint with a path is at the same place in both patterns.
    have hmeaning : ∀ path, other.ownMeaning path ((c.variableNames.map declared).map
        other.position) = pattern.ownMeaning path (c.variableNames.map pattern.position) := by
      intro path
      rw [hnames, ownMeaning, hlocals, hglobals, ← List.map_append]
      exact firstMeaning_relabel hinjective _ path _
    refine congrArg (Constraint.mk · (c.variableNames.map declared)) ?_
    exact congrArg c.check.interpret (funext hmeaning)
  refine ⟨h.tree, h.injective, ?_, ?_⟩
  · show other.constraints.map other.resolve = (pattern.constraints.map pattern.resolve).map _
    rw [h.constraints, List.map_map, List.map_map]
    exact List.map_congr_left fun c hc => hresolve c (List.mem_append_left _ hc)
  · show other.globals.map other.resolve = (pattern.globals.map pattern.resolve).map _
    rw [h.globals, List.map_map, List.map_map]
    exact List.map_congr_left fun c hc => hresolve c (List.mem_append_right _ hc)

end Pattern

end TermNet
