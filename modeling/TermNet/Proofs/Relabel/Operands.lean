import TermNet.Proofs.Pattern.Alike
import TermNet.Proofs.Pattern.Scope
import TermNet.Proofs.Pattern.Shares
import TermNet.Proofs.Relabel.Commutative

namespace TermNet

/-!
# Operands and sequence variables of alike arguments

Sequence variables are counted in the order of the arguments.  Another order of the
arguments gives the same variables with the same counts, in another order.

* `CountedApart` — named variables differ apart from their counts;
* `addSequenceVariable_comm`, `addSequenceVariable_perm` — counting two variables in either
  order, and after others in any order;
* `sequenceVariables_perm` — the sequence variables of reordered and renamed arguments;
* `AlikeBy rename` — alike trees, the names of one being the renamed ones of the other;
* `sequenceVariable?_of_alike`, `operandConstraints_of_alike` — what becomes of arguments
  and of constraints;
* `accepted_relabel` — the results at the end of a pattern;
* `solve_alone_of_alike` — alike arguments find the same, apart from the names.
-/

section Counting

variable {var other known : SequenceVariable} {vars rest : List SequenceVariable}

/-! ### Counting one variable -/

/-- The variable is counted with `known`. -/
def SequenceVariable.CountsWith (var known : SequenceVariable) : Prop :=
  known.name.isSome = true ∧ var.base = known.base

/-- One more occurrence. -/
def SequenceVariable.more (known : SequenceVariable) : SequenceVariable :=
  { known with count := known.count + 1 }

/-- A variable that counts with the first one raises its count. -/
theorem addSequenceVariable_of_countsWith (h : var.CountsWith known) :
    addSequenceVariable var (known :: rest) = known.more :: rest := by
  rw [addSequenceVariable, if_pos]
  · rfl
  · simp [h.1, count_eq_iff.mpr h.2]

/-- Any other variable is counted with those behind it. -/
theorem addSequenceVariable_of_not_countsWith (h : ¬ var.CountsWith known) :
    addSequenceVariable var (known :: rest) = known :: addSequenceVariable var rest := by
  rw [addSequenceVariable, if_neg]
  rw [Bool.and_eq_true, decide_eq_true_eq, count_eq_iff]
  exact h

/-- **Two occurrences** are counted in either order. -/
theorem addSequenceVariable_comm (hvar : var.base = var) (hother : other.base = other)
    (vars : List SequenceVariable) :
    (addSequenceVariable var (addSequenceVariable other vars)).Perm
      (addSequenceVariable other (addSequenceVariable var vars)) := by
  induction vars with
  | nil =>
    show (addSequenceVariable var [other]).Perm (addSequenceVariable other [var])
    by_cases heq : var = other
    · rw [heq]
    · have hvars : ¬ var.CountsWith other := fun h => heq (hvar ▸ hother ▸ h.2)
      have hothers : ¬ other.CountsWith var := fun h => heq (hvar ▸ hother ▸ h.2.symm)
      rw [addSequenceVariable_of_not_countsWith hvars,
        addSequenceVariable_of_not_countsWith hothers]
      exact .swap var other []
  | cons known rest ih =>
    -- a known variable goes on counting the same occurrences once it has counted one more
    have hmore : ∀ {var : SequenceVariable}, var.CountsWith known.more ↔ var.CountsWith known :=
      Iff.rfl
    by_cases hvars : var.CountsWith known <;> by_cases hothers : other.CountsWith known
    · rw [addSequenceVariable_of_countsWith hothers, addSequenceVariable_of_countsWith hvars,
        addSequenceVariable_of_countsWith (hmore.mpr hvars),
        addSequenceVariable_of_countsWith (hmore.mpr hothers)]
    · rw [addSequenceVariable_of_not_countsWith hothers, addSequenceVariable_of_countsWith hvars,
        addSequenceVariable_of_countsWith hvars,
        addSequenceVariable_of_not_countsWith (mt hmore.mp hothers)]
    · rw [addSequenceVariable_of_countsWith hothers, addSequenceVariable_of_not_countsWith hvars,
        addSequenceVariable_of_not_countsWith (mt hmore.mp hvars),
        addSequenceVariable_of_countsWith hothers]
    · rw [addSequenceVariable_of_not_countsWith hothers,
        addSequenceVariable_of_not_countsWith hvars, addSequenceVariable_of_not_countsWith hvars,
        addSequenceVariable_of_not_countsWith hothers]
      exact ih.cons known

/-! ### Counting after other variables -/

/-- Named variables differ apart from their counts. -/
def CountedApart (vars : List SequenceVariable) : Prop :=
  vars.Pairwise fun v w => v.name.isSome = true → v.base ≠ w.base

/-- Counting one more occurrence keeps variables apart. -/
theorem CountedApart.addSequenceVariable (h : CountedApart vars) :
    CountedApart (addSequenceVariable var vars) := by
  induction vars with
  | nil => exact List.pairwise_singleton _ _
  | cons known rest ih =>
    obtain ⟨hfirst, hrest⟩ := List.pairwise_cons.mp h
    by_cases hknown : var.CountsWith known
    · rw [addSequenceVariable_of_countsWith hknown]
      exact List.pairwise_cons.mpr ⟨hfirst, hrest⟩
    · rw [addSequenceVariable_of_not_countsWith hknown]
      refine List.pairwise_cons.mpr ⟨fun v hv hname heq => ?_, ih hrest⟩
      rcases base_of_mem_addSequenceVariable hv with hvar | ⟨w, hw, hbase⟩
      · exact hknown ⟨hname, (heq.trans hvar).symm⟩
      · exact hfirst w hw hname (heq.trans hbase)

/-- The order of variables does not matter to whether they are apart. -/
theorem CountedApart.perm {others : List SequenceVariable} (h : CountedApart vars)
    (hperm : vars.Perm others) : CountedApart others := by
  refine (hperm.pairwise_iff fun {v w} hvw hname heq => ?_).mp h
  have hnames : w.base.name = v.base.name := congrArg SequenceVariable.name heq
  have hnames' : w.name = v.name := hnames
  exact hvw (hnames' ▸ hname) heq.symm

/-- The variables that were counted before may stand in any order. -/
theorem addSequenceVariable_perm {others : List SequenceVariable} (hperm : vars.Perm others)
    (h : CountedApart vars) :
    (addSequenceVariable var vars).Perm (addSequenceVariable var others) := by
  induction hperm with
  | nil => exact .refl _
  | cons known hrest ih =>
    by_cases hknown : var.CountsWith known
    · rw [addSequenceVariable_of_countsWith hknown, addSequenceVariable_of_countsWith hknown]
      exact hrest.cons _
    · rw [addSequenceVariable_of_not_countsWith hknown,
        addSequenceVariable_of_not_countsWith hknown]
      exact (ih (List.pairwise_cons.mp h).2).cons known
  | swap v w rest =>
    by_cases hv : var.CountsWith v <;> by_cases hw : var.CountsWith w
    -- It would be counted with both, which are the same then.
    · have hapart := (List.pairwise_cons.mp h).1 v List.mem_cons_self hw.1
      exact absurd (hw.2.symm.trans hv.2) hapart
    · rw [addSequenceVariable_of_not_countsWith hw, addSequenceVariable_of_countsWith hv,
        addSequenceVariable_of_countsWith hv]
      exact .swap _ _ _
    · rw [addSequenceVariable_of_countsWith hw, addSequenceVariable_of_not_countsWith hv,
        addSequenceVariable_of_countsWith hw]
      exact .swap _ _ _
    · rw [addSequenceVariable_of_not_countsWith hw, addSequenceVariable_of_not_countsWith hv,
        addSequenceVariable_of_not_countsWith hv, addSequenceVariable_of_not_countsWith hw]
      exact .swap _ _ _
  | trans hfirst _ ih₁ ih₂ => exact (ih₁ h).trans (ih₂ (h.perm hfirst))

/-! ### Counting all occurrences -/

/-- Count the occurrences of a list one after the other. -/
abbrev tally (known occurrences : List SequenceVariable) : List SequenceVariable :=
  occurrences.foldl (fun known var => addSequenceVariable var known) known

/-- The order of the variables that have been counted does not matter. -/
theorem tally_perm_of_known {known more : List SequenceVariable} (hperm : known.Perm more)
    (h : CountedApart known) (occurrences : List SequenceVariable) :
    (tally known occurrences).Perm (tally more occurrences) := by
  induction occurrences generalizing known more with
  | nil => exact hperm
  | cons var rest ih => exact ih (addSequenceVariable_perm hperm h) h.addSequenceVariable

/-- **Occurrences are counted in any order.** -/
theorem tally_perm {known occurrences others : List SequenceVariable} (hknown : CountedApart known)
    (hbase : ∀ v ∈ occurrences, v.base = v) (hperm : occurrences.Perm others) :
    (tally known occurrences).Perm (tally known others) := by
  induction hperm generalizing known with
  | nil => exact .refl _
  | cons var _ ih =>
    exact ih hknown.addSequenceVariable fun v hv => hbase v (List.mem_cons_of_mem _ hv)
  | swap var other rest =>
    have hcomm := addSequenceVariable_comm (hbase var (by simp)) (hbase other (by simp)) known
    exact tally_perm_of_known hcomm hknown.addSequenceVariable.addSequenceVariable rest
  | trans hfirst _ ih₁ ih₂ =>
    exact (ih₁ hknown hbase).trans (ih₂ hknown fun v hv => hbase v (hfirst.mem_iff.mpr hv))

section Injective

variable {rename : String → String} (hrename : Function.Injective rename)

include hrename

/-- Variables count together after renaming if they did before. -/
theorem SequenceVariable.countsWith_relabel :
    (var.relabel rename).CountsWith (known.relabel rename) ↔ var.CountsWith known := by
  obtain ⟨name, count, minCount, default, fixed, wrap⟩ := var
  obtain ⟨name', count', minCount', default', fixed', wrap'⟩ := known
  have hnames : name.map rename = name'.map rename ↔ name = name' :=
    (Option.map_injective hrename).eq_iff
  simp [CountsWith, base, relabel, hnames]

/-- Renaming variables, and counting one more, in either order. -/
theorem addSequenceVariable_relabel :
    addSequenceVariable (var.relabel rename) (vars.map (·.relabel rename)) =
      (addSequenceVariable var vars).map (·.relabel rename) := by
  induction vars with
  | nil => rfl
  | cons known rest ih =>
    rw [List.map_cons]
    by_cases hknown : var.CountsWith known
    · rw [addSequenceVariable_of_countsWith hknown, addSequenceVariable_of_countsWith
        ((SequenceVariable.countsWith_relabel hrename).mpr hknown)]
      rfl
    · rw [addSequenceVariable_of_not_countsWith hknown, addSequenceVariable_of_not_countsWith
        (mt (SequenceVariable.countsWith_relabel hrename).mp hknown), ih]
      rfl

/-- Renaming variables, and counting occurrences, in either order. -/
theorem tally_relabel (known occurrences : List SequenceVariable) :
    tally (known.map (·.relabel rename)) (occurrences.map (·.relabel rename)) =
      (tally known occurrences).map (·.relabel rename) := by
  induction occurrences generalizing known with
  | nil => rfl
  | cons var rest ih =>
    show tally (addSequenceVariable (var.relabel rename) (known.map (·.relabel rename)))
      (rest.map (·.relabel rename)) = _
    rw [addSequenceVariable_relabel hrename]
    exact ih (addSequenceVariable var known)

/-- **The sequence variables of reordered and renamed arguments** are the renamed ones, in
    another order. -/
theorem sequenceVariables_perm {head : Head} {args others : List PatternTerm}
    (h : (occurring head others).Perm ((occurring head args).map (·.relabel rename))) :
    (sequenceVariables head others).Perm
      ((sequenceVariables head args).map (·.relabel rename)) := by
  have htally := tally_perm .nil (fun v hv => base_of_mem_occurring hv) h
  exact htally.trans (.of_eq (tally_relabel hrename [] _))

end Injective

end Counting

/-! ### Alike arguments -/

open CommutativePattern (fits)

variable {rename : String → String}

/-- Trees that are alike once the variables of the first are renamed. -/
abbrev AlikeBy (rename : String → String) : PatternTerm → PatternTerm → Prop :=
  Alike fun x y => y = rename x

variable {p q : PatternTerm} {head : Head} {args others : List PatternTerm}

/-! ### Names -/

/-- The variables of one tree are the renamed ones of the other. -/
theorem mem_variableNames_of_alike (h : AlikeBy rename p q) {y : String} :
    y ∈ q.variableNames ↔ ∃ x ∈ p.variableNames, rename x = y := by
  constructor
  · intro hy
    obtain ⟨x, hx, hxy⟩ := h.flip.exists_name hy
    exact ⟨x, hx, hxy.symm⟩
  · rintro ⟨x, hx, rfl⟩
    obtain ⟨y, hy, rfl⟩ := h.exists_name hx
    exact hy

/-- Related names are renamed ones. -/
theorem eq_map_of_rel {a b : Option String} (h : Option.Rel (fun x y => y = rename x) a b) :
    b = a.map rename := by
  cases h with
  | some h => exact congrArg some h
  | none => rfl

/-- What becomes of a wildcard does not depend on its name. -/
theorem sequenceVariable?_renamed (head : Head) (w : Wildcard) (rename : String → String) :
    sequenceVariable? head (w.renamed (w.name.map rename)) =
      (sequenceVariable? head w).map (·.relabel rename) := by
  obtain ⟨name, extent, default⟩ := w
  cases extent with
  | run minCount => rfl
  | one kind =>
    unfold sequenceVariable?
    dsimp only [Wildcard.renamed, Wildcard.isOptional]
    split
    · rfl
    · cases default <;> rfl

/-- Alike arguments are the same sequence variable, but for its name. -/
theorem sequenceVariable?_of_alike (h : AlikeBy rename p q) (head : Head) :
    q.sequenceVariable? head = (p.sequenceVariable? head).map (·.relabel rename) := by
  cases h with
  | atom t => rfl
  | wildcard hname =>
    rw [eq_map_of_rel hname]
    exact sequenceVariable?_renamed head _ rename
  | node _ _ => rfl

/-- **The occurrences of sequence variables** among alike arguments. -/
theorem occurring_of_alike (h : ArgsAlike (fun x y => y = rename x) head args others) :
    (occurring head others).Perm ((occurring head args).map (·.relabel rename)) := by
  obtain ⟨middle, hreorder, hargs⟩ := h
  have hmiddle : occurring head others = (occurring head middle).map (·.relabel rename) := by
    clear hreorder
    induction hargs with
    | nil => rfl
    | @cons p q _ _ hpq _ ih =>
      unfold occurring at ih ⊢
      rw [List.filterMap_cons, List.filterMap_cons, sequenceVariable?_of_alike hpq, ih]
      cases p.sequenceVariable? head <;> rfl
  rw [hmiddle]
  exact ((hreorder.perm.filterMap _).map _).symm

section Injective

variable (hrename : Function.Injective rename)

include hrename

/-- A constraint is about the variables of alike trees, or about neither. -/
theorem isAbout_of_alike (h : AlikeBy rename p q) (c : Constraint) :
    (c.relabel rename).isAbout q.variableNames = c.isAbout p.variableNames := by
  have hmem : ∀ x, rename x ∈ q.variableNames ↔ x ∈ p.variableNames := by
    intro x
    rw [mem_variableNames_of_alike h]
    exact ⟨fun ⟨y, hy, heq⟩ => hrename heq ▸ hy, fun hx => ⟨x, hx, rfl⟩⟩
  rw [Bool.eq_iff_iff]
  simp [Constraint.isAbout, Constraint.relabel, hmem]

/-- **The constraints of an operand** are those of the other one, on renamed variables. -/
theorem operandConstraints_of_alike (h : AlikeBy rename p q) (constraints : List Constraint) :
    operandConstraints (constraints.map (·.relabel rename)) q =
      (operandConstraints constraints p).map (·.relabel rename) := by
  unfold operandConstraints
  rw [List.filter_map]
  refine congrArg _ (List.filter_congr fun c _ => ?_)
  rw [Function.comp_apply, isAbout_of_alike hrename h, Constraint.relabel, List.isEmpty_map]

/-! ### Results -/

/-- Results may be renamed before or after they are restricted to the variables of a tree. -/
theorem renamed_samePairs_relabel (h : AlikeBy rename p q) (σ : Substitution) :
    (σ.relabel rename).renamed (samePairs q.variableNames) =
      (σ.renamed (samePairs p.variableNames)).relabel rename := by
  refine NameMap.ext_some fun name binding => ?_
  rw [Substitution.find?_relabel_iff hrename, find?_renamed_samePairs]
  constructor
  · intro hbinding
    split at hbinding
    · rename_i hname
      obtain ⟨x, hx, rfl⟩ := (mem_variableNames_of_alike h).mp hname
      refine ⟨x, rfl, ?_⟩
      rwa [find?_renamed_samePairs, if_pos hx, ← Substitution.find?_relabel hrename]
    · simp at hbinding
  · rintro ⟨x, rfl, hx⟩
    rw [find?_renamed_samePairs] at hx
    split at hx
    · rename_i hmem
      rw [if_pos ((mem_variableNames_of_alike h).mpr ⟨x, hmem, rfl⟩)]
      rwa [Substitution.find?_relabel hrename]
    · simp at hx

/-- **The results at the end of a pattern** with renamed variables. -/
theorem accepted_relabel {constraints : List Constraint} {pairs more : List (String × String)}
    {declared : String → String} {ends places : List Place}
    (hends : places.Perm (ends.map (·.relabel rename)))
    (hpairs : ∀ place ∈ ends, (place.subst.relabel rename).renamed more =
      (place.subst.renamed pairs).relabel declared) :
    (accepted (constraints.map (·.relabel rename)) more places).Perm
      ((accepted constraints pairs ends).map (·.relabel declared)) := by
  unfold accepted
  refine (hends.filterMap _).trans (.of_eq ?_)
  rw [List.filterMap_map, List.map_filterMap]
  refine List.filterMap_congr fun place hplace => ?_
  have hall : ((constraints.map (·.relabel rename)).all (·.holds (place.subst.relabel rename))) =
      constraints.all (·.holds place.subst) := by
    rw [List.all_map]
    exact congrArg (List.all _) (funext fun c => Constraint.holds_relabel hrename c place.subst)
  rw [Function.comp_apply, Place.relabel, hall, hpairs place hplace]
  cases place.queue.isExhausted && constraints.all (·.holds place.subst) <;> rfl

end Injective

/-! ### Operands -/

/-- The operands among commutative arguments. -/
def operandTrees (head : Head) (args : List PatternTerm) : List PatternTerm :=
  args.filter fun p => (p.sequenceVariable? head).isNone

/-- The operands of an operation are those arguments that are no sequence variables. -/
theorem mem_operandTrees :
    p ∈ operandTrees head args ↔ p ∈ args ∧ p.sequenceVariable? head = none := by
  rw [operandTrees, List.mem_filter, Option.isNone_iff_eq_none]

/-- The trees of operand patterns are the operands. -/
theorem map_tree_operandPatterns (constraints : List Constraint) (head : Head)
    (args : List PatternTerm) :
    (operandPatterns constraints head args).map OperandPattern.tree = operandTrees head args := by
  rw [operandPatterns, List.map_map]
  exact List.map_id _

/-- The operands of the only pattern, by their positions among themselves. -/
theorem operands_alonePattern (constraints : List Constraint) (head : Head)
    (args : List PatternTerm) :
    (alonePattern constraints head args).operands.Perm
      ((operandTrees head args).map fun p => (operandTrees head args).idxOf p) := by
  refine (sortBy_perm _ _).trans (.of_eq ?_)
  unfold aloneNumber
  rw [map_tree_operandPatterns, operandPatterns, List.map_map]
  rfl

/-- The ways to fit an operand, by its tree. -/
theorem fits_idxOf {constraints : List Constraint} (h : p ∈ operandTrees head args) (t : Term) :
    fits ((operandTrees head args).idxOf p) ((alone constraints head args).matchOperand t) =
      OperandPattern.solutions ⟨p, operandConstraints constraints p⟩ t := by
  have hoperand : (⟨p, operandConstraints constraints p⟩ : OperandPattern) ∈
      operandPatterns constraints head args := List.mem_map_of_mem h
  have hnumber : aloneNumber constraints head args ⟨p, operandConstraints constraints p⟩ =
      (operandTrees head args).idxOf p := by
    rw [aloneNumber, map_tree_operandPatterns]
  rw [← hnumber, fits_alone hoperand]

/-- Operands of alike arguments are alike, one by one. -/
theorem exists_perm_operandTrees (h : ArgsAlike (fun x y => y = rename x) head args others) :
    ∃ middle, (operandTrees head args).Perm middle ∧
      List.Forall₂ (AlikeBy rename) middle (operandTrees head others) := by
  obtain ⟨middle, hreorder, hargs⟩ := h
  refine ⟨operandTrees head middle, hreorder.perm.filter _, List.rel_filter ?_ hargs⟩
  intro p q hpq
  simp [sequenceVariable?_of_alike hpq]

/-- Both trees are settled, so that equal operands of one are equal in the other. -/
theorem alike_eq_of_alike {q' : PatternTerm} (h : AlikeBy rename p q) (h' : AlikeBy rename p q') :
    Alike Eq q q' :=
  (h.flip.trans h').imp fun _ _ _ ⟨_, hy, hz⟩ => hy.trans hz.symm

/-- Trees that are like one and the same tree are alike, with the same names. -/
theorem alike_eq_of_alike' (hrename : Function.Injective rename) {p' : PatternTerm}
    (h : AlikeBy rename p q) (h' : AlikeBy rename p' q) : Alike Eq p p' :=
  (h.trans h'.flip).imp fun _ _ _ ⟨_, hy, hz⟩ => hrename (hy.symm.trans hz)

/-- **The operands of alike arguments correspond to one another.**  Both trees are settled, so
    that an operand has one image only, and is the only one with this image. -/
theorem exists_operand_images (hrename : Function.Injective rename)
    (hcomm : head.isCommutative = true)
    (hargs : ArgsAlike (fun x y => y = rename x) head args others)
    (hsettled : (PatternTerm.node head args).Settled)
    (hsettled' : (PatternTerm.node head others).Settled) :
    ∃ image : PatternTerm → PatternTerm,
      (∀ p ∈ operandTrees head args,
        image p ∈ operandTrees head others ∧ AlikeBy rename p (image p)) ∧
      (∀ p ∈ operandTrees head args, ∀ p' ∈ operandTrees head args, image p = image p' → p = p') ∧
      (operandTrees head others).Perm ((operandTrees head args).map image) := by
  obtain ⟨middle, hmiddle, halike⟩ := exists_perm_operandTrees hargs
  have hexists : ∀ p, p ∈ operandTrees head args →
      ∃ q ∈ operandTrees head others, AlikeBy rename p q := fun p hp =>
    Bipartite.exists_row_of_mem halike.flip (hmiddle.mem_iff.mp hp)
  -- Each operand is alike to some operand of the other arguments, and by `hunique` to no more.
  choose! image himage using hexists
  have hunique : ∀ p ∈ operandTrees head args, ∀ q ∈ operandTrees head others,
      AlikeBy rename p q → image p = q := by
    intro p hp q hq hpq
    obtain ⟨hq, hqvar⟩ := mem_operandTrees.mp hq
    obtain ⟨hmem, hvar⟩ := mem_operandTrees.mp (himage p hp).1
    exact hsettled'.eq_of_alike hcomm hmem hq hvar hqvar
      (alike_eq_of_alike (himage p hp).2 hpq)
  refine ⟨image, himage, fun p hp p' hp' heq => ?_, ?_⟩
  · have hq := (himage p hp).2
    rw [heq] at hq
    have hq' := (himage p' hp').2
    obtain ⟨hp, hpvar⟩ := mem_operandTrees.mp hp
    obtain ⟨hp', hpvar'⟩ := mem_operandTrees.mp hp'
    exact hsettled.eq_of_alike hcomm hp hp' hpvar hpvar' (alike_eq_of_alike' hrename hq hq')
  · have hmap : middle.map image = operandTrees head others := by
      have hmem := (List.forall₂_and_left middle (operandTrees head others)).mpr
        ⟨fun p hp => hmiddle.mem_iff.mpr hp, halike⟩
      have hboth := ((List.forall₂_and_left (operandTrees head others) middle).mpr
        ⟨fun q hq => hq, hmem.flip⟩).flip
      refine List.forall₂_eq_eq_eq ▸ List.forall₂_map_left_iff.mpr (hboth.imp ?_)
      exact fun p q h => hunique p h.2.1 q h.1 h.2.2
    rw [← hmap]
    exact (hmiddle.map image).symm

/-- **Alike arguments find the same,** apart from the names. -/
theorem solve_alone_of_alike (hrename : Function.Injective rename) (constraints : List Constraint)
    (hcomm : head.isCommutative = true)
    (hargs : ArgsAlike (fun x y => y = rename x) head args others)
    (hsettled : (PatternTerm.node head args).Settled)
    (hsettled' : (PatternTerm.node head others).Settled)
    (hsolutions : ∀ p ∈ args, ∀ q ∈ others, AlikeBy rename p q → ∀ t,
      (OperandPattern.solutions
        ⟨q, operandConstraints (constraints.map (·.relabel rename)) q⟩ t).Perm
          ((OperandPattern.solutions ⟨p, operandConstraints constraints p⟩ t).map
            (·.relabel rename))) (ts : List Term) (σ : Substitution) :
    ((alone (constraints.map (·.relabel rename)) head others).solve ts (σ.relabel rename) 0).Perm
      (((alone constraints head args).solve ts σ 0).map (·.relabel rename)) := by
  let trees := operandTrees head args
  let trees' := operandTrees head others
  obtain ⟨image, himage, hinjective, himages⟩ :=
    exists_operand_images hrename hcomm hargs hsettled hsettled'
  -- The number of an operand becomes that of its image.
  let label := fun n : Nat => (trees[n]?.map fun p => trees'.idxOf (image p)).getD 0
  have hlabel : ∀ p ∈ trees, label (trees.idxOf p) = trees'.idxOf (image p) := by
    intro p hp
    simp only [label, List.getElem?_idxOf hp, Option.map_some, Option.getD_some]
  have hnumbered : ∀ n ∈ (alonePattern constraints head args).operands,
      ∃ p ∈ trees, trees.idxOf p = n := fun n hn =>
    List.mem_map.mp ((operands_alonePattern constraints head args).mem_iff.mp hn)
  have hlabels : Set.InjOn label {n | n ∈ (alonePattern constraints head args).operands} := by
    intro n hn m hm heq
    obtain ⟨p, hp, rfl⟩ := hnumbered n hn
    obtain ⟨p', hp', rfl⟩ := hnumbered m hm
    rw [hlabel p hp, hlabel p' hp'] at heq
    have himages := (List.idxOf_inj (himage p hp).1).mp heq
    rw [hinjective p hp p' hp' himages]
  rw [solve_alone_eq, solve_alone_eq]
  refine CommutativePattern.matchSorted_relabel hrename (alonePattern constraints head args) _ head
    (sorted_sortBy_le ts) (pairwise_sortBy_le _) (pairwise_sortBy_le _) hlabels ?_
    (sequenceVariables_perm hrename (occurring_of_alike hargs)) ?_ σ
  · refine (operands_alonePattern _ head others).trans ?_
    refine List.Perm.trans ?_ ((operands_alonePattern constraints head args).map label).symm
    refine (himages.map _).trans (.of_eq ?_)
    rw [List.map_map, List.map_map]
    exact List.map_congr_left fun p hp => (hlabel p hp).symm
  · intro n hn t _
    obtain ⟨p, hp, rfl⟩ := hnumbered n hn
    rw [hlabel p hp, fits_idxOf (himage p hp).1, fits_idxOf hp]
    exact hsolutions p (mem_operandTrees.mp hp).1 _ (mem_operandTrees.mp (himage p hp).1).1
      (himage p hp).2 t

end TermNet
