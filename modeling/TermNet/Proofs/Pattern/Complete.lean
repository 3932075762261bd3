import TermNet.Proofs.Pattern.Leaves
import TermNet.Proofs.Pattern.Rebuilt

namespace TermNet

/-!
# Substitutions are found

A target is a substitution that turns a tree into the arguments that are left.  Where the
bindings so far are below the target, one of the places behind the tree has consumed these
arguments, and its bindings are still below the target.

* `LeafFits` — what the target has to bind the leaves to;
* `PatternTerm.Found` — a place behind a tree is found;
* `found_wildcard`, `found_placesAll` — wildcards and ordered arguments;
* `OperandPattern.exists_solution` — an operand is found in its argument;
* `takenBy` — what the occurrences of a sequence variable take;
* `exists_isAloneMatch` — commutative arguments are found;
* `PatternTerm.found` — trees are found.
-/

section Ordered

open CommutativePattern (runBinding runBindings)

/-- What the target `υ` has to bind a leaf below `parent` to: wildcards are fixed and bound
    to one canonical term; a run of an associative operation is not bound to an operation of
    the same head with less than two arguments. -/
def LeafFits (υ : Substitution) (parent : Option Head) : PatternTerm → Prop
  | .atom t => t.isAtom = true
  | .wildcard w => ∃ x kind t, w = ⟨some x, .one kind, none⟩ ∧ υ.find? x = some (.single t) ∧
      t.Canonical ∧ kind.all t.isSymbolOf = true ∧
      (kind = none → ∀ head, parent = some head → head.isAssociative = true →
        ∀ ts, t = .node head ts → 2 ≤ ts.length)
  | .node .. => True

/-- All leaves of a tree fit. -/
def PatternTerm.LeavesFit (υ : Substitution) (parent : Option Head) (p : PatternTerm) : Prop :=
  ∀ leaf ∈ p.leaves parent, LeafFits υ leaf.1 leaf.2

/-- **A place behind the tree is found** for the arguments that the target makes of it. -/
def PatternTerm.Found (υ : Substitution) (constraints : List Constraint) (parent : Option Head)
    (p : PatternTerm) : Prop :=
  ∀ (place : Place) (ts rest : List Term), p.substituteRun υ = some ts →
    place.queue.level = contributed parent ts ++ rest → place.subst.Below υ →
    ∃ after ∈ p.places constraints parent place,
      after.queue = place.queue.withLevel rest ∧ after.subst.Below υ

variable {υ : Substitution} {constraints : List Constraint} {parent : Option Head} {head : Head}
  {args : List PatternTerm}

/-- If the leaves of an operation fit, so do those of an argument. -/
theorem PatternTerm.LeavesFit.arg (h : (node head args).LeavesFit υ parent) {p : PatternTerm}
    (hp : p ∈ args) : p.LeavesFit υ (some head) :=
  fun leaf hleaf => h leaf (mem_leaves_node.mpr ⟨p, hp, hleaf⟩)

/-- Less is asked of a tree that stands by itself. -/
theorem PatternTerm.LeavesFit.alone {p : PatternTerm} (h : p.LeavesFit υ parent) :
    p.LeavesFit υ none := by
  cases p with
  | atom t =>
    intro leaf hleaf
    rw [List.mem_singleton.mp hleaf]
    exact h (parent, .atom t) (List.mem_singleton_self _)
  | wildcard w =>
    obtain ⟨x, kind, t, hw, hfind, hcanonical, hkind, -⟩ := h _ (List.mem_singleton_self _)
    intro leaf hleaf
    rw [List.mem_singleton.mp hleaf]
    exact ⟨x, kind, t, hw, hfind, hcanonical, hkind, fun _ head hhead => by simp at hhead⟩
  | node head args => exact h

/-! ### Wildcards -/

/-- What one term contributes below an associative head, and that it is the term of this
    run. -/
theorem spliced_of_two_le (hassoc : head.isAssociative = true) {t : Term} (ht : t.Canonical)
    (htwo : ∀ ts, t = .node head ts → 2 ≤ ts.length) :
    1 ≤ (Term.spliced head t).length ∧ Term.rewrap head (Term.spliced head t) = t ∧
      Term.arrange head (Term.spliced head t) = Term.spliced head t := by
  cases hhead : t.hasHead head with
  | false =>
    rw [Term.spliced_of_hasHead_false fun _ => hhead]
    refine ⟨Nat.le_refl 1, rfl, ?_⟩
    unfold Term.arrange
    split <;> rfl
  | true =>
    obtain ⟨ts, rfl⟩ := hasHead_iff.mp hhead
    have hlength := htwo ts rfl
    rw [Term.spliced_node_self hassoc, Term.rewrap_of_length_ne_one (by omega)]
    exact ⟨by omega, ht.build_args, ht.arranged⟩

/-- A symbol of some kind stands for itself. -/
theorem spliced_of_isSymbolOf {kind : SymbolKind} {t : Term} (h : t.isSymbolOf kind = true) :
    Term.spliced head t = [t] := by
  cases t with
  | integer value => rfl
  | symbol s => rfl
  | node inner ts => simp [Term.isSymbolOf, Term.symbol?] at h

/-- **A wildcard is found** with the binding of the target. -/
theorem found_wildcard {w : Wildcard} (hleaf : LeafFits υ parent (.wildcard w)) :
    (PatternTerm.wildcard w).Found υ constraints parent := by
  obtain ⟨x, kind, t, rfl, hx, hcanonical, hkind, htwo⟩ := hleaf
  intro place ts rest hts hlevel hbelow
  rw [PatternTerm.substituteRun, Option.bind_some, hx, Option.map_some] at hts
  obtain rfl : [t] = ts := Option.some.inj hts
  have hname : ∀ y, some x = some y → υ.find? y = some (.single t) := fun y hy =>
    Option.some.inj hy ▸ hx
  -- A symbol stands there as it is.  Any other term may have been spliced into the operation
  -- around it, whose label then takes a run.
  rw [places_wildcard]
  cases kind with
  | some symbolKind =>
    have hself : contributed parent [t] = [t] :=
      contributed_of_spliced fun _ _ => spliced_of_isSymbolOf hkind
    rw [hself] at hlevel
    have hlabel : (wildcardStep parent ⟨some x, .one (some symbolKind), none⟩).label =
        .one (some symbolKind) none := by simp [wildcardStep]
    rw [hlabel]
    exact (Label.Takes.one hkind).exists_mem_advance hlevel hbelow hname
  | none =>
    cases hparent : parent.filter Head.isAssociative with
    | none =>
      have hself : contributed parent [t] = [t] := by
        refine contributed_of_spliced fun head heq => Term.spliced_of_not_associative ?_ t
        simpa [heq] using hparent
      rw [hself] at hlevel
      have hlabel : (wildcardStep parent ⟨some x, .one none, none⟩).label = .one none none := by
        simp [wildcardStep, hparent]
      rw [hlabel]
      exact (Label.Takes.one hkind).exists_mem_advance hlevel hbelow hname
    | some head =>
      obtain ⟨rfl, hassoc⟩ := Option.filter_eq_some_iff.mp hparent
      obtain ⟨hlength, hrewrap, -⟩ := spliced_of_two_le hassoc hcanonical (htwo rfl head rfl hassoc)
      have hlabel : (wildcardStep (some head) ⟨some x, .one none, none⟩).label =
          .run 1 (some head) none := by
        unfold wildcardStep
        dsimp only
        rw [hparent]
      have hrun : place.queue.level = Term.spliced head t ++ rest := by
        rw [hlevel]
        exact congrArg (· ++ rest) (Term.splice_singleton head t)
      have hvalue : Binding.ofRun (Term.spliced head t) (some head) = .single t := by
        have hnonempty : (Term.spliced head t).isEmpty = false := by
          cases hspliced : Term.spliced head t with
          | nil => simp [hspliced] at hlength
          | cons first more => rfl
        rw [Binding.ofRun, hnonempty, if_neg Bool.false_ne_true, hrewrap]
      rw [hlabel]
      refine Label.Takes.exists_mem_advance ?_ hrun hbelow hname
      rw [← hvalue]
      exact .run hlength

/-! ### Ordered arguments -/

/-- **Ordered arguments are found** one after the other. -/
theorem found_placesAll (hargs : ∀ p ∈ args, p.Found υ constraints (some head)) (place : Place)
    (ts rest : List Term) (hts : PatternTerm.substituteAll υ args = some ts)
    (hlevel : place.queue.level = Term.splice head ts ++ rest) (hbelow : place.subst.Below υ) :
    ∃ after ∈ placesAll constraints head args place,
      after.queue = place.queue.withLevel rest ∧ after.subst.Below υ := by
  induction args generalizing place ts with
  | nil =>
    obtain rfl : [] = ts := Option.some.inj hts
    refine ⟨place, List.mem_singleton_self _, ?_, hbelow⟩
    rw [← show place.queue.level = rest from hlevel, ArgumentQueue.withLevel_eq_self]
  | cons p ps ih =>
    rw [PatternTerm.substituteAll_cons] at hts
    obtain ⟨first, hfirst, hts⟩ := Option.bind_eq_some_iff.mp hts
    obtain ⟨others, hothers, rfl⟩ := Option.map_eq_some_iff.mp hts
    rw [Term.splice_append, List.append_assoc] at hlevel
    obtain ⟨between, hbetween, hqueue, hbelow⟩ :=
      hargs p List.mem_cons_self place first _ hfirst hlevel hbelow
    -- Behind the first argument the others are next in the queue.
    have hlevel' : between.queue.level = Term.splice head others ++ rest := by
      rw [hqueue, ArgumentQueue.withLevel_level]
    obtain ⟨after, hafter, hqueue', hbelow⟩ :=
      ih (fun q hq => hargs q (List.mem_cons_of_mem p hq)) between others hothers hlevel' hbelow
    refine ⟨after, List.mem_flatMap.mpr ⟨between, hbetween, hafter⟩, ?_, hbelow⟩
    rw [hqueue', hqueue, ArgumentQueue.withLevel_withLevel]

end Ordered

/-! ### Commutative arguments and whole trees -/

open CommutativePattern (runBinding runBindings)

variable {υ : Substitution} {constraints : List Constraint} {parent : Option Head} {head : Head}
  {args : List PatternTerm}

/-! ### Operands -/

/-- An operand is found where a place behind its tree has consumed the argument. -/
theorem OperandPattern.exists_solution_of_place (operand : OperandPattern) {t : Term}
    (hplace : ∃ after ∈ operand.tree.places operand.constraints none (.ofSubject t),
      after.queue = (ArgumentQueue.ofSubject t).withLevel [] ∧ after.subst.Below υ)
    (hholds : ∀ c ∈ operand.constraints, c.holds υ = true)
    (habout : ∀ c ∈ operand.constraints, ∀ x ∈ c.variableNames, x ∈ operand.tree.variableNames) :
    ∃ τ ∈ operand.solutions t, τ.Below υ := by
  obtain ⟨after, hafter, hqueue, hbelow⟩ := hplace
  have hbinds := operand.tree.binds_of_mem_places hafter
  refine ⟨_, mem_accepted.mpr ⟨after, hafter, ?_, fun c hc => ?_, rfl⟩, fun x b hx => ?_⟩
  · rw [hqueue]
    rfl
  · rw [← hholds c hc]
    exact (Substitution.satisfies_of_below hbelow
      (fun x hx => hbinds x (habout c hc x hx)) c.check.holds).symm
  · rw [find?_renamed_samePairs] at hx
    split at hx
    · exact hbelow x b hx
    · simp at hx

/-- **An operand is found** in the argument that the target makes of it. -/
theorem OperandPattern.exists_solution {operand : OperandPattern}
    (hfound : operand.tree.Found υ operand.constraints none)
    (hholds : ∀ c ∈ operand.constraints, c.holds υ = true)
    (habout : ∀ c ∈ operand.constraints, ∀ x ∈ c.variableNames, x ∈ operand.tree.variableNames)
    {t : Term} (ht : operand.tree.substituteRun υ = some [t]) :
    ∃ τ ∈ operand.solutions t, τ.Below υ :=
  operand.exists_solution_of_place
    (hfound (.ofSubject t) [t] [] ht rfl (Substitution.empty_below υ)) hholds habout

/-- An operand stands for one argument. -/
theorem exists_operand_term {p : PatternTerm} (hnone : p.sequenceVariable? head = none)
    (hleaves : p.LeavesFit υ (some head)) (hapart : p.Apart head) {ts : List Term}
    (hts : p.substituteRun υ = some ts) : ∃ t, ts = [t] ∧ Term.spliced head t = [t] := by
  cases p with
  | atom t =>
    have hatom : t.isAtom = true := hleaves (some head, .atom t) (List.mem_singleton_self _)
    refine ⟨t, (Option.some.inj hts).symm, ?_⟩
    cases t with
    | integer value => rfl
    | symbol s => rfl
    | node inner below => simp [Term.isAtom, Term.head?] at hatom
  | wildcard w =>
    obtain ⟨x, kind, t, rfl, hx, -, hkind, -⟩ :=
      hleaves (some head, .wildcard w) (List.mem_singleton_self _)
    rw [PatternTerm.substituteRun, Option.bind_some, hx, Option.map_some] at hts
    refine ⟨t, (Option.some.inj hts).symm, ?_⟩
    cases kind with
    | some symbolKind => exact spliced_of_isSymbolOf hkind
    -- Below an associative head it would be a sequence variable.
    | none =>
      have hassoc : head.isAssociative = false := by
        simpa [PatternTerm.sequenceVariable?, sequenceVariable?, Wildcard.isOptional] using hnone
      exact Term.spliced_of_not_associative hassoc t
  | node inner below =>
    rw [PatternTerm.substituteRun] at hts
    obtain ⟨ss, -, rfl⟩ := Option.map_eq_some_iff.mp hts
    refine ⟨_, rfl, Term.spliced_of_hasHead_false fun hassoc => ?_⟩
    have hne : inner ≠ head := hapart hassoc
    simp [Term.build, Term.hasHead, Term.head?, hne]

/-! ### Sequence variables -/

/-- What the occurrences of a sequence variable take from the arguments. -/
def takenBy (υ : Substitution) (head : Head) (var : SequenceVariable) : List Term :=
  Term.splice head (((var.name.bind υ.find?).map Binding.elements).getD [])

/-- **The part of a sequence variable:** it is sorted and of an admitted length, and stands
    for what the target binds the variable to. -/
theorem takenBy_spec (hcomm : head.isCommutative = true)
    (hleaves : (PatternTerm.node head args).LeavesFit υ parent) {var : SequenceVariable}
    (hvar : var ∈ occurring head args) :
    (takenBy υ head var).Pairwise (fun s t => s.le t = true) ∧
      var.admits (takenBy υ head var).length = true ∧
      var.name.bind υ.find? = some (runBinding head var (takenBy υ head var)) := by
  obtain ⟨p, hp, hvar⟩ := List.mem_filterMap.mp hvar
  obtain ⟨w, rfl, hw⟩ := PatternTerm.sequenceVariable?_eq_some hvar
  obtain ⟨x, kind, t, rfl, hx, hcanonical, hkind, htwo⟩ :=
    hleaves.arg hp (some head, .wildcard w) (List.mem_singleton_self _)
  have hwrapped : kind = none ∧ head.isAssociative = true ∧
      var = { name := some x, minCount := 1, default := none, wrap := true } := by
    unfold sequenceVariable? at hw
    dsimp only at hw
    split at hw
    · rename_i hassoc
      rw [Bool.and_eq_true, Option.isNone_iff_eq_none] at hassoc
      exact ⟨hassoc.2, hassoc.1, (Option.some.inj hw).symm⟩
    · simp [Wildcard.isOptional] at hw
  obtain ⟨rfl, hassoc, rfl⟩ := hwrapped
  -- What the target binds the variable to is spliced, and wrapping the part brings it back.
  obtain ⟨hlength, hrewrap, harrange⟩ :=
    spliced_of_two_le hassoc hcanonical (htwo rfl head rfl hassoc)
  have htaken : takenBy υ head { name := some x, minCount := 1, default := none, wrap := true } =
      Term.spliced head t := by
    rw [takenBy, Option.bind_some, hx, Option.map_some, Option.getD_some, Binding.elements,
      Term.splice_singleton]
  rw [htaken]
  refine ⟨?_, ?_, ?_⟩
  · rw [← harrange, Term.arrange_of_commutative hcomm]
    exact sorted_sortBy_le _
  · simp [SequenceVariable.admits, hlength]
  · rw [Option.bind_some, hx]
    cases hspliced : Term.spliced head t with
    | nil => simp [hspliced] at hlength
    | cons first more =>
      rw [hspliced] at hrewrap
      rw [← hrewrap]
      rfl

/-- What is bound to sequence variables is what the target binds them to. -/
theorem find?_of_mem_runBindings (hcomm : head.isCommutative = true)
    (hleaves : (PatternTerm.node head args).LeavesFit υ parent)
    (hvars : ∀ v ∈ sequenceVariables head args, v.base ∈ occurring head args)
    {x : String} {b : Binding} (h : (x, b) ∈ runBindings head (sequenceVariables head args)
      ((sequenceVariables head args).map fun v => takenBy υ head v.base)) :
    υ.find? x = some b := by
  obtain ⟨⟨v, run⟩, hv, hx⟩ := List.mem_filterMap.mp h
  rw [zip_map_self] at hv
  obtain ⟨v', hv', heq⟩ := List.mem_map.mp hv
  obtain ⟨rfl, rfl⟩ := Prod.mk.inj heq
  obtain ⟨-, -, hvalue⟩ := takenBy_spec hcomm hleaves (hvars v' hv')
  obtain ⟨y, hy, heq⟩ := Option.map_eq_some_iff.mp hx
  obtain ⟨rfl, rfl⟩ := Prod.mk.inj heq
  have hname : v'.base.name = some y := hy
  rw [hname, Option.bind_some, runBinding_base] at hvalue
  exact hvalue

/-! ### Commutative arguments -/

/-- If a list of trees becomes terms, so does each tree. -/
theorem isSome_of_substituteAll {ps : List PatternTerm} {ts : List Term}
    (h : PatternTerm.substituteAll υ ps = some ts) :
    ∀ p ∈ ps, (p.substituteRun υ).isSome = true := by
  obtain ⟨parts, hparts, -⟩ := PatternTerm.substituteAll_eq_some_iff.mp h
  intro p hp
  obtain ⟨part, hmem⟩ := exists_mem_zip hparts hp
  rw [(List.forall₂_iff_zip.mp hparts).2 hmem]
  rfl

/-- The operands of commutative arguments, each with the argument that the target makes of it
    and a way to fit it. -/
structure IsFitting (υ : Substitution) (constraints : List Constraint) (head : Head)
    (args : List PatternTerm) (fitting : List (OperandPattern × Term × Substitution)) : Prop where
  operands : fitting.map Prod.fst = operandPatterns constraints head args
  becomes : ∀ f ∈ fitting, f.1.tree.become υ = [f.2.1]
  stands : ∀ f ∈ fitting, Term.spliced head f.2.1 = [f.2.1]
  ways : ∀ f ∈ fitting, f.2.2 ∈ f.1.solutions f.2.1
  below : ∀ f ∈ fitting, f.2.2.Below υ

/-- Choosing something for each member of a list. -/
theorem exists_list_of_forall {α β : Type} {P : α → β → Prop} {as : List α}
    (h : ∀ a ∈ as, ∃ b, P a b) : ∃ fs : List (α × β), fs.map Prod.fst = as ∧
      ∀ f ∈ fs, P f.1 f.2 := by
  induction as with
  | nil => exact ⟨[], rfl, by simp⟩
  | cons a as ih =>
    obtain ⟨b, hb⟩ := h a List.mem_cons_self
    obtain ⟨fs, hfs, hall⟩ := ih fun c hc => h c (List.mem_cons_of_mem a hc)
    refine ⟨(a, b) :: fs, by rw [List.map_cons, hfs], fun f hf => ?_⟩
    rcases List.mem_cons.mp hf with rfl | hf
    · exact hb
    · exact hall f hf

/-- The constraints of an operand are constraints on its variables. -/
theorem operandConstraints_spec {p : PatternTerm} {c : Constraint}
    (h : c ∈ operandConstraints constraints p) :
    c ∈ constraints ∧ ∀ x ∈ c.variableNames, x ∈ p.variableNames := by
  obtain ⟨hc, habout⟩ := List.mem_filter.mp h
  rw [Bool.and_eq_true, Constraint.isAbout, List.all_eq_true] at habout
  exact ⟨hc, fun x hx => by simpa using habout.2 x hx⟩

/-- **Every operand is found** in an argument of its own. -/
theorem exists_isFitting
    (hfound : ∀ p ∈ args, p.Found υ (operandConstraints constraints p) none)
    (hholds : ∀ c ∈ constraints, c.holds υ = true)
    (hleaves : (PatternTerm.node head args).LeavesFit υ parent)
    (hapart : ∀ p ∈ args, p.Apart head)
    (hsome : ∀ p ∈ args, (p.substituteRun υ).isSome = true) :
    ∃ fitting, IsFitting υ constraints head args fitting := by
  -- Each operand has its argument, and a solution there that the target extends.
  have hoperand : ∀ o ∈ operandPatterns constraints head args, ∃ f : Term × Substitution,
      o.tree.become υ = [f.1] ∧ Term.spliced head f.1 = [f.1] ∧ f.2 ∈ o.solutions f.1 ∧
        f.2.Below υ := by
    intro o ho
    obtain ⟨p, hp, rfl⟩ := List.mem_map.mp ho
    obtain ⟨hp, hnone⟩ := List.mem_filter.mp hp
    obtain ⟨run, hrun⟩ := Option.isSome_iff_exists.mp (hsome p hp)
    obtain ⟨t, rfl, hself⟩ := exists_operand_term (Option.isNone_iff_eq_none.mp hnone)
      (hleaves.arg hp) (hapart p hp) hrun
    have hplace : (⟨p, operandConstraints constraints p⟩ : OperandPattern).tree.Found υ
      (operandConstraints constraints p) none := hfound p hp
    obtain ⟨τ, hτ, hbelow⟩ := OperandPattern.exists_solution hplace
      (fun c hc => hholds c (operandConstraints_spec hc).1)
      (fun c hc => (operandConstraints_spec hc).2) hrun
    refine ⟨(t, τ), ?_, hself, hτ, hbelow⟩
    rw [PatternTerm.become, hrun]
    rfl
  obtain ⟨fitting, hoperands, hfitting⟩ := exists_list_of_forall hoperand
  exact ⟨fitting, hoperands, fun f hf => (hfitting f hf).1, fun f hf => (hfitting f hf).2.1,
    fun f hf => (hfitting f hf).2.2.1, fun f hf => (hfitting f hf).2.2.2⟩

/-- **Commutative arguments are found.** -/
theorem exists_isAloneMatch (hcomm : head.isCommutative = true)
    (hfound : ∀ p ∈ args, p.Found υ (operandConstraints constraints p) none)
    (hholds : ∀ c ∈ constraints, c.holds υ = true)
    (hleaves : (PatternTerm.node head args).LeavesFit υ parent)
    (hapart : ∀ p ∈ args, p.Apart head) {ts ss : List Term}
    (hss : PatternTerm.substituteAll υ args = some ss) (hperm : ts.Perm (Term.splice head ss))
    {σ : Substitution} (hbelow : σ.Below υ) :
    ∃ ρ fitting parts, IsAloneMatch constraints head args ts σ ρ fitting parts ∧ ρ.Below υ := by
  have hsome := isSome_of_substituteAll hss
  have hdefinite : (PatternTerm.node head args).Definite := by
    intro w hw
    obtain ⟨above, habove⟩ : ∃ above, (above, PatternTerm.wildcard w) ∈
        (PatternTerm.node head args).leaves parent := PatternTerm.mem_wildcards_iff.mp hw
    obtain ⟨x, kind, t, rfl, -⟩ := hleaves _ habove
    exact ⟨rfl, rfl⟩
  have hnamed := namedAmong_of_definite hdefinite
  obtain ⟨-, hbases, hshares⟩ := counted_sequenceVariables hnamed
  have hvars : ∀ v ∈ sequenceVariables head args, v.base ∈ occurring head args := fun v hv =>
    (hbases v.base).mp (List.mem_map_of_mem hv)
  obtain ⟨fitting, hfitting⟩ := exists_isFitting hfound hholds hleaves hapart hsome
  let parts := (sequenceVariables head args).map fun v => takenBy υ head v.base
  -- The bindings of all parts of the match, as one substitution below the target.
  have hall : ∀ x b, σ.find? x = some b ∨ (∃ f ∈ fitting, f.2.2.find? x = some b) ∨
      (x, b) ∈ runBindings head (sequenceVariables head args) parts → υ.find? x = some b := by
    rintro x b (hx | ⟨f, hf, hx⟩ | hx)
    · exact hbelow x b hx
    · exact hfitting.below f hf x b hx
    · exact find?_of_mem_runBindings hcomm hleaves hvars hx
  obtain ⟨ρ, hρ⟩ := NameMap.exists_part υ hall
  refine ⟨ρ, fitting, parts, ⟨hfitting.operands, hfitting.ways, ?_, ?_, hρ⟩,
    fun x b hx => hall x b ((hρ x b).mp hx)⟩
  · refine List.forall₂_map_right_iff.mpr (List.forall₂_same.mpr fun v hv => ?_)
    obtain ⟨hsorted, hadmits, -⟩ := takenBy_spec hcomm hleaves (hvars v hv)
    exact ⟨hsorted, hadmits⟩
  · have hoccurrences : ∀ p ∈ args, ∀ var, p.sequenceVariable? head = some var →
        (Term.splice head (p.become υ)).Perm (takenBy υ head var) := by
      intro p hp var hvar
      obtain ⟨w, rfl, hw⟩ := PatternTerm.sequenceVariable?_eq_some hvar
      rw [PatternTerm.become, PatternTerm.substituteRun, takenBy, sequenceVariable?_name hw]
    have hterms : ss = args.flatMap (PatternTerm.become υ) :=
      Option.some.inj (hss.symm.trans (PatternTerm.substituteAll_become hsome))
    rw [hterms] at hperm
    have hargs := splice_become_perm hfitting.operands hfitting.becomes hfitting.stands
      hoccurrences
    exact (hperm.trans hargs).trans ((hshares (takenBy υ head)).symm.append_left _)

/-! ### Trees -/

/-- An atom is found where it is the next term. -/
theorem found_atom {t : Term} (hatom : t.isAtom = true) :
    (PatternTerm.atom t).Found υ constraints parent := by
  intro place ts rest hts hlevel hbelow
  obtain rfl : [t] = ts := Option.some.inj hts
  have hself : contributed parent [t] = [t] := by
    refine contributed_of_spliced fun head _ => Term.spliced_of_hasHead_false fun _ => ?_
    rw [Term.isAtom, Option.isNone_iff_eq_none] at hatom
    simp [Term.hasHead, hatom]
  rw [hself] at hlevel
  refine ⟨⟨place.queue.withLevel rest, place.subst⟩, ?_, rfl, hbelow⟩
  rw [places_atom, Label.advance, takeIf?_of_level hlevel (decide_eq_true rfl)]
  exact List.mem_singleton_self _

/-- An operation is not spliced into the one around it, since the tree is flattened. -/
theorem contributed_build (hapart : ∀ outer, parent = some outer →
    (PatternTerm.node head args).Apart outer) (ss : List Term) :
    contributed parent [Term.build head ss] = [Term.build head ss] := by
  refine contributed_of_spliced fun outer hparent => ?_
  refine Term.spliced_of_hasHead_false fun hassoc => ?_
  have hne : head ≠ outer := hapart outer hparent hassoc
  simp [Term.build, Term.hasHead, Term.head?, hne]

/-- An ordered operation is found: its arguments are, inside of it. -/
theorem found_ordered (hcomm : head.isCommutative = false)
    (hapart : ∀ outer, parent = some outer → (PatternTerm.node head args).Apart outer)
    (hargs : ∀ p ∈ args, p.Found υ constraints (some head)) :
    (PatternTerm.node head args).Found υ constraints parent := by
  intro place ts rest hts hlevel hbelow
  rw [PatternTerm.substituteRun] at hts
  obtain ⟨ss, hss, rfl⟩ := Option.map_eq_some_iff.mp hts
  rw [contributed_build hapart, Term.build, Term.arrange_of_not_commutative hcomm] at hlevel
  let inside : Place := ⟨⟨(place.queue.withLevel rest).root,
    Term.splice head ss :: (place.queue.withLevel rest).nested⟩, place.subst⟩
  have hinside : (Label.enter head).advance none none place = [inside] := by
    rw [Label.advance, ArgumentQueue.enter?, hlevel]
    simp [Term.hasHead, Term.head?, Term.args, inside]
  -- All arguments of the operation are used up, so it can be closed.
  obtain ⟨behind, hbehind, hqueue, hbelow⟩ :=
    found_placesAll hargs inside ss [] hss (List.append_nil _).symm hbelow
  refine ⟨⟨place.queue.withLevel rest, behind.subst⟩, ?_, rfl, hbelow⟩
  rw [places_ordered hcomm, hinside, List.flatMap_singleton]
  refine List.mem_flatMap.mpr ⟨behind, hbehind, ?_⟩
  rw [Label.advance, hqueue]
  exact List.mem_singleton_self _

/-- A commutative operation is found: each of its operands is, in an argument of its own. -/
theorem found_commutative (hcomm : head.isCommutative = true)
    (hapart : ∀ outer, parent = some outer → (PatternTerm.node head args).Apart outer)
    (hleaves : (PatternTerm.node head args).LeavesFit υ parent)
    (hapartArgs : ∀ p ∈ args, p.Apart head) (hholds : ∀ c ∈ constraints, c.holds υ = true)
    (hargs : ∀ p ∈ args, p.Found υ (operandConstraints constraints p) none) :
    (PatternTerm.node head args).Found υ constraints parent := by
  intro place ts rest hts hlevel hbelow
  rw [PatternTerm.substituteRun] at hts
  obtain ⟨ss, hss, rfl⟩ := Option.map_eq_some_iff.mp hts
  rw [contributed_build hapart] at hlevel
  have hperm : (Term.arrange head (Term.splice head ss)).Perm (Term.splice head ss) :=
    Term.arrange_perm head _
  obtain ⟨ρ, fitting, parts, hmatch, hρ⟩ :=
    exists_isAloneMatch hcomm hargs hholds hleaves hapartArgs hss hperm hbelow
  refine ⟨⟨place.queue.withLevel rest, ρ⟩, ?_, rfl, hρ⟩
  have hhead : (Term.build head ss).hasHead head = true := hasHead_iff.mpr ⟨_, rfl⟩
  have hoperation : (Label.commutative head).advance none none place = [place] := by
    rw [Label.advance, takeIf?_of_level hlevel hhead]
  rw [places_commutative hcomm, hoperation, List.flatMap_singleton]
  exact mem_advance_operands.mpr ⟨_, _, ρ, takeIf?_of_level hlevel rfl,
    mem_solve_alone_iff.mpr ⟨fitting, parts, hmatch⟩, rfl⟩

/-- **Trees are found:** where the leaves fit and the constraints hold, a place behind the
    tree has consumed what the target makes of it. -/
theorem PatternTerm.found (p : PatternTerm) (hflat : p.Flattened)
    (hleaves : p.LeavesFit υ parent) (hapart : ∀ head, parent = some head → p.Apart head)
    (hholds : ∀ c ∈ constraints, c.holds υ = true) : p.Found υ constraints parent := by
  induction p using PatternTerm.inductionOn generalizing constraints parent with
  | atom t => exact found_atom (hleaves (parent, .atom t) (List.mem_singleton_self _))
  | wildcard w => exact found_wildcard (hleaves (parent, .wildcard w) (List.mem_singleton_self _))
  | node head args ih =>
    obtain ⟨hargs, hapartArgs⟩ : (∀ p ∈ args, p.Flattened) ∧ ∀ p ∈ args, p.Apart head := by
      cases hflat with
      | node head hargs hapart => exact ⟨hargs, hapart⟩
    -- Below an ordered operation the constraints of the pattern go on; an operand of a
    -- commutative one stands by itself, with the constraints that concern it.
    cases hcomm : head.isCommutative with
    | false =>
      exact found_ordered hcomm hapart fun p hp => ih p hp (hargs p hp) (hleaves.arg hp)
        (fun k hk => Option.some.inj hk ▸ hapartArgs p hp) hholds
    | true =>
      exact found_commutative hcomm hapart hleaves hapartArgs hholds fun p hp =>
        ih p hp (hargs p hp) (hleaves.arg hp).alone (by simp)
          fun c hc => hholds c (operandConstraints_spec hc).1

end TermNet
