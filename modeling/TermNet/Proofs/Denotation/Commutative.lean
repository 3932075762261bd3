import TermNet.Proofs.Denotation.Basic
import TermNet.Proofs.Denotation.Occurrences
import TermNet.Proofs.Pattern.Complete

namespace TermNet

/-!
# Commutative arguments denote what is found

A match of a commutative operation fits operands to arguments and shares the others out among
counted variables; what the arguments of the operation denote is said for each of them by
itself.

* `IsAloneMatch.argsDenote` — what is found is denoted;
* `exists_isAloneMatch_of_denotes` — what is denoted is found.
-/

open CommutativePattern (runBinding runBindings)

variable {constraints : List Constraint} {head : Head} {args : List PatternTerm}
  {ts : List Term} {σ ρ υ : Substitution}
  {fitting : List (OperandPattern × Term × Substitution)}
  {occurrences : List (SequenceVariable × List Term)} {runs : List (PatternTerm × List Term)}

/-! ### Operands and occurrences -/

/-- The operands among a first argument and the others. -/
theorem operandPatterns_cons (constraints : List Constraint) (head : Head) (p : PatternTerm)
    (ps : List PatternTerm) :
    operandPatterns constraints head (p :: ps) =
      if (p.sequenceVariable? head).isNone then
        ⟨p, operandConstraints constraints p⟩ :: operandPatterns constraints head ps
      else operandPatterns constraints head ps := by
  rw [operandPatterns, List.filter_cons]
  split <;> rfl

/-- The sequence variables among a first argument and the others. -/
theorem occurring_cons (head : Head) (p : PatternTerm) (ps : List PatternTerm) :
    occurring head (p :: ps) = (p.sequenceVariable? head).toList ++ occurring head ps := by
  rw [occurring, List.filterMap_cons]
  cases p.sequenceVariable? head <;> rfl

/-- **The runs of arguments** are the arguments of the operands and the runs of the occurrences
    of sequence variables. -/
theorem exists_runs (hoperands : fitting.map Prod.fst = operandPatterns constraints head args)
    (hoccurrences : occurrences.map Prod.fst = occurring head args) :
    ∃ runs : List (PatternTerm × List Term), runs.map Prod.fst = args ∧
      (∀ r ∈ runs, (r.1.sequenceVariable? head = none ∧
          ∃ f ∈ fitting, f.1.tree = r.1 ∧ r.2 = [f.2.1]) ∨
        ∃ o ∈ occurrences, r.1.sequenceVariable? head = some o.1 ∧ r.2 = o.2) ∧
      (runs.flatMap Prod.snd).Perm (fitting.map (·.2.1) ++ occurrences.flatMap Prod.snd) := by
  induction args generalizing fitting occurrences with
  | nil =>
    obtain rfl := List.map_eq_nil_iff.mp hoperands
    obtain rfl := List.map_eq_nil_iff.mp hoccurrences
    exact ⟨[], rfl, by simp, .refl _⟩
  | cons p ps ih =>
    rw [operandPatterns_cons] at hoperands
    rw [occurring_cons] at hoccurrences
    -- An operand has one argument, and an occurrence of a sequence variable has its run.
    cases hvar : p.sequenceVariable? head with
    | none =>
      rw [hvar] at hoccurrences
      rw [if_pos (by rw [hvar]; rfl)] at hoperands
      obtain ⟨f, rest, rfl, hf, hrest⟩ := List.map_eq_cons_iff.mp hoperands
      obtain ⟨runs, hmap, hall, hperm⟩ := ih hrest hoccurrences
      refine ⟨(p, [f.2.1]) :: runs, by rw [List.map_cons, hmap], ?_, hperm.cons f.2.1⟩
      refine List.forall_mem_cons.mpr ⟨.inl ⟨hvar, f, List.mem_cons_self, by rw [hf], rfl⟩, ?_⟩
      intro r hr
      rcases hall r hr with ⟨hnone, g, hg, hg'⟩ | hoccurrence
      · exact .inl ⟨hnone, g, List.mem_cons_of_mem _ hg, hg'⟩
      · exact .inr hoccurrence
    | some var =>
      rw [hvar] at hoccurrences
      rw [if_neg (by rw [hvar]; exact Bool.false_ne_true)] at hoperands
      obtain ⟨⟨first, run⟩, rest, rfl, rfl, hrest⟩ := List.map_eq_cons_iff.mp hoccurrences
      obtain ⟨runs, hmap, hall, hperm⟩ := ih hoperands hrest
      refine ⟨(p, run) :: runs, by rw [List.map_cons, hmap], ?_, ?_⟩
      · refine List.forall_mem_cons.mpr ⟨.inr ⟨(first, run), List.mem_cons_self, hvar, rfl⟩, ?_⟩
        intro r hr
        rcases hall r hr with hoperand | ⟨o, ho, ho'⟩
        · exact .inl hoperand
        · exact .inr ⟨o, List.mem_cons_of_mem _ ho, ho'⟩
      · rw [List.flatMap_cons, List.flatMap_cons]
        exact (hperm.append_left run).trans (List.perm_append_comm_assoc _ _ _)

/-- The runs of the occurrences of sequence variables. -/
def occurrenceRuns (head : Head) (runs : List (PatternTerm × List Term)) :
    List (SequenceVariable × List Term) :=
  runs.filterMap fun r => (r.1.sequenceVariable? head).map (·, r.2)

/-- The runs of occurrences are those of the arguments that are sequence variables. -/
theorem mem_occurrenceRuns {o : SequenceVariable × List Term} :
    o ∈ occurrenceRuns head runs ↔
      ∃ r ∈ runs, r.1.sequenceVariable? head = some o.1 ∧ r.2 = o.2 := by
  obtain ⟨var, run⟩ := o
  simp only [occurrenceRuns, List.mem_filterMap, Option.map_eq_some_iff, Prod.mk.injEq]
  refine exists_congr fun r => and_congr_right fun _ => ?_
  constructor
  · rintro ⟨var, hvar, rfl, hrun⟩
    exact ⟨hvar, hrun⟩
  · rintro ⟨hvar, hrun⟩
    exact ⟨var, hvar, rfl, hrun⟩

/-- The occurrences that have runs are those among the arguments. -/
theorem map_fst_occurrenceRuns :
    (occurrenceRuns head runs).map Prod.fst = occurring head (runs.map Prod.fst) := by
  rw [occurrenceRuns, occurring, List.map_filterMap, List.filterMap_map]
  refine congrArg (List.filterMap · runs) (funext fun r => ?_)
  rw [Option.map_map]
  exact Option.map_id'

/-- Operands that denote their arguments are fitted to them. -/
theorem exists_fitting
    (h : ∀ r ∈ runs, r.1.sequenceVariable? head = none → ∃ t τ, r.2 = [t] ∧
      τ ∈ OperandPattern.solutions ⟨r.1, operandConstraints constraints r.1⟩ t ∧ τ.Below υ) :
    ∃ fitting : List (OperandPattern × Term × Substitution),
      fitting.map Prod.fst = operandPatterns constraints head (runs.map Prod.fst) ∧
      (∀ f ∈ fitting, f.2.2 ∈ f.1.solutions f.2.1 ∧ f.2.2.Below υ) ∧
      (runs.flatMap Prod.snd).Perm
        (fitting.map (·.2.1) ++ (occurrenceRuns head runs).flatMap Prod.snd) := by
  induction runs with
  | nil => exact ⟨[], rfl, by simp, .refl _⟩
  | cons r rest ih =>
    obtain ⟨hfirst, hrest⟩ := List.forall_mem_cons.mp h
    obtain ⟨fitting, hmap, hall, hperm⟩ := ih hrest
    rw [List.map_cons, operandPatterns_cons, List.flatMap_cons]
    cases hvar : r.1.sequenceVariable? head with
    | none =>
      -- An operand takes one argument, a sequence variable adds its run to the occurrences.
      obtain ⟨t, τ, ht, hτ, hbelow⟩ := hfirst hvar
      have hruns : occurrenceRuns head (r :: rest) = occurrenceRuns head rest := by
        simp [occurrenceRuns, hvar]
      refine ⟨(⟨r.1, operandConstraints constraints r.1⟩, t, τ) :: fitting, ?_,
        List.forall_mem_cons.mpr ⟨⟨hτ, hbelow⟩, hall⟩, ?_⟩
      · rw [List.map_cons, hmap]
        rfl
      · rw [ht, hruns]
        exact hperm.cons t
    | some var =>
      have hruns : occurrenceRuns head (r :: rest) = (var, r.2) :: occurrenceRuns head rest := by
        simp [occurrenceRuns, hvar]
      refine ⟨fitting, by rw [hmap]; rfl, hall, ?_⟩
      rw [hruns, List.flatMap_cons]
      exact (hperm.append_left r.2).trans (List.perm_append_comm_assoc _ _ _)

/-! ### What is found -/

/-- What the variables take, each part as often as its variable occurs. -/
theorem shares_eq {vars : List SequenceVariable} {parts : List (List Term)} :
    shares vars parts = (vars.zip parts).flatMap fun v =>
      (List.replicate (max v.1.count 1) v.2).flatten := rfl

/-- How many terms a variable admits does not depend on its count. -/
theorem admits_base (var : SequenceVariable) (n : Nat) : var.base.admits n = var.admits n := rfl

/-- An occurrence denotes the part of its variable, as this is counted without the number of its
    occurrences. -/
theorem denotes_of_occurrence (hcomm : head.isCommutative = true) {w : Wildcard}
    {var occurring : SequenceVariable} {part : List Term} (hbase : var.base = occurring)
    (hvar : sequenceVariable? head w = some occurring)
    (hsorted : part.Pairwise fun s t => s.le t = true) (hadmits : var.admits part.length = true)
    (hbinds : ∀ x, var.name = some x → ρ.find? x = some (runBinding head var part)) :
    (PatternTerm.wildcard w).Denotes ρ (some head) part := by
  refine denotes_wildcard.mpr ⟨runBinding head var part,
    (takes_sequenceVariable_iff hcomm hvar).mp ⟨hsorted, ?_, ?_⟩, fun x hx => hbinds x ?_⟩
  · rw [← hbase, admits_base]
    exact hadmits
  · rw [← hbase, runBinding_base]
  · have hname : var.base.name = w.name := by
      rw [hbase]
      exact sequenceVariable?_name hvar
    exact hname.trans hx

/-- **What is found is denoted.** -/
theorem IsAloneMatch.argsDenote (hcomm : head.isCommutative = true) {parts : List (List Term)}
    (h : IsAloneMatch constraints head args ts σ ρ fitting parts)
    (hoperands : ∀ f ∈ fitting, f.1.tree.Denotes ρ none [f.2.1]) :
    ∃ runs, ArgsDenote ρ head args ts runs := by
  have hcounted : ((sequenceVariables head args).zip parts).map Prod.fst =
      (occurring head args).foldl (fun known var => addSequenceVariable var known) [] :=
    List.map_fst_zip (Nat.le_of_eq h.admitted.length_eq)
  -- Counted variables are taken apart into their occurrences, each with the part it takes.
  obtain ⟨occurrences, hoccurrences, hshared⟩ :=
    exists_occurrences (fun _ => base_of_mem_occurring) hcounted
  obtain ⟨runs, hmap, hall, hperm⟩ := exists_runs h.operands hoccurrences
  refine ⟨runs, hmap, fun r hr => ?_, together_iff.mpr fun r hr r' hr' hsame => ?_, ?_⟩
  · rcases hall r hr with ⟨hnone, f, hf, htree, hrun⟩ | ⟨o, ho, hvar, hrun⟩
    · rw [denotes_operand_iff hnone, ← htree, hrun]
      exact hoperands f hf
    · obtain ⟨⟨v, part⟩, hv, hbase, hpart⟩ := hshared.back o ho
      obtain ⟨w, hw, hwvar⟩ := PatternTerm.sequenceVariable?_eq_some hvar
      obtain ⟨hsorted, hadmits⟩ := (List.forall₂_iff_zip.mp h.admitted).2 hv
      rw [hw, hrun, ← hpart]
      refine denotes_of_occurrence hcomm hbase hwvar hsorted hadmits fun x hx => ?_
      refine (h.binds x _).mpr (.inr (.inr (List.mem_filterMap.mpr ⟨(v, part), hv, ?_⟩)))
      have hvarName : v.name = some x := hx
      simp only [hvarName, Option.map_some]
  · -- what is counted together is an occurrence of one variable, and takes its part
    obtain ⟨-, var, hname, hr₁, hr₂⟩ := hsame
    rcases hall r hr with ⟨hnone, -⟩ | ⟨o, ho, hvar, hrun⟩
    · rw [hnone] at hr₁
      exact absurd hr₁ (Option.some_ne_none var).symm
    · rcases hall r' hr' with ⟨hnone, -⟩ | ⟨o', ho', hvar', hrun'⟩
      · rw [hnone] at hr₂
        exact absurd hr₂ (Option.some_ne_none var).symm
      · have ho₁ : o.1 = var := Option.some.inj (hvar.symm.trans hr₁)
        have ho₂ : o'.1 = var := Option.some.inj (hvar'.symm.trans hr₂)
        rw [hrun, hrun']
        exact hshared.alike o ho o' ho' (ho₁.trans ho₂.symm) (ho₁ ▸ hname)
  · rw [Head.Reorders.iff_perm hcomm]
    refine hperm.trans (.symm (h.perm.trans (.append_left _ ?_)))
    rw [shares_eq]
    exact hshared.perm

/-! ### What is denoted -/

/-- **Arguments that denote something are counted:** what the occurrences of sequence variables
    take are parts of the counted variables. -/
theorem ArgsDenote.exists_counted (hcomm : head.isCommutative = true)
    (h : ArgsDenote υ head args ts runs) :
    ∃ counted : List (SequenceVariable × List Term),
      counted.map Prod.fst = sequenceVariables head args ∧
        SharedOut counted (occurrenceRuns head runs) := by
  have hbases : ∀ o ∈ occurrenceRuns head runs, o.1.base = o.1 := by
    intro o ho
    have hmem : o.1 ∈ occurring head args := by
      rw [← h.args, ← map_fst_occurrenceRuns]
      exact List.mem_map_of_mem ho
    exact base_of_mem_occurring hmem
  obtain ⟨counted, hcounted, hshared⟩ := TermNet.exists_counted hbases
    fun o ho o' ho' hsame hname => by
      obtain ⟨r, hr, hvar, hrun⟩ := mem_occurrenceRuns.mp ho
      obtain ⟨r', hr', hvar', hrun'⟩ := mem_occurrenceRuns.mp ho'
      rw [← hrun, ← hrun']
      exact together_iff.mp h.together r hr r' hr' ⟨hcomm, o.1, hname, hvar, hsame ▸ hvar'⟩
  rw [map_fst_occurrenceRuns, h.args] at hcounted
  exact ⟨counted, hcounted, hshared⟩

/-- Each part is sorted, of an admitted length, and bound as the target binds it. -/
theorem ArgsDenote.part (hcomm : head.isCommutative = true) (h : ArgsDenote υ head args ts runs)
    {counted : List (SequenceVariable × List Term)}
    (hshared : SharedOut counted (occurrenceRuns head runs)) {v : SequenceVariable × List Term}
    (hv : v ∈ counted) :
    v.2.Pairwise (fun s t => s.le t = true) ∧ v.1.admits v.2.length = true ∧
      ∀ x, v.1.name = some x → υ.find? x = some (runBinding head v.1 v.2) := by
  obtain ⟨r, hr, hvar, hrun⟩ := mem_occurrenceRuns.mp (hshared.forth v hv)
  obtain ⟨w, hw, hwvar⟩ := PatternTerm.sequenceVariable?_eq_some hvar
  have hdenotes := h.denotes r hr
  rw [hw, hrun, denotes_wildcard] at hdenotes
  obtain ⟨b, htakes, hname⟩ := hdenotes
  obtain ⟨hsorted, hadmits, hb⟩ := (takes_sequenceVariable_iff hcomm hwvar).mpr htakes
  refine ⟨hsorted, hadmits, fun x hx => ?_⟩
  rw [hname x ((sequenceVariable?_name hwvar).symm.trans hx), hb, runBinding_base]

/-- **What is denoted is found.** -/
theorem exists_isAloneMatch_of_denotes (hcomm : head.isCommutative = true)
    (h : ArgsDenote υ head args ts runs)
    (hoperands : ∀ r ∈ runs, r.1.sequenceVariable? head = none → ∃ t τ, r.2 = [t] ∧
      τ ∈ OperandPattern.solutions ⟨r.1, operandConstraints constraints r.1⟩ t ∧ τ.Below υ)
    (hbelow : σ.Below υ) :
    ∃ ρ fitting parts, IsAloneMatch constraints head args ts σ ρ fitting parts ∧ ρ.Below υ := by
  obtain ⟨fitting, hmap, hfitting, hperm⟩ := exists_fitting hoperands
  rw [h.args] at hmap
  obtain ⟨counted, hvars, hshared⟩ := h.exists_counted hcomm
  have hparts := fun v (hv : v ∈ counted) => h.part hcomm hshared hv
  have hzip : (sequenceVariables head args).zip (counted.map Prod.snd) = counted := by
    rw [← hvars]
    exact (List.zip_of_prod rfl rfl).symm
  -- all bindings that come together are those of the target, so that they can be united
  have hall : ∀ x b, σ.find? x = some b ∨ (∃ f ∈ fitting, f.2.2.find? x = some b) ∨
      (x, b) ∈ runBindings head (sequenceVariables head args) (counted.map Prod.snd) →
        υ.find? x = some b := by
    rintro x b (hx | ⟨f, hf, hx⟩ | hx)
    · exact hbelow x b hx
    · exact (hfitting f hf).2 x b hx
    · obtain ⟨v, hv, hx⟩ := List.mem_filterMap.mp hx
      rw [hzip] at hv
      obtain ⟨y, hy, heq⟩ := Option.map_eq_some_iff.mp hx
      obtain ⟨rfl, rfl⟩ := Prod.mk.inj heq
      exact (hparts v hv).2.2 y hy
  obtain ⟨ρ, hρ⟩ := NameMap.exists_part υ hall
  refine ⟨ρ, fitting, counted.map Prod.snd, ⟨hmap, fun f hf => (hfitting f hf).1, ?_, ?_, hρ⟩,
    fun x b hx => hall x b ((hρ x b).mp hx)⟩
  · rw [← hvars, List.forall₂_map_left_iff, List.forall₂_map_right_iff, List.forall₂_same]
    exact fun v hv => ⟨(hparts v hv).1, (hparts v hv).2.1⟩
  · refine ((Head.Reorders.iff_perm hcomm).mp h.reorders).symm.trans
      (hperm.trans (.append_left _ ?_))
    rw [shares_eq, hzip]
    exact hshared.perm.symm

end TermNet
