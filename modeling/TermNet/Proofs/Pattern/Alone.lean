import TermNet.Proofs.Pattern.Variables

namespace TermNet

/-!
# Matching the arguments of one commutative operation

Without the numbers of the operands, a match fits every operand to an argument of its
own and shares the remaining arguments out among the sequence variables.

* `CommutativePattern.mem_matchSorted_iff_fitting` — matches by numbered operands;
* `fits_alone` — the operands of an operation that is matched by itself;
* `IsAloneMatch`, `mem_solve_alone_iff` — what is found.
-/

open CommutativePattern (fits waysOf runBindings IsMatch)

/-! ### Operands by numbers -/

/-- **What matching finds,** as a list of operands with their arguments and ways. -/
theorem CommutativePattern.mem_matchSorted_iff_fitting {pattern : CommutativePattern}
    {head : Head} {arguments : List Term} {found : Term → List (Nat × Substitution)}
    {σ ρ : Substitution} :
    ρ ∈ pattern.matchSorted head arguments (arguments.map found) σ ↔
      ∃ (fitting : List (Nat × Term × Substitution)) (parts : List (List Term)),
        (fitting.map Prod.fst).Perm pattern.operands ∧
        (∀ f ∈ fitting, f.2.2 ∈ waysOf found f.1 f.2.1) ∧
        List.Forall₂ (fun var run => run.Pairwise (fun s t => s.le t = true) ∧
          var.admits run.length = true) pattern.sequenceVars parts ∧
        arguments.Perm (fitting.map (·.2.1) ++ shares pattern.sequenceVars parts) ∧
        ∀ x b, ρ.find? x = some b ↔ σ.find? x = some b ∨
          (∃ f ∈ fitting, f.2.2.find? x = some b) ∨
          (x, b) ∈ runBindings head pattern.sequenceVars parts := by
  rw [mem_matchSorted_iff]
  constructor
  · rintro ⟨ts, parts, τs, hlength, hways, hadmitted, hperm, hbinds⟩
    let triple := fun f : (Nat × Term) × Substitution => (f.1.1, f.1.2, f.2)
    obtain ⟨hτs, hways⟩ := List.forall₂_iff_zip.mp hways
    have hpairs : (((pattern.operands.zip ts).zip τs).map Prod.fst) = pattern.operands.zip ts :=
      List.map_fst_zip (Nat.le_of_eq hτs)
    have hsubsts : (((pattern.operands.zip ts).zip τs).map Prod.snd) = τs :=
      List.map_snd_zip (Nat.le_of_eq hτs.symm)
    refine ⟨((pattern.operands.zip ts).zip τs).map triple, parts, ?_, ?_, hadmitted, ?_, ?_⟩
    · have hfst : (((pattern.operands.zip ts).zip τs).map triple).map Prod.fst =
          (((pattern.operands.zip ts).zip τs).map Prod.fst).map Prod.fst := by
        rw [List.map_map, List.map_map]
        rfl
      rw [hfst, hpairs, List.map_fst_zip (Nat.le_of_eq hlength.symm)]
    · intro f hf
      obtain ⟨⟨pair, τ⟩, hmem, rfl⟩ := List.mem_map.mp hf
      exact hways hmem
    · have hsnd : (((pattern.operands.zip ts).zip τs).map triple).map (·.2.1) =
          (((pattern.operands.zip ts).zip τs).map Prod.fst).map Prod.snd := by
        rw [List.map_map, List.map_map]
        rfl
      rw [hsnd, hpairs, List.map_snd_zip (Nat.le_of_eq hlength)]
      exact hperm
    · intro x b
      have hexists : (∃ f ∈ ((pattern.operands.zip ts).zip τs).map triple,
          f.2.2.find? x = some b) ↔ ∃ τ ∈ τs, τ.find? x = some b := by
        conv_rhs => rw [← hsubsts]
        simp only [List.mem_map, exists_exists_and_eq_and]
        rfl
      rw [hbinds, hexists]
  · rintro ⟨fitting, parts, hoperands, hways, hadmitted, hperm, hbinds⟩
    -- The triples in the order of the operands, taken apart again.
    obtain ⟨ordered, hordered, hmap⟩ := Bipartite.exists_perm_map hoperands
    refine ⟨ordered.map (·.2.1), parts, ordered.map (·.2.2), ?_, ?_, hadmitted, ?_, ?_⟩
    · rw [← hmap, List.length_map, List.length_map]
    · rw [← hmap, List.zip_map', List.forall₂_map_left_iff, List.forall₂_map_right_iff,
        List.forall₂_same]
      exact fun f hf => hways f (hordered.mem_iff.mp hf)
    · exact hperm.trans ((hordered.symm.map _).append_right _)
    · intro x b
      rw [hbinds]
      simp only [List.mem_map, exists_exists_and_eq_and, hordered.mem_iff]

/-! ### Operands of one operation -/

/-- Among numbered ways those with one number are the ways at this place. -/
theorem fits_zipIdx {α : Type} (ways : List (α × (Term → List Substitution))) (t : Term)
    (start index : Nat) :
    fits (start + index)
        ((ways.zipIdx start).flatMap fun ((_, way), i) => (way t).map (i, ·)) =
      (ways[index]?.map fun way => way.2 t).getD [] := by
  induction ways generalizing start index with
  | nil => rfl
  | cons way rest ih =>
    obtain ⟨name, way⟩ := way
    -- The first way has the number `start`, and all others have larger ones.
    have hfirst : fits (start + index) ((way t).map (start, ·)) =
        if index = 0 then way t else [] := by
      unfold fits
      rw [List.filterMap_map]
      split
      · rename_i hindex
        simp [hindex]
      · rename_i hindex
        simp [hindex]
    have happend : ∀ found more, fits (start + index) (found ++ more) =
        fits (start + index) found ++ fits (start + index) more :=
      fun _ _ => List.filterMap_append
    rw [List.zipIdx_cons, List.flatMap_cons, happend, hfirst]
    cases index with
    | zero =>
      have hrest : fits (start + 0)
          ((rest.zipIdx (start + 1)).flatMap fun ((_, way), i) => (way t).map (i, ·)) = [] := by
        refine List.filterMap_eq_nil_iff.mpr ?_
        rintro ⟨i, τ⟩ hmem
        obtain ⟨⟨⟨_, way⟩, j⟩, hj, hmem⟩ := List.mem_flatMap.mp hmem
        obtain ⟨_, -, heq⟩ := List.mem_map.mp hmem
        have hle := List.le_snd_of_mem_zipIdx hj
        have hij : j = i := congrArg Prod.fst heq
        have hne : i ≠ start := by
          simp only at hle
          omega
        simp [hne]
      rw [hrest]
      simp
    | succ index =>
      have hshift := ih (start + 1) index
      rw [Nat.add_right_comm] at hshift
      rw [if_neg (Nat.succ_ne_zero index), List.nil_append]
      exact hshift

variable {constraints : List Constraint} {head : Head} {args : List PatternTerm}

/-- Operands of an operation with one tree are equal, constraints included. -/
theorem operands_tree_inj {operand other : OperandPattern}
    (hoperand : operand ∈ operandPatterns constraints head args)
    (hother : other ∈ operandPatterns constraints head args) (h : operand.tree = other.tree) :
    operand = other := by
  obtain ⟨p, -, rfl⟩ := List.mem_map.mp hoperand
  obtain ⟨q, -, rfl⟩ := List.mem_map.mp hother
  have hpq : p = q := h
  rw [hpq]

/-- The number of an operand among those of its operation: where its tree first stands. -/
def aloneNumber (constraints : List Constraint) (head : Head) (args : List PatternTerm)
    (operand : OperandPattern) : Nat :=
  ((operandPatterns constraints head args).map OperandPattern.tree).idxOf operand.tree

/-- An operand is found at its number. -/
theorem getElem?_aloneNumber {operand : OperandPattern}
    (h : operand ∈ operandPatterns constraints head args) :
    (operandPatterns constraints head args)[aloneNumber constraints head args operand]? =
      some operand := by
  have hmem : operand.tree ∈ (operandPatterns constraints head args).map OperandPattern.tree :=
    List.mem_map_of_mem h
  have hlt := List.idxOf_lt_length_of_mem hmem
  rw [List.length_map] at hlt
  have htree := List.getElem_idxOf (List.idxOf_lt_length_of_mem hmem)
  rw [List.getElem_map] at htree
  rw [aloneNumber, List.getElem?_eq_getElem hlt]
  exact congrArg some (operands_tree_inj (List.getElem_mem hlt) h htree)

/-- The operands and the sequence variables of an operation as a matcher of its own. -/
abbrev alone (constraints : List Constraint) (head : Head) (args : List PatternTerm) :
    OperandMatcher :=
  aloneMatcher head (sequenceVariables head args) (operandWays constraints head args)

/-- **An operand of an operation that is matched by itself** has its own matches. -/
theorem fits_alone {operand : OperandPattern}
    (h : operand ∈ operandPatterns constraints head args) (t : Term) :
    fits (aloneNumber constraints head args operand)
        ((alone constraints head args).matchOperand t) = operand.solutions t := by
  have hfits := fits_zipIdx (operandWays constraints head args) t 0
    (aloneNumber constraints head args operand)
  have hway : (operandWays constraints head args)[aloneNumber constraints head args operand]? =
      some (operand.tree, operand.solutions) := by
    rw [operandWays_eq, List.getElem?_map, getElem?_aloneNumber h]
    rfl
  rw [Nat.zero_add, hway] at hfits
  exact hfits

/-- Numbers are in order once they are sorted. -/
theorem pairwise_sortBy_le (ns : List Nat) :
    (sortBy (fun a b : Nat => decide (a ≤ b)) ns).Pairwise (· ≤ ·) := by
  have hsorted : (sortBy (fun a b : Nat => decide (a ≤ b)) ns).Pairwise
      (fun a b => decide (a ≤ b) = true) :=
    sortBy_pairwise (fun a b c hab hbc => by simp at *; omega) (fun a b => by simp; omega) ns
  exact hsorted.imp fun h => of_decide_eq_true h

/-- The pattern of an operation that is matched by itself. -/
def alonePattern (constraints : List Constraint) (head : Head) (args : List PatternTerm) :
    CommutativePattern :=
  ⟨sortBy (· ≤ ·)
    ((operandPatterns constraints head args).map (aloneNumber constraints head args)),
    sequenceVariables head args⟩

/-- The matcher for one operation alone solves its arguments like its pattern does. -/
theorem solve_alone_eq (constraints : List Constraint) (head : Head) (args : List PatternTerm)
    (ts : List Term) (σ : Substitution) :
    (alone constraints head args).solve ts σ 0 =
      (alonePattern constraints head args).matchSorted head (sortBy Term.le ts)
        ((sortBy Term.le ts).map (alone constraints head args).matchOperand) σ := by
  have htrees : (operandWays constraints head args).map Prod.fst =
      (operandPatterns constraints head args).map OperandPattern.tree := by
    rw [operandWays_eq, List.map_map]
    rfl
  have hpatterns : (alone constraints head args).patterns =
      [alonePattern constraints head args] := by
    rw [alone, aloneMatcher, htrees]
    dsimp only
    rw [List.map_map]
    rfl
  rw [OperandMatcher.solve, hpatterns]
  rfl

/-- A match of one commutative operation: `fitting` lists its operands, the argument of
    each of them and the way in which it fits, `parts` are the parts of the sequence
    variables. -/
structure IsAloneMatch (constraints : List Constraint) (head : Head) (args : List PatternTerm)
    (ts : List Term) (σ ρ : Substitution) (fitting : List (OperandPattern × Term × Substitution))
    (parts : List (List Term)) : Prop where
  operands : fitting.map Prod.fst = operandPatterns constraints head args
  ways : ∀ f ∈ fitting, f.2.2 ∈ f.1.solutions f.2.1
  admitted : List.Forall₂ (fun var run => run.Pairwise (fun s t => s.le t = true) ∧
    var.admits run.length = true) (sequenceVariables head args) parts
  perm : ts.Perm (fitting.map (·.2.1) ++ shares (sequenceVariables head args) parts)
  binds : ∀ x b, ρ.find? x = some b ↔ σ.find? x = some b ∨
    (∃ f ∈ fitting, f.2.2.find? x = some b) ∨
    (x, b) ∈ runBindings head (sequenceVariables head args) parts

/-- **What matching the arguments of one operation finds.** -/
theorem mem_solve_alone_iff {ts : List Term} {σ ρ : Substitution} :
    ρ ∈ (alone constraints head args).solve ts σ 0 ↔
      ∃ fitting parts, IsAloneMatch constraints head args ts σ ρ fitting parts := by
  let os := operandPatterns constraints head args
  let number := aloneNumber constraints head args
  have hnumbers : (alonePattern constraints head args).operands.Perm (os.map number) :=
    sortBy_perm _ _
  have hways : ∀ operand ∈ os, ∀ t,
      waysOf (alone constraints head args).matchOperand (number operand) t = operand.solutions t :=
    fun operand hoperand t => fits_alone hoperand t
  rw [solve_alone_eq, CommutativePattern.mem_matchSorted_iff_fitting]
  constructor
  · rintro ⟨fitting, parts, hoperands, hfits, hadmitted, hperm, hbinds⟩
    -- The operands in their own order, each with what its number is fitted to.
    obtain ⟨ordered, hordered, hsame⟩ := Bipartite.exists_pairs_of_perm (hoperands.trans hnumbers)
    have hterms : (ordered.map (·.2.1)).Perm (fitting.map (·.2.1)) := by
      have hboth := hsame.map (·.2.1)
      rwa [List.map_map] at hboth
    refine ⟨ordered, parts, hordered, fun f hf => ?_, hadmitted, ?_, fun x b => ?_⟩
    · have hfit := hfits _ (hsame.mem_iff.mp (List.mem_map_of_mem hf))
      rw [← hways f.1 (hordered ▸ List.mem_map_of_mem hf)]
      exact hfit
    · exact (sortBy_perm Term.le ts).symm.trans (hperm.trans (hterms.symm.append_right _))
    · have hexists : (∃ f ∈ ordered, f.2.2.find? x = some b) ↔
          ∃ f ∈ fitting, f.2.2.find? x = some b := by
        simp only [← hsame.mem_iff, List.mem_map, exists_exists_and_eq_and, Prod.map_snd, id_eq]
      rw [hbinds, hexists]
      rfl
  · rintro ⟨fitting, parts, hoperands, hfits, hadmitted, hperm, hbinds⟩
    have hmem : ∀ f ∈ fitting, f.1 ∈ os := by
      intro f hf
      have hmap := List.mem_map_of_mem (f := Prod.fst) hf
      rwa [hoperands] at hmap
    refine ⟨fitting.map (Prod.map number id), parts, ?_, ?_, hadmitted, ?_, ?_⟩
    · refine List.Perm.trans (.of_eq ?_) hnumbers.symm
      have hfst : (fitting.map (Prod.map number id)).map Prod.fst =
          (fitting.map Prod.fst).map number := by
        rw [List.map_map, List.map_map]
        rfl
      rw [hfst, hoperands]
    · intro f hf
      obtain ⟨g, hg, rfl⟩ := List.mem_map.mp hf
      have hfit := hfits g hg
      rw [← hways g.1 (hmem g hg)] at hfit
      exact hfit
    · have hterms : (fitting.map (Prod.map number id)).map (·.2.1) = fitting.map (·.2.1) := by
        rw [List.map_map]
        rfl
      rw [hterms]
      exact (sortBy_perm Term.le ts).trans hperm
    · intro x b
      rw [hbinds]
      simp only [List.mem_map, exists_exists_and_eq_and, Prod.map_snd, id_eq]
      rfl

end TermNet
