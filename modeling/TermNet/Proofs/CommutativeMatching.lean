import Mathlib.Algebra.BigOperators.Fin
import Mathlib.Data.Fintype.Basic
import TermNet.Proofs.Commutative.Matching
import TermNet.Proofs.Splitting

namespace TermNet

/-!
# Matching commutative arguments finds every assignment

The search sorts the arguments, looks at one of many equal arguments and operands only,
and shares out what is left over in the end.  What it finds does not depend on any of
this: operands take arguments at different places, and sequence variables split the
others, in whichever way their bindings agree.

* `SequenceVariable.bindingOf` — what a variable is bound to that takes a multiset;
* `remaining` — the arguments at no operand's place;
* `Assigns` — what an assignment of the arguments is;
* `coe_ofFn_add_remaining`, `exists_places` — what the operands take and what is left over;
* `isMatch_ofFn_iff`, `exists_isMatch_iff` — assignments are what the search is known to find;
* `commutative_matches_are_the_assignments` — the matches are those of the assignments.
-/

open CommutativePattern (IsMatch runBinding runBindings waysOf)
open scoped BigOperators

/-! ### Assignments -/

/-- The list of a multiset of terms, in the order of terms. -/
def sortedList (run : Multiset Term) : List Term :=
  Quotient.liftOn run (sortBy Term.le) fun _ _ h => sortBy_eq_of_perm h

/-- What a variable that takes `run` is bound to.  For nothing, that is its default, if it
    has one; a variable for one term gets the only argument, or one operation on all of
    them; any other one gets the sorted list. -/
def SequenceVariable.bindingOf (var : SequenceVariable) (head : Head) (run : Multiset Term) :
    Binding :=
  if run = 0 then
    match var.default with
    | some default => .single default
    | none => .sequence []
  else if var.wrap || var.fixed then .single (.rewrap head (sortedList run))
  else .sequence (sortedList run)

/-- The arguments that stand at none of the places. -/
def remaining {n : Nat} (args : List Term) (place : Fin n ↪ Fin args.length) : Multiset Term :=
  (Finset.univ.map place)ᶜ.val.map args.get

/-- Each operand takes the argument at a place of its own, which it fits in one of its ways;
    the sequence variables split the other arguments, as many as each may take; and `ρ`
    holds the bindings of `σ`, of the ways and of the variables, which agree. -/
structure Assigns (matcher : OperandMatcher) (pattern : CommutativePattern) (args : List Term)
    (σ : Substitution) (place : Fin pattern.operands.length ↪ Fin args.length)
    (ways : Fin pattern.operands.length → Substitution)
    (parts : Fin pattern.sequenceVars.length → Multiset Term) (ρ : Substitution) : Prop where
  fits : ∀ slot, (pattern.operands[slot], ways slot) ∈ matcher.matchOperand args[place slot]
  allowed : ∀ i : Fin pattern.sequenceVars.length,
    pattern.sequenceVars[i].Allows (parts i).card
  split : ∑ i, pattern.sequenceVars[i].count • parts i = remaining args place
  union : ∀ x b, ρ.find? x = some b ↔ σ.find? x = some b ∨
    (∃ slot, (ways slot).find? x = some b) ∨
    ∃ i : Fin pattern.sequenceVars.length, pattern.sequenceVars[i].name = some x ∧
      pattern.sequenceVars[i].bindingOf matcher.head (parts i) = b

/-! ### Multisets as sorted lists -/

/-- The sorted list of a multiset has its members. -/
theorem coe_sortedList (run : Multiset Term) : (sortedList run : Multiset Term) = run :=
  Quotient.inductionOn run fun ts => Multiset.coe_eq_coe.mpr (sortBy_perm _ ts)

/-- The sorted list of a multiset is sorted. -/
theorem sorted_sortedList (run : Multiset Term) :
    (sortedList run).Pairwise (fun s t => s.le t = true) :=
  Quotient.inductionOn run fun ts => sorted_sortBy_le ts

/-- A sorted list is the one of its members. -/
theorem sortedList_coe {run : List Term} (h : run.Pairwise (fun s t => s.le t = true)) :
    sortedList run = run :=
  sortBy_eq_self h

/-- A sorted run is bound as it is. -/
theorem bindingOf_coe {var : SequenceVariable} {head : Head} {run : List Term}
    (h : run.Pairwise (fun s t => s.le t = true)) :
    var.bindingOf head run = runBinding head var run := by
  rw [SequenceVariable.bindingOf, sortedList_coe h, CommutativePattern.runBinding.eq_def]
  cases run with
  | nil => cases var.default <;> rfl
  | cons t run => cases var.default <;> rfl

/-! ### Places -/

/-- The arguments at some places, and the remaining ones, are all arguments. -/
theorem coe_ofFn_add_remaining {n : Nat} (args : List Term) (place : Fin n ↪ Fin args.length) :
    (List.ofFn fun slot => args[place slot] : Multiset Term) + remaining args place = args := by
  have htaken : (Finset.univ.map place).val.map args.get =
      (List.ofFn fun slot => args[place slot] : Multiset Term) := by
    rw [Finset.map_val, Multiset.map_map, Fin.univ_val_map]
    rfl
  have hall : (Finset.univ.map place).val + (Finset.univ.map place)ᶜ.val =
      (Finset.univ : Finset (Fin args.length)).val := by
    rw [← Finset.disjUnion_val _ _ disjoint_compl_right, Finset.disjUnion_eq_union,
      Finset.union_compl]
  rw [← htaken, remaining, ← Multiset.map_add, hall, Fin.univ_val_map, List.ofFn_get]

/-- Some of the arguments stand at different places. -/
theorem exists_places {n : Nat} {args : List Term} {ts : Fin n → Term}
    (h : (List.ofFn ts).Subperm args) :
    ∃ place : Fin n ↪ Fin args.length, ∀ slot, args[place slot] = ts slot := by
  obtain ⟨f, hnodup, hmap⟩ := CommutativePattern.exists_positions h
  have hlength : f.length = n := by simpa using congrArg List.length hmap
  have hget : ∀ slot : Fin n, args[f[slot]]? = some (ts slot) := by
    intro slot
    have hentry := List.getElem_of_eq hmap (i := slot) (by simp [hlength])
    simpa using hentry
  have hlt := fun slot => (List.getElem?_eq_some_iff.mp (hget slot)).1
  refine ⟨⟨fun slot => ⟨_, hlt slot⟩, fun slot other heq => ?_⟩, fun slot => ?_⟩
  · exact Fin.ext (hnodup.getElem_inj_iff.mp (Fin.mk.inj heq))
  · exact (List.getElem?_eq_some_iff.mp (hget slot)).2

/-! ### Lists and functions -/

/-- A list is a function of its positions. -/
theorem exists_eq_ofFn {α : Type} {n : Nat} {xs : List α} (h : xs.length = n) :
    ∃ F : Fin n → α, xs = List.ofFn F := by
  subst h
  exact ⟨xs.get, (List.ofFn_get xs).symm⟩

/-- Two lists are related position by position. -/
theorem forall₂_ofFn_iff {α β : Type} {R : α → β → Prop} {n : Nat} {F : Fin n → α}
    {G : Fin n → β} : List.Forall₂ R (List.ofFn F) (List.ofFn G) ↔ ∀ i, R (F i) (G i) := by
  simp only [List.forall₂_iff_get, List.length_ofFn, List.get_ofFn]
  exact ⟨fun h i => h.2 i i.isLt i.isLt, fun h => ⟨trivial, fun i hi _ => h ⟨i, hi⟩⟩⟩

/-- A list and a function are related position by position. -/
theorem forall₂_ofFn_right_iff {α β : Type} {R : α → β → Prop} {xs : List α}
    {G : Fin xs.length → β} :
    List.Forall₂ R xs (List.ofFn G) ↔ ∀ i : Fin xs.length, R xs[i] (G i) := by
  have h := forall₂_ofFn_iff (R := R) (F := xs.get) (G := G)
  rwa [List.ofFn_get] at h

/-- Pairing a list with a function of its positions. -/
theorem zip_ofFn {α β : Type} (xs : List α) (F : Fin xs.length → β) :
    xs.zip (List.ofFn F) = List.ofFn fun i : Fin xs.length => (xs[i], F i) :=
  List.ext_getElem (by simp) fun i hi hi' => by simp

/-- The copies of all runs, each as often as its variable occurs. -/
theorem copies_ofFn (vars : List SequenceVariable) (runs : Fin vars.length → List Term) :
    copies vars (List.ofFn runs) =
      ∑ i : Fin vars.length, vars[i].count • (runs i : Multiset Term) := by
  rw [copies, zip_ofFn, List.map_ofFn, List.sum_ofFn]
  rfl

/-- The bindings of runs, position by position. -/
theorem mem_runBindings_ofFn {head : Head} {vars : List SequenceVariable}
    {runs : Fin vars.length → List Term} {x : String} {b : Binding} :
    (x, b) ∈ runBindings head vars (List.ofFn runs) ↔
      ∃ i : Fin vars.length, vars[i].name = some x ∧
        runBinding head vars[i] (runs i) = b := by
  rw [runBindings, zip_ofFn, List.mem_filterMap]
  simp only [List.mem_ofFn, exists_exists_eq_and, Option.map_eq_some_iff, Prod.mk.injEq]
  constructor
  · rintro ⟨i, _, hname, rfl, hb⟩
    exact ⟨i, hname, hb⟩
  · rintro ⟨i, hname, hb⟩
    exact ⟨i, x, hname, rfl, hb⟩

/-! ### Assignments and matches -/

variable {matcher : OperandMatcher} {pattern : CommutativePattern} {args : List Term}
variable {σ ρ : Substitution}

/-- What the search is known to find, with functions for lists. -/
theorem isMatch_ofFn_iff {ts : Fin pattern.operands.length → Term}
    {ways : Fin pattern.operands.length → Substitution}
    {runs : Fin pattern.sequenceVars.length → List Term}
    (hcounts : ∀ var ∈ pattern.sequenceVars, 1 ≤ var.count) :
    IsMatch pattern matcher.head (sortBy Term.le args) matcher.matchOperand σ ρ (List.ofFn ts)
        (List.ofFn runs) (List.ofFn ways) ↔
      (∀ slot, (pattern.operands[slot], ways slot) ∈ matcher.matchOperand (ts slot)) ∧
      (∀ i : Fin pattern.sequenceVars.length, (runs i).Pairwise (fun s t => s.le t = true) ∧
        pattern.sequenceVars[i].Allows (runs i).length) ∧
      (args : Multiset Term) = (List.ofFn ts : Multiset Term) +
        ∑ i : Fin pattern.sequenceVars.length,
          pattern.sequenceVars[i].count • (runs i : Multiset Term) ∧
      ∀ x b, ρ.find? x = some b ↔ σ.find? x = some b ∨
        (∃ slot, (ways slot).find? x = some b) ∨
        ∃ i : Fin pattern.sequenceVars.length, pattern.sequenceVars[i].name = some x ∧
          runBinding matcher.head pattern.sequenceVars[i] (runs i) = b := by
  have hways : List.Forall₂ (fun pair τ => τ ∈ waysOf matcher.matchOperand pair.1 pair.2)
        (pattern.operands.zip (List.ofFn ts)) (List.ofFn ways) ↔
      ∀ slot, (pattern.operands[slot], ways slot) ∈ matcher.matchOperand (ts slot) := by
    rw [zip_ofFn, forall₂_ofFn_iff]
    exact forall_congr' fun slot => CommutativePattern.mem_fits_iff
  have hadmitted : List.Forall₂ (fun var run => run.Pairwise (fun s t => s.le t = true) ∧
        var.admits run.length = true) pattern.sequenceVars (List.ofFn runs) ↔
      ∀ i : Fin pattern.sequenceVars.length, (runs i).Pairwise (fun s t => s.le t = true) ∧
        pattern.sequenceVars[i].Allows (runs i).length := by
    rw [forall₂_ofFn_right_iff]
    simp only [SequenceVariable.admits_iff]
  -- Whether arguments are shared out is a question of multisets.
  have hperm : (sortBy Term.le args).Perm
        (List.ofFn ts ++ shares pattern.sequenceVars (List.ofFn runs)) ↔
      (args : Multiset Term) = (List.ofFn ts : Multiset Term) +
        ∑ i : Fin pattern.sequenceVars.length,
          pattern.sequenceVars[i].count • (runs i : Multiset Term) := by
    rw [← copies_ofFn, ← coe_shares hcounts, Multiset.coe_add, Multiset.coe_eq_coe]
    exact (sortBy_perm _ args).congr_left _
  constructor
  · rintro ⟨-, hfits, hallowed, hsplit, hunion⟩
    refine ⟨hways.mp hfits, hadmitted.mp hallowed, hperm.mp hsplit, fun x b => ?_⟩
    rw [hunion, mem_runBindings_ofFn]
    simp
  · rintro ⟨hfits, hallowed, hsplit, hunion⟩
    refine ⟨by simp, hways.mpr hfits, hadmitted.mpr hallowed, hperm.mpr hsplit, fun x b => ?_⟩
    rw [hunion, mem_runBindings_ofFn]
    simp

/-- **Assignments are what the search is known to find.** -/
theorem exists_isMatch_iff (hcounts : ∀ var ∈ pattern.sequenceVars, 1 ≤ var.count) :
    (∃ ts parts τs, IsMatch pattern matcher.head (sortBy Term.le args) matcher.matchOperand
        σ ρ ts parts τs) ↔
      ∃ place ways parts, Assigns matcher pattern args σ place ways parts ρ := by
  constructor
  · rintro ⟨ts, runs, ways, h⟩
    obtain ⟨ts, rfl⟩ := exists_eq_ofFn h.length
    obtain ⟨runs, rfl⟩ := exists_eq_ofFn h.admitted.length_eq.symm
    obtain ⟨ways, rfl⟩ : ∃ F : Fin pattern.operands.length → Substitution, ways = List.ofFn F :=
      exists_eq_ofFn (by simpa using h.ways.length_eq.symm)
    obtain ⟨hfits, hallowed, hsplit, hunion⟩ := (isMatch_ofFn_iff hcounts).mp h
    -- The arguments of the operands have places, and what stands elsewhere is what is split.
    have hsub : (List.ofFn ts).Subperm args := by
      have hle : (List.ofFn ts : Multiset Term) ≤ args := hsplit ▸ Multiset.le_add_right _ _
      exact Multiset.coe_le.mp hle
    obtain ⟨place, hplace⟩ := exists_places hsub
    refine ⟨place, ways, fun i => runs i, fun slot => ?_, fun i => (hallowed i).2, ?_,
      fun x b => ?_⟩
    · rw [hplace]
      exact hfits slot
    · have hall := coe_ofFn_add_remaining args place
      simp only [hplace] at hall
      exact add_left_cancel (hsplit.symm.trans hall.symm)
    · simp only [hunion, bindingOf_coe (hallowed _).1]
  · rintro ⟨place, ways, parts, h⟩
    refine ⟨List.ofFn fun slot => args[place slot], List.ofFn fun i => sortedList (parts i),
      List.ofFn ways, (isMatch_ofFn_iff hcounts).mpr ⟨h.fits, fun i => ?_, ?_, fun x b => ?_⟩⟩
    · have hlength : (sortedList (parts i)).length = (parts i).card := by
        rw [← Multiset.coe_card, coe_sortedList]
      exact ⟨sorted_sortedList _, hlength ▸ h.allowed i⟩
    · simp only [coe_sortedList, h.split, coe_ofFn_add_remaining]
    · rw [h.union]
      simp only [← bindingOf_coe (sorted_sortedList _), coe_sortedList]

/-- **Matching commutative arguments finds every assignment, and nothing else.**  For each
    pattern that is wanted and exists, the substitutions that are found are those of the
    assignments. -/
theorem commutative_matches_are_the_assignments (matcher : OperandMatcher)
    (hcounts : ∀ pattern ∈ matcher.patterns, ∀ var ∈ pattern.sequenceVars, 1 ≤ var.count)
    (args : List Term) (σ : Substitution) (wanted : List Nat) (index : Nat) (ρ : Substitution) :
    (index, ρ) ∈ matchCommutative matcher args σ wanted ↔
      index ∈ wanted ∧ ∃ pattern, matcher.patterns[index]? = some pattern ∧
        ∃ place ways parts, Assigns matcher pattern args σ place ways parts ρ := by
  have hpattern : ∀ pattern, matcher.patterns[index]? = some pattern →
      (ρ ∈ pattern.matchSorted matcher.head (sortBy Term.le args)
          ((sortBy Term.le args).map matcher.matchOperand) σ ↔
        ∃ place ways parts, Assigns matcher pattern args σ place ways parts ρ) := by
    intro pattern hget
    rw [CommutativePattern.mem_matchSorted_iff,
      exists_isMatch_iff (hcounts pattern (List.mem_of_getElem? hget))]
  rw [matchCommutative, List.mem_flatMap]
  constructor
  · rintro ⟨index', hwanted, hmem⟩
    cases hget : matcher.patterns[index']? with
    | none => simp [hget] at hmem
    | some pattern =>
      simp only [hget, List.mem_map, Prod.mk.injEq] at hmem
      obtain ⟨union, hunion, rfl, rfl⟩ := hmem
      exact ⟨hwanted, pattern, hget, (hpattern pattern hget).mp hunion⟩
  · rintro ⟨hwanted, pattern, hget, hassigns⟩
    refine ⟨index, hwanted, ?_⟩
    rw [hget]
    exact List.mem_map_of_mem ((hpattern pattern hget).mpr hassigns)

/-- One pattern: two operands that have to be equal, and a variable that occurs twice. -/
def twoPairs : OperandMatcher where
  head := ⟨"g", .commutative⟩
  patterns := [{ operands := [0, 0], sequenceVars := [{ name := some "x", count := 2 }] }]
  matchOperand t := [(0, .ofList [("y", .single t)])]

/-- Of `b, a, b, a`, the operands take both `a` or both `b`, each in two ways to place them;
    there are only two matches. -/
theorem commutative_matches_are_the_assignments_of_two_pairs :
    (∀ pattern ∈ twoPairs.patterns, ∀ var ∈ pattern.sequenceVars, 1 ≤ var.count) ∧
      (matchCommutative twoPairs [.ofName "b", .ofName "a", .ofName "b", .ofName "a"]
        .empty [0]).length = 2 ∧
      ∃ pattern, twoPairs.patterns[0]? = some pattern ∧ ∃ place ways parts,
        Assigns twoPairs pattern [.ofName "b", .ofName "a", .ofName "b", .ofName "a"] .empty
          place ways parts
          (.ofList [("x", .sequence [.ofName "a"]), ("y", .single (.ofName "b"))]) := by
  have hcounts : ∀ pattern ∈ twoPairs.patterns, ∀ var ∈ pattern.sequenceVars, 1 ≤ var.count := by
    decide
  have hmatches := commutative_matches_are_the_assignments twoPairs hcounts
    [.ofName "b", .ofName "a", .ofName "b", .ofName "a"] .empty [0] 0
    (.ofList [("x", .sequence [.ofName "a"]), ("y", .single (.ofName "b"))])
  exact ⟨hcounts, by decide +kernel, (hmatches.mp (by decide +kernel)).2⟩

end TermNet
