import Mathlib.Algebra.BigOperators.Group.List.Basic
import Mathlib.Algebra.Order.Group.Multiset
import TermNet.Proofs.Commutative.Distinct

namespace TermNet

/-!
# Every way to split arguments among variables

The enumeration of partitions works with numbers of distinct terms, and takes a short
cut for the last variable.  What it lists can be said with multisets: the copies of all
parts, as many of each as its variable occurs, add up to the arguments.

* `SequenceVariable.Allows` — the sizes that a variable may take;
* `copies vars parts` — the multiset of all copies of the parts;
* `IsSplit` — what a way to split arguments is;
* `isSplit_iff_isPartition` — a split is what the enumeration lists;
* `partitions_are_the_splits` — the enumeration lists every split, and each once.
-/

/-- The sizes that a variable may take: at least the least number of arguments, or none
    of them if it has a default; and at most one if it is fixed. -/
def SequenceVariable.Allows (var : SequenceVariable) (size : Nat) : Prop :=
  (var.minCount ≤ size ∨ size = 0 ∧ var.default.isSome = true) ∧ (var.fixed = true → size ≤ 1)

/-- The multiset of all copies of the parts. -/
def copies (vars : List SequenceVariable) (parts : List (List Term)) : Multiset Term :=
  ((vars.zip parts).map fun (var, run) => var.count • (run : Multiset Term)).sum

/-- One sorted list for each variable, of a size that the variable may take; their copies
    add up to the arguments. -/
structure IsSplit (leftover : List Term) (vars : List SequenceVariable)
    (parts : List (List Term)) : Prop where
  allowed : List.Forall₂ (fun var run => run.Pairwise (fun s t => s.le t = true) ∧
    var.Allows run.length) vars parts
  sum : copies vars parts = (leftover : Multiset Term)

variable {leftover : List Term} {vars : List SequenceVariable} {parts : List (List Term)}

/-- The sizes that are admitted are those that are allowed. -/
theorem SequenceVariable.admits_iff {var : SequenceVariable} {size : Nat} :
    var.admits size = true ↔ var.Allows size := by
  unfold admits Allows
  cases var.fixed <;> simp

/-- A repeated run as a multiple of a multiset. -/
theorem coe_flatten_replicate (n : Nat) (run : List Term) :
    ((List.replicate n run).flatten : Multiset Term) = n • (run : Multiset Term) := by
  induction n with
  | zero => simp
  | succ n ih =>
    rw [List.replicate_succ, List.flatten_cons, ← Multiset.coe_add, ih, succ_nsmul']

/-- The enumeration takes the part of a variable at least once, even if its count is zero;
    hence the condition on the counts. -/
theorem coe_shares (hcounts : ∀ var ∈ vars, 1 ≤ var.count) (parts : List (List Term)) :
    (shares vars parts : Multiset Term) = copies vars parts := by
  induction vars generalizing parts with
  | nil => rfl
  | cons var rest ih =>
    cases parts with
    | nil => rfl
    | cons run parts =>
      -- The enumeration would take a variable that does not occur once.
      have hvar : max var.count 1 = var.count := Nat.max_eq_left (hcounts var List.mem_cons_self)
      have hrest := ih (fun v hv => hcounts v (List.mem_cons_of_mem var hv)) parts
      have hcons : shares (var :: rest) (run :: parts) =
          (List.replicate (max var.count 1) run).flatten ++ shares rest parts := rfl
      rw [hcons, hvar, ← Multiset.coe_add, coe_flatten_replicate, hrest]
      rfl

/-- **Splits as multisets are partitions as lists,** if no variable occurs zero times. -/
theorem isSplit_iff_isPartition (hcounts : ∀ var ∈ vars, 1 ≤ var.count) :
    IsSplit leftover vars parts ↔ IsPartition leftover vars parts := by
  have hallowed : List.Forall₂ (fun var run => run.Pairwise (fun s t => s.le t = true) ∧
        var.Allows run.length) vars parts ↔
      List.Forall₂ (fun var run => run.Pairwise (fun s t => s.le t = true) ∧
        var.admits run.length = true) vars parts := by
    simp only [SequenceVariable.admits_iff]
  constructor
  · rintro ⟨hparts, hsum⟩
    refine ⟨hallowed.mp hparts, Multiset.coe_eq_coe.mp ?_⟩
    rw [coe_shares hcounts, hsum]
  · rintro ⟨hparts, hperm⟩
    refine ⟨hallowed.mpr hparts, ?_⟩
    rw [← coe_shares hcounts, Multiset.coe_eq_coe.mpr hperm]

/-- Without variables there is one way to split nothing, and none to split anything else. -/
theorem partitions_nil (leftover : List Term) :
    partitions leftover [] = [[]] ↔ leftover = [] := by
  constructor
  · intro h
    have hmem : [] ∈ partitions leftover [] := h ▸ List.mem_singleton_self []
    exact (mem_partitions_iff.mp hmem).perm.eq_nil
  · rintro rfl
    rfl

/-- **The enumeration lists every split, and each of them once.**  Without variables it
    lists the empty split if there is nothing to split; and the order of the arguments
    makes no difference to what it lists. -/
theorem partitions_are_the_splits (leftover : List Term) (vars : List SequenceVariable)
    (hcounts : ∀ var ∈ vars, 1 ≤ var.count) :
    (partitions leftover vars).Nodup ∧
      (∀ parts, parts ∈ partitions leftover vars ↔ IsSplit leftover vars parts) ∧
      (partitions leftover [] = [[]] ↔ leftover = []) ∧
      ∀ other, other.Perm leftover → partitions other vars = partitions leftover vars := by
  refine ⟨nodup_partitions leftover vars, fun parts => ?_, partitions_nil leftover,
    fun other h => partitions_eq_of_perm h vars⟩
  rw [mem_partitions_iff, isSplit_iff_isPartition hcounts]

/-- A variable that occurs twice, an optional one for at most one argument, and one for
    any number of them. -/
def sampleVariables : List SequenceVariable :=
  [{ name := some "x", count := 2 },
    { name := some "y", minCount := 1, default := some (.integer 0), fixed := true },
    { name := some "z" }]

/-- Of five splits of `b, a, a`, one gives `a` to the first variable and `b` to the second. -/
theorem partitions_are_the_splits_of_three :
    (∀ var ∈ sampleVariables, 1 ≤ var.count) ∧
      (partitions [.ofName "b", .ofName "a", .ofName "a"] sampleVariables).length = 5 ∧
      (partitions [.ofName "b", .ofName "a", .ofName "a"] sampleVariables).Nodup ∧
      IsSplit [.ofName "b", .ofName "a", .ofName "a"] sampleVariables
        [[.ofName "a"], [.ofName "b"], []] := by
  have hcounts : ∀ var ∈ sampleVariables, 1 ≤ var.count := by decide
  obtain ⟨hnodup, hsplits, -, -⟩ :=
    partitions_are_the_splits [.ofName "b", .ofName "a", .ofName "a"] sampleVariables hcounts
  exact ⟨hcounts, by decide +kernel, hnodup, (hsplits _).mp (by decide +kernel)⟩

end TermNet
