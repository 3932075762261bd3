import TermNet.Proofs.Pattern.Built

namespace TermNet

/-!
# The leaves of a pattern tree

* `PatternTerm.leaves` — atoms and wildcards, each with the head above it;
* `PatternTerm.terms` — the terms that a tree is written with;
* `PatternTerm.Flattened` — no operation stands below one of the same associative head;
* `PatternTerm.leaves_mapVariables`, `PatternTerm.flattened_mapVariables` — renaming keeps the
  leaves and flattens the tree;
* `PatternTerm.terms_mapVariables` — and it keeps the terms.
-/

namespace PatternTerm

mutual

/-- The leaves of a tree below `parent`, each with the head above it. -/
def leaves (parent : Option Head) : PatternTerm → List (Option Head × PatternTerm)
  | .atom t => [(parent, .atom t)]
  | .wildcard w => [(parent, .wildcard w)]
  | .node head args => leavesAll head args
termination_by structural p => p

/-- The leaves of arguments. -/
def leavesAll (parent : Head) : List PatternTerm → List (Option Head × PatternTerm)
  | [] => []
  | p :: ps => leaves (some parent) p ++ leavesAll parent ps
termination_by structural ps => ps

end

/-- The leaves of a list of trees, one tree after the other. -/
theorem leavesAll_eq (parent : Head) (args : List PatternTerm) :
    leavesAll parent args = args.flatMap (leaves (some parent)) := by
  induction args with
  | nil => rfl
  | cons p ps ih => rw [leavesAll, ih, List.flatMap_cons]

/-- The leaves of an operation are those of its arguments, below its head. -/
theorem mem_leaves_node {parent : Option Head} {head : Head} {args : List PatternTerm}
    {leaf : Option Head × PatternTerm} :
    leaf ∈ (node head args).leaves parent ↔ ∃ p ∈ args, leaf ∈ p.leaves (some head) := by
  rw [leaves, leavesAll_eq, List.mem_flatMap]

/-- The wildcards are among the leaves. -/
theorem mem_wildcards_iff {p : PatternTerm} {parent : Option Head} {w : Wildcard} :
    w ∈ p.wildcards ↔ ∃ above, (above, wildcard w) ∈ p.leaves parent := by
  induction p using inductionOn generalizing parent with
  | atom t => simp [wildcards, leaves]
  | wildcard v => simp [wildcards, leaves]
  | node head args ih =>
    rw [wildcards, mem_wildcardsAll]
    constructor
    · rintro ⟨p, hp, hw⟩
      obtain ⟨above, habove⟩ := (@ih p hp (some head)).mp hw
      exact ⟨above, mem_leaves_node.mpr ⟨p, hp, habove⟩⟩
    · rintro ⟨above, habove⟩
      obtain ⟨p, hp, hleaf⟩ := mem_leaves_node.mp habove
      exact ⟨p, hp, (ih p hp).mpr ⟨above, hleaf⟩⟩

/-- Building an operation keeps the leaves with the heads above them. -/
theorem leaves_build (parent : Option Head) (head : Head) (args : List PatternTerm) :
    ((build head args).leaves parent).Perm (leavesAll head args) := by
  have hspliced : leavesAll head (args.flatMap (spliced head)) = leavesAll head args := by
    rw [leavesAll_eq, leavesAll_eq, List.flatMap_assoc]
    refine List.flatMap_congr fun p _ => ?_
    cases p with
    | node inner below =>
      rw [spliced]
      split
      · rename_i hsame
        rw [Bool.and_eq_true, decide_eq_true_eq] at hsame
        rw [leaves, leavesAll_eq, hsame.2]
      · exact List.flatMap_singleton _ _
    | atom t => exact List.flatMap_singleton _ _
    | wildcard w => exact List.flatMap_singleton _ _
  rw [build, leaves, ← hspliced]
  split
  · rw [leavesAll_eq, leavesAll_eq]
    exact (sortBy_perm _ _).flatMap_right _
  · exact .refl _

/-- **Renaming keeps the leaves** with the heads above them. -/
theorem leaves_mapVariables (rename : String → String) (p : PatternTerm) (parent : Option Head) :
    ((p.mapVariables rename).leaves parent).Perm
      ((p.leaves parent).map (Prod.map id (mapVariables rename))) := by
  induction p using inductionOn generalizing parent with
  | atom t => exact .refl _
  | wildcard w => exact .refl _
  | node head args ih =>
    rw [mapVariables, leaves]
    refine (leaves_build parent head _).trans ?_
    rw [leavesAll_eq, leavesAll_eq, mapVariablesAll_eq, List.flatMap_map, List.map_flatMap]
    exact List.Perm.flatMap_left _ fun p hp => ih p hp (some head)

/-! ### Terms -/

mutual

/-- The terms that a tree is written with: its atoms and the defaults of its wildcards. -/
def terms : PatternTerm → List Term
  | .atom t => [t]
  | .wildcard w => w.default.toList
  | .node _ args => termsAll args
termination_by structural p => p

/-- The terms of arguments. -/
def termsAll : List PatternTerm → List Term
  | [] => []
  | p :: ps => terms p ++ termsAll ps
termination_by structural ps => ps

end

/-- The terms of a list of trees, one tree after the other. -/
theorem termsAll_eq (args : List PatternTerm) : termsAll args = args.flatMap terms := by
  induction args with
  | nil => rfl
  | cons p ps ih => rw [termsAll, ih, List.flatMap_cons]

/-- The terms in an operation are those in its arguments. -/
theorem mem_terms_node {head : Head} {args : List PatternTerm} {t : Term} :
    t ∈ (node head args).terms ↔ ∃ p ∈ args, t ∈ p.terms := by
  rw [terms, termsAll_eq, List.mem_flatMap]

/-- The terms of a tree are those of its leaves. -/
theorem terms_eq (p : PatternTerm) (parent : Option Head) :
    p.terms = (p.leaves parent).flatMap fun leaf => leaf.2.terms := by
  induction p using inductionOn generalizing parent with
  | atom t => exact (List.flatMap_singleton _ _).symm
  | wildcard w => exact (List.flatMap_singleton _ _).symm
  | node head args ih =>
    rw [terms, termsAll_eq, leaves, leavesAll_eq, List.flatMap_assoc]
    exact List.flatMap_congr fun p hp => ih p hp (some head)

/-- Building an operation keeps the terms. -/
theorem terms_build (head : Head) (args : List PatternTerm) :
    (build head args).terms.Perm (termsAll args) := by
  have hargs : termsAll args = (leavesAll head args).flatMap fun leaf => leaf.2.terms :=
    terms_eq (node head args) none
  rw [hargs, terms_eq _ none]
  exact (leaves_build none head args).flatMap_right _

/-- **Renaming keeps the terms.** -/
theorem terms_mapVariables (rename : String → String) (p : PatternTerm) :
    (p.mapVariables rename).terms.Perm p.terms := by
  induction p using inductionOn with
  | atom t => exact .refl _
  | wildcard w => exact .refl _
  | node head args ih =>
    rw [mapVariables, terms]
    refine (terms_build head _).trans ?_
    rw [termsAll_eq, termsAll_eq, mapVariablesAll_eq, List.flatMap_map]
    exact List.Perm.flatMap_left _ ih

/-! ### Flat trees -/

/-- Whether a tree is no operation that would be spliced into its place under `head`. -/
def Apart (head : Head) : PatternTerm → Prop
  | node inner _ => head.isAssociative = true → inner ≠ head
  | _ => True

/-- No operation stands below one of the same associative head. -/
inductive Flattened : PatternTerm → Prop
  | atom (t : Term) : Flattened (atom t)
  | wildcard (w : Wildcard) : Flattened (wildcard w)
  | node (head : Head) {args : List PatternTerm} (hargs : ∀ p ∈ args, Flattened p)
    (hapart : ∀ p ∈ args, Apart head p) : Flattened (node head args)

/-- **Canonical operations on flat trees are flat.** -/
theorem Flattened.build (head : Head) {args : List PatternTerm}
    (h : ∀ p ∈ args, Flattened p) : Flattened (build head args) := by
  have hspliced : ∀ p ∈ args.flatMap (spliced head), Flattened p ∧ Apart head p := by
    intro p hp
    obtain ⟨q, hq, hp⟩ := List.mem_flatMap.mp hp
    cases h q hq with
    | atom t =>
      rw [List.mem_singleton.mp hp]
      exact ⟨.atom t, trivial⟩
    | wildcard w =>
      rw [List.mem_singleton.mp hp]
      exact ⟨.wildcard w, trivial⟩
    -- Arguments that are spliced were apart from the same head before.
    | node inner hargs hapart =>
      rw [spliced] at hp
      split at hp
      · rename_i hsame
        rw [Bool.and_eq_true, decide_eq_true_eq] at hsame
        rw [← hsame.2]
        exact ⟨hargs p hp, hapart p hp⟩
      · rename_i hdiffer
        rw [List.mem_singleton.mp hp]
        refine ⟨.node inner hargs hapart, fun hassoc heq => hdiffer ?_⟩
        rw [hassoc, heq]
        simp
  rw [PatternTerm.build]
  split
  · have hmem : ∀ p ∈ sortBy le (args.flatMap (spliced head)),
        p ∈ args.flatMap (spliced head) := fun p hp => (sortBy_perm _ _).mem_iff.mp hp
    exact .node head (fun p hp => (hspliced p (hmem p hp)).1)
      fun p hp => (hspliced p (hmem p hp)).2
  · exact .node head (fun p hp => (hspliced p hp).1) fun p hp => (hspliced p hp).2

/-- **Renaming flattens a tree.** -/
theorem flattened_mapVariables (rename : String → String) (p : PatternTerm) :
    Flattened (p.mapVariables rename) := by
  induction p using inductionOn with
  | atom t => exact .atom t
  | wildcard w => exact .wildcard _
  | node head args ih =>
    rw [mapVariables, mapVariablesAll_eq]
    refine .build head fun q hq => ?_
    obtain ⟨p, hp, rfl⟩ := List.mem_map.mp hq
    exact ih p hp

end PatternTerm

end TermNet
