import TermNet.Proofs.Pattern.Substitute
import TermNet.Proofs.Substitution

namespace TermNet

/-!
# Substituting in trees as they are written

Patterns are kept in a canonical form of their own: arguments are spliced, and commutative ones
ordered by class and text, anew after every renaming.  None of this shows in what a pattern
becomes when its variables are replaced, since terms have a canonical form, too.

* `PatternTerm.Becomes` — substitution in a tree as it is written, as a relation;
* `PatternTerm.becomes_iff` — what the trees as they are written become;
* `substituting_ignores_canonical_forms` — canonical trees become the same, and renaming the
  variables of a tree is renaming the bindings.
-/

namespace PatternTerm

variable {σ : Substitution}

/-! ### Substitution as it is written -/

/-- **Substitution in a tree as it is written.**  A variable becomes what it is bound to, be it one
    term or a sequence; an operation becomes the one that is built from all terms that its
    arguments become, in the order in which they are written. -/
inductive Becomes (σ : Substitution) : PatternTerm → List Term → Prop where
  | atom (t : Term) : Becomes σ (.atom t) [t]
  | single {w : Wildcard} {x : String} {t : Term} (hname : w.name = some x)
    (hbound : σ.find? x = some (.single t)) : Becomes σ (.wildcard w) [t]
  | sequence {w : Wildcard} {x : String} {ts : List Term} (hname : w.name = some x)
    (hbound : σ.find? x = some (.sequence ts)) : Becomes σ (.wildcard w) ts
  | node (head : Head) {args : List PatternTerm} {parts : List (List Term)}
    (hargs : List.Forall₂ (Becomes σ) args parts) :
    Becomes σ (.node head args) [.build head parts.flatten]

/-- Lists correspond in two ways alike if the elements of the first one do. -/
theorem forall₂_congr_mem {α β : Type} {R S : α → β → Prop} {as : List α} {bs : List β}
    (h : ∀ a ∈ as, ∀ b, R a b ↔ S a b) : List.Forall₂ R as bs ↔ List.Forall₂ S as bs := by
  induction as generalizing bs with
  | nil => simp
  | cons a as ih =>
    cases bs with
    | nil => simp
    | cons b bs =>
      rw [List.forall₂_cons, List.forall₂_cons, h a List.mem_cons_self b,
        ih fun c hc => h c (List.mem_cons_of_mem a hc)]

/-- A wildcard becomes what it is substituted with. -/
theorem becomes_wildcard_iff {w : Wildcard} {ts : List Term} :
    Becomes σ (wildcard w) ts ↔ (wildcard w).substituteRun σ = some ts := by
  rw [substituteRun, Option.map_eq_some_iff]
  constructor
  · rintro (_ | ⟨hname, hbound⟩ | ⟨hname, hbound⟩)
    · exact ⟨.single _, by rw [hname, Option.bind_some, hbound], rfl⟩
    · exact ⟨.sequence ts, by rw [hname, Option.bind_some, hbound], rfl⟩
  · rintro ⟨binding, h, rfl⟩
    obtain ⟨x, hname, hbound⟩ := Option.bind_eq_some_iff.mp h
    cases binding with
    | single t => exact .single hname hbound
    | sequence ts => exact .sequence hname hbound

/-- **What trees as they are written become.** -/
theorem becomes_iff {p : PatternTerm} {ts : List Term} :
    Becomes σ p ts ↔ p.substituteRun σ = some ts := by
  induction p using PatternTerm.inductionOn generalizing ts with
  | atom t =>
    rw [substituteRun, Option.some.injEq]
    constructor
    · rintro ⟨⟩
      rfl
    · rintro rfl
      exact .atom t
  | wildcard w => exact becomes_wildcard_iff
  | node head args ih =>
    have hparts : ∀ parts : List (List Term), List.Forall₂ (Becomes σ) args parts ↔
        List.Forall₂ (fun p part => p.substituteRun σ = some part) args parts := fun parts =>
      forall₂_congr_mem fun p hp part => ih p hp
    rw [substituteRun, Option.map_eq_some_iff]
    simp only [substituteAll_eq_some_iff]
    constructor
    · rintro ⟨⟩
      rename_i parts hargs
      exact ⟨_, ⟨parts, (hparts parts).mp hargs, rfl⟩, rfl⟩
    · rintro ⟨_, ⟨parts, hargs, rfl⟩, rfl⟩
      exact .node head ((hparts parts).mpr hargs)

end PatternTerm

/-! ### Renaming -/

/-- **A substitution after a renaming:** some variables with the bindings of their new names. -/
def Substitution.after (σ : Substitution) (rename : String → String) (names : List String) :
    Substitution :=
  σ.renamed (names.map fun x => (x, rename x))

/-- A variable is bound to what the substitution has for its new name. -/
theorem Substitution.find?_after {names : List String} (hnodup : names.Nodup) {x : String}
    (hx : x ∈ names) (σ : Substitution) (rename : String → String) :
    (σ.after rename names).find? x = σ.find? (rename x) := by
  have hpairs : ((names.map fun x => (x, rename x)).map Prod.fst).Nodup := by
    rw [List.map_map]
    exact (List.map_id names).symm ▸ hnodup
  have hlookup : (names.map fun x => (x, rename x)).lookup x = some (rename x) := by
    rw [NameMap.lookup_eq_some_iff_mem hpairs]
    exact List.mem_map.mpr ⟨x, hx, rfl⟩
  rw [after, find?_renamed hpairs, hlookup, Option.bind_some]

/-- **Substituting ignores canonical forms.**  A tree that has been built anew becomes what it
    becomes as it is written, and nothing where that becomes no single term.  With its
    variables renamed it becomes what the bindings of the new names make of it. -/
theorem substituting_ignores_canonical_forms (tree : PatternTerm) (σ : Substitution)
    (rename : String → String) :
    (∀ t, tree.canonical.substitute σ = some t ↔ tree.Becomes σ [t]) ∧
      (tree.canonical.mapVariables rename).substitute σ =
        tree.canonical.substitute (σ.after rename tree.canonical.variableNames) := by
  constructor
  · intro t
    rw [PatternTerm.substitute_eq_some_iff, PatternTerm.substituteRun_canonical,
      PatternTerm.becomes_iff]
  · have hbindings : ∀ x ∈ tree.canonical.variableNames,
        σ.find? (rename x) = (σ.after rename tree.canonical.variableNames).find? x :=
      fun x hx => (Substitution.find?_after (nodup_eraseDups _) hx σ rename).symm
    rw [PatternTerm.substitute, PatternTerm.substituteRun_mapVariables _ hbindings,
      PatternTerm.substitute]

end TermNet
