import TermNet.Proofs.Denotation.Patterns

namespace TermNet

/-!
# Trees without some of their optional wildcards

An optional wildcard is either passed over, and its default bound, or it takes something as if
it had no default.  The first case is that of a tree whose arguments lack the wildcard.

* `Wildcard.required` — a wildcard that has to take something;
* `PatternTerm.defaults`, `PatternTerm.omittable` — the optional variables, and those among them
  that may be left out;
* `PatternTerm.omitting` — the tree without some optional wildcards, all others being required;
* `alike_canonical_omitting` — operations may be made canonical before or after that;
* `wildcards_omitting`, `mem_variableNames_omitting` — the wildcards and variables that are left;
* `Pattern.exists_omitting` — what is left is a pattern.
-/

/-! ### Definitions -/

/-- A run is not empty. -/
def Extent.nonempty : Extent → Extent
  | .one kind => .one kind
  | .run minCount => .run (max minCount 1)

namespace Wildcard

/-- The variable of an optional wildcard with the binding of its default. -/
def defaultBinding? (w : Wildcard) : Option (String × Binding) :=
  w.name.bind fun name => w.default.map fun d => (name, .single d)

/-- Whether the wildcard is optional and has one of these names. -/
def isOmitted (names : List String) (w : Wildcard) : Bool :=
  w.defaultBinding?.any fun entry => names.contains entry.1

/-- The wildcard without its default, which has to take something instead. -/
def required (w : Wildcard) : Wildcard :=
  if w.isOptional then { w with extent := w.extent.nonempty, default := none } else w

/-- What is left of a wildcard. -/
def kept (names : List String) (w : Wildcard) : List Wildcard :=
  if w.isOmitted names then [] else [w.required]

end Wildcard

namespace PatternTerm

/-- The optional variables with the bindings of their defaults. -/
def defaults (p : PatternTerm) : List (String × Binding) :=
  p.wildcards.filterMap Wildcard.defaultBinding?

/-- The defaults of the variables `names`. -/
def omittedBindings (names : List String) (p : PatternTerm) : List (String × Binding) :=
  p.defaults.filter fun entry => names.contains entry.1

/-- The optional variables that stand among arguments, and so can be left out. -/
def omittable : PatternTerm → List String
  | .node head args => (node head args).defaults.map Prod.fst
  | _ => []

/-- Whether the tree is an optional wildcard with one of these names. -/
def isOmitted (names : List String) : PatternTerm → Bool
  | .wildcard w => w.isOmitted names
  | _ => false

mutual

/-- **The tree without its optional arguments `names`.**  All other wildcards are required. -/
def omitting (names : List String) : PatternTerm → PatternTerm
  | .atom t => .atom t
  | .wildcard w => .wildcard w.required
  | .node head args => .node head (omittingAll names args)
termination_by structural p => p

/-- The arguments without the optional ones `names`. -/
def omittingAll (names : List String) : List PatternTerm → List PatternTerm
  | [] => []
  | p :: ps => (if p.isOmitted names then [] else [omitting names p]) ++ omittingAll names ps
termination_by structural ps => ps

end

/-- What is left of an argument. -/
def kept (names : List String) (p : PatternTerm) : List PatternTerm :=
  if p.isOmitted names then [] else [p.omitting names]

/-- What is kept of arguments, one by one. -/
theorem omittingAll_eq (names : List String) (args : List PatternTerm) :
    omittingAll names args = args.flatMap (kept names) := by
  induction args with
  | nil => rfl
  | cons p ps ih => rw [omittingAll, ih, List.flatMap_cons, kept]

/-! ### Canonical operations -/

variable {names : List String} {head : Head}

/-- Wildcards are what is left of wildcards. -/
theorem omitting_eq_wildcard_iff {p : PatternTerm} {v : Wildcard} :
    p.omitting names = wildcard v ↔ ∃ w, p = wildcard w ∧ w.required = v := by
  constructor
  · intro h
    cases p with
    | wildcard w => exact ⟨w, rfl, wildcard.inj h⟩
    | atom t => simp [omitting] at h
    | node head args => simp [omitting] at h
  · rintro ⟨w, rfl, rfl⟩
    rfl

/-- An operation is kept, with what is kept of its arguments. -/
theorem kept_node (names : List String) (head : Head) (args : List PatternTerm) :
    (node head args).kept names = [node head (args.flatMap (kept names))] := by
  have hkept : (node head args).isOmitted names = false := rfl
  rw [kept, hkept, if_neg Bool.false_ne_true, omitting, omittingAll_eq]

/-- Arguments may be left out before or after splicing. -/
theorem flatMap_kept_spliced (p : PatternTerm) :
    (p.spliced head).flatMap (kept names) = (p.kept names).flatMap (spliced head) := by
  cases p with
  | atom t => rfl
  | wildcard w =>
    have hself : (wildcard w).spliced head = [wildcard w] := rfl
    rw [hself, List.flatMap_singleton, kept]
    split <;> rfl
  | node inner below =>
    rw [kept_node, List.flatMap_singleton, spliced, spliced]
    split
    · rfl
    · rw [List.flatMap_singleton, kept_node]

/-- **Leaving out arguments of a built operation.** -/
theorem alike_omitting_build (names : List String) (head : Head) (args : List PatternTerm) :
    Alike Eq ((build head args).omitting names) (build head (args.flatMap (kept names))) := by
  have hspliced : (args.flatMap (spliced head)).flatMap (kept names) =
      (args.flatMap (kept names)).flatMap (spliced head) := by
    rw [List.flatMap_assoc, List.flatMap_assoc]
    exact List.flatMap_congr fun p _ => flatMap_kept_spliced p
  rw [build, build, omitting, omittingAll_eq]
  refine alike_node.mpr ⟨_, rfl, _, ?_, List.forall₂_same.mpr fun p _ => Alike.refl p⟩
  unfold Head.Reorders
  split
  · rw [← hspliced]
    exact ((sortBy_perm _ _).flatMap_right _).trans (sortBy_perm _ _).symm
  · exact hspliced

/-- Whether a tree is omitted does not depend on its form. -/
theorem isOmitted_canonical (p : PatternTerm) :
    p.canonical.isOmitted names = p.isOmitted names := by
  cases p with
  | atom t => rfl
  | wildcard w => rw [canonical_wildcard]
  | node head args => rfl

/-- **Operations may be made canonical first.** -/
theorem alike_canonical_omitting (names : List String) (p : PatternTerm) :
    Alike Eq (p.canonical.omitting names) (p.omitting names).canonical := by
  induction p using inductionOn with
  | atom t => exact .atom t
  | wildcard w =>
    rw [canonical_wildcard, omitting, canonical_wildcard]
    exact Alike.refl _
  | node head args ih =>
    have hargs : ArgsAlike Eq head ((args.map canonical).flatMap (kept names))
        ((args.flatMap (kept names)).map canonical) := by
      rw [List.flatMap_map, List.map_flatMap]
      induction args with
      | nil => exact ⟨[], .refl head [], .nil⟩
      | cons p ps ihs =>
        rw [List.flatMap_cons, List.flatMap_cons]
        refine ArgsAlike.append ?_ (ihs fun q hq => ih q (List.mem_cons_of_mem p hq))
        rw [kept, kept, isOmitted_canonical]
        split
        · exact ⟨[], .refl head [], .nil⟩
        · exact ⟨_, .refl head _, .cons (ih p List.mem_cons_self) .nil⟩
    rw [canonical_node, omitting, omittingAll_eq, canonical_node]
    -- Building the operation splices and sorts what is left, as it does before leaving out.
    refine ((alike_omitting_build names head _).trans hargs.build).imp ?_
    rintro x - y ⟨z, rfl, rfl⟩
    rfl

/-! ### Wildcards -/

/-- The wildcards that are kept are required ones. -/
theorem wildcardsAll_kept (names : List String) (p : PatternTerm) :
    wildcardsAll (p.kept names) = p.wildcards.flatMap (Wildcard.kept names) := by
  induction p using inductionOn with
  | atom t => rfl
  | wildcard w =>
    rw [wildcards, List.flatMap_singleton, kept, Wildcard.kept, isOmitted]
    split <;> rfl
  | node head args ih =>
    rw [kept_node, wildcardsAll, wildcardsAll, List.append_nil, wildcards, wildcards,
      wildcardsAll_eq, wildcardsAll_eq, List.flatMap_assoc, List.flatMap_assoc]
    refine List.flatMap_congr fun p hp => ?_
    rw [← wildcardsAll_eq, ih p hp]

/-- **The wildcards that are left.** -/
theorem wildcards_omitting {p : PatternTerm} (h : p.isOmitted names = false) :
    (p.omitting names).wildcards = p.wildcards.flatMap (Wildcard.kept names) := by
  rw [← wildcardsAll_kept, kept, if_neg (Bool.eq_false_iff.mp h), wildcardsAll, wildcardsAll,
    List.append_nil]

/-- Names that may be left out of a tree are those of arguments, so the tree itself stays. -/
theorem isOmitted_of_subset_omittable {p : PatternTerm} (h : names ⊆ p.omittable) :
    p.isOmitted names = false := by
  cases p with
  | atom t => rfl
  | node head args => rfl
  | wildcard w =>
    have hnames : names = [] := List.eq_nil_of_subset_nil h
    rw [isOmitted, Wildcard.isOmitted, hnames]
    cases w.defaultBinding? <;> rfl

end PatternTerm

/-- A wildcard is kept unless it is omitted, and is required then. -/
theorem Wildcard.mem_kept {names : List String} {v w : Wildcard} :
    v ∈ w.kept names ↔ w.isOmitted names = false ∧ v = w.required := by
  rw [kept]
  cases w.isOmitted names <;> simp

/-- A wildcard is omitted if it has a default and its variable is among the names. -/
theorem Wildcard.isOmitted_iff {names : List String} {w : Wildcard} :
    w.isOmitted names = true ↔ ∃ entry, w.defaultBinding? = some entry ∧ entry.1 ∈ names := by
  simp only [isOmitted, Option.any_eq_true, List.contains_iff_mem]

/-- A wildcard with a default is optional. -/
theorem Wildcard.isOptional_of_default {w : Wildcard} {d : Term} (h : w.default = some d) :
    w.isOptional = true := by
  rw [isOptional, h, Option.isSome_some]

/-- A required wildcard has the same variable. -/
theorem Wildcard.required_name (w : Wildcard) : w.required.name = w.name := by
  rw [required]
  split <;> rfl

/-- The variable of a required wildcard is of the same kind. -/
theorem Wildcard.required_variableKind (w : Wildcard) :
    w.required.variableKind = w.variableKind := by
  rw [required]
  split
  · cases hextent : w.extent with
    | one kind => simp only [variableKind, isFixed, hextent, Extent.nonempty]
    | run minCount => simp only [variableKind, isFixed, hextent, Extent.nonempty]; rfl
  · rfl

/-- The default binding of a wildcard with a variable and a default. -/
theorem Wildcard.defaultBinding?_eq_some_iff {w : Wildcard} {x : String} {b : Binding} :
    w.defaultBinding? = some (x, b) ↔
      w.name = some x ∧ ∃ d, w.default = some d ∧ b = .single d := by
  simp only [defaultBinding?, Option.bind_eq_some_iff, Option.map_eq_some_iff, Prod.mk.injEq]
  constructor
  · rintro ⟨y, hname, d, hdefault, rfl, rfl⟩
    exact ⟨hname, d, hdefault, rfl⟩
  · rintro ⟨hname, d, hdefault, rfl⟩
    exact ⟨x, hname, d, hdefault, rfl, rfl⟩

/-- The defaults of a tree are those of its wildcards with variables. -/
theorem PatternTerm.mem_defaults {p : PatternTerm} {x : String} {b : Binding} :
    (x, b) ∈ p.defaults ↔
      ∃ w ∈ p.wildcards, w.name = some x ∧ ∃ d, w.default = some d ∧ b = .single d := by
  simp only [defaults, List.mem_filterMap, Wildcard.defaultBinding?_eq_some_iff]

/-- The bindings of what is left out are the defaults of these variables. -/
theorem PatternTerm.mem_omittedBindings {names : List String} {p : PatternTerm} {x : String}
    {b : Binding} : (x, b) ∈ p.omittedBindings names ↔ (x, b) ∈ p.defaults ∧ x ∈ names := by
  rw [omittedBindings, List.mem_filter, List.contains_iff_mem]

/-- **The variables of a tree** are those of the tree without some optional wildcards and the
    variables of these. -/
theorem PatternTerm.mem_variableNames_omitting {names : List String} {p : PatternTerm}
    (h : p.isOmitted names = false) {x : String} :
    x ∈ p.variableNames ↔
      x ∈ (p.omitting names).variableNames ∨ ∃ b, (x, b) ∈ p.omittedBindings names := by
  simp only [mem_variableNames, wildcards_omitting h, List.mem_flatMap, mem_omittedBindings,
    mem_defaults]
  constructor
  · rintro ⟨w, hw, hname⟩
    cases homitted : w.isOmitted names with
    | false =>
      exact .inl ⟨w.required, ⟨w, hw, Wildcard.mem_kept.mpr ⟨homitted, rfl⟩⟩,
        w.required_name.trans hname⟩
    | true =>
      obtain ⟨entry, hentry, hmem⟩ := Wildcard.isOmitted_iff.mp homitted
      obtain ⟨hentryName, d, hdefault, hb⟩ := Wildcard.defaultBinding?_eq_some_iff.mp hentry
      obtain rfl : x = entry.1 := Option.some.inj (hname.symm.trans hentryName)
      exact .inr ⟨entry.2, ⟨w, hw, hname, d, hdefault, hb⟩, hmem⟩
  · rintro (⟨v, ⟨w, hw, hv⟩, hname⟩ | ⟨b, ⟨w, hw, hname, -⟩, -⟩)
    · obtain ⟨-, rfl⟩ := Wildcard.mem_kept.mp hv
      exact ⟨w, hw, w.required_name.symm.trans hname⟩
    · exact ⟨w, hw, hname⟩

/-! ### Patterns -/

/-- **What is left is a pattern** if the whole tree is one. -/
theorem Pattern.exists_omitting {tree : PatternTerm} {pattern : Pattern} {names : List String}
    (h : Pattern.ofTree tree = .ok pattern) (hnames : names ⊆ tree.omittable) :
    ∃ q, Pattern.ofTree (tree.omitting names) = .ok q := by
  rw [exists_ofTree_iff,
    PatternTerm.wildcards_omitting (PatternTerm.isOmitted_of_subset_omittable hnames),
    List.pairwise_flatMap]
  constructor
  · intro w _
    rw [Wildcard.kept]
    split
    · exact .nil
    · exact List.pairwise_singleton _ _
  · refine (exists_ofTree_iff.mp ⟨pattern, h⟩).imp fun {v w} hagree v' hv' w' hw' x hvx hwx => ?_
    obtain ⟨-, rfl⟩ := Wildcard.mem_kept.mp hv'
    obtain ⟨-, rfl⟩ := Wildcard.mem_kept.mp hw'
    rw [Wildcard.required_name] at hvx hwx
    rw [Wildcard.required_variableKind, Wildcard.required_variableKind]
    exact hagree x hvx hwx

end TermNet
