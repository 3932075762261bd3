import Mathlib.Data.List.Induction
import TermNet.Proofs.NameMap
import TermNet.Proofs.Pattern.Variables
import TermNet.Pattern.Basic

namespace TermNet

/-!
# Patterns as they are built

A pattern comes from a tree that uses its variables consistently, and every constraint is
about variables of the tree.

* `Pattern.Built` — patterns that the constructors give;
* `Pattern.exists_ofTree_iff` — trees with consistent variables are patterns;
* `Pattern.Built.contains_iff` — the variables of a pattern are those of its tree;
* `Pattern.Built.constraint` — constraints have variables, and know no others;
* `Pattern.built_of_constraint` — every such pattern can be built;
* `PatternTerm.wildcards_mapVariables` — renaming keeps all wildcards.
-/

/-- **Patterns as they are built:** a tree, and constraints added one after the other. -/
inductive Pattern.Built : Pattern → Prop
  | ofTree {tree : PatternTerm} {pattern : Pattern} (h : Pattern.ofTree tree = .ok pattern) :
    Built pattern
  | withConstraint {pattern more : Pattern} {name : String} {c : Constraint}
    (hpattern : Built pattern) (h : pattern.withConstraint name c = .ok more) : Built more
  | withGlobal {pattern more : Pattern} {c : Constraint}
    (hpattern : Built pattern) (h : pattern.withGlobal c = .ok more) : Built more

/-! ### Variables -/

/-- A variable has a kind once the wildcards are collected if it had one before or is in one of
    them. -/
theorem contains_collectVariables {ws : List Wildcard} {known kinds : NameMap VariableKind}
    (h : PatternTerm.collectVariables known ws = .ok kinds) (x : String) :
    kinds.contains x = true ↔ known.contains x = true ∨ ∃ w ∈ ws, w.name = some x := by
  induction ws generalizing known with
  | nil =>
    obtain rfl : known = kinds := by simpa [PatternTerm.collectVariables] using h
    simp
  | cons w rest ih =>
    unfold PatternTerm.collectVariables at h
    cases hname : w.name with
    | none =>
      simp only [hname] at h
      rw [ih h]
      simp [hname]
    | some name =>
      simp only [hname] at h
      cases hfind : known.find? name with
      | none =>
        simp only [hfind] at h
        rw [ih h]
        have hinsert : (known.insert name w.variableKind).contains x = true ↔
            known.contains x = true ∨ name = x := by
          unfold NameMap.contains
          rw [NameMap.find?_insert]
          by_cases hx : x = name
          · simp [hx]
          · simp [hx, Ne.symm hx]
        rw [hinsert]
        simp [hname, or_assoc]
      | some kind =>
        simp only [hfind] at h
        -- The kind that is known stays, if the wildcard agrees with it.
        split at h
        · rw [ih h]
          have hknown : name = x → known.contains x = true := by
            rintro rfl
            simp [NameMap.contains, hfind]
          simp only [List.exists_mem_cons_iff, hname, Option.some.injEq]
          constructor
          · exact fun h => h.imp_right .inr
          · rintro (h | h | h)
            · exact .inl h
            · exact .inl (hknown h)
            · exact .inr h
        · simp at h

/-- Two wildcards of one name bind it in the same way. -/
def Wildcard.Agree (v w : Wildcard) : Prop :=
  ∀ x, v.name = some x → w.name = some x → v.variableKind = w.variableKind

/-- The wildcard binds its variable as it is known to be bound. -/
def Wildcard.AgreesWith (known : NameMap VariableKind) (w : Wildcard) : Prop :=
  ∀ x, w.name = some x → ∀ kind, known.find? x = some kind → kind = w.variableKind

/-- What is added for one wildcard has to agree with all that follow. -/
theorem agreesWith_insert {known : NameMap VariableKind} {w : Wildcard} {name : String}
    (hname : w.name = some name) (hfind : known.find? name = none) (v : Wildcard) :
    v.AgreesWith (known.insert name w.variableKind) ↔ v.AgreesWith known ∧ w.Agree v := by
  constructor
  · intro h
    refine ⟨fun x hx kind hkind => h x hx kind ?_, fun x hwx hx => h x hx _ ?_⟩
    · rw [NameMap.find?_insert, if_neg, hkind]
      rintro rfl
      exact absurd (hfind.symm.trans hkind) (by simp)
    · obtain rfl := Option.some.inj (hname.symm.trans hwx)
      rw [NameMap.find?_insert, if_pos rfl]
  · rintro ⟨h, hagree⟩ x hx kind hkind
    rw [NameMap.find?_insert] at hkind
    split at hkind
    · rename_i heq
      rw [← Option.some.inj hkind]
      exact hagree x (heq ▸ hname) hx
    · exact h x hx kind hkind

/-- **Variables are consistent** if all wildcards of one name bind it in the same way. -/
theorem exists_collectVariables_iff {ws : List Wildcard} {known : NameMap VariableKind} :
    (∃ kinds, PatternTerm.collectVariables known ws = .ok kinds) ↔
      (∀ w ∈ ws, w.AgreesWith known) ∧ ws.Pairwise Wildcard.Agree := by
  induction ws generalizing known with
  | nil => simp [PatternTerm.collectVariables]
  | cons w rest ih =>
    rw [PatternTerm.collectVariables, List.forall_mem_cons, List.pairwise_cons]
    -- A name that is new is compared with the wildcards behind it, a known one with what is
    -- known already.
    cases hname : w.name with
    | none =>
      dsimp only
      rw [ih]
      simp [Wildcard.Agree, Wildcard.AgreesWith, hname]
    | some name =>
      dsimp only
      cases hfind : known.find? name with
      | none =>
        have hself : w.AgreesWith known := by
          intro x hx kind hkind
          obtain rfl := Option.some.inj (hname.symm.trans hx)
          exact absurd (hfind.symm.trans hkind) (by simp)
        dsimp only
        rw [ih, and_iff_right hself]
        simp only [agreesWith_insert hname hfind]
        constructor
        · rintro ⟨h, hpairwise⟩
          exact ⟨fun v hv => (h v hv).1, fun v hv => (h v hv).2, hpairwise⟩
        · rintro ⟨h, hagree, hpairwise⟩
          exact ⟨fun v hv => ⟨h v hv, hagree v hv⟩, hpairwise⟩
      | some kind =>
        dsimp only
        split
        · rename_i hkind
          have hself : w.AgreesWith known := by
            intro x hx kind' hkind'
            obtain rfl := Option.some.inj (hname.symm.trans hx)
            exact hkind ▸ Option.some.inj (hkind'.symm.trans hfind)
          rw [ih, and_iff_right hself]
          refine and_congr_right fun h => ⟨fun hpairwise => ⟨fun v hv x hwx hx => ?_, hpairwise⟩,
            And.right⟩
          obtain rfl := Option.some.inj (hname.symm.trans hwx)
          exact hkind ▸ h v hv _ hx kind hfind
        · rename_i hkind
          refine iff_of_false (by simp) fun h => hkind (h.1.1 name hname kind hfind)

namespace Pattern

variable {pattern : Pattern}

/-- **A tree is a pattern** if it uses its variables consistently. -/
theorem exists_ofTree_iff {tree : PatternTerm} :
    (∃ pattern, Pattern.ofTree tree = .ok pattern) ↔ tree.wildcards.Pairwise Wildcard.Agree := by
  have hkinds : (∃ pattern, Pattern.ofTree tree = .ok pattern) ↔
      ∃ kinds, PatternTerm.collectVariables .empty tree.wildcards = .ok kinds := by
    rw [Pattern.ofTree, PatternTerm.variableKinds]
    cases PatternTerm.collectVariables .empty tree.wildcards <;> simp
  rw [hkinds, exists_collectVariables_iff, and_iff_right]
  intro w _ x _ kind hkind
  exact absurd hkind (by simp)

/-- The kinds of the variables of a pattern are those of its tree. -/
theorem Built.variableKinds (h : pattern.Built) :
    pattern.tree.variableKinds = .ok pattern.variableKinds := by
  induction h with
  | @ofTree tree pattern h =>
    unfold Pattern.ofTree at h
    split at h
    · rename_i kinds hkinds
      obtain rfl := Except.ok.inj h
      exact hkinds
    · simp at h
  | withConstraint hpattern h ih =>
    unfold Pattern.withConstraint at h
    split at h
    · split at h
      · simp at h
      · obtain rfl := Except.ok.inj h
        exact ih
    · simp at h
  | withGlobal hpattern h ih =>
    unfold Pattern.withGlobal at h
    split at h
    · simp at h
    · obtain rfl := Except.ok.inj h
      exact ih

/-- **The variables of a pattern** are those of its tree. -/
theorem Built.contains_iff (h : pattern.Built) (x : String) :
    pattern.variableKinds.contains x = true ↔ x ∈ pattern.tree.variableNames := by
  rw [contains_collectVariables h.variableKinds, PatternTerm.mem_variableNames]
  simp [NameMap.contains]

/-- A constraint without a fault has variables, and all of them are known. -/
theorem constraintFault?_eq_none {c : Constraint} (h : pattern.constraintFault? c = none) :
    c.variableNames ≠ [] ∧ ∀ x ∈ c.variableNames, pattern.variableKinds.contains x = true := by
  unfold constraintFault? at h
  split at h
  · simp at h
  · rename_i hnames
    refine ⟨by simpa using hnames, fun x hx => ?_⟩
    rw [Option.map_eq_none_iff, unknown?, List.find?_eq_none] at h
    simpa using h x hx

/-- **Every constraint** of a pattern has variables, and all of them are in its tree. -/
theorem Built.constraint (h : pattern.Built) :
    ∀ c ∈ pattern.constraints ++ pattern.globals,
      c.variableNames ≠ [] ∧ ∀ x ∈ c.variableNames, x ∈ pattern.tree.variableNames := by
  have hknown : ∀ c ∈ pattern.constraints ++ pattern.globals, c.variableNames ≠ [] ∧
      ∀ x ∈ c.variableNames, pattern.variableKinds.contains x = true := by
    -- Every step that adds a constraint looks at its variables first.
    induction h with
    | @ofTree tree pattern h =>
      unfold Pattern.ofTree at h
      split at h
      · obtain rfl := Except.ok.inj h
        simp
      · simp at h
    | @withConstraint pattern more name added hpattern h ih =>
      unfold Pattern.withConstraint at h
      split at h
      · split at h
        · simp at h
        · rename_i hfault
          obtain rfl := Except.ok.inj h
          intro c hc
          simp only [List.mem_append, List.mem_singleton] at hc
          rcases hc with (hc | rfl) | hc
          · exact ih c (List.mem_append_left _ hc)
          · exact constraintFault?_eq_none hfault
          · exact ih c (List.mem_append_right _ hc)
      · simp at h
    | @withGlobal pattern more added hpattern h ih =>
      unfold Pattern.withGlobal at h
      split at h
      · simp at h
      · rename_i hfault
        obtain rfl := Except.ok.inj h
        intro c hc
        simp only [List.mem_append, List.mem_singleton] at hc
        rcases hc with hc | hc | rfl
        · exact ih c (List.mem_append_left _ hc)
        · exact ih c (List.mem_append_right _ hc)
        · exact constraintFault?_eq_none hfault
  intro c hc
  obtain ⟨hnames, hvariables⟩ := hknown c hc
  exact ⟨hnames, fun x hx => (h.contains_iff x).mp (hvariables x hx)⟩

/-- A constraint on variables that are there, at least one, has no fault. -/
theorem constraintFault?_of_known {c : Constraint} (hnames : c.variableNames ≠ [])
    (hknown : ∀ x ∈ c.variableNames, pattern.variableKinds.contains x = true) :
    pattern.constraintFault? c = none := by
  unfold constraintFault? unknown?
  rw [if_neg (by simpa using hnames), Option.map_eq_none_iff, List.find?_eq_none]
  intro x hx
  simp [hknown x hx]

/-- **A tree with constraints on its variables** can be built. -/
theorem built_of_constraint (hkinds : pattern.tree.variableKinds = .ok pattern.variableKinds)
    (hconstraint : ∀ c ∈ pattern.constraints ++ pattern.globals,
      c.variableNames ≠ [] ∧ ∀ x ∈ c.variableNames, x ∈ pattern.tree.variableNames) :
    pattern.Built := by
  obtain ⟨tree, kinds, locals, globals⟩ := pattern
  have htree : Pattern.ofTree tree = .ok ⟨tree, kinds, [], []⟩ := by
    unfold Pattern.ofTree
    rw [show tree.variableKinds = .ok kinds from hkinds]
  have hknown : ∀ c ∈ locals ++ globals, c.variableNames ≠ [] ∧
      ∀ x ∈ c.variableNames, kinds.contains x = true := fun c hc =>
    ⟨(hconstraint c hc).1,
      fun x hx => ((Built.ofTree htree).contains_iff x).mpr ((hconstraint c hc).2 x hx)⟩
  have hlocals : ∀ locals : List Constraint, (∀ c ∈ locals, c.variableNames ≠ [] ∧
      ∀ x ∈ c.variableNames, kinds.contains x = true) → Built ⟨tree, kinds, locals, []⟩ := by
    intro locals hall
    -- Constraints are added at the end, and so they are taken away there.
    induction locals using List.reverseRecOn with
    | nil => exact .ofTree htree
    | append_singleton locals c ih =>
      obtain ⟨hnames, hc⟩ := hall c (by simp)
      obtain ⟨name, names, hname⟩ := List.exists_cons_of_ne_nil hnames
      have hrest := ih fun d hd => hall d (List.mem_append_left _ hd)
      have hstep : Pattern.withConstraint ⟨tree, kinds, locals, []⟩ name c =
          .ok ⟨tree, kinds, locals ++ [c], []⟩ := by
        unfold Pattern.withConstraint
        rw [if_pos (hc name (hname ▸ List.mem_cons_self)), constraintFault?_of_known hnames hc]
      exact .withConstraint hrest hstep
  have hall : ∀ c ∈ globals, c.variableNames ≠ [] ∧
      ∀ x ∈ c.variableNames, kinds.contains x = true := fun c hc =>
    hknown c (List.mem_append_right _ hc)
  clear hconstraint
  induction globals using List.reverseRecOn with
  | nil => exact hlocals locals fun c hc => hknown c (List.mem_append_left _ hc)
  | append_singleton globals c ih =>
    obtain ⟨hnames, hc⟩ := hall c (by simp)
    refine .withGlobal (c := c) (ih hkinds (fun d hd => hknown d ?_)
      fun d hd => hall d (List.mem_append_left _ hd)) ?_
    · rw [← List.append_assoc]
      exact List.mem_append_left _ hd
    · unfold Pattern.withGlobal
      rw [constraintFault?_of_known hnames hc]

end Pattern

/-! ### Renaming -/

namespace PatternTerm

/-- The wildcards of a list of trees, one tree after the other. -/
theorem wildcardsAll_eq (args : List PatternTerm) : wildcardsAll args = args.flatMap wildcards := by
  induction args with
  | nil => rfl
  | cons p ps ih => rw [wildcardsAll, ih, List.flatMap_cons]

/-- Building an operation keeps the wildcards. -/
theorem wildcards_build (head : Head) (args : List PatternTerm) :
    (build head args).wildcards.Perm (wildcardsAll args) := by
  have hspliced : wildcardsAll (args.flatMap (spliced head)) = wildcardsAll args := by
    rw [wildcardsAll_eq, wildcardsAll_eq, List.flatMap_assoc]
    refine List.flatMap_congr fun p _ => ?_
    cases p with
    | node inner below =>
      rw [spliced]
      split
      · rw [wildcards, wildcardsAll_eq]
      · exact List.flatMap_singleton _ _
    | atom t => exact List.flatMap_singleton _ _
    | wildcard w => exact List.flatMap_singleton _ _
  rw [build, wildcards, ← hspliced]
  split
  · rw [wildcardsAll_eq, wildcardsAll_eq]
    exact (sortBy_perm _ _).flatMap_right _
  · exact .refl _

/-- The variables of each tree of a list are renamed. -/
theorem mapVariablesAll_eq (rename : String → String) (args : List PatternTerm) :
    mapVariablesAll rename args = args.map (mapVariables rename) := by
  induction args with
  | nil => rfl
  | cons p ps ih => rw [mapVariablesAll, ih, List.map_cons]

/-- **Renaming keeps all wildcards.** -/
theorem wildcards_mapVariables (rename : String → String) (p : PatternTerm) :
    (p.mapVariables rename).wildcards.Perm
      (p.wildcards.map fun w => w.renamed (w.name.map rename)) := by
  induction p using PatternTerm.inductionOn with
  | atom t => exact .refl _
  | wildcard w => exact .refl _
  | node head args ih =>
    rw [mapVariables, wildcards]
    refine (wildcards_build head _).trans ?_
    rw [wildcardsAll_eq, wildcardsAll_eq, mapVariablesAll_eq, List.flatMap_map, List.map_flatMap]
    exact List.Perm.flatMap_left _ ih

/-- The variables of a renamed tree are the new names of its variables. -/
theorem mem_variableNames_mapVariables (rename : String → String) (p : PatternTerm) {x : String} :
    x ∈ (p.mapVariables rename).variableNames ↔ ∃ y ∈ p.variableNames, rename y = x := by
  rw [mem_variableNames]
  simp only [(wildcards_mapVariables rename p).mem_iff, List.mem_map, exists_exists_and_eq_and,
    mem_variableNames]
  constructor
  · rintro ⟨w, hw, hname⟩
    obtain ⟨y, hy, rfl⟩ := Option.map_eq_some_iff.mp hname
    exact ⟨y, ⟨w, hw, hy⟩, rfl⟩
  · rintro ⟨y, ⟨w, hw, hy⟩, rfl⟩
    exact ⟨w, hw, Option.map_eq_some_iff.mpr ⟨y, hy, rfl⟩⟩

end PatternTerm

/-! ### Two patterns -/

/-- A check that every binding passes, by its path. -/
def sampleConstraint (name : String) : Constraint := .custom "checks::any" [name] fun _ => true

/-- The sum of two variables, with a constraint on the first one. -/
def sampleSum : Pattern where
  tree := .sum [.wildcard (.fixed "x"), .wildcard (.fixed "y")]
  variableKinds := .ofList [("x", .single), ("y", .single)]
  constraints := [sampleConstraint "x"]

/-- The successor of a variable, with a constraint on it. -/
def sampleSuccessor : Pattern where
  tree := .sum [.wildcard (.fixed "a"), .integer 1]
  variableKinds := .ofList [("a", .single)]
  constraints := [sampleConstraint "a"]

/-- The sum of two variables with a constraint on one of them is built. -/
theorem Pattern.built_sampleSum : sampleSum.Built := by
  have htree : Pattern.ofTree sampleSum.tree = .ok { sampleSum with constraints := [] } := rfl
  have hconstraint : Pattern.withConstraint { sampleSum with constraints := [] } "x"
      (sampleConstraint "x") = .ok sampleSum := rfl
  exact .withConstraint (.ofTree htree) hconstraint

/-- The successor of a variable with a constraint on it is built. -/
theorem Pattern.built_sampleSuccessor : sampleSuccessor.Built := by
  have htree : Pattern.ofTree sampleSuccessor.tree =
      .ok { sampleSuccessor with constraints := [] } := rfl
  have hconstraint : Pattern.withConstraint { sampleSuccessor with constraints := [] } "a"
      (sampleConstraint "a") = .ok sampleSuccessor := rfl
  exact .withConstraint (.ofTree htree) hconstraint

/-- Both patterns of sums are built. -/
theorem built_samples : ∀ p ∈ [sampleSum, sampleSuccessor], p.Built := by
  intro p hp
  rcases List.mem_cons.mp hp with rfl | hp
  · exact Pattern.built_sampleSum
  · exact List.mem_singleton.mp hp ▸ Pattern.built_sampleSuccessor

end TermNet
