import TermNet.Proofs.Commutative.Matching
import TermNet.Proofs.Pattern.Places

namespace TermNet

/-!
# The variables of a pattern

* `PatternTerm.inductionOn` — induction over trees;
* `PatternTerm.mem_variableNames` — variables are the names of the wildcards;
* `exists_sequenceVariable` — no name is lost among commutative arguments;
* `mem_accepted` — what the places at the end of a pattern give.
-/

/-- **Induction over trees,** with all arguments of an operation at once. -/
theorem PatternTerm.inductionOn {motive : PatternTerm → Prop} (atom : ∀ t, motive (.atom t))
    (wildcard : ∀ w, motive (.wildcard w))
    (node : ∀ head args, (∀ p ∈ args, motive p) → motive (.node head args)) (p : PatternTerm) :
    motive p :=
  @PatternTerm.rec motive (fun ps => ∀ p ∈ ps, motive p) atom wildcard node
    (fun _ hp => absurd hp List.not_mem_nil)
    (fun _ _ hfirst hrest p hp => (List.mem_cons.mp hp).elim (fun heq => heq ▸ hfirst) (hrest p)) p

/-! ### Names -/

/-- The wildcards of a list of trees are those of its members. -/
theorem mem_wildcardsAll {args : List PatternTerm} {w : Wildcard} :
    w ∈ PatternTerm.wildcardsAll args ↔ ∃ p ∈ args, w ∈ p.wildcards := by
  induction args with
  | nil => simp [PatternTerm.wildcardsAll]
  | cons p ps ih => simp [PatternTerm.wildcardsAll, ih]

namespace PatternTerm

/-- The variables of a tree are the names of its wildcards. -/
theorem mem_variableNames {p : PatternTerm} {x : String} :
    x ∈ p.variableNames ↔ ∃ w ∈ p.wildcards, w.name = some x := by
  rw [variableNames, List.mem_eraseDups, List.mem_filterMap]

/-- A wildcard has its own name as its only variable, if it has one. -/
theorem mem_variableNames_wildcard {w : Wildcard} {x : String} :
    x ∈ (wildcard w).variableNames ↔ w.name = some x := by
  simp [mem_variableNames, wildcards]

/-- The variables of an operation are those of its arguments. -/
theorem mem_variableNames_node {head : Head} {args : List PatternTerm} {x : String} :
    x ∈ (node head args).variableNames ↔ ∃ p ∈ args, x ∈ p.variableNames := by
  simp only [mem_variableNames, wildcards, mem_wildcardsAll]
  constructor
  · rintro ⟨w, ⟨p, hp, hw⟩, hname⟩
    exact ⟨p, hp, w, hw, hname⟩
  · rintro ⟨p, hp, w, hw, hname⟩
    exact ⟨w, ⟨p, hp, hw⟩, hname⟩

/-- Only wildcards become sequence variables. -/
theorem sequenceVariable?_eq_some {head : Head} {p : PatternTerm} {var : SequenceVariable}
    (h : p.sequenceVariable? head = some var) :
    ∃ w, p = wildcard w ∧ TermNet.sequenceVariable? head w = some var := by
  cases p with
  | wildcard w => exact ⟨w, rfl, h⟩
  | atom t => simp [sequenceVariable?] at h
  | node inner args => simp [sequenceVariable?] at h

end PatternTerm

/-- A sequence variable has the name and the default of its wildcard. -/
theorem sequenceVariable?_parts {head : Head} {w : Wildcard} {var : SequenceVariable}
    (h : sequenceVariable? head w = some var) : var.name = w.name ∧ var.default = w.default := by
  unfold sequenceVariable? at h
  split at h
  · rw [← Option.some.inj h]
    exact ⟨rfl, rfl⟩
  · split at h
    · rw [← Option.some.inj h]
      exact ⟨rfl, rfl⟩
    · split at h
      · rw [← Option.some.inj h]
        exact ⟨rfl, rfl⟩
      · simp at h

/-- A wildcard and its sequence variable have one name. -/
theorem sequenceVariable?_name {head : Head} {w : Wildcard} {var : SequenceVariable}
    (h : sequenceVariable? head w = some var) : var.name = w.name :=
  (sequenceVariable?_parts h).1

/-- Counting a variable keeps all names. -/
theorem exists_name_addSequenceVariable (var : SequenceVariable) {known : SequenceVariable}
    (vars : List SequenceVariable) (h : known = var ∨ known ∈ vars) :
    ∃ v ∈ addSequenceVariable var vars, v.name = known.name := by
  induction vars with
  | nil =>
    have hknown : known = var := h.resolve_right (by simp)
    exact ⟨var, by simp [addSequenceVariable], by rw [hknown]⟩
  | cons first rest ih =>
    unfold addSequenceVariable
    split
    · rename_i hsame
      have hfirst : var.name = first.name := by
        simp only [Bool.and_eq_true, decide_eq_true_eq] at hsame
        rw [← hsame.2]
      rcases h with rfl | h
      · exact ⟨_, List.mem_cons_self, hfirst.symm⟩
      · rcases List.mem_cons.mp h with rfl | h
        · exact ⟨_, List.mem_cons_self, rfl⟩
        · exact ⟨known, List.mem_cons_of_mem _ h, rfl⟩
    · rcases h with h | h
      · obtain ⟨v, hv, hname⟩ := ih (.inl h)
        exact ⟨v, List.mem_cons_of_mem _ hv, hname⟩
      · rcases List.mem_cons.mp h with rfl | h
        · exact ⟨known, List.mem_cons_self, rfl⟩
        · obtain ⟨v, hv, hname⟩ := ih (.inr h)
          exact ⟨v, List.mem_cons_of_mem _ hv, hname⟩

/-- Adding occurrences one by one loses none of their names, and none of those that were known. -/
theorem exists_name_foldl {occurring known : List SequenceVariable} {var : SequenceVariable}
    (h : var ∈ occurring ∨ var ∈ known) :
    ∃ v ∈ occurring.foldl (fun known var => addSequenceVariable var known) known,
      v.name = var.name := by
  induction occurring generalizing known var with
  | nil => exact ⟨var, h.resolve_left (by simp), rfl⟩
  | cons first rest ih =>
    rw [List.foldl_cons]
    rcases h with h | h
    · rcases List.mem_cons.mp h with rfl | h
      · obtain ⟨v, hv, hname⟩ := exists_name_addSequenceVariable var known (.inl rfl)
        obtain ⟨u, hu, hname'⟩ := ih (.inr hv)
        exact ⟨u, hu, hname'.trans hname⟩
      · exact ih (.inl h)
    · obtain ⟨v, hv, hname⟩ := exists_name_addSequenceVariable first known (.inr h)
      obtain ⟨u, hu, hname'⟩ := ih (.inr hv)
      exact ⟨u, hu, hname'.trans hname⟩

/-- **No name is lost** among the sequence variables. -/
theorem exists_sequenceVariable {head : Head} {args : List PatternTerm} {p : PatternTerm}
    {var : SequenceVariable} (hp : p ∈ args) (hvar : p.sequenceVariable? head = some var) :
    ∃ v ∈ sequenceVariables head args, v.name = var.name :=
  exists_name_foldl (.inl (List.mem_filterMap.mpr ⟨p, hp, hvar⟩))

/-! ### Renaming -/

/-- In pairs of equal names every name is found as itself. -/
theorem lookup_samePairs (names : List String) (x : String) :
    (samePairs names).lookup x = if x ∈ names then some x else none := by
  induction names with
  | nil => rfl
  | cons name rest ih =>
    have hcons : samePairs (name :: rest) = (name, name) :: samePairs rest := rfl
    rw [hcons, List.lookup_cons, ih]
    by_cases hx : x = name
    · simp [hx]
    · have hbeq : (x == name) = false := beq_eq_false_iff_ne.mpr hx
      simp [hx, hbeq]

/-- What is left without duplicates has no duplicates. -/
theorem nodup_eraseDups (names : List String) : names.eraseDups.Nodup := by
  induction hlength : names.length using Nat.strongRecOn generalizing names with
  | _ length ih =>
    cases names with
    | nil => simp
    | cons name rest =>
      rw [List.eraseDups_cons, List.nodup_cons, List.mem_eraseDups]
      refine ⟨by simp, ih _ ?_ _ rfl⟩
      have hle := List.length_filter_le (fun other => !other == name) rest
      rw [List.length_cons] at hlength
      omega

/-- The pairs for the variables of a tree have different first names. -/
theorem nodup_samePairs (p : PatternTerm) :
    ((samePairs p.variableNames).map Prod.fst).Nodup := by
  have hnames : (samePairs p.variableNames).map Prod.fst = p.variableNames := by
    rw [samePairs, List.map_map]
    exact List.map_id _
  rw [hnames]
  exact nodup_eraseDups _

/-- What is bound after the renaming of an operand: the bindings of its variables. -/
theorem find?_renamed_samePairs (p : PatternTerm) (σ : Substitution) (x : String) :
    (σ.renamed (samePairs p.variableNames)).find? x =
      if x ∈ p.variableNames then σ.find? x else none := by
  rw [Substitution.find?_renamed (nodup_samePairs p), lookup_samePairs]
  split <;> rfl

/-- **What the places at the end of a pattern give.** -/
theorem mem_accepted {constraints : List Constraint} {pairs : List (String × String)}
    {ends : List Place} {τ : Substitution} :
    τ ∈ accepted constraints pairs ends ↔ ∃ place ∈ ends, place.queue.isExhausted = true ∧
      (∀ c ∈ constraints, c.holds place.subst = true) ∧ place.subst.renamed pairs = τ := by
  simp only [accepted, List.mem_filterMap, Option.ite_none_right_eq_some, Bool.and_eq_true,
    List.all_eq_true, Option.some.injEq, and_assoc]

end TermNet
