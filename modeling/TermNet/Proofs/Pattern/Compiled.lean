import TermNet.Suite.Compilation
import TermNet.Proofs.Net.Plain
import TermNet.Proofs.Pattern.Called

namespace TermNet

open PatternTerm (exists_of_bind)

/-!
# The patterns of suites

The patterns of a suite are read from texts, and so are their constraints.

* `PatternSpec.Gives` — a text with its constraints gives a pattern;
* `Pattern.Compiled` — what is known of such a pattern: what its tree is made of, and that all its
  checks are built in;
* `compiled_of_compile`, `Pattern.Compiled.plain` — it is true of what is compiled, and the net of
  such patterns is plain.
-/

/-- The check is one of the predicates. -/
def Check.IsBuiltin (check : Check) : Prop := ∃ predicate, check = .builtin predicate

/-- **A pattern that is read from texts.** -/
structure Pattern.Compiled (pattern : Pattern) : Prop where
  built : pattern.Built
  parsed : pattern.tree.Parsed
  locals : ∀ c ∈ pattern.constraints, c.check.IsBuiltin
  globals : ∀ c ∈ pattern.globals, c.check.IsBuiltin

/-! ### Reading -/

/-- An invariant of the steps of a fold that succeeds. -/
theorem exists_of_foldlM {ε α β : Type} {P : α → Prop} {f : α → β → Except ε α} {bs : List β}
    {a a' : α} (h : bs.foldlM f a = .ok a') (ha : P a)
    (hstep : ∀ {a b a'}, P a → f a b = .ok a' → P a') : P a' := by
  induction bs generalizing a with
  | nil =>
    cases h
    exact ha
  | cons b bs ih =>
    rw [List.foldlM_cons] at h
    obtain ⟨next, hnext, h⟩ := exists_of_bind h
    exact ih h (hstep ha hnext)

/-- Texts of constraints name built-in predicates only. -/
theorem isBuiltin_of_parse {text : String} {c : Constraint} (h : Constraint.parse text = .ok c) :
    c.check.IsBuiltin := by
  unfold Constraint.parse at h
  split at h
  · cases h
  · split at h
    · split at h
      · rename_i predicate _
        obtain ⟨names, -, h⟩ := exists_of_bind h
        unfold Constraint.builtin at h
        split at h
        · cases h
          exact ⟨predicate, rfl⟩
        · cases h
      · cases h
    · cases h

variable {pattern more : Pattern} {text : String}

/-- A pattern that has been read is compiled. -/
theorem compiled_of_parse (h : Pattern.parse text = .ok pattern) : pattern.Compiled := by
  unfold Pattern.parse at h
  split at h
  · rename_i tree htree
    have hpattern : pattern.tree = tree ∧ pattern.constraints = [] ∧ pattern.globals = [] := by
      unfold Pattern.ofTree at h
      split at h
      · cases h
        exact ⟨rfl, rfl, rfl⟩
      · cases h
    obtain ⟨rfl, hlocals, hglobals⟩ := hpattern
    exact ⟨.ofTree h, PatternTerm.parsed_of_parse htree, by simp [hlocals], by simp [hglobals]⟩
  · cases h

/-- Local constraints from texts keep a pattern compiled. -/
theorem Pattern.Compiled.withConstraintText {name : String} (h : pattern.Compiled)
    (hmore : pattern.withConstraintText name text = .ok more) : more.Compiled := by
  obtain ⟨c, hc, hmore⟩ := exists_of_bind hmore
  have hbuilt := h.built.withConstraint hmore
  have hlocals : more.tree = pattern.tree ∧ more.constraints = pattern.constraints ++ [c] ∧
      more.globals = pattern.globals := by
    unfold Pattern.withConstraint at hmore
    split at hmore
    · split at hmore <;> cases hmore
      exact ⟨rfl, rfl, rfl⟩
    · cases hmore
  obtain ⟨htree, hconstraints, hglobals⟩ := hlocals
  refine ⟨hbuilt, htree ▸ h.parsed, ?_, hglobals ▸ h.globals⟩
  rw [hconstraints, List.forall_mem_append]
  exact ⟨h.locals, List.forall_mem_singleton.mpr (isBuiltin_of_parse hc)⟩

/-- Global constraints from texts keep a pattern compiled. -/
theorem Pattern.Compiled.withGlobalText (h : pattern.Compiled)
    (hmore : pattern.withGlobalText text = .ok more) : more.Compiled := by
  obtain ⟨c, hc, hmore⟩ := exists_of_bind hmore
  have hbuilt := h.built.withGlobal hmore
  have hlocals : more.tree = pattern.tree ∧ more.constraints = pattern.constraints ∧
      more.globals = pattern.globals ++ [c] := by
    unfold Pattern.withGlobal at hmore
    split at hmore <;> cases hmore
    exact ⟨rfl, rfl, rfl⟩
  obtain ⟨htree, hconstraints, hglobals⟩ := hlocals
  refine ⟨hbuilt, htree ▸ h.parsed, hconstraints ▸ h.locals, ?_⟩
  rw [hglobals, List.forall_mem_append]
  exact ⟨h.globals, List.forall_mem_singleton.mpr (isBuiltin_of_parse hc)⟩

/-- **What is known of the pattern of a text with its constraints.** -/
theorem compiled_of_compile {spec : PatternSpec} (h : spec.compile = .ok pattern) :
    pattern.Compiled := by
  obtain ⟨plain, hplain, h⟩ := exists_of_bind h
  obtain ⟨constrained, hconstrained, h⟩ := exists_of_bind h
  have hlocals : constrained.Compiled := by
    refine exists_of_foldlM hconstrained (compiled_of_parse hplain) fun hbefore hstep => ?_
    exact exists_of_foldlM hstep hbefore fun hbefore hstep => hbefore.withConstraintText hstep
  exact exists_of_foldlM h hlocals fun hbefore hstep => hbefore.withGlobalText hstep

/-- If mapping succeeds, it succeeds for each member. -/
theorem mem_of_mapM {ε α β : Type} {f : α → Except ε β} {as : List α} {bs : List β}
    (h : as.mapM f = .ok bs) : List.Forall₂ (fun a b => f a = .ok b) as bs := by
  induction as generalizing bs with
  | nil =>
    cases h
    exact .nil
  | cons a as ih =>
    rw [List.mapM_cons] at h
    obtain ⟨b, hb, h⟩ := exists_of_bind h
    obtain ⟨rest, hrest, h⟩ := exists_of_bind h
    cases h
    exact .cons hb (ih hrest)

/-- All patterns of a suite. -/
theorem compiled_of_compilePatterns {suite : Suite} {patterns : List Pattern}
    (h : suite.compilePatterns = .ok patterns) : ∀ p ∈ patterns, p.Compiled := by
  have hall := mem_of_mapM h
  clear h
  generalize suite.patterns = specs at hall
  induction hall with
  | nil => exact fun _ hp => absurd hp List.not_mem_nil
  | cons hfirst _ ih =>
    refine List.forall_mem_cons.mpr ⟨?_, ih⟩
    split at hfirst
    · rename_i compiled hcompiled
      cases hfirst
      exact compiled_of_compile hcompiled
    · cases hfirst

/-! ### Plain patterns -/

/-- The terms that a tree is written with are canonical. -/
theorem PatternTerm.Parsed.canonical_of_mem_terms {p : PatternTerm} (h : p.Parsed) :
    ∀ t ∈ p.terms, t.Canonical := by
  have hnames := h.names
  clear h
  induction hnames with
  | integer => simpa [PatternTerm.terms] using .integer _
  | symbol => simpa [PatternTerm.terms] using .symbol _
  | wildcard hw => simpa [PatternTerm.terms] using fun t ht => (hw.default t ht).2
  | node _ _ ih =>
    intro t ht
    obtain ⟨p, hp, ht⟩ := PatternTerm.mem_terms_node.mp ht
    exact ih p hp t ht

/-- A compiled pattern has canonical terms and built-in constraints. -/
theorem Pattern.Compiled.plain (h : pattern.Compiled) : pattern.Plain Check.IsBuiltin :=
  ⟨h.parsed.canonical_of_mem_terms, h.locals, h.globals⟩

end TermNet
