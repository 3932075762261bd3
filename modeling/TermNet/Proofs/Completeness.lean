import TermNet.Proofs.Net.Patterns
import TermNet.Proofs.Pattern.Complete
import TermNet.Proofs.Pattern.Positional

namespace TermNet

/-!
# Completeness of matching

Where all wildcards stand for one term, every substitution that turns a pattern into the
subject and satisfies its constraints is found, whatever else the net contains.

* `PatternTerm.Fixed` — trees whose wildcards stand for one term;
* `PatternTerm.Recovers` — substitutions whose terms can be told apart in the subject;
* `Pattern.exists_target` — a substitution with its variables at their positions;
* `Pattern.mem_solutions` — the matches of one pattern;
* `matching_is_complete` — the matches of the net of a list of patterns.
-/

open CommutativePattern (fits)

/-- Every wildcard is named and stands for one term, none has a default, and the atoms are
    symbols and integers. -/
structure PatternTerm.Fixed (p : PatternTerm) : Prop where
  wildcards : ∀ w ∈ p.wildcards, w.name.isSome = true ∧ w.isFixed = true ∧ w.default = none
  atoms : ∀ above t, (above, atom t) ∈ p.leaves none → t.isAtom = true

/-- What a substitution binds the variables of a tree to: single canonical terms, a symbol of
    the right kind where a wildcard asks for one, and below an associative head no operation
    of that head with less than two arguments, unless it has to be a symbol there. -/
structure PatternTerm.Recovers (p : PatternTerm) (σ : Substitution) : Prop where
  singles : ∀ x b, σ.find? x = some b → ∃ t, b = .single t ∧ t.Canonical
  symbols : ∀ w ∈ p.wildcards, ∀ x kind, w.name = some x → w.symbolKind = some kind →
    ∃ s : Symbol, σ.find? x = some (.single (.symbol s)) ∧ s.kind = kind
  operations : ∀ head w, (some head, wildcard w) ∈ p.leaves none → head.isAssociative = true →
    w.symbolKind = none → ∀ x ts, w.name = some x →
      σ.find? x = some (.single (.node head ts)) → 2 ≤ ts.length

namespace Pattern

variable {pattern : Pattern} {σ υ : Substitution}

/-! ### Targets -/

/-- Different variables have different positions. -/
theorem position_injective {x y : String} (hx : x ∈ pattern.tree.variableNames)
    (hy : y ∈ pattern.tree.variableNames) (h : pattern.position x = pattern.position y) :
    x = y := by
  obtain ⟨p, hp⟩ := pattern.tree.exists_positionalName hx
  obtain ⟨q, hq⟩ := pattern.tree.exists_positionalName hy
  rw [position_eq hp, position_eq hq] at h
  rw [← h] at hq
  exact pattern.tree.positionalNames_injective hp hq

/-- The variable at the position of a name is this name. -/
theorem lookup_position {names : List String}
    (hnames : ∀ x ∈ names, x ∈ pattern.tree.variableNames) {x : String} (hx : x ∈ names) :
    (names.map fun y => (pattern.position y, y)).lookup (pattern.position x) = some x := by
  induction names with
  | nil => exact absurd hx List.not_mem_nil
  | cons name rest ih =>
    have hrest : ∀ y ∈ rest, y ∈ pattern.tree.variableNames := fun y hy =>
      hnames y (List.mem_cons_of_mem _ hy)
    rw [List.map_cons, List.lookup_cons]
    by_cases heq : pattern.position x = pattern.position name
    · rw [heq, beq_self_eq_true]
      exact congrArg some (position_injective (hnames x hx)
        (hnames name List.mem_cons_self) heq).symm
    · rw [beq_eq_false_iff_ne.mpr heq]
      refine ih hrest ((List.mem_cons.mp hx).resolve_left fun hname => heq ?_)
      rw [hname]

/-- **A substitution with its variables at their positions.** -/
theorem exists_target (pattern : Pattern) (σ : Substitution) : ∃ υ : Substitution,
    ∀ x ∈ pattern.tree.variableNames, υ.find? (pattern.position x) = σ.find? x := by
  let pairs := pattern.tree.variableNames.map fun y => (pattern.position y, y)
  have hnodup : (pairs.map Prod.fst).Nodup := by
    have hmap : pairs.map Prod.fst = pattern.tree.variableNames.map pattern.position := by
      rw [List.map_map]
      rfl
    rw [hmap]
    exact (nodup_eraseDups _).map_on fun x hx y hy => position_injective hx hy
  refine ⟨σ.renamed pairs, fun x hx => ?_⟩
  rw [Substitution.find?_renamed hnodup, lookup_position (fun _ h => h) hx, Option.bind_some]

/-! ### Leaves at their positions -/

/-- The leaves of the positional tree fit a target. -/
theorem leavesFit_positionalTree (hfixed : pattern.tree.Fixed)
    (hrecovers : pattern.tree.Recovers σ)
    (hbinds : ∀ x ∈ pattern.tree.variableNames, σ.Binds x)
    (htarget : ∀ x ∈ pattern.tree.variableNames, υ.find? (pattern.position x) = σ.find? x) :
    pattern.positionalTree.LeavesFit υ none := by
  intro leaf hleaf
  obtain ⟨⟨above, p⟩, hp, rfl⟩ := List.mem_map.mp
    ((PatternTerm.leaves_mapVariables _ _ _).mem_iff.mp hleaf)
  cases p with
  | atom t => exact hfixed.atoms above t hp
  | wildcard w =>
    have hw : w ∈ pattern.tree.wildcards := PatternTerm.mem_wildcards_iff.mpr ⟨above, hp⟩
    obtain ⟨hname, hone, hdefault⟩ := hfixed.wildcards w hw
    obtain ⟨x, hx⟩ := Option.isSome_iff_exists.mp hname
    have hmem : x ∈ pattern.tree.variableNames := PatternTerm.mem_variableNames.mpr ⟨w, hw, hx⟩
    obtain ⟨b, hb⟩ := hbinds x hmem
    obtain ⟨t, rfl, hcanonical⟩ := hrecovers.singles x b hb
    obtain ⟨name, extent, default⟩ := w
    obtain rfl : name = some x := hx
    obtain rfl : default = none := hdefault
    cases extent with
    | run minCount => simp [Wildcard.isFixed] at hone
    | one kind =>
      refine ⟨pattern.position x, kind, t, rfl, ?_, hcanonical, ?_, ?_⟩
      · rw [htarget x hmem, hb]
      · cases kind with
        | none => rfl
        | some kind =>
          obtain ⟨s, hs, hkind⟩ := hrecovers.symbols _ hw x kind rfl rfl
          obtain rfl : Term.symbol s = t :=
            Binding.single.inj (Option.some.inj (hs.symm.trans hb))
          simp [Term.isSymbolOf, Term.symbol?, hkind]
      -- An operation with the head above would have been spliced into it.
      · rintro rfl head rfl hassoc ts rfl
        exact hrecovers.operations head _ hp hassoc rfl x ts rfl hb
  | node head args => trivial

/-! ### One pattern -/

/-- **The substitution is found** among the matches of the pattern. -/
theorem mem_solutions (hpattern : pattern.Built) (hfixed : pattern.tree.Fixed)
    (hrecovers : pattern.tree.Recovers σ) (hnames : σ.names = pattern.variableKinds.names)
    {subject : Term} (hsubject : pattern.tree.substitute σ = some subject)
    (haccepts : pattern.accepts σ = true) : σ ∈ pattern.solutions subject := by
  obtain ⟨υ, htarget⟩ := pattern.exists_target σ
  have hbinds : ∀ x, σ.Binds x ↔ x ∈ pattern.tree.variableNames := by
    intro x
    rw [← hpattern.contains_iff, NameMap.contains_iff, ← NameMap.mem_names, ← hnames,
      NameMap.mem_names]
    rfl
  have hholds := (hpattern.accepts_iff htarget).mp haccepts
  have hrun : pattern.positionalTree.substituteRun υ = some [subject] := by
    have hrename := pattern.tree.substituteRun_mapVariables htarget
    exact hrename.trans (PatternTerm.substitute_eq_some_iff.mp hsubject)
  -- Matching goes by the positions of the variables, so the target is `σ` under these names.
  have hleaves := leavesFit_positionalTree hfixed hrecovers (fun x => (hbinds x).mpr) htarget
  obtain ⟨after, hafter, hqueue, hbelow⟩ := pattern.positionalTree.found
    (PatternTerm.flattened_mapVariables _ _) hleaves (by simp)
    (fun c hc => hholds c (List.mem_append_left _ hc))
    (.ofSubject subject) [subject] [] hrun rfl (Substitution.empty_below υ)
  have hbound := pattern.positionalTree.binds_of_mem_places hafter
  -- Behind the tree all its variables are bound, and bound as in the target.
  have hafterFind : ∀ x ∈ pattern.tree.variableNames,
      after.subst.find? (pattern.position x) = σ.find? x := by
    intro x hx
    rw [← htarget x hx, hbelow.find?_eq (hbound _ (mem_variableNames_positionalTree hx))]
  refine mem_accepted.mpr ⟨after, hafter, ?_, (hpattern.accepts_iff hafterFind).mp haccepts, ?_⟩
  · rw [hqueue]
    rfl
  -- Other names are bound by neither of the two.
  · refine NameMap.ext_find? fun x => ?_
    by_cases hx : x ∈ pattern.tree.variableNames
    · rw [pattern.find?_renamed_position after.subst hx, hafterFind x hx]
    · rw [pattern.find?_renamed_of_not_mem after.subst hx]
      refine (Option.eq_none_iff_forall_ne_some.mpr fun b hb => hx ?_).symm
      exact (hbinds x).mp ⟨b, hb⟩

end Pattern

/-- **Completeness of matching.**  A substitution of single terms that turns a pattern of the
    list into the subject and satisfies its constraints is found, if all wildcards of the
    pattern are named, stand for one term and have no defaults. -/
theorem matching_is_complete (patterns : List Pattern) (hbuilt : ∀ p ∈ patterns, p.Built)
    (hpaths : PathsAgree patterns) (index : Nat) (pattern : Pattern)
    (hindex : patterns[index]? = some pattern) (hfixed : pattern.tree.Fixed) (σ : Substitution)
    (hnames : σ.names = pattern.variableKinds.names) (hrecovers : pattern.tree.Recovers σ)
    (subject : Term) (hsubject : pattern.tree.substitute σ = some subject)
    (haccepts : pattern.accepts σ = true) :
    (index, σ) ∈ (Net.ofPatterns patterns).matches subject := by
  obtain ⟨meaning, hfollows⟩ := hpaths.exists_meaning
  have hpattern := hbuilt pattern (List.mem_of_getElem? hindex)
  have hfits := Net.fits_ofPatterns hbuilt hfollows hindex subject
  have hsolution := Pattern.mem_solutions hpattern hfixed hrecovers hnames hsubject haccepts
  obtain ⟨found, hfound, hmatch⟩ := List.mem_filterMap.mp (hfits.mem_iff.mpr hsolution)
  obtain ⟨hfirst, hsecond⟩ : found.1 = index ∧ found.2 = σ := by simpa using hmatch
  rw [← hfirst, ← hsecond]
  exact hfound

/-- Three is found to be the successor of two, in a net that also looks for sums. -/
theorem matching_is_complete_for_successors :
    (1, .ofList [("a", .single (.integer 2))]) ∈
      (Net.ofPatterns [sampleSum, sampleSuccessor]).matches
        (.build .sum [.integer 1, .integer 2]) := by
  have hleaves : sampleSuccessor.tree.leaves none =
      [(some .sum, .atom (.integer 1)), (some .sum, .wildcard (.fixed "a"))] := by decide +kernel
  have hwildcards : sampleSuccessor.tree.wildcards = [.fixed "a"] := by decide +kernel
  have hfind : ∀ x b, NameMap.find? (.ofList [("a", .single (.integer 2))]) x = some b →
      b = Binding.single (.integer 2) := by
    intro x b hb
    rw [NameMap.find?_ofList (by simp), List.lookup_cons] at hb
    split at hb
    · exact (Option.some.inj hb).symm
    · simp at hb
  refine matching_is_complete _ built_samples pathsAgree_samples 1 sampleSuccessor rfl ⟨?_, ?_⟩ _
    (by decide +kernel) ⟨?_, ?_, ?_⟩ _ (by decide +kernel) (by decide +kernel)
  · rw [hwildcards]
    decide
  · intro above t ht
    rw [hleaves] at ht
    simp only [List.mem_cons, Prod.mk.injEq, PatternTerm.atom.injEq, reduceCtorEq, and_false,
      List.not_mem_nil, or_false] at ht
    rw [ht.2]
    rfl
  · intro x b hb
    exact ⟨.integer 2, hfind x b hb, .integer 2⟩
  · intro w hw x kind hname hkind
    rw [hwildcards] at hw
    rw [List.mem_singleton.mp hw] at hkind
    simp [Wildcard.fixed, Wildcard.symbolKind] at hkind
  · intro head w hw hassoc hkind x ts hname hx
    exact absurd (hfind x _ hx) (by simp)

end TermNet
