import TermNet.Proofs.Omission.Denotation

namespace TermNet

/-!
# The meaning of optional wildcards

Three mechanisms realise defaults: labels that may be skipped, longer minima of runs, and
sequence variables that take no part of commutative arguments.  Together they do what one
expects.  The matches of a pattern are those of the patterns that lack some of its optional
arguments and require all others, with the defaults of the missing variables added.

* `PatternTerm.optionalOnce_canonical` — optional variables that occur once;
* `exists_bindAll?_omittedBindings` — defaults can be added to a match without them;
* `optional_wildcards_are_omitted_or_required` — the matches of a pattern, by what is left out.
-/

open PatternTerm (DenotesOmitting OptionalOnce)

variable {tree : PatternTerm} {names : List String} {σ τ : Substitution} {t : Term}

/-! ### Variables that occur once -/

/-- Names that occur once tell an optional wildcard from all others. -/
theorem pairwise_optionalApart {ws : List Wildcard}
    (h : ∀ w ∈ ws, w.isOptional = true → (ws.map Wildcard.name).count w.name = 1) :
    ws.Pairwise Wildcard.OptionalApart := by
  induction ws with
  | nil => exact .nil
  | cons v rest ih =>
    have hmem : ∀ w ∈ rest, 0 < (rest.map Wildcard.name).count w.name := fun w hw =>
      List.count_pos_iff.mpr (List.mem_map_of_mem hw)
    rw [List.map_cons] at h
    refine List.pairwise_cons.mpr ⟨fun w hw hoptional hname => ?_, ih fun w hw hoptional => ?_⟩
    -- With the same name they would make two occurrences of it.
    · have hcount : (v.name :: rest.map Wildcard.name).count w.name = 1 := by
        rcases hoptional with hv | hw'
        · rw [← hname]
          exact h v List.mem_cons_self hv
        · exact h w (List.mem_cons_of_mem v hw) hw'
      rw [hname, List.count_cons_self] at hcount
      have hpos := hmem w hw
      omega
    · have hcount := h w (List.mem_cons_of_mem v hw) hoptional
      have hpos := hmem w hw
      rw [List.count_cons] at hcount
      omega

/-- Being apart does not depend on the order. -/
theorem optionalApart_symm {v w : Wildcard} (h : v.OptionalApart w) : w.OptionalApart v :=
  fun hoptional hname => h hoptional.symm hname.symm

/-- Optional variables that occur once do so in the canonical form. -/
theorem PatternTerm.optionalOnce_canonical (honce : tree.OptionalOnce) :
    tree.canonical.OptionalOnce :=
  have hperm := tree.wildcards_canonical
  ⟨fun w hw => honce.named w (hperm.mem_iff.mp hw), fun w hw => honce.kinds w (hperm.mem_iff.mp hw),
    (hperm.pairwise_iff fun h => optionalApart_symm h).mpr honce.apart⟩

/-! ### What is left out -/

/-- The canonical form leaves out the same variables, with the same defaults. -/
theorem mem_omittedBindings_canonical {entry : String × Binding} :
    entry ∈ tree.canonical.omittedBindings names ↔ entry ∈ tree.omittedBindings names := by
  obtain ⟨x, b⟩ := entry
  rw [PatternTerm.mem_omittedBindings, PatternTerm.mem_omittedBindings, PatternTerm.mem_defaults,
    PatternTerm.mem_defaults]
  simp only [tree.wildcards_canonical.mem_iff]

/-- What is left out of a tree that is not left out itself stands among its arguments. -/
theorem subset_omittable (hnames : names ⊆ tree.defaults.map Prod.fst)
    (hkept : tree.isOmitted names = false) : names ⊆ tree.omittable := by
  cases tree with
  | atom t => exact hnames
  | node head args => exact hnames
  | wildcard w =>
    intro x hx
    obtain ⟨entry, hentry, rfl⟩ := List.mem_map.mp (hnames hx)
    obtain ⟨v, hv, hdefault⟩ := List.mem_filterMap.mp hentry
    obtain rfl := List.mem_singleton.mp hv
    have homitted : v.isOmitted names = true := Wildcard.isOmitted_iff.mpr ⟨entry, hdefault, hx⟩
    exact absurd (homitted.symm.trans hkept) (by simp)

/-- Fresh variables can be bound. -/
theorem exists_bindAll?_of_fresh {entries : List (String × Binding)}
    (hnodup : (entries.map Prod.fst).Nodup) (hfresh : ∀ entry ∈ entries, σ.find? entry.1 = none) :
    ∃ τ, σ.bindAll? entries = some τ := by
  induction entries generalizing σ with
  | nil => exact ⟨σ, rfl⟩
  | cons entry rest ih =>
    obtain ⟨hfirst, hrest⟩ := List.nodup_cons.mp hnodup
    obtain ⟨hnone, hfresh⟩ := List.forall_mem_cons.mp hfresh
    rw [Substitution.bindAll?_cons, Substitution.extend?, hnone]
    refine ih hrest fun other hother => ?_
    rw [NameMap.find?_insert, if_neg, hfresh other hother]
    intro heq
    exact hfirst (heq ▸ List.mem_map_of_mem hother)

/-- **Defaults can be added to a match** of what is left. -/
theorem exists_bindAll?_omittedBindings (honce : tree.OptionalOnce)
    (hkept : tree.isOmitted names = false)
    (hbinds : ∀ x, τ.Binds x ↔ x ∈ (tree.omitting names).variableNames) :
    ∃ σ, τ.bindAll? (tree.omittedBindings names) = some σ := by
  refine exists_bindAll?_of_fresh ?_ fun entry hentry => ?_
  · have hnodup : (tree.defaults.map Prod.fst).Nodup := by
      rw [PatternTerm.defaults, List.Nodup, List.pairwise_map, List.pairwise_filterMap]
      refine honce.apart.imp fun {v w} hapart entry hv entry' hw heq => ?_
      obtain ⟨hvname, d, hd, -⟩ := Wildcard.defaultBinding?_eq_some_iff.mp hv
      obtain ⟨hwname, -⟩ := Wildcard.defaultBinding?_eq_some_iff.mp hw
      exact hapart (.inl (Wildcard.isOptional_of_default hd)) (by rw [hvname, hwname, heq])
    exact hnodup.sublist (List.filter_sublist.map Prod.fst)
  · obtain ⟨hdefault, hname⟩ := PatternTerm.mem_omittedBindings.mp hentry
    obtain ⟨w, hw, hwname, d, hd, hb⟩ := PatternTerm.mem_defaults.mp hdefault
    by_contra hsome
    obtain ⟨b, hb'⟩ := Option.ne_none_iff_exists'.mp hsome
    obtain ⟨v', hv', hvname⟩ := PatternTerm.mem_variableNames.mp ((hbinds entry.1).mp ⟨b, hb'⟩)
    rw [PatternTerm.wildcards_omitting hkept] at hv'
    obtain ⟨v, hv, hv'⟩ := List.mem_flatMap.mp hv'
    have homitted : w.isOmitted names = true := Wildcard.isOmitted_iff.mpr
      ⟨entry, Wildcard.defaultBinding?_eq_some_iff.mpr ⟨hwname, d, hd, hb⟩, hname⟩
    obtain ⟨hleft, rfl⟩ := Wildcard.mem_kept.mp hv'
    -- what is left has another place than what is left out, and so another name
    have hne : v ≠ w := by
      rintro rfl
      exact absurd (homitted.symm.trans hleft) (by simp)
    have hsymm : Std.Symm Wildcard.OptionalApart := ⟨fun _ _ => optionalApart_symm⟩
    exact List.Pairwise.forall honce.apart hv hw hne (.inr (Wildcard.isOptional_of_default hd))
      (v.required_name.symm.trans (hvname.trans hwname.symm))

/-! ### Matches -/

/-- What is left denotes the same, whether operations are made canonical before or after. -/
theorem denotes_canonical_omitting :
    (tree.canonical.omitting names).Denotes σ none [t] ↔
      (tree.omitting names).canonical.Denotes σ none [t] := by
  have halike := PatternTerm.alike_canonical_omitting names tree
  constructor
  · exact halike.denotes (fun x y hxy => by rw [hxy]) fun x x' y hx hx' => hx.trans hx'.symm
  · exact halike.flip.denotes (fun x y hxy => by rw [hxy]) fun x x' y hx hx' => hx.symm.trans hx'

variable {pattern : Pattern}

/-- **A match leaves out some optional wildcards,** and is one of what is left. -/
theorem exists_omitting_of_match (h : Pattern.ofTree tree = .ok pattern)
    (honce : tree.OptionalOnce) (hmatch : (0, σ) ∈ (Net.ofPatterns [pattern]).matches t) :
    ∃ names ⊆ tree.omittable, ∃ left τ, Pattern.ofTree (tree.omitting names) = .ok left ∧
      (0, τ) ∈ (Net.ofPatterns [left]).matches t ∧
        τ.bindAll? (tree.omittedBindings names) = some σ := by
  obtain ⟨hbinds, hdenotes⟩ := (mem_matches_ofTree_iff h).mp hmatch
  obtain ⟨names, hnames, homitting⟩ :=
    hdenotes.exists_omitting (PatternTerm.optionalOnce_canonical honce)
  have hkept : tree.isOmitted names = false := by
    rw [← PatternTerm.isOmitted_canonical]
    by_contra htrue
    exact absurd (homitting.omitted (Bool.not_eq_false _ ▸ htrue)) (by simp)
  have hsubset : names ⊆ tree.defaults.map Prod.fst := fun x hx => by
    obtain ⟨entry, hentry, rfl⟩ := List.mem_map.mp (hnames hx)
    have hmem := PatternTerm.mem_omittedBindings.mpr ⟨hentry, hx⟩
    exact List.mem_map_of_mem (PatternTerm.mem_omittedBindings.mp
      (mem_omittedBindings_canonical.mp hmem)).1
  have hnames := subset_omittable hsubset hkept
  obtain ⟨left, hleft⟩ := Pattern.exists_omitting h hnames
  have hrest := denotes_canonical_omitting.mp
    (homitting.denotes (PatternTerm.isOmitted_canonical tree ▸ hkept))
  obtain ⟨τ, hτ, hfind⟩ := exists_match_of_denotes hleft hrest
  refine ⟨names, hnames, left, τ, hleft, hτ,
    Substitution.bindAll?_eq_some_iff.mpr fun x b => ⟨fun hx => ?_, ?_⟩⟩
  -- A variable of the whole is one that is left, or one that has its default.
  · rcases (PatternTerm.mem_variableNames_omitting hkept).mp ((hbinds x).mp ⟨b, hx⟩) with
      hvariable | ⟨b', hb'⟩
    · exact .inl ((hfind x b).mpr ⟨hvariable, hx⟩)
    · have hbound := homitting.bound (x, b') (mem_omittedBindings_canonical.mpr hb')
      obtain rfl := Option.some.inj (hbound.symm.trans hx)
      exact .inr hb'
  · rintro (hx | hx)
    · exact ((hfind x b).mp hx).2
    · exact homitting.bound (x, b) (mem_omittedBindings_canonical.mpr hx)

/-- **A match of what is left** becomes a match of the whole by adding the defaults. -/
theorem match_of_omitting (h : Pattern.ofTree tree = .ok pattern) (honce : tree.OptionalOnce)
    (hkept : tree.isOmitted names = false) {left : Pattern}
    (hleft : Pattern.ofTree (tree.omitting names) = .ok left)
    (hτ : (0, τ) ∈ (Net.ofPatterns [left]).matches t)
    (hσ : τ.bindAll? (tree.omittedBindings names) = some σ) :
    (0, σ) ∈ (Net.ofPatterns [pattern]).matches t := by
  obtain ⟨hbinds, hdenotes⟩ := (mem_matches_ofTree_iff hleft).mp hτ
  have hextended := Substitution.bindAll?_eq_some_iff.mp hσ
  -- Adding the defaults leaves the variables of what is left as they are.
  have hfind : ∀ x ∈ (tree.omitting names).canonical.variableNames, σ.find? x = τ.find? x := by
    intro x hx
    obtain ⟨b, hb⟩ := (hbinds x).mpr (PatternTerm.mem_variableNames_canonical.mp hx)
    rw [hb, (hextended x b).mpr (.inl hb)]
  have hall : tree.canonical.DenotesOmitting σ names none [t] := by
    refine ⟨fun homitted => ?_, fun _ => denotes_canonical_omitting.mpr (hdenotes.congr hfind),
      fun entry hentry => ?_⟩
    · rw [PatternTerm.isOmitted_canonical, hkept] at homitted
      exact absurd homitted (by simp)
    · exact (hextended _ _).mpr (.inr (mem_omittedBindings_canonical.mp hentry))
  refine (mem_matches_ofTree_iff h).mpr
    ⟨fun x => ?_, hall.denotes_all (PatternTerm.optionalOnce_canonical honce)⟩
  rw [PatternTerm.mem_variableNames_omitting hkept, ← hbinds]
  simp only [Substitution.Binds, hextended, exists_or]

/-- **Optional wildcards are left out or required.**  Where every optional variable occurs once,
    the matches of a pattern are those of the patterns that lack some of its optional arguments,
    all other wildcards being required.  To such a match the defaults of the missing variables
    are added, which never fails. -/
theorem optional_wildcards_are_omitted_or_required {tree : PatternTerm} {pattern : Pattern}
    (h : Pattern.ofTree tree = .ok pattern)
    (hnamed : ∀ w ∈ tree.wildcards, w.name.isSome = true)
    (hkinds : ∀ w ∈ tree.wildcards, w.symbolKind = none)
    (honce : ∀ w ∈ tree.wildcards, w.isOptional = true →
      (tree.wildcards.map Wildcard.name).count w.name = 1) (subject : Term) :
    (∀ names ⊆ tree.omittable, ∃ left, Pattern.ofTree (tree.omitting names) = .ok left ∧
      ∀ τ, (0, τ) ∈ (Net.ofPatterns [left]).matches subject →
        ∃ σ, τ.bindAll? (tree.omittedBindings names) = some σ) ∧
    ∀ σ, (0, σ) ∈ (Net.ofPatterns [pattern]).matches subject ↔
      ∃ names ⊆ tree.omittable, ∃ left τ, Pattern.ofTree (tree.omitting names) = .ok left ∧
        (0, τ) ∈ (Net.ofPatterns [left]).matches subject ∧
          τ.bindAll? (tree.omittedBindings names) = some σ := by
  have hoptional : tree.OptionalOnce := ⟨hnamed, hkinds, pairwise_optionalApart honce⟩
  constructor
  · intro names hnames
    obtain ⟨left, hleft⟩ := Pattern.exists_omitting h hnames
    refine ⟨left, hleft, fun τ hτ => ?_⟩
    exact exists_bindAll?_omittedBindings hoptional
      (PatternTerm.isOmitted_of_subset_omittable hnames) ((mem_matches_ofTree_iff hleft).mp hτ).1
  · refine fun σ => ⟨exists_omitting_of_match h hoptional, ?_⟩
    rintro ⟨names, hnames, left, τ, hleft, hτ, hσ⟩
    exact match_of_omitting h hoptional (PatternTerm.isOmitted_of_subset_omittable hnames) hleft
      hτ hσ

/-- An operation with an optional term among commutative arguments and an optional run. -/
def optionalArguments : Pattern where
  tree := .build ⟨"f", .plain⟩
    [.build ⟨"g", .commutative⟩ [.wildcard (.fixed "x"), .wildcard (.optional "y" (.integer 0))],
      .wildcard ⟨some "z", .run 0, some (.ofName "d")⟩]
  variableKinds := .ofList [("x", .single), ("y", .single), ("z", .sequence)]

/-- Both optional wildcards are left out where there is one argument only. -/
theorem optional_wildcards_are_omitted_or_required_for_arguments :
    (0, .ofList [("x", .single (.integer 1)), ("y", .single (.integer 0)),
        ("z", .single (.ofName "d"))]) ∈
      (Net.ofPatterns [optionalArguments]).matches
        (.build ⟨"f", .plain⟩ [.build ⟨"g", .commutative⟩ [.integer 1]]) ∧
    ∃ names ⊆ ["y", "z"], ∃ left τ,
      Pattern.ofTree (optionalArguments.tree.omitting names) = .ok left ∧
        (0, τ) ∈ (Net.ofPatterns [left]).matches
          (.build ⟨"f", .plain⟩ [.build ⟨"g", .commutative⟩ [.integer 1]]) ∧
        τ.bindAll? (optionalArguments.tree.omittedBindings names) =
          some (.ofList [("x", .single (.integer 1)), ("y", .single (.integer 0)),
            ("z", .single (.ofName "d"))]) := by
  have hmatch : (0, .ofList [("x", .single (.integer 1)), ("y", .single (.integer 0)),
        ("z", .single (.ofName "d"))]) ∈
      (Net.ofPatterns [optionalArguments]).matches
        (.build ⟨"f", .plain⟩ [.build ⟨"g", .commutative⟩ [.integer 1]]) := by decide +kernel
  have hpattern : Pattern.ofTree optionalArguments.tree = .ok optionalArguments := rfl
  refine ⟨hmatch, ?_⟩
  exact ((optional_wildcards_are_omitted_or_required hpattern (by decide +kernel)
    (by decide +kernel) (by decide +kernel) _).2 _).mp hmatch

end TermNet
