import TermNet.Proofs.Denotation.Sorted

namespace TermNet

/-!
# Commutative matching is positional matching up to order

A commutative operation matches some arguments if a plain operation on the same argument
patterns matches them in some order, and conversely, with two exceptions.  A sequence variable is
bound to a sorted run among commutative arguments, and cannot stand for an unsorted one below a
plain head elsewhere.  And optional wildcards with the same variable and the same default are
counted together: either all of them take a term, or none of them does.

* `RunsAreSortedOnly`, `OptionalOperandsDiffer` — the two exceptions;
* `ArgsDenote.plain`, `ArgsDenote.exists_commutative` — from one kind of operation to the other;
* `commutative_matching_is_positional_up_to_order` — matches of their patterns.
-/

open PatternTerm (wildcard)

/-! ### Conditions -/

/-- The variables of sequence wildcards among the arguments do not occur below plain heads. -/
def RunsAreSortedOnly (qs : List PatternTerm) : Prop :=
  ∀ v, wildcard v ∈ qs → v.isSequence = true → ∀ x, v.name = some x →
    ∀ q ∈ qs, ∀ above w, (some above, wildcard w) ∈ q.leaves none → w.name = some x →
      above.kind ≠ .plain

/-- No two optional fixed wildcards among the arguments have the same variable and the same
    default. -/
def OptionalOperandsDiffer (qs : List PatternTerm) : Prop :=
  qs.Pairwise fun p q => ∀ v w, p = wildcard v → q = wildcard w → v.isFixed = true →
    v.isOptional = true → v.name.isSome = true → v.name = w.name → v.default ≠ w.default

/-- Symbol wildcards among the arguments are not optional. -/
def SymbolOperandsRequired (qs : List PatternTerm) : Prop :=
  ∀ w, wildcard w ∈ qs → w.symbolKind.isSome = true → w.isOptional = false

section Canonical

variable {qs : List PatternTerm} {w : Wildcard}

/-- Only a wildcard has a wildcard as its canonical form. -/
theorem canonical_eq_wildcard {q : PatternTerm} : q.canonical = wildcard w ↔ q = wildcard w := by
  constructor
  · intro h
    cases q with
    | atom t => exact absurd h (by simp [PatternTerm.canonical, PatternTerm.mapVariables])
    | wildcard v => exact (PatternTerm.canonical_wildcard v).symm.trans h
    | node head args =>
      rw [PatternTerm.canonical_node, PatternTerm.build] at h
      exact absurd h (by simp)
  · rintro rfl
    exact PatternTerm.canonical_wildcard w

/-- The canonical forms of trees include the same wildcards. -/
theorem wildcard_mem_canonical : wildcard w ∈ qs.map PatternTerm.canonical ↔ wildcard w ∈ qs := by
  simp only [List.mem_map, canonical_eq_wildcard, exists_eq_right]

/-- Variables of runs stay away from plain heads in canonical forms. -/
theorem RunsAreSortedOnly.canonical (h : RunsAreSortedOnly qs) :
    RunsAreSortedOnly (qs.map PatternTerm.canonical) := by
  intro v hv hsequence x hx q hq above w hleaf hw
  obtain ⟨p, hp, rfl⟩ := List.mem_map.mp hq
  exact h v (wildcard_mem_canonical.mp hv) hsequence x hx p hp above w
    ((p.leaves_canonical none).mem_iff.mp hleaf) hw

/-- Optional wildcards among the arguments still differ in canonical forms. -/
theorem OptionalOperandsDiffer.canonical (h : OptionalOperandsDiffer qs) :
    OptionalOperandsDiffer (qs.map PatternTerm.canonical) := by
  rw [OptionalOperandsDiffer, List.pairwise_map]
  refine h.imp fun hpq v w hv hw => ?_
  exact hpq v w (canonical_eq_wildcard.mp hv) (canonical_eq_wildcard.mp hw)

/-- Symbol wildcards among the arguments are still required in canonical forms. -/
theorem SymbolOperandsRequired.canonical (h : SymbolOperandsRequired qs) :
    SymbolOperandsRequired (qs.map PatternTerm.canonical) :=
  fun w hw => h w (wildcard_mem_canonical.mp hw)

end Canonical

/-! ### From commutative to plain arguments -/

variable {f g : Head} {ps : List PatternTerm} {as : List Term} {σ τ : Substitution}
  {runs : List (PatternTerm × List Term)}

/-- **Commutative arguments denote what plain ones denote,** in the order of the runs. -/
theorem ArgsDenote.plain (hf : f.kind = .plain) (hg : g.kind = .commutative)
    (hsymbol : SymbolOperandsRequired ps) (h : ArgsDenote σ g ps as runs) :
    ArgsDenote σ f ps (runs.flatMap Prod.snd) runs := by
  have hordered : f.isCommutative = false := unordered_plain hf
  refine ⟨h.args, fun r hr => ?_, together_iff.mpr fun r _ r' _ hsame => ?_, .refl f _⟩
  · obtain ⟨p, ts⟩ := r
    have hdenotes := h.denotes _ hr
    cases p with
    | atom t => exact hdenotes
    | node head args => exact denotes_node_iff.mp hdenotes
    | wildcard w =>
      obtain ⟨b, htakes, hb⟩ := denotes_wildcard.mp hdenotes
      have hw : wildcard w ∈ ps := h.args ▸ List.mem_map_of_mem hr
      exact denotes_wildcard.mpr ⟨b, htakes.plain hf hg (hsymbol w hw), hb⟩
  · exact absurd (hordered.symm.trans hsame.1) Bool.false_ne_true

/-! ### From plain to commutative arguments -/

/-- The variables of sequence wildcards among the arguments. -/
def sequenceNames (ps : List PatternTerm) : List String :=
  (ps.filterMap PatternTerm.wildcard?).filterMap fun w => if w.isSequence then w.name else none

/-- The names of runs are those of the sequence wildcards among the arguments. -/
theorem mem_sequenceNames {x : String} :
    x ∈ sequenceNames ps ↔ ∃ w, wildcard w ∈ ps ∧ w.isSequence = true ∧ w.name = some x := by
  have hwildcard : ∀ (p : PatternTerm) (w : Wildcard), p.wildcard? = some w ↔ p = wildcard w := by
    intro p w
    cases p <;> simp [PatternTerm.wildcard?]
  simp only [sequenceNames, List.mem_filterMap, hwildcard, Option.ite_none_right_eq_some]
  constructor
  · rintro ⟨w, ⟨p, hp, rfl⟩, hsequence, hname⟩
    exact ⟨w, hp, hsequence, hname⟩
  · rintro ⟨w, hw, hsequence, hname⟩
    exact ⟨w, ⟨_, hw, rfl⟩, hsequence, hname⟩

/-- The same bindings, in order for the sequence wildcards among the arguments. -/
def Sorts (ps : List PatternTerm) (σ τ : Substitution) : Prop :=
  ∀ x, τ.find? x = (σ.find? x).map (if x ∈ sequenceNames ps then Binding.sorted else id)

/-- There is such a substitution for every list of arguments. -/
theorem exists_sorts (ps : List PatternTerm) (σ : Substitution) : ∃ τ, Sorts ps σ τ :=
  NameMap.exists_mapped σ fun x => if x ∈ sequenceNames ps then Binding.sorted else id

/-- The leaves of an operation stand below some head. -/
theorem exists_head_of_mem_leaves {p : PatternTerm} {head : Head}
    {leaf : Option Head × PatternTerm} (h : leaf ∈ p.leaves (some head)) :
    ∃ above, leaf.1 = some above := by
  induction p using PatternTerm.inductionOn generalizing head with
  | atom t => exact ⟨head, List.mem_singleton.mp h ▸ rfl⟩
  | wildcard w => exact ⟨head, List.mem_singleton.mp h ▸ rfl⟩
  | node inner args ih =>
    obtain ⟨p, hp, hleaf⟩ := PatternTerm.mem_leaves_node.mp h
    exact ih p hp hleaf

/-- Nothing changes for operations among the arguments. -/
theorem Sorts.find?_node (h : Sorts ps σ τ) (hsorted : RunsAreSortedOnly ps) {head : Head}
    {args : List PatternTerm} (hq : PatternTerm.node head args ∈ ps) {ts : List Term}
    {parent : Option Head} (hdenotes : (PatternTerm.node head args).Denotes σ parent ts) :
    ∀ x ∈ (PatternTerm.node head args).variableNames, τ.find? x = σ.find? x := by
  intro x hx
  rw [h x]
  split
  · rename_i hmem
    obtain ⟨v, hv, hsequence, hvname⟩ := mem_sequenceNames.mp hmem
    obtain ⟨w, hw, hwname⟩ := PatternTerm.mem_variableNames.mp hx
    obtain ⟨above, hleaf⟩ := (@PatternTerm.mem_wildcards_iff _ none w).mp hw
    obtain ⟨p, hp, hbelow⟩ := PatternTerm.mem_leaves_node.mp hleaf
    obtain ⟨k, rfl⟩ : ∃ k, above = some k := exists_head_of_mem_leaves hbelow
    obtain ⟨run, b, htakes, hb⟩ := (denotes_node_iff.mp hdenotes).leaf hleaf
    rw [hb x hwname, Option.map_some,
      htakes.sorted_binding (hsorted v hv hsequence x hvname _ hq k w hleaf hwname)]
  · rw [Option.map_id, id]

/-- The bindings of wildcards among the arguments are in order. -/
theorem Sorts.find?_wildcard (h : Sorts ps σ τ) (hf : f.kind = .plain) {w : Wildcard}
    (hw : wildcard w ∈ ps) {ts : List Term} {b : Binding} (htakes : w.Takes (some f) ts b)
    {x : String} (hname : w.name = some x) (hb : σ.find? x = some b) :
    τ.find? x = some b.sorted := by
  rw [h x, hb, Option.map_some]
  split
  · rfl
  · rename_i hnot
    cases hsequence : w.isSequence with
    | true => exact absurd (mem_sequenceNames.mpr ⟨w, hw, hsequence, hname⟩) hnot
    | false => rw [htakes.sorted_of_fixed hf hsequence, id]

/-- A sequence variable of a head that is not associative is fixed if its wildcard is, which has
    a default then. -/
theorem sequenceVariable?_fixed {w : Wildcard} {var : SequenceVariable}
    (hassoc : g.isAssociative = false) (h : sequenceVariable? g w = some var) :
    var.fixed = w.isFixed ∧ (w.isFixed = true → w.isOptional = true) := by
  unfold sequenceVariable? at h
  unfold Wildcard.isFixed
  cases hextent : w.extent with
  | run n =>
    simp only [hextent, Option.some.injEq] at h
    exact ⟨by rw [← h], by simp⟩
  | one kind =>
    simp only [hextent, hassoc, Bool.false_and, Bool.false_eq_true, if_false,
      Option.ite_none_right_eq_some, Option.some.injEq] at h
    exact ⟨by rw [← h.2], fun _ => h.1⟩

/-- What a sequence wildcard takes among plain arguments, by its binding. -/
theorem Wildcard.Takes.of_run (hf : f.kind = .plain) {w : Wildcard} {ts : List Term} {b : Binding}
    (h : w.Takes (some f) ts b) (hrun : w.isFixed = false) :
    (ts = [] ∧ ∃ t, b = .single t) ∨ b = .sequence ts := by
  have hlabel := h.label
  cases hextent : w.extent with
  | one kind => simp [Wildcard.isFixed, hextent] at hrun
  | run n =>
    rw [labelBelow_of_run hextent, filter_plain hf, Label.takes_run_iff] at hlabel
    rcases hlabel with ⟨hts, t, -, hb⟩ | ⟨-, hb⟩
    · exact .inl ⟨hts, t, hb⟩
    · exact .inr hb

/-- Runs of plain arguments are equal if they are counted together among commutative ones. -/
theorem eq_of_countedTogether (hf : f.kind = .plain) (hg : g.kind = .commutative) {v w : Wildcard}
    {ts us : List Term} {b c : Binding} (hv : v.Takes (some f) ts b) (hw : w.Takes (some f) us c)
    (hvb : ∀ x, v.name = some x → σ.find? x = some b)
    (hwc : ∀ x, w.name = some x → σ.find? x = some c)
    (hdiffer : v.isFixed = true → v.isOptional = true → v.name.isSome = true →
      v.name = w.name → v.default ≠ w.default)
    (hsame : CountedTogether g (wildcard v) (wildcard w)) : ts = us := by
  obtain ⟨-, var, hnamed, hvar, hvar'⟩ := hsame
  obtain ⟨hvname, hvdefault⟩ := sequenceVariable?_parts hvar
  obtain ⟨hwname, hwdefault⟩ := sequenceVariable?_parts hvar'
  obtain ⟨x, hx⟩ := Option.isSome_iff_exists.mp hnamed
  have hbc : b = c := Option.some.inj
    ((hvb x (hvname.symm.trans hx)).symm.trans (hwc x (hwname.symm.trans hx)))
  have hassoc := not_associative_commutative hg
  obtain ⟨hvfixed, hoptional⟩ := sequenceVariable?_fixed hassoc hvar
  obtain ⟨hwfixed, -⟩ := sequenceVariable?_fixed hassoc hvar'
  -- Two optional operands with one variable have different defaults, so both are sequences.
  have hvrun : v.isFixed = false := by
    by_contra hfixed
    have hfixed := Bool.not_eq_false _ ▸ hfixed
    exact hdiffer hfixed (hoptional hfixed) (hvname ▸ hnamed) (hvname.symm.trans hwname)
      (hvdefault.symm.trans hwdefault)
  rcases hv.of_run hf hvrun with ⟨rfl, t, rfl⟩ | rfl
  · rcases hw.of_run hf (hwfixed.symm.trans (hvfixed.trans hvrun)) with ⟨rfl, -⟩ | rfl
    · rfl
    · simp at hbc
  · rcases hw.of_run hf (hwfixed.symm.trans (hvfixed.trans hvrun)) with ⟨-, t, rfl⟩ | rfl
    · simp at hbc
    · exact Binding.sequence.inj hbc

/-- An argument denotes the sorted run among commutative arguments. -/
theorem Sorts.denotes (h : Sorts ps σ τ) (hf : f.kind = .plain) (hg : g.kind = .commutative)
    (hsorted : RunsAreSortedOnly ps) {p : PatternTerm} (hp : p ∈ ps) {ts : List Term}
    (hdenotes : p.Denotes σ (some f) ts) : p.Denotes τ (some g) (sortBy Term.le ts) := by
  cases p with
  | atom t =>
    obtain rfl : ts = [t] := hdenotes
    rfl
  | node head args =>
    have hmoved : (PatternTerm.node head args).Denotes τ (some g) ts :=
      denotes_node_iff.mp (hdenotes.congr (h.find?_node hsorted hp hdenotes))
    obtain ⟨as, hts, -⟩ := denotes_node.mp hdenotes
    obtain rfl : ts = [.node head as] := hts
    exact hmoved
  | wildcard w =>
    obtain ⟨b, htakes, hb⟩ := denotes_wildcard.mp hdenotes
    exact denotes_wildcard.mpr ⟨b.sorted, htakes.commutative hf hg, fun x hx =>
      h.find?_wildcard hf hp htakes hx (hb x hx)⟩

/-- **Plain arguments denote what commutative ones denote,** with the runs of sequence wildcards
    in order. -/
theorem ArgsDenote.exists_commutative (hf : f.kind = .plain) (hg : g.kind = .commutative)
    (hsorted : RunsAreSortedOnly ps) (hdiffer : OptionalOperandsDiffer ps)
    (h : ArgsDenote σ f ps as runs) : ∃ τ more, ArgsDenote τ g ps as more := by
  obtain ⟨τ, hτ⟩ := exists_sorts ps σ
  refine ⟨τ, runs.map fun r => (r.1, sortBy Term.le r.2), ?_, fun s hs => ?_, ?_, ?_⟩
  · rw [List.map_map]
    exact h.args
  · obtain ⟨r, hr, rfl⟩ := List.mem_map.mp hs
    have hmem : r.1 ∈ ps := h.args ▸ List.mem_map_of_mem hr
    exact hτ.denotes hf hg hsorted hmem (h.denotes r hr)
  · have hpairwise := hdiffer
    rw [OptionalOperandsDiffer, ← h.args, List.pairwise_map] at hpairwise
    rw [Together, List.pairwise_map]
    -- Equal runs of plain arguments are equal when they are sorted.
    refine hpairwise.imp_of_mem fun {r r'} hr hr' hpq hsame => congrArg (sortBy Term.le) ?_
    obtain ⟨p, ts⟩ := r
    obtain ⟨q, us⟩ := r'
    obtain ⟨v, w, rfl, rfl, -⟩ := hsame.exists_wildcards
    obtain ⟨b, hv, hb⟩ := denotes_wildcard.mp (h.denotes _ hr)
    obtain ⟨c, hw, hc⟩ := denotes_wildcard.mp (h.denotes _ hr')
    exact eq_of_countedTogether hf hg hv hw hb hc (hpq v w rfl rfl) hsame
  · -- sorting the runs of plain arguments only reorders what they take together
    have hperm : ((runs.map fun r => (r.1, sortBy Term.le r.2)).flatMap Prod.snd).Perm
        (runs.flatMap Prod.snd) := by
      rw [List.flatMap_map]
      exact List.Perm.flatMap_left _ fun r _ => sortBy_perm _ r.2
    rw [(Head.Reorders.iff_eq (unordered_plain hf)).mp h.reorders] at hperm
    exact (Head.Reorders.iff_perm (unordered_commutative hg)).mpr hperm

/-! ### Matches -/

/-- **Commutative matching is positional matching up to order.**  A match of a commutative
    operation gives a match of the plain operation on the same argument patterns with some
    order of the arguments, if no optional wildcard for symbols is among them.  Conversely a match
    of the plain operation gives one of the commutative operation, if the variables of its sequence
    wildcards do not occur below plain heads and optional operands differ. -/
theorem commutative_matching_is_positional_up_to_order {f g : Head} {qs : List PatternTerm}
    {plain commutative : Pattern} (hf : f.kind = .plain) (hg : g.kind = .commutative)
    (hplain : Pattern.ofTree (.build f qs) = .ok plain)
    (hcommutative : Pattern.ofTree (.build g qs) = .ok commutative) (as : List Term) :
    (SymbolOperandsRequired qs →
      (∃ σ, (0, σ) ∈ (Net.ofPatterns [commutative]).matches (.build g as)) →
        ∃ bs : List Term, bs.Perm as ∧
          ∃ σ, (0, σ) ∈ (Net.ofPatterns [plain]).matches (.build f bs)) ∧
    (RunsAreSortedOnly qs → OptionalOperandsDiffer qs →
      (∃ bs : List Term, bs.Perm as ∧
          ∃ σ, (0, σ) ∈ (Net.ofPatterns [plain]).matches (.build f bs)) →
        ∃ σ, (0, σ) ∈ (Net.ofPatterns [commutative]).matches (.build g as)) := by
  simp only [exists_match_ofTree_iff hplain, exists_match_ofTree_iff hcommutative,
    denotes_build_iff (not_associative_plain hf),
    denotes_build_iff (not_associative_commutative hg)]
  constructor
  -- The order in question is that in which the argument patterns have taken their runs.
  · rintro hsymbol ⟨σ, runs, hruns⟩
    refine ⟨runs.flatMap Prod.snd, hruns.reorders.perm, σ, runs, ?_⟩
    exact hruns.plain hf hg hsymbol.canonical
  · rintro hsorted hdiffer ⟨bs, hperm, σ, runs, hruns⟩
    obtain ⟨τ, more, hmore⟩ := hruns.exists_commutative hf hg hsorted.canonical hdiffer.canonical
    have horder : g.Reorders bs as :=
      (Head.Reorders.iff_perm (unordered_commutative hg)).mpr hperm
    exact ⟨τ, more, { hmore with reorders := hmore.reorders.trans horder }⟩

/-- A head for plain operations. -/
def plainHead : Head := ⟨"f", .plain⟩

/-- A head for commutative operations. -/
def commutativeHead : Head := ⟨"g", .commutative⟩

/-- A number, one term and a run. -/
def numberAndRun : List PatternTerm :=
  [.integer 1, .wildcard (.fixed "x"), .wildcard (.sequence "r" 1)]

/-- The pattern of an operation on a number, one term and a run. -/
def numberAndRunBelow (head : Head) : Pattern where
  tree := .build head numberAndRun
  variableKinds := .ofList [("r", .sequence), ("x", .single)]

/-- Three arguments in the wrong order are matched by the commutative operation, hence in some
    order by the plain one, hence by the commutative one again. -/
theorem commutative_matching_is_positional_up_to_order_for_numbers :
    (SymbolOperandsRequired numberAndRun ∧ RunsAreSortedOnly numberAndRun ∧
      OptionalOperandsDiffer numberAndRun) ∧
    (∃ bs : List Term, bs.Perm [.integer 3, .integer 2, .integer 1] ∧
      ∃ σ, (0, σ) ∈ (Net.ofPatterns [numberAndRunBelow plainHead]).matches (.build plainHead bs)) ∧
    ∃ σ, (0, σ) ∈ (Net.ofPatterns [numberAndRunBelow commutativeHead]).matches
      (.build commutativeHead [.integer 3, .integer 2, .integer 1]) := by
  have hwildcards : ∀ w, wildcard w ∈ numberAndRun ↔ w = .fixed "x" ∨ w = .sequence "r" 1 := by
    intro w
    simp [numberAndRun, PatternTerm.integer]
  have hsymbol : SymbolOperandsRequired numberAndRun := by
    intro w hw
    rcases (hwildcards w).mp hw with rfl | rfl <;> decide
  have hsorted : RunsAreSortedOnly numberAndRun := by
    intro v _ _ x _ q hq above w hleaf
    rcases List.mem_cons.mp hq with rfl | hq
    · simp [PatternTerm.integer, PatternTerm.leaves] at hleaf
    · rcases List.mem_cons.mp hq with rfl | hq
      · simp [PatternTerm.leaves] at hleaf
      · rw [List.mem_singleton.mp hq] at hleaf
        simp [PatternTerm.leaves] at hleaf
  have hdiffer : OptionalOperandsDiffer numberAndRun := by
    have hoptional : ∀ w, wildcard w ∈ numberAndRun → w.isOptional = false := by
      intro w hw
      rcases (hwildcards w).mp hw with rfl | rfl <;> rfl
    refine List.pairwise_of_forall_mem_list fun p hp q _ v w hv _ _ hv' => ?_
    exact absurd ((hoptional v (hv ▸ hp)).symm.trans hv') Bool.false_ne_true
  have hmatch : ∃ σ, (0, σ) ∈ (Net.ofPatterns [numberAndRunBelow commutativeHead]).matches
      (.build commutativeHead [.integer 3, .integer 2, .integer 1]) :=
    ⟨.ofList [("r", .sequence [.integer 3]), ("x", .single (.integer 2))], by decide +kernel⟩
  have hboth := @commutative_matching_is_positional_up_to_order plainHead commutativeHead
    numberAndRun (numberAndRunBelow plainHead) (numberAndRunBelow commutativeHead) rfl rfl rfl rfl
    [.integer 3, .integer 2, .integer 1]
  have hplain := hboth.1 hsymbol hmatch
  exact ⟨⟨hsymbol, hsorted, hdiffer⟩, hplain, hboth.2 hsorted hdiffer hplain⟩

/-- The pattern of an operation on a run and an operation on the same run. -/
def runTwiceBelow (head : Head) : Pattern where
  tree := .build head [.wildcard (.sequence "x" 1),
    .build ⟨"h", .plain⟩ [.wildcard (.sequence "x" 1)]]
  variableKinds := .ofList [("x", .sequence)]

/-- The pattern of an operation on two optional terms, which have one variable and default. -/
def optionalTwiceBelow (head : Head) : Pattern where
  tree := .build head [.wildcard (.optional "x" (.ofName "d")),
    .wildcard (.optional "x" (.ofName "d"))]
  variableKinds := .ofList [("x", .single)]

/-- **Sorted runs and optional operands that are counted together** make a difference.  A plain
    operation is matched with some order of the arguments and a commutative one is not, where a
    run also stands, unsorted, below a plain head, and where one of two optional wildcards takes
    the default and the other one is passed over. -/
theorem commutative_matching_sorts_and_counts :
    ((Net.ofPatterns [runTwiceBelow commutativeHead]).matches (.build commutativeHead
        [.ofName "a", .ofName "b", .build ⟨"h", .plain⟩ [.ofName "b", .ofName "a"]]) = [] ∧
      [.ofName "b", .ofName "a", .build ⟨"h", .plain⟩ [.ofName "b", .ofName "a"]].Perm
        [.ofName "a", .ofName "b", Term.build ⟨"h", .plain⟩ [.ofName "b", .ofName "a"]] ∧
      (0, .ofList [("x", .sequence [.ofName "b", .ofName "a"])]) ∈
        (Net.ofPatterns [runTwiceBelow plainHead]).matches (.build plainHead
          [.ofName "b", .ofName "a", .build ⟨"h", .plain⟩ [.ofName "b", .ofName "a"]])) ∧
    (Net.ofPatterns [optionalTwiceBelow commutativeHead]).matches
        (.build commutativeHead [.ofName "d"]) = [] ∧
      (0, .ofList [("x", .single (.ofName "d"))]) ∈
        (Net.ofPatterns [optionalTwiceBelow plainHead]).matches
          (.build plainHead [.ofName "d"]) := by
  decide +kernel

end TermNet
