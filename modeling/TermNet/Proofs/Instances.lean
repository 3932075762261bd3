import TermNet.Proofs.Denotation.Patterns
import TermNet.Proofs.Pattern.Rebuilt

namespace TermNet

/-!
# Substituted subjects are matched

What a pattern becomes when its variables are replaced is matched by the pattern, also where it
has sequence variables.  Such a variable is bound to different things in different places: to
the run as it is below a plain head, to the sorted run below a commutative one, and to one term
below an associative one.  The occurrences of one variable have to ask for the same binding.

* `Term.gathered` — the arguments that terms contribute below a head;
* `Binding.below` — what a variable is bound to below a head;
* `PatternTerm.denotes_gathered` — a tree denotes what it becomes, if its leaves do;
* `substituted_subjects_are_matched` — the net of a pattern matches what it becomes.
-/

/-! ### Contributed arguments -/

/-- The arguments that terms contribute below `parent`, in the order in which they are kept. -/
def Term.gathered (parent : Option Head) (ts : List Term) : List Term :=
  parent.elim ts fun head => arrange head (splice head ts)

/-- What a variable is bound to below `parent`: its term, or what becomes of its run. -/
def Binding.below (parent : Option Head) : Binding → Binding
  | .single t => .single t
  | .sequence ts => .ofRun (Term.gathered parent ts) (parent.filter Head.isAssociative)

/-- The term is no operation with less than two arguments. -/
def Term.Wide (t : Term) : Prop := ∀ head args, t = .node head args → 2 ≤ args.length

variable {parent : Option Head} {head : Head} {t : Term} {ts : List Term}

namespace Term

/-- An operation of another head stands for itself. -/
theorem gathered_singleton
    (h : ∀ head, parent = some head → head.isAssociative = true → t.hasHead head = false) :
    gathered parent [t] = [t] := by
  cases parent with
  | none => rfl
  | some head =>
    rw [gathered, Option.elim_some, splice_singleton,
      spliced_of_hasHead_false fun hassoc => h head rfl hassoc, arrange_singleton]

/-- An operation of the same associative head stands for its arguments. -/
theorem gathered_node (hassoc : head.isAssociative = true) (hcanonical : (node head ts).Canonical) :
    gathered (some head) [node head ts] = ts := by
  rw [gathered, Option.elim_some, splice_singleton, spliced_node_self hassoc, hcanonical.arranged]

/-- Wide terms contribute something. -/
theorem length_le_gathered (h : ∀ t ∈ ts, t.Wide) : ts.length ≤ (gathered parent ts).length := by
  cases parent with
  | none => exact Nat.le_refl _
  | some head =>
    rw [gathered, Option.elim_some, (arrange_perm head _).length_eq]
    induction ts with
    | nil => exact Nat.zero_le _
    | cons t ts ih =>
      -- Only an operation without arguments would contribute nothing.
      have hfirst : 1 ≤ (spliced head t).length := by
        cases t with
        | integer value => exact Nat.le_refl _
        | symbol s => exact Nat.le_refl _
        | node inner args =>
          rw [spliced_node]
          split
          · exact Nat.le_of_succ_le (h _ List.mem_cons_self inner args rfl)
          · exact Nat.le_refl _
      have hrest := ih fun s hs => h s (List.mem_cons_of_mem t hs)
      rw [splice_cons, List.length_append, List.length_cons]
      omega

/-- What is gathered below a commutative operation is sorted. -/
theorem sorted_gathered (h : unordered parent = true) :
    (gathered parent ts).Pairwise fun s t => s.le t = true := by
  cases parent with
  | none => exact absurd h (by simp [unordered])
  | some head =>
    rw [gathered, Option.elim_some, arrange_of_commutative h]
    exact sorted_sortBy_le _

/-- The contributions of several lists of terms, one after the other. -/
theorem reorders_gathered {α : Type} (head : Head) (xs : List α) (f : α → List Term) :
    head.Reorders (xs.flatMap fun x => gathered (some head) (f x))
      (gathered (some head) (xs.flatMap f)) := by
  have hsplice : splice head (xs.flatMap f) = xs.flatMap fun x => splice head (f x) :=
    List.flatMap_assoc
  have hpieces : head.Reorders (xs.flatMap fun x => gathered (some head) (f x))
      (xs.flatMap fun x => splice head (f x)) :=
    .flatMap_congr fun x _ => (Head.Reorders.arrange head _).symm
  rw [gathered, Option.elim_some, hsplice]
  exact hpieces.trans (.arrange head _)

end Term

open Term (gathered)
open PatternTerm (wildcard)

/-! ### Wildcards -/

variable {w : Wildcard} {n : Nat}

/-- **A fixed wildcard takes what its term contributes.** -/
theorem Wildcard.takes_gathered_single (hextent : w.extent = .one none)
    (hdefault : w.default = none) (hcanonical : t.Canonical) (hwide : t.Wide) :
    w.Takes parent (gathered parent [t]) (.single t) := by
  refine ⟨?_, Term.sorted_gathered⟩
  cases hfilter : parent.filter Head.isAssociative with
  | none =>
    have hself : gathered parent [t] = [t] := by
      apply Term.gathered_singleton
      intro head hparent hassoc
      rw [hparent, Option.filter_some, hassoc, if_pos rfl] at hfilter
      exact absurd hfilter (by simp)
    rw [labelBelow_of_one hextent fun _ => hfilter, hdefault, hself, ite_self]
    exact .one rfl
  | some head =>
    obtain ⟨rfl, hassoc⟩ := Option.filter_eq_some_iff.mp hfilter
    have hlength : [t].length ≤ (gathered (some head) [t]).length :=
      Term.length_le_gathered (by simpa using hwide)
    rw [labelBelow_of_wrapped hextent hfilter, hdefault, Label.takes_run_iff]
    refine .inr ⟨hlength, ?_⟩
    -- an operation of the same head is taken apart and put together again
    by_cases hhead : t.hasHead head = true
    · obtain ⟨args, rfl⟩ := hasHead_iff.mp hhead
      have hargs : 2 ≤ args.length := hwide head args rfl
      have hne : args ≠ [] := by
        rintro rfl
        exact absurd hargs (by decide)
      have hmany : args.length ≠ 1 := by omega
      rw [Term.gathered_node hassoc hcanonical, Binding.ofRun, List.isEmpty_eq_false_iff.mpr hne,
        if_neg Bool.false_ne_true, Term.rewrap_of_length_ne_one hmany, hcanonical.build_args]
    · rw [Term.gathered_singleton fun k hk _ => Option.some.inj hk ▸ Bool.eq_false_iff.mpr hhead]
      rfl

/-- **A sequence wildcard takes what its run contributes.** -/
theorem Wildcard.takes_gathered_sequence (hextent : w.extent = .run n) (hdefault : w.default = none)
    (hlength : n ≤ ts.length) (hwide : ∀ t ∈ ts, t.Wide) :
    w.Takes parent (gathered parent ts) (Binding.below parent (.sequence ts)) := by
  refine ⟨?_, Term.sorted_gathered⟩
  rw [labelBelow_of_run hextent, hdefault]
  exact .run (hlength.trans (Term.length_le_gathered hwide))

/-! ### Trees -/

variable {σ υ : Substitution} {p : PatternTerm} {args : List PatternTerm}

namespace PatternTerm

/-- A list that becomes terms does so tree by tree. -/
theorem substituteAll_eq_flatMap (h : substituteAll σ args = some ts) :
    (∀ p ∈ args, p.substituteRun σ = some (p.become σ)) ∧ args.flatMap (become σ) = ts := by
  have hsome : ∀ p ∈ args, (p.substituteRun σ).isSome = true := by
    obtain ⟨parts, hparts, -⟩ := substituteAll_eq_some_iff.mp h
    intro p hp
    obtain ⟨part, -, hpart⟩ := Bipartite.exists_row_of_mem hparts.flip hp
    rw [hpart]
    rfl
  refine ⟨fun p hp => ?_, Option.some.inj ((substituteAll_become hsome).symm.trans h)⟩
  obtain ⟨part, hpart⟩ := Option.isSome_iff_exists.mp (hsome p hp)
  rw [become, hpart]
  rfl

/-- **A flat tree denotes what it becomes,** if its leaves do. -/
theorem denotes_gathered (hflat : p.Flattened)
    (hapart : ∀ head, parent = some head → Apart head p)
    (hatoms : ∀ above t, (above, atom t) ∈ p.leaves parent → gathered above [t] = [t])
    (hwildcards : ∀ above w, (above, wildcard w) ∈ p.leaves parent → ∀ ts,
      (wildcard w).substituteRun σ = some ts → (wildcard w).Denotes υ above (gathered above ts))
    (h : p.substituteRun σ = some ts) : p.Denotes υ parent (gathered parent ts) := by
  induction p using inductionOn generalizing parent ts with
  | atom t =>
    obtain rfl : [t] = ts := Option.some.inj h
    exact hatoms parent t (List.mem_singleton_self _)
  | wildcard w => exact hwildcards parent w (List.mem_singleton_self _) ts h
  | node head args ih =>
    rw [substituteRun] at h
    obtain ⟨all, hall, rfl⟩ := Option.map_eq_some_iff.mp h
    obtain ⟨hargs, rfl⟩ := substituteAll_eq_flatMap hall
    -- The operation is not spliced into the one around it, since the tree is flat.
    have hself : gathered parent [Term.build head (args.flatMap (become σ))] =
        [Term.build head (args.flatMap (become σ))] := by
      refine Term.gathered_singleton fun outer houter hassoc => ?_
      rw [Term.build, Term.hasHead, Term.head?]
      simpa using hapart outer houter hassoc
    cases hflat with
    | node _ hflats haparts =>
      rw [hself]
      refine denotes_node.mpr ⟨_, rfl, args.map fun p => (p, gathered (some head) (p.become σ)),
        ?_, fun r hr => ?_, together_iff.mpr fun r hr r' hr' hsame => ?_, ?_⟩
      · rw [List.map_map]
        exact List.map_id _
      · obtain ⟨p, hp, rfl⟩ := List.mem_map.mp hr
        have hleaves : ∀ leaf ∈ p.leaves (some head), leaf ∈ (node head args).leaves parent :=
          fun leaf hleaf => mem_leaves_node.mpr ⟨p, hp, hleaf⟩
        exact ih p hp (hflats p hp) (fun outer houter => Option.some.inj houter ▸ haparts p hp)
          (fun above t hleaf => hatoms above t (hleaves _ hleaf))
          (fun above w hleaf => hwildcards above w (hleaves _ hleaf)) (hargs p hp)
      · -- occurrences that are counted together become the same
        obtain ⟨p, hp, rfl⟩ := List.mem_map.mp hr
        obtain ⟨q, hq, rfl⟩ := List.mem_map.mp hr'
        obtain ⟨v, w, rfl, rfl, hname⟩ := hsame.exists_wildcards
        rw [become, become, substituteRun, substituteRun, hname]
      · rw [List.flatMap_map]
        exact Term.reorders_gathered head args (become σ)

end PatternTerm

/-! ### Variables -/

/-- **All occurrences of a variable ask for the same binding** of it. -/
def PatternTerm.BindsAlike (p : PatternTerm) (σ : Substitution) : Prop :=
  ∀ x b, σ.find? x = some b → ∀ above v above' w, (above, wildcard v) ∈ p.leaves none →
    (above', wildcard w) ∈ p.leaves none → v.name = some x → w.name = some x →
      b.below above = b.below above'

/-- The bindings that the occurrences of the variables ask for. -/
theorem PatternTerm.BindsAlike.exists_below (h : p.BindsAlike σ) :
    ∃ υ : Substitution, ∀ above w x, (above, wildcard w) ∈ p.leaves none → w.name = some x →
      υ.find? x = (σ.find? x).map (Binding.below above) := by
  have hplace : ∀ x, ∃ place, ∀ above w, (above, wildcard w) ∈ p.leaves none → w.name = some x →
      ∀ b, σ.find? x = some b → b.below place = b.below above := by
    intro x
    by_cases hoccurs : ∃ place v, (place, wildcard v) ∈ p.leaves none ∧ v.name = some x
    · obtain ⟨place, v, hv, hvname⟩ := hoccurs
      exact ⟨place, fun above w hw hwname b hb => h x b hb place v above w hv hw hvname hwname⟩
    · exact ⟨none, fun above w hw hwname => absurd ⟨above, w, hw, hwname⟩ hoccurs⟩
  choose place hplace using hplace
  obtain ⟨υ, hυ⟩ := NameMap.exists_mapped σ fun x => Binding.below (place x)
  refine ⟨υ, fun above w x hw hwname => ?_⟩
  rw [hυ x]
  cases hb : σ.find? x with
  | none => rfl
  | some b => exact congrArg some (hplace x above w hw hwname b hb)

/-! ### Matches -/

/-- **A substitution for a tree with sequence variables.**  All wildcards are named, without
    default and symbol kind.  Fixed ones are bound to single terms and sequence wildcards to runs
    that are long enough, and none of these terms is an operation with less than two arguments. -/
structure PatternTerm.FilledBy (p : PatternTerm) (σ : Substitution) : Prop where
  wildcards : ∀ w ∈ p.wildcards, w.name.isSome = true ∧ w.default = none ∧ w.symbolKind = none
  fixed : ∀ w ∈ p.wildcards, w.isFixed = true → ∀ x, w.name = some x →
    ∃ t, σ.find? x = some (.single t) ∧ t.Canonical
  sequences : ∀ w ∈ p.wildcards, w.isFixed = false → ∀ x, w.name = some x →
    ∃ ts, σ.find? x = some (.sequence ts) ∧ w.minCount ≤ ts.length
  wide : ∀ x b, σ.find? x = some b → ∀ t ∈ b.elements, t.Wide

/-- A wildcard denotes what it becomes, with the binding that its place asks for. -/
theorem PatternTerm.FilledBy.denotes_wildcard (h : p.FilledBy σ) (hw : w ∈ p.wildcards)
    (hυ : ∀ x, w.name = some x → υ.find? x = (σ.find? x).map (Binding.below parent))
    (hts : (wildcard w).substituteRun σ = some ts) :
    (wildcard w).Denotes υ parent (gathered parent ts) := by
  obtain ⟨hnamed, hdefault, hkind⟩ := h.wildcards w hw
  obtain ⟨x, hx⟩ := Option.isSome_iff_exists.mp hnamed
  have hbound := hυ x hx
  have hname : ∀ y, w.name = some y → y = x := fun y hy => Option.some.inj (hy.symm.trans hx)
  rw [substituteRun, hx, Option.bind_some] at hts
  cases hextent : w.extent with
  | one kind =>
    obtain rfl : kind = none := by simpa [Wildcard.symbolKind, hextent] using hkind
    obtain ⟨t, ht, hcanonical⟩ := h.fixed w hw (by simp [Wildcard.isFixed, hextent]) x hx
    rw [ht] at hts hbound
    obtain rfl : [t] = ts := Option.some.inj hts
    have htakes := @Wildcard.takes_gathered_single parent t w hextent hdefault hcanonical
      (h.wide x _ ht t (List.mem_singleton_self t))
    exact TermNet.denotes_wildcard.mpr ⟨_, htakes, fun y hy => hname y hy ▸ hbound⟩
  | run n =>
    obtain ⟨run, hrun, hlength⟩ := h.sequences w hw (by simp [Wildcard.isFixed, hextent]) x hx
    rw [hrun] at hts hbound
    obtain rfl : run = ts := Option.some.inj hts
    rw [Wildcard.minCount, hextent] at hlength
    have htakes := @Wildcard.takes_gathered_sequence parent run w n hextent hdefault hlength
      (h.wide x _ hrun)
    exact TermNet.denotes_wildcard.mpr ⟨_, htakes, fun y hy => hname y hy ▸ hbound⟩

/-- **Substituted subjects are matched.**  If all occurrences of a variable ask for the same
    binding of it and no atom would be spliced into its place, the pattern matches what it
    becomes, and binds its variables to what their occurrences ask for. -/
theorem substituted_subjects_are_matched {tree : PatternTerm} {pattern : Pattern}
    {σ : Substitution} {subject : Term} (h : Pattern.ofTree tree = .ok pattern)
    (hfilled : tree.FilledBy σ) (halike : tree.BindsAlike σ)
    (hatoms : ∀ head t, (some head, .atom t) ∈ tree.leaves none → head.isAssociative = true →
      t.hasHead head = false) (hsubject : tree.substitute σ = some subject) :
    ∃ τ, (0, τ) ∈ (Net.ofPatterns [pattern]).matches subject ∧
      ∀ above w x, (above, .wildcard w) ∈ tree.leaves none → w.name = some x →
        τ.find? x = (σ.find? x).map (Binding.below above) := by
  obtain ⟨υ, hυ⟩ := halike.exists_below
  -- The net is built from the canonical tree, which has the same leaves.
  have hperm := tree.leaves_canonical none
  have hrun : tree.canonical.substituteRun σ = some [subject] := by
    rw [PatternTerm.substituteRun_canonical]
    exact PatternTerm.substitute_eq_some_iff.mp hsubject
  have hdenotes : tree.canonical.Denotes υ none (gathered none [subject]) := by
    refine PatternTerm.denotes_gathered (PatternTerm.flattened_mapVariables id tree)
      (fun head hnone => absurd hnone (by simp)) (fun above t hleaf => ?_)
      (fun above w hleaf ts hts => ?_) hrun
    -- Atoms stay whole where they stand, by assumption.
    · refine Term.gathered_singleton fun head habove hassoc => ?_
      exact hatoms head t (hperm.mem_iff.mp (habove ▸ hleaf)) hassoc
    · have hleaf := hperm.mem_iff.mp hleaf
      exact hfilled.denotes_wildcard (PatternTerm.mem_wildcards_iff.mpr ⟨above, hleaf⟩)
        (fun x hx => hυ above w x hleaf hx) hts
  obtain ⟨τ, hτ, hfind⟩ := exists_match_of_denotes h hdenotes
  refine ⟨τ, hτ, fun above w x hleaf hx => ?_⟩
  have hvariable : x ∈ tree.variableNames := PatternTerm.mem_variableNames.mpr
    ⟨w, PatternTerm.mem_wildcards_iff.mpr ⟨above, hleaf⟩, hx⟩
  rw [← hυ above w x hleaf hx]
  exact Option.ext fun b => by rw [hfind, and_iff_right hvariable]

/-- An operation on a run and a commutative operation on the same run. -/
def runTwice : Pattern where
  tree := .build ⟨"f", .plain⟩ [.wildcard (.sequence "x" 1),
    .build ⟨"g", .commutative⟩ [.wildcard (.sequence "x" 1)]]
  variableKinds := .ofList [("x", .sequence)]

/-- Two symbols as a run. -/
def runOf (first second : String) : Substitution :=
  .ofList [("x", .sequence [.ofName first, .ofName second])]

/-- What becomes of `runTwice`. -/
def bothRuns (first second : String) : Term :=
  .build ⟨"f", .plain⟩ [.ofName first, .ofName second,
    .build ⟨"g", .commutative⟩ [.ofName first, .ofName second]]

/-- A run that is in order is matched. -/
theorem substituted_subjects_are_matched_in_order :
    runTwice.tree.substitute (runOf "a" "b") = some (bothRuns "a" "b") ∧
      ∃ τ, (0, τ) ∈ (Net.ofPatterns [runTwice]).matches (bothRuns "a" "b") ∧
        τ.find? "x" = (runOf "a" "b").find? "x" := by
  have hsubject : runTwice.tree.substitute (runOf "a" "b") = some (bothRuns "a" "b") := by
    decide +kernel
  have hleaves : ∀ leaf ∈ runTwice.tree.leaves none, leaf.2 = .wildcard (.sequence "x" 1) ∧
      (Binding.sequence [.ofName "a", .ofName "b"]).below leaf.1 =
        .sequence [.ofName "a", .ofName "b"] := by
    decide +kernel
  have hwildcards : ∀ w ∈ runTwice.tree.wildcards, w = .sequence "x" 1 := by decide +kernel
  have hbound : ∀ x b, (runOf "a" "b").find? x = some b →
      b = .sequence [.ofName "a", .ofName "b"] := fun x b hb =>
    (Prod.mk.inj (List.mem_singleton.mp (NameMap.mem_entries.mpr hb))).2
  have hfilled : runTwice.tree.FilledBy (runOf "a" "b") := by
    refine ⟨by decide +kernel, fun w hw hfixed => ?_, fun w hw _ x hx => ?_,
      fun x b hb t ht head args hargs => ?_⟩
    · rw [hwildcards w hw] at hfixed
      exact absurd hfixed (by decide)
    · rw [hwildcards w hw] at hx ⊢
      obtain rfl : "x" = x := Option.some.inj hx
      exact ⟨[.ofName "a", .ofName "b"], by decide +kernel, by decide⟩
    · rw [hbound x b hb, hargs] at ht
      exact absurd ht (by simp [Binding.elements, Term.ofName])
  have halike : runTwice.tree.BindsAlike (runOf "a" "b") := by
    intro x b hb above v above' w hv hw _ _
    rw [hbound x b hb, (hleaves _ hv).2, (hleaves _ hw).2]
  have hatoms : ∀ head t, (some head, .atom t) ∈ runTwice.tree.leaves none →
      head.isAssociative = true → t.hasHead head = false := fun head t hleaf =>
    absurd (hleaves _ hleaf).1 (by simp)
  obtain ⟨τ, hτ, hfind⟩ := substituted_subjects_are_matched (rfl : Pattern.ofTree _ = .ok runTwice)
    hfilled halike hatoms hsubject
  exact ⟨hsubject, τ, hτ,
    hfind (some ⟨"f", .plain⟩) (.sequence "x" 1) "x" (by decide +kernel) rfl⟩

/-- An atom that is an operation of the associative head above it. -/
def atomBelow : Pattern where
  tree := .build ⟨"g", .associative⟩
    [.atom (.build ⟨"g", .associative⟩ [.ofName "a", .ofName "b"]), .wildcard (.fixed "x")]
  variableKinds := .ofList [("x", .single)]

/-- **A run that is not in order** is not matched, since it is sorted below the commutative head,
    and neither is an atom that is spliced into its place. -/
theorem unsorted_runs_are_not_matched :
    (Pattern.ofTree runTwice.tree = .ok runTwice ∧
      runTwice.tree.substitute (runOf "b" "a") = some (bothRuns "b" "a") ∧
      (Net.ofPatterns [runTwice]).matches (bothRuns "b" "a") = []) ∧
    Pattern.ofTree atomBelow.tree = .ok atomBelow ∧
      atomBelow.tree.substitute (.ofList [("x", .single (.ofName "c"))]) =
        some (.build ⟨"g", .associative⟩ [.ofName "a", .ofName "b", .ofName "c"]) ∧
      (Net.ofPatterns [atomBelow]).matches
        (.build ⟨"g", .associative⟩ [.ofName "a", .ofName "b", .ofName "c"]) = [] :=
  ⟨⟨rfl, by decide +kernel, by decide +kernel⟩, rfl, by decide +kernel, by decide +kernel⟩

end TermNet
