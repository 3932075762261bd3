import TermNet.Proofs.Omission.Basic

namespace TermNet

/-!
# What trees with optional wildcards denote

A tree whose optional variables occur once denotes what one of the trees denotes that lack some
of its optional arguments, provided the variables of these are bound to their defaults.

* `Wildcard.takes_iff_required` — an optional wildcard takes nothing, or what a required one
  takes;
* `PatternTerm.DenotesOmitting` — what a tree denotes without some optional arguments;
* `together_keptRuns` — leaving out arguments does not touch those that are counted together;
* `denotesOmitting_wildcard`, `denotesOmitting_node` — the same by the kind of tree;
* `PatternTerm.Denotes.exists_omitting`, `PatternTerm.DenotesOmitting.denotes` — both directions.
-/

variable {σ : Substitution} {parent : Option Head} {head : Head} {names others : List String}
  {w : Wildcard} {p q : PatternTerm} {args : List PatternTerm} {ts as : List Term} {b : Binding}
  {runs more : List (PatternTerm × List Term)}

/-! ### Wildcards -/

/-- A wildcard without a default stays as it is when it is made required. -/
theorem Wildcard.required_of_not_optional (h : w.isOptional = false) : w.required = w := by
  rw [required, h, if_neg Bool.false_ne_true]

/-- The labels of an optional wildcard and of the required one. -/
theorem takes_labelBelow_iff_required (hkind : w.symbolKind = none) :
    (w.labelBelow parent).Takes ts b ↔ (ts = [] ∧ ∃ d, w.default = some d ∧ b = .single d) ∨
      (w.required.labelBelow parent).Takes ts b := by
  obtain ⟨name, extent, default⟩ := w
  cases default with
  | none =>
    rw [Wildcard.required_of_not_optional rfl]
    simp
  | some d =>
    have hrequired : (Wildcard.mk name extent (some d)).required = ⟨name, extent.nonempty, none⟩ :=
      rfl
    rw [hrequired]
    cases extent with
    | run n =>
      rw [Extent.nonempty, Wildcard.labelBelow_of_run rfl, Wildcard.labelBelow_of_run rfl,
        Label.takes_run_iff, Label.takes_run_iff]
      simp
    | one kind =>
      obtain rfl : kind = none := hkind
      rw [Extent.nonempty]
      -- Below an associative head one argument is a run, which is wrapped.
      cases hassoc : parent.filter Head.isAssociative with
      | none =>
        rw [Wildcard.labelBelow_of_one rfl fun _ => hassoc,
          Wildcard.labelBelow_of_one rfl fun _ => hassoc, ite_self, ite_self, Label.takes_one_iff,
          Label.takes_one_iff]
        simp
      | some head =>
        rw [Wildcard.labelBelow_of_wrapped rfl hassoc, Wildcard.labelBelow_of_wrapped rfl hassoc,
          Label.takes_run_iff, Label.takes_run_iff]
        simp

/-- **An optional wildcard takes nothing or what a required one takes.** -/
theorem Wildcard.takes_iff_required (hkind : w.symbolKind = none) :
    w.Takes parent ts b ↔ (ts = [] ∧ ∃ d, w.default = some d ∧ b = .single d) ∨
      w.required.Takes parent ts b := by
  constructor
  · intro h
    exact ((takes_labelBelow_iff_required hkind).mp h.label).imp_right fun hlabel =>
      ⟨hlabel, h.sorted⟩
  · rintro (h | h)
    · refine ⟨(takes_labelBelow_iff_required hkind).mpr (.inl h), fun _ => ?_⟩
      rw [h.1]
      exact .nil
    · exact ⟨(takes_labelBelow_iff_required hkind).mpr (.inr h.label), h.sorted⟩

/-! ### Names -/

/-- Two wildcards of which one is optional have different names. -/
def Wildcard.OptionalApart (v w : Wildcard) : Prop :=
  (v.isOptional = true ∨ w.isOptional = true) → v.name ≠ w.name

/-- **The optional variables of a tree occur once,** and no wildcard has a symbol kind. -/
structure PatternTerm.OptionalOnce (p : PatternTerm) : Prop where
  named : ∀ w ∈ p.wildcards, w.name.isSome = true
  kinds : ∀ w ∈ p.wildcards, w.symbolKind = none
  apart : p.wildcards.Pairwise Wildcard.OptionalApart

namespace PatternTerm

/-- If the optional variables of an operation occur once, so do those of an argument. -/
theorem OptionalOnce.arg (h : (node head args).OptionalOnce) (hp : p ∈ args) : p.OptionalOnce := by
  have hsub : ∀ w ∈ p.wildcards, w ∈ (node head args).wildcards := fun w hw =>
    mem_wildcardsAll.mpr ⟨p, hp, hw⟩
  have hapart := h.apart
  rw [wildcards, wildcardsAll_eq, List.pairwise_flatMap] at hapart
  exact ⟨fun w hw => h.named w (hsub w hw), fun w hw => h.kinds w (hsub w hw), hapart.1 p hp⟩

/-- Different arguments do not share optional variables. -/
theorem OptionalOnce.pairwise (h : (node head args).OptionalOnce) :
    args.Pairwise fun p q => ∀ v ∈ p.wildcards, ∀ w ∈ q.wildcards, v.OptionalApart w := by
  have hapart := h.apart
  rw [wildcards, wildcardsAll_eq, List.pairwise_flatMap] at hapart
  exact hapart.2

/-- The defaults of an operation are those of its arguments. -/
theorem mem_defaults_node {entry : String × Binding} :
    entry ∈ (node head args).defaults ↔ ∃ p ∈ args, entry ∈ p.defaults := by
  obtain ⟨x, b⟩ := entry
  simp only [mem_defaults, wildcards, mem_wildcardsAll]
  constructor
  · rintro ⟨w, ⟨p, hp, hw⟩, h⟩
    exact ⟨p, hp, w, hw, h⟩
  · rintro ⟨p, hp, w, hw, h⟩
    exact ⟨w, ⟨p, hp, hw⟩, h⟩

/-- What the left out variables of an operation are bound to is what those of its arguments are. -/
theorem mem_omittedBindings_node {entry : String × Binding} :
    entry ∈ (node head args).omittedBindings names ↔
      ∃ p ∈ args, entry ∈ p.omittedBindings names := by
  obtain ⟨x, b⟩ := entry
  simp only [mem_omittedBindings, mem_defaults_node]
  constructor
  · rintro ⟨⟨p, hp, hdefault⟩, hname⟩
    exact ⟨p, hp, hdefault, hname⟩
  · rintro ⟨p, hp, hdefault, hname⟩
    exact ⟨⟨p, hp, hdefault⟩, hname⟩

/-- Only the optional variables of the tree count. -/
theorem omitting_congr (h : ∀ entry ∈ p.defaults, entry.1 ∈ names ↔ entry.1 ∈ others) :
    p.isOmitted names = p.isOmitted others ∧ p.omitting names = p.omitting others := by
  induction p using inductionOn with
  | atom t => exact ⟨rfl, rfl⟩
  | wildcard w =>
    refine ⟨?_, rfl⟩
    rw [isOmitted, isOmitted, Wildcard.isOmitted, Wildcard.isOmitted]
    cases hentry : w.defaultBinding? with
    | none => rfl
    | some entry =>
      have hmem : entry ∈ (wildcard w).defaults :=
        List.mem_filterMap.mpr ⟨w, List.mem_singleton_self w, hentry⟩
      rw [Option.any_some, Option.any_some, Bool.eq_iff_iff, List.contains_iff_mem,
        List.contains_iff_mem]
      exact h entry hmem
  | node head args ih =>
    refine ⟨rfl, ?_⟩
    rw [omitting, omitting, omittingAll_eq, omittingAll_eq]
    refine congrArg _ (List.flatMap_congr fun p hp => ?_)
    obtain ⟨homitted, homitting⟩ := ih p hp fun entry hentry =>
      h entry (mem_defaults_node.mpr ⟨p, hp, hentry⟩)
    rw [kept, kept, homitted, homitting]

/-! ### Trees without some arguments -/

/-- The tree denotes `ts` without its optional arguments `names`, whose variables are bound to
    their defaults.  A tree that is left out itself denotes nothing. -/
structure DenotesOmitting (σ : Substitution) (names : List String) (parent : Option Head)
    (p : PatternTerm) (ts : List Term) : Prop where
  omitted : p.isOmitted names = true → ts = []
  denotes : p.isOmitted names = false → (p.omitting names).Denotes σ parent ts
  bound : ∀ entry ∈ p.omittedBindings names, σ.find? entry.1 = some entry.2

/-- It makes no difference which other names are left out: only optional variables count. -/
theorem DenotesOmitting.congr (h : p.DenotesOmitting σ names parent ts)
    (hnames : ∀ entry ∈ p.defaults, entry.1 ∈ names ↔ entry.1 ∈ others) :
    p.DenotesOmitting σ others parent ts := by
  obtain ⟨homitted, homitting⟩ := omitting_congr hnames
  refine ⟨fun hp => h.omitted (homitted.trans hp),
    fun hp => homitting ▸ h.denotes (homitted.trans hp), fun entry hentry => h.bound entry ?_⟩
  obtain ⟨hdefault, hmem⟩ := mem_omittedBindings.mp hentry
  exact mem_omittedBindings.mpr ⟨hdefault, (hnames entry hdefault).mpr hmem⟩

end PatternTerm

open PatternTerm (DenotesOmitting OptionalOnce)

/-! ### Arguments -/

/-- What is left of an argument with its run. -/
def keptRun (names : List String) (r : PatternTerm × List Term) : List (PatternTerm × List Term) :=
  if r.1.isOmitted names then [] else [(r.1.omitting names, r.2)]

/-- What is left of arguments with their runs. -/
def keptRuns (names : List String) (runs : List (PatternTerm × List Term)) :
    List (PatternTerm × List Term) :=
  runs.flatMap (keptRun names)

/-- The trees of the runs that are kept are the trees that are kept. -/
theorem map_keptRuns (names : List String) (runs : List (PatternTerm × List Term)) :
    (keptRuns names runs).map Prod.fst = (runs.map Prod.fst).flatMap (PatternTerm.kept names) := by
  rw [keptRuns, List.map_flatMap, List.flatMap_map]
  refine List.flatMap_congr fun r _ => ?_
  rw [keptRun, PatternTerm.kept]
  split <;> rfl

/-- A run is kept, with what is left of its tree, unless its tree is left out. -/
theorem mem_keptRun {r s : PatternTerm × List Term} :
    s ∈ keptRun names r ↔ r.1.isOmitted names = false ∧ s = (r.1.omitting names, r.2) := by
  rw [keptRun]
  cases r.1.isOmitted names <;> simp

/-- Nothing is taken by what is left out. -/
theorem flatMap_keptRuns (h : ∀ r ∈ runs, r.1.isOmitted names = true → r.2 = []) :
    (keptRuns names runs).flatMap Prod.snd = runs.flatMap Prod.snd := by
  rw [keptRuns, List.flatMap_assoc]
  refine List.flatMap_congr fun r hr => ?_
  rw [keptRun]
  split
  · rename_i homitted
    rw [h r hr homitted]
    rfl
  · exact List.flatMap_singleton _ _

/-- Arguments that are left have their runs among those of all arguments. -/
theorem exists_runs_of_kept (h : more.map Prod.fst = args.flatMap (PatternTerm.kept names)) :
    ∃ runs : List (PatternTerm × List Term), runs.map Prod.fst = args ∧
      keptRuns names runs = more ∧ ∀ r ∈ runs, r.1.isOmitted names = true → r.2 = [] := by
  induction args generalizing more with
  | nil => exact ⟨[], rfl, (List.map_eq_nil_iff.mp h).symm, by simp⟩
  | cons p ps ih =>
    rw [List.flatMap_cons, PatternTerm.kept] at h
    cases homitted : p.isOmitted names with
    | true =>
      rw [homitted, if_pos rfl, List.nil_append] at h
      obtain ⟨runs, hargs, hkept, hnil⟩ := ih h
      refine ⟨(p, []) :: runs, by rw [List.map_cons, hargs], ?_,
        List.forall_mem_cons.mpr ⟨fun _ => rfl, hnil⟩⟩
      rw [keptRuns, List.flatMap_cons, ← keptRuns, hkept, keptRun, homitted, if_pos rfl,
        List.nil_append]
    | false =>
      rw [homitted, if_neg Bool.false_ne_true] at h
      obtain ⟨⟨q, ts⟩, rest, rfl, rfl, hrest⟩ := List.map_eq_cons_iff.mp h
      obtain ⟨runs, hargs, hkept, hnil⟩ := ih hrest
      refine ⟨(p, ts) :: runs, by rw [List.map_cons, hargs], ?_,
        List.forall_mem_cons.mpr ⟨fun htrue => absurd (homitted.symm.trans htrue) (by simp), hnil⟩⟩
      rw [keptRuns, List.flatMap_cons, ← keptRuns, hkept, keptRun, homitted,
        if_neg Bool.false_ne_true]
      rfl

/-- A wildcard without a default is never left out. -/
theorem isOmitted_of_not_optional (h : w.isOptional = false) : w.isOmitted names = false := by
  have hnone : w.default = none := by
    rw [Wildcard.isOptional] at h
    exact Option.not_isSome_iff_eq_none.mp (Bool.eq_false_iff.mp h)
  rw [Wildcard.isOmitted, Wildcard.defaultBinding?, hnone]
  cases w.name <;> rfl

/-- Wildcards that may be counted together stay what they are. -/
theorem kept_of_apart (names : List String) {v w : Wildcard} (h : v.OptionalApart w)
    (hname : v.name = w.name) :
    (v.isOmitted names = false ∧ v.required = v) ∧ w.isOmitted names = false ∧ w.required = w := by
  have hv : v.isOptional = false := by
    by_contra hoptional
    exact h (.inl (Bool.not_eq_false _ ▸ hoptional)) hname
  have hw : w.isOptional = false := by
    by_contra hoptional
    exact h (.inr (Bool.not_eq_false _ ▸ hoptional)) hname
  exact ⟨⟨isOmitted_of_not_optional hv, Wildcard.required_of_not_optional hv⟩,
    isOmitted_of_not_optional hw, Wildcard.required_of_not_optional hw⟩

/-- Two arguments are counted together before and after others are left out. -/
theorem counted_keptRun_iff {r r' : PatternTerm × List Term}
    (hapart : ∀ v ∈ r.1.wildcards, ∀ w ∈ r'.1.wildcards, v.OptionalApart w) :
    (∀ s ∈ keptRun names r, ∀ s' ∈ keptRun names r', CountedTogether head s.1 s'.1 → s.2 = s'.2) ↔
      (CountedTogether head r.1 r'.1 → r.2 = r'.2) := by
  obtain ⟨p, ts⟩ := r
  obtain ⟨q, us⟩ := r'
  constructor
  · intro h hsame
    obtain ⟨v, w, rfl, rfl, hname⟩ := hsame.exists_wildcards
    obtain ⟨⟨hv, hv'⟩, hw, hw'⟩ := kept_of_apart names
      (hapart v (List.mem_singleton_self v) w (List.mem_singleton_self w)) hname
    refine h (.wildcard v, ts) (mem_keptRun.mpr ⟨hv, ?_⟩) (.wildcard w, us)
      (mem_keptRun.mpr ⟨hw, ?_⟩) hsame
    · rw [PatternTerm.omitting, hv']
    · rw [PatternTerm.omitting, hw']
  · intro h s hs s' hs' hsame
    obtain ⟨-, rfl⟩ := mem_keptRun.mp hs
    obtain ⟨-, rfl⟩ := mem_keptRun.mp hs'
    -- only a wildcard leaves a wildcard, and this one is not optional
    obtain ⟨v', w', hv', hw', hname⟩ := hsame.exists_wildcards
    obtain ⟨v, rfl, rfl⟩ := PatternTerm.omitting_eq_wildcard_iff.mp hv'
    obtain ⟨w, rfl, rfl⟩ := PatternTerm.omitting_eq_wildcard_iff.mp hw'
    rw [Wildcard.required_name, Wildcard.required_name] at hname
    obtain ⟨⟨-, hv⟩, -, hw⟩ := kept_of_apart names
      (hapart v (List.mem_singleton_self v) w (List.mem_singleton_self w)) hname
    refine h ?_
    rwa [PatternTerm.omitting, PatternTerm.omitting, hv, hw] at hsame

/-- **Leaving out arguments does not touch those that are counted together,** as these are not
    optional. -/
theorem together_keptRuns (hapart : runs.Pairwise fun r r' =>
      ∀ v ∈ r.1.wildcards, ∀ w ∈ r'.1.wildcards, v.OptionalApart w) :
    Together head (keptRuns names runs) ↔ Together head runs := by
  have hone : ∀ r ∈ runs, (keptRun names r).Pairwise fun s s' =>
      CountedTogether head s.1 s'.1 → s.2 = s'.2 := by
    intro r _
    rw [keptRun]
    split
    · exact .nil
    · exact List.pairwise_singleton _ _
  rw [keptRuns, Together, List.pairwise_flatMap, Together, and_iff_right hone]
  constructor
  · intro h
    exact (hapart.and h).imp fun hboth => (counted_keptRun_iff hboth.1).mp hboth.2
  · intro h
    exact (hapart.and h).imp fun hboth => (counted_keptRun_iff hboth.1).mpr hboth.2

/-- **One choice for all arguments,** put together from those of the single ones. -/
theorem exists_names_of_runs (hapart : runs.Pairwise fun r r' =>
      ∀ v ∈ r.1.wildcards, ∀ w ∈ r'.1.wildcards, v.OptionalApart w)
    (h : ∀ r ∈ runs, ∃ names ⊆ r.1.defaults.map Prod.fst,
      r.1.DenotesOmitting σ names (some head) r.2) :
    ∃ names ⊆ runs.flatMap fun r => r.1.defaults.map Prod.fst,
      ∀ r ∈ runs, r.1.DenotesOmitting σ names (some head) r.2 := by
  induction runs with
  | nil => exact ⟨[], List.nil_subset _, by simp⟩
  | cons r rest ih =>
    obtain ⟨hfirst, hrest⟩ := List.pairwise_cons.mp hapart
    obtain ⟨hr, h⟩ := List.forall_mem_cons.mp h
    obtain ⟨names, hnames, hr⟩ := hr
    obtain ⟨others, hothers, hall⟩ := ih hrest h
    -- no optional variable of the first argument is one of the others
    have hdisjoint : ∀ s ∈ rest, ∀ entry ∈ r.1.defaults, ∀ entry' ∈ s.1.defaults,
        entry.1 ≠ entry'.1 := by
      intro s hs entry hentry entry' hentry' heq
      obtain ⟨v, hv, hvname, d, hd, -⟩ := PatternTerm.mem_defaults.mp hentry
      obtain ⟨w, hw, hwname, -⟩ := PatternTerm.mem_defaults.mp hentry'
      exact hfirst s hs v hv w hw (.inl (Wildcard.isOptional_of_default hd))
        (by rw [hvname, hwname, heq])
    refine ⟨names ++ others, ?_, List.forall_mem_cons.mpr ⟨?_, fun s hs => ?_⟩⟩
    · rw [List.flatMap_cons]
      exact List.append_subset.mpr ⟨List.subset_append_of_subset_left _ hnames,
        List.subset_append_of_subset_right _ hothers⟩
    · refine hr.congr fun entry hentry => ?_
      rw [List.mem_append, or_iff_left]
      intro hmem
      obtain ⟨s, hs, hmem⟩ := List.mem_flatMap.mp (hothers hmem)
      obtain ⟨entry', hentry', heq⟩ := List.mem_map.mp hmem
      exact hdisjoint s hs entry hentry entry' hentry' heq.symm
    · refine (hall s hs).congr fun entry hentry => ?_
      rw [List.mem_append, or_iff_right]
      intro hmem
      obtain ⟨entry', hentry', heq⟩ := List.mem_map.mp (hnames hmem)
      exact hdisjoint s hs entry' hentry' entry hentry heq

/-! ### Trees and their arguments -/

/-- A wildcard that is left out is bound to its default. -/
theorem omittedBindings_wildcard {entry : String × Binding} :
    entry ∈ (PatternTerm.wildcard w).omittedBindings names ↔
      w.defaultBinding? = some entry ∧ entry.1 ∈ names := by
  obtain ⟨x, b⟩ := entry
  rw [PatternTerm.mem_omittedBindings, PatternTerm.defaults, List.mem_filterMap]
  simp [PatternTerm.wildcards]

/-- **A wildcard that is left out** takes nothing and is bound to its default; any other one is
    required. -/
theorem denotesOmitting_wildcard {x : String} (hx : w.name = some x) :
    (PatternTerm.wildcard w).DenotesOmitting σ names parent ts ↔
      (w.isOmitted names = true ∧ ts = [] ∧
        ∃ d, w.default = some d ∧ σ.find? x = some (.single d)) ∨
      (w.isOmitted names = false ∧ ∃ b, w.required.Takes parent ts b ∧ σ.find? x = some b) := by
  have hname : ∀ y, w.name = some y → y = x := fun y hy => Option.some.inj (hy.symm.trans hx)
  constructor
  · intro h
    cases homitted : w.isOmitted names with
    | true =>
      obtain ⟨⟨y, b⟩, hentry, hmem⟩ := Wildcard.isOmitted_iff.mp homitted
      obtain ⟨hy, d, hd, rfl⟩ := Wildcard.defaultBinding?_eq_some_iff.mp hentry
      obtain rfl := hname y hy
      have hbound := h.bound (y, .single d) (omittedBindings_wildcard.mpr ⟨hentry, hmem⟩)
      exact .inl ⟨rfl, h.omitted homitted, d, hd, hbound⟩
    | false =>
      obtain ⟨b, htakes, hb⟩ := denotes_wildcard.mp (h.denotes homitted)
      exact .inr ⟨rfl, b, htakes, hb x (w.required_name.trans hx)⟩
  · rintro (⟨homitted, rfl, d, hd, hbound⟩ | ⟨hkept, b, htakes, hbound⟩)
    · refine ⟨fun _ => rfl, fun hkept => ?_, fun entry hmem => ?_⟩
      · exact absurd (homitted.symm.trans hkept) (by simp)
      · obtain ⟨hy, d', hd', hb⟩ :=
          Wildcard.defaultBinding?_eq_some_iff.mp (omittedBindings_wildcard.mp hmem).1
        rw [hname _ hy, hb, hbound, Option.some.inj (hd.symm.trans hd')]
    · refine ⟨fun homitted => ?_, fun _ => ?_, fun entry hmem => ?_⟩
      · exact absurd (homitted.symm.trans hkept) (by simp)
      · refine denotes_wildcard.mpr ⟨b, htakes, fun y hy => ?_⟩
        rw [hname y (w.required_name.symm.trans hy), hbound]
      · have homitted : w.isOmitted names = true :=
          Wildcard.isOmitted_iff.mpr ⟨entry, omittedBindings_wildcard.mp hmem⟩
        exact absurd (homitted.symm.trans hkept) (by simp)

/-- **An operation without some optional arguments** denotes one term, whose arguments are those
    of the arguments that are left. -/
theorem denotesOmitting_node : (PatternTerm.node head args).DenotesOmitting σ names parent ts ↔
    ∃ as, ts = [.node head as] ∧ ∃ runs, runs.map Prod.fst = args ∧
      (∀ r ∈ runs, r.1.DenotesOmitting σ names (some head) r.2) ∧
      Together head (keptRuns names runs) ∧ head.Reorders (runs.flatMap Prod.snd) as := by
  have hargs : (PatternTerm.node head args).omitting names =
      .node head (args.flatMap (PatternTerm.kept names)) := by
    rw [PatternTerm.omitting, PatternTerm.omittingAll_eq]
  constructor
  · intro h
    have hdenotes := h.denotes rfl
    rw [hargs] at hdenotes
    obtain ⟨as, rfl, more, hmore⟩ := denotes_node.mp hdenotes
    -- the arguments that are left out stand where they stood, with empty runs
    obtain ⟨runs, rfl, rfl, hnil⟩ := exists_runs_of_kept hmore.args
    refine ⟨as, rfl, runs, rfl, fun r hr => ⟨hnil r hr, fun hkept => ?_, fun entry hentry => ?_⟩,
      hmore.together, ?_⟩
    · exact hmore.denotes (r.1.omitting names, r.2)
        (List.mem_flatMap.mpr ⟨r, hr, mem_keptRun.mpr ⟨hkept, rfl⟩⟩)
    · have hp : r.1 ∈ runs.map Prod.fst := List.mem_map_of_mem hr
      exact h.bound entry (PatternTerm.mem_omittedBindings_node.mpr ⟨r.1, hp, hentry⟩)
    · rw [← flatMap_keptRuns hnil]
      exact hmore.reorders
  · rintro ⟨as, rfl, runs, rfl, hall, htogether, hreorders⟩
    refine ⟨fun hfalse => absurd hfalse Bool.false_ne_true, fun _ => ?_, fun entry hentry => ?_⟩
    · rw [hargs]
      refine denotes_node.mpr ⟨as, rfl, keptRuns names runs, map_keptRuns names runs,
        fun s hs => ?_, htogether, ?_⟩
      · obtain ⟨r, hr, hs⟩ := List.mem_flatMap.mp hs
        obtain ⟨hkept, rfl⟩ := mem_keptRun.mp hs
        exact (hall r hr).denotes hkept
      · rw [flatMap_keptRuns fun r hr => (hall r hr).omitted]
        exact hreorders
    · obtain ⟨p, hp, hentry⟩ := PatternTerm.mem_omittedBindings_node.mp hentry
      obtain ⟨r, hr, rfl⟩ := List.mem_map.mp hp
      exact (hall r hr).bound entry hentry

/-! ### Both directions -/

/-- **A tree with optional wildcards denotes** what it denotes without some of them. -/
theorem PatternTerm.Denotes.exists_omitting (honce : p.OptionalOnce)
    (h : p.Denotes σ parent ts) :
    ∃ names ⊆ p.defaults.map Prod.fst, p.DenotesOmitting σ names parent ts := by
  induction p using PatternTerm.inductionOn generalizing parent ts with
  | atom t =>
    exact ⟨[], List.nil_subset _, fun hfalse => absurd hfalse Bool.false_ne_true, fun _ => h,
      by simp [omittedBindings]⟩
  | wildcard w =>
    obtain ⟨b, htakes, hb⟩ := denotes_wildcard.mp h
    obtain ⟨x, hx⟩ := Option.isSome_iff_exists.mp (honce.named w (List.mem_singleton_self w))
    -- A wildcard that has taken nothing is left out, any other one is kept.
    rcases (Wildcard.takes_iff_required (honce.kinds w (List.mem_singleton_self w))).mp htakes with
      ⟨rfl, d, hd, rfl⟩ | htakes
    · have hentry : w.defaultBinding? = some (x, .single d) :=
        Wildcard.defaultBinding?_eq_some_iff.mpr ⟨hx, d, hd, rfl⟩
      refine ⟨[x], List.cons_subset.mpr ⟨?_, List.nil_subset _⟩,
        (denotesOmitting_wildcard hx).mpr (.inl ⟨?_, rfl, d, hd, hb x hx⟩)⟩
      · exact List.mem_map.mpr ⟨(x, .single d),
          List.mem_filterMap.mpr ⟨w, List.mem_singleton_self w, hentry⟩, rfl⟩
      · exact Wildcard.isOmitted_iff.mpr ⟨_, hentry, List.mem_singleton_self x⟩
    · have hkept : w.isOmitted [] = false := by
        by_contra homitted
        obtain ⟨entry, -, hnone⟩ := Wildcard.isOmitted_iff.mp (Bool.not_eq_false _ ▸ homitted)
        exact List.not_mem_nil hnone
      exact ⟨[], List.nil_subset _,
        (denotesOmitting_wildcard hx).mpr (.inr ⟨hkept, b, htakes, hb x hx⟩)⟩
  | node head args ih =>
    obtain ⟨as, rfl, runs, hruns⟩ := denotes_node.mp h
    have hmem : ∀ r ∈ runs, r.1 ∈ args := fun r hr => hruns.args ▸ List.mem_map_of_mem hr
    have hapart := honce.pairwise
    rw [← hruns.args, List.pairwise_map] at hapart
    obtain ⟨names, hnames, hall⟩ := exists_names_of_runs hapart
      fun r hr => ih r.1 (hmem r hr) (honce.arg (hmem r hr)) (hruns.denotes r hr)
    -- Names of one argument are not those of another, so that they can be put together.
    refine ⟨names, fun x hx => ?_, denotesOmitting_node.mpr ⟨as, rfl, runs, hruns.args, hall,
      (together_keptRuns hapart).mpr hruns.together, hruns.reorders⟩⟩
    obtain ⟨r, hr, hx⟩ := List.mem_flatMap.mp (hnames hx)
    obtain ⟨entry, hentry, rfl⟩ := List.mem_map.mp hx
    exact List.mem_map_of_mem (mem_defaults_node.mpr ⟨r.1, hmem r hr, hentry⟩)

/-- **What is denoted without some optional wildcards** is denoted by the tree. -/
theorem PatternTerm.DenotesOmitting.denotes_all (honce : p.OptionalOnce)
    (h : p.DenotesOmitting σ names parent ts) : p.Denotes σ parent ts := by
  induction p using PatternTerm.inductionOn generalizing parent ts with
  | atom t => exact h.denotes rfl
  | wildcard w =>
    obtain ⟨x, hx⟩ := Option.isSome_iff_exists.mp (honce.named w (List.mem_singleton_self w))
    have hname : ∀ y, w.name = some y → y = x := fun y hy => Option.some.inj (hy.symm.trans hx)
    -- Left out, it takes nothing and its default is what is bound; else it takes what it must.
    have htakes := @Wildcard.takes_iff_required parent w ts
    have hkind := honce.kinds w (List.mem_singleton_self w)
    rcases (denotesOmitting_wildcard hx).mp h with
      ⟨-, rfl, d, hd, hbound⟩ | ⟨-, b, hrequired, hbound⟩
    · exact denotes_wildcard.mpr ⟨.single d, (htakes hkind).mpr (.inl ⟨rfl, d, hd, rfl⟩),
        fun y hy => hname y hy ▸ hbound⟩
    · exact denotes_wildcard.mpr ⟨b, (htakes hkind).mpr (.inr hrequired),
        fun y hy => hname y hy ▸ hbound⟩
  | node head args ih =>
    obtain ⟨as, rfl, runs, rfl, hall, htogether, hreorders⟩ := denotesOmitting_node.mp h
    have hapart := honce.pairwise
    rw [List.pairwise_map] at hapart
    refine denotes_node.mpr ⟨as, rfl, runs, rfl, fun r hr => ?_,
      (together_keptRuns hapart).mp htogether, hreorders⟩
    have hp : r.1 ∈ runs.map Prod.fst := List.mem_map_of_mem hr
    exact ih r.1 hp (honce.arg hp) (hall r hr)

end TermNet
