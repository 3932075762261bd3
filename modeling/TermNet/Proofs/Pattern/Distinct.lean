import TermNet.Proofs.Commutative.Distinct
import TermNet.Proofs.Pattern.Positional
import TermNet.Proofs.Pattern.Rebuilt
import TermNet.Proofs.Pattern.Scope

namespace TermNet

/-!
# No match of a pattern is found twice

Where all wildcards are named and have no defaults, the bindings tell what every part of
a tree has consumed.  So no two ways through a tree end in the same bindings.

* `nodup_growing`, `nodup_wildcard` — runs of different lengths;
* `nodup_placesAll` — ordered arguments, one after the other;
* `nodup_solve_alone` — commutative arguments;
* `PatternTerm.nodup_places` — the bindings behind a tree are different;
* `Pattern.nodup_solutions` — the matches of a pattern are different.
-/

open CommutativePattern (Tells runBinding waysOf)

variable {constraints : List Constraint} {parent : Option Head} {place : Place}

/-! ### Places with different bindings -/

/-- Different bindings at all places of a list. -/
def DifferentBindings (places : List Place) : Prop := (places.map Place.subst).Nodup

/-- Places with different bindings are equal if their bindings are. -/
theorem DifferentBindings.eq {places : List Place} (h : DifferentBindings places)
    {a b : Place} (ha : a ∈ places) (hb : b ∈ places) (hsubst : a.subst = b.subst) : a = b :=
  List.inj_on_of_nodup_map h ha hb hsubst

/-- Places with different bindings are different. -/
theorem DifferentBindings.nodup {places : List Place} (h : DifferentBindings places) :
    places.Nodup := .of_map _ h

/-- Going on from places with different bindings, if the bindings behind tell where they
    come from. -/
theorem DifferentBindings.flatMap {places : List Place} {next : Place → List Place}
    (h : DifferentBindings places) (hnext : ∀ a ∈ places, DifferentBindings (next a))
    (htell : ∀ a ∈ places, ∀ b ∈ places, ∀ c ∈ next a, ∀ d ∈ next b, c.subst = d.subst →
      a.subst = b.subst) : DifferentBindings (places.flatMap next) := by
  unfold DifferentBindings
  rw [List.map_flatMap]
  refine nodup_flatMap_of h.nodup hnext fun a ha b hb σ hσ hσ' => h.eq ha hb ?_
  obtain ⟨c, hc, rfl⟩ := List.mem_map.mp hσ
  obtain ⟨d, hd, heq⟩ := List.mem_map.mp hσ'
  exact htell a ha b hb c hc d hd heq.symm

/-- One place at most has nothing to differ from. -/
theorem DifferentBindings.of_length_le {places : List Place} (h : places.length ≤ 1) :
    DifferentBindings places := by
  match places, h with
  | [], _ => exact List.nodup_nil
  | [place], _ => exact List.nodup_singleton _

/-! ### Wildcards -/

/-- A variable is bound in one way at most. -/
theorem length_binding (place : Place) (name : Option String) (value : Binding) :
    (place.binding name value).length ≤ 1 := by
  cases name with
  | none => exact Nat.le_refl 1
  | some name =>
    show (List.map _ _).length ≤ 1
    rw [List.length_map]
    cases place.subst.extend? name value with
    | none => exact Nat.zero_le 1
    | some extended => exact Nat.le_refl 1

/-- Runs of different lengths are told apart by their bindings. -/
theorem nodup_growing {name : String} {wrap : Option Head} (terms : List Term)
    (htell : ∀ run other : List Term, (∀ t ∈ run, t ∈ terms) → (∀ t ∈ other, t ∈ terms) →
      Binding.ofRun run wrap = Binding.ofRun other wrap → run = other)
    {longer : Nat} {run : List Term} (hrun : ∀ t ∈ run, t ∈ terms)
    (hlevel : ∀ t ∈ place.queue.level, t ∈ terms) :
    DifferentBindings (Place.growing (some name) wrap longer run place) := by
  induction longer generalizing run place with
  | zero => exact .of_length_le (length_binding _ _ _)
  | succ longer ih =>
    rw [Place.growing]
    cases hgrow : place.queue.grow? run with
    | none =>
      dsimp only
      rw [List.append_nil]
      exact .of_length_le (length_binding _ _ _)
    | some grown =>
      obtain ⟨more, queue⟩ := grown
      obtain ⟨t, rest, hqueue, rfl, rfl⟩ := ArgumentQueue.grow?_eq_some hgrow
      have hmore : ∀ s ∈ run ++ [t], s ∈ terms := by
        intro s hs
        rcases List.mem_append.mp hs with hs | hs
        · exact hrun s hs
        · exact hlevel s (by rw [hqueue]; exact List.mem_singleton.mp hs ▸ List.mem_cons_self)
      have hrest : ∀ s ∈ (place.queue.withLevel rest).level, s ∈ terms := by
        intro s hs
        rw [ArgumentQueue.withLevel_level] at hs
        exact hlevel s (by rw [hqueue]; exact List.mem_cons_of_mem _ hs)
      dsimp only
      unfold DifferentBindings
      rw [List.map_append, List.nodup_append']
      refine ⟨DifferentBindings.of_length_le (length_binding _ _ _), ih hmore hrest, ?_⟩
      -- A longer run is bound to something else, or it would be `run` itself.
      rw [List.disjoint_left]
      intro σ hσ hσ'
      obtain ⟨short, hshort, rfl⟩ := List.mem_map.mp hσ
      obtain ⟨long, hlong, heq⟩ := List.mem_map.mp hσ'
      obtain ⟨more, left, hleft, -, hfind⟩ := run_of_mem_growing hlong
      obtain ⟨-, hfind'⟩ := find?_of_mem_binding hshort
      have hlonger := hfind _ rfl
      rw [heq, hfind' _ rfl] at hlonger
      have hsame := htell run (run ++ [t] ++ more) hrun (fun s hs => ?_) (Option.some.inj hlonger)
      · have hlength := congrArg List.length hsame
        simp at hlength
      · rcases List.mem_append.mp hs with hs | hs
        · exact hmore s hs
        · exact hrest s (by rw [hleft]; exact List.mem_append_left _ hs)

/-- The bindings behind a wildcard are different. -/
theorem nodup_wildcard {w : Wildcard} (hdefinite : (PatternTerm.wildcard w).Definite)
    (hfits : place.Fits parent) :
    DifferentBindings ((PatternTerm.wildcard w).places constraints parent place) := by
  obtain ⟨hnamed, hdefault⟩ := hdefinite w (List.mem_singleton_self w)
  obtain ⟨name, hname⟩ := Option.isSome_iff_exists.mp hnamed
  rw [places_wildcard, hname]
  rcases label_wildcardStep_of_definite parent hdefault with
    ⟨kind, hlabel⟩ | ⟨minCount, hlabel⟩
  · rw [hlabel, Label.advance, Place.skipping, List.nil_append]
    split
    · exact .of_length_le (length_binding _ _ _)
    · exact .of_length_le (Nat.zero_le 1)
  · rw [hlabel, Label.advance, Place.skipping, List.nil_append]
    split
    · rename_i taken rest htaken
      obtain ⟨terms, hlevel, -, rfl⟩ := ArgumentQueue.takeRun?_eq_some htaken
      -- Runs of different lengths are bound to different values, wrapped or not.
      refine nodup_growing place.queue.level (fun run other hrun hother heq => ?_)
        (fun t ht => ?_) fun t ht => ?_
      · rw [← contributed_ofRun hfits rfl hrun, ← contributed_ofRun hfits rfl hother, heq]
      · rw [hlevel]
        exact List.mem_append_left _ ht
      · rw [ArgumentQueue.withLevel_level] at ht
        rw [hlevel]
        exact List.mem_append_right _ ht
    · exact .of_length_le (Nat.zero_le 1)

/-! ### Ordered arguments -/

/-- The bindings behind a tree tell from which bindings they come. -/
theorem PatternTerm.subst_eq_of_below (p : PatternTerm) {a b : Place}
    (ha : a ∈ p.places constraints parent place) (hb : b ∈ p.places constraints parent place)
    {ρ : Substitution} (habove : a.subst.Below ρ) (habove' : b.subst.Below ρ) :
    a.subst = b.subst := by
  have hbinds : ∀ {c : Place}, c ∈ p.places constraints parent place → ∀ x,
      c.subst.Binds x ↔ place.subst.Binds x ∨ x ∈ p.variableNames := by
    refine fun {c} hc x => ⟨p.mem_of_binds_places hc, fun h => ?_⟩
    rcases h with h | h
    · exact (p.below_of_mem_places hc).binds h
    · exact p.binds_of_mem_places hc x h
  exact habove.eq_of_binds habove' fun x => (hbinds ha x).trans (hbinds hb x).symm

/-- Places behind ordered arguments have different bindings if those behind each of them have. -/
theorem nodup_placesAll {head : Head} {args : List PatternTerm}
    (hargs : ∀ p ∈ args, ∀ {place : Place}, place.Fits (some head) →
      DifferentBindings (p.places constraints (some head) place))
    (hdefinite : ∀ p ∈ args, p.Definite) (hfits : place.Fits (some head)) :
    DifferentBindings (placesAll constraints head args place) := by
  induction args generalizing place with
  | nil => exact .of_length_le (Nat.le_refl 1)
  | cons p ps ih =>
    rw [placesAll]
    refine (hargs p List.mem_cons_self hfits).flatMap (fun between hbetween => ?_)
      fun a ha b hb c hc d hd heq => ?_
    · obtain ⟨ts, -, hrebuilt⟩ :=
        p.rebuilt_of_mem_places (hdefinite p List.mem_cons_self) hfits hbetween
      exact ih (fun q hq => hargs q (List.mem_cons_of_mem _ hq))
        (fun q hq => hdefinite q (List.mem_cons_of_mem _ hq)) (hfits.rest hrebuilt)
    -- Different places behind the first argument bind one of its variables differently.
    · have habove := below_of_mem_placesAll
        (fun q _ _ _ h => q.below_of_mem_places h) hc
      have habove' := below_of_mem_placesAll
        (fun q _ _ _ h => q.below_of_mem_places h) hd
      exact p.subst_eq_of_below ha hb habove (heq ▸ habove')

/-! ### Commutative arguments -/

variable {head : Head} {args : List PatternTerm}

/-- What is accepted at places with different bindings is different, if renaming keeps it
    apart. -/
theorem nodup_accepted {pairs : List (String × String)} {ends : List Place}
    (h : DifferentBindings ends)
    (htell : ∀ a ∈ ends, ∀ b ∈ ends, a.subst.renamed pairs = b.subst.renamed pairs →
      a.subst = b.subst) : (accepted constraints pairs ends).Nodup := by
  have hrenamed : ∀ (place : Place) (σ : Substitution),
      (if place.queue.isExhausted && constraints.all (·.holds place.subst) then
        some (place.subst.renamed pairs) else none) = some σ → place.subst.renamed pairs = σ := by
    intro place σ hσ
    split at hσ
    · exact Option.some.inj hσ
    · simp at hσ
  refine nodup_filterMap_of h.nodup fun a ha b hb σ hσ hσ' => h.eq ha hb (htell a ha b hb ?_)
  rw [hrenamed a σ hσ, hrenamed b σ hσ']

/-- At the beginning there is one canonical term. -/
theorem Place.fits_ofSubject {t : Term} (ht : t.Canonical) : (Place.ofSubject t).Fits none :=
  ⟨fun s hs => List.mem_singleton.mp hs ▸ ht, by simp, by simp⟩

/-- The matches of an operand are different. -/
theorem OperandPattern.nodup_solutions {operand : OperandPattern} {t : Term}
    (h : DifferentBindings (operand.tree.places operand.constraints none (.ofSubject t))) :
    (operand.solutions t).Nodup := by
  have hkept : ∀ a ∈ operand.tree.places operand.constraints none (.ofSubject t),
      a.subst.renamed (samePairs operand.tree.variableNames) = a.subst := fun a ha =>
    renamed_samePairs_of_binds fun x hx =>
      (operand.tree.mem_of_binds_places ha hx).resolve_left (Substitution.not_binds_empty x)
  refine nodup_accepted h fun a ha b hb heq => ?_
  rwa [hkept a ha, hkept b hb] at heq

/-- The binding of a sequence variable tells which run it has got. -/
theorem tells_sequenceVariables (hdefinite : (PatternTerm.node head args).Definite)
    {ts : List Term} (hflat : Term.Flat head ts) :
    ∀ var ∈ sequenceVariables head args, Tells head ts var := by
  intro var hvar
  have hbase : var.base ∈ occurring head args :=
    ((counted_sequenceVariables (namedAmong_of_definite hdefinite)).2.1 _).mp
      (List.mem_map_of_mem hvar)
  obtain ⟨p, hp, hwild⟩ := List.mem_filterMap.mp hbase
  obtain ⟨w, rfl, hw⟩ := PatternTerm.sequenceVariable?_eq_some hwild
  obtain ⟨hname, hdefault⟩ := hdefinite.arg hp w (List.mem_singleton_self w)
  refine ⟨?_, fun run other hrun hother heq => ?_⟩
  · rw [← sequenceVariable?_name hw] at hname
    exact hname
  · have hspliced := splice_runBinding hw hdefault (hflat.sublist hrun)
    have hspliced' := splice_runBinding hw hdefault (hflat.sublist hother)
    rw [runBinding_base] at hspliced hspliced'
    rw [heq] at hspliced
    exact hspliced.symm.trans hspliced'

/-- **No match of commutative arguments is found twice.** -/
theorem nodup_solve_alone (hdefinite : (PatternTerm.node head args).Definite)
    (hargs : ∀ p ∈ args, ∀ {constraints : List Constraint} {place : Place}, place.Fits none →
      DifferentBindings (p.places constraints none place))
    {ts : List Term} (hcanonical : ∀ t ∈ ts, t.Canonical) (hflat : Term.Flat head ts)
    (σ : Substitution) : ((alone constraints head args).solve ts σ 0).Nodup := by
  have hsorted : ∀ t, t ∈ sortBy Term.le ts ↔ t ∈ ts := fun t => (sortBy_perm _ ts).mem_iff
  have hnumbered : ∀ o ∈ (alonePattern constraints head args).operands,
      ∃ p ∈ args, ∃ operand ∈ operandPatterns constraints head args,
        operand.tree = p ∧ aloneNumber constraints head args operand = o := by
    intro o ho
    obtain ⟨operand, hoperand, rfl⟩ := List.mem_map.mp ((sortBy_perm _ _).mem_iff.mp ho)
    obtain ⟨p, hp, rfl⟩ := List.mem_map.mp hoperand
    exact ⟨p, (List.mem_filter.mp hp).1, _, hoperand, rfl, rfl⟩
  have hways : ∀ operand ∈ operandPatterns constraints head args, ∀ t,
      waysOf (alone constraints head args).matchOperand
        (aloneNumber constraints head args operand) t = operand.solutions t :=
    fun operand hoperand t => fits_alone hoperand t
  rw [solve_alone_eq]
  refine CommutativePattern.nodup_matchSorted
    (fun o => ((operandPatterns constraints head args)[o]?.map
      fun operand => operand.tree.variableNames).getD [])
    (pairwise_sortBy_le _) (sorted_sortBy_le ts) ?_ ?_ ?_ ?_ σ
  · exact tells_sequenceVariables hdefinite (hflat.sublist fun t ht => (hsorted t).mp ht)
  · intro o ho t ht
    obtain ⟨p, hp, operand, hoperand, rfl, rfl⟩ := hnumbered o ho
    rw [hways operand hoperand]
    refine OperandPattern.nodup_solutions (hargs _ hp ?_)
    exact Place.fits_ofSubject (hcanonical t ((hsorted t).mp ht))
  · intro o ho t ht τ hτ x
    obtain ⟨p, hp, operand, hoperand, rfl, rfl⟩ := hnumbered o ho
    rw [hways operand hoperand] at hτ
    rw [getElem?_aloneNumber hoperand]
    refine ⟨OperandPattern.mem_of_binds_solutions hτ, fun hx => ?_⟩
    exact OperandPattern.binds_of_mem_solutions
      (fun _ _ _ _ h => operand.tree.binds_of_mem_places h) hτ x hx
  -- The bindings of an operand rebuild its argument, so that they tell the arguments apart.
  · intro o ho s hs t ht τ hτ hτ'
    obtain ⟨p, hp, operand, hoperand, rfl, rfl⟩ := hnumbered o ho
    rw [hways operand hoperand] at hτ hτ'
    have hrebuilds : operand.tree.RebuildsAlone := fun _ _ _ hfits h =>
      operand.tree.rebuilt_of_mem_places (hdefinite.arg hp) hfits h
    have hrebuilt := OperandPattern.rebuilds hrebuilds
      (hcanonical s ((hsorted s).mp hs)) hτ (.refl τ)
    rw [OperandPattern.rebuilds hrebuilds (hcanonical t ((hsorted t).mp ht)) hτ' (.refl τ)]
      at hrebuilt
    simpa using hrebuilt.symm

/-! ### Trees -/

/-- **The bindings behind a tree are different.** -/
theorem PatternTerm.nodup_places (p : PatternTerm) (hdefinite : p.Definite)
    (hfits : place.Fits parent) : DifferentBindings (p.places constraints parent place) := by
  induction p using PatternTerm.inductionOn generalizing constraints parent place with
  | atom t =>
    rw [places_atom, Label.advance]
    split <;> exact .of_length_le (by simp)
  | wildcard w => exact nodup_wildcard hdefinite hfits
  | node head args ih =>
    cases hcomm : head.isCommutative with
    | false =>
      rw [places_ordered hcomm]
      -- Neither the way into the operation nor the way out of it binds anything.
      refine DifferentBindings.flatMap ?_ (fun inside hinside => ?_) fun a ha b hb _ _ _ _ _ => ?_
      · rw [Label.advance]
        split <;> exact .of_length_le (by simp)
      · obtain ⟨as, rest, hlevel, rfl⟩ := mem_advance_enter hinside
        have hitem : (Term.node head as).Canonical := hfits.canonical _ (by simp [hlevel])
        refine (nodup_placesAll (fun p hp _ hfits => ih p hp (hdefinite.arg hp) hfits)
          (fun p hp => hdefinite.arg hp) ?_).flatMap (fun behind _ => ?_)
            fun a _ b _ c hc d hd heq => ?_
        · exact ⟨hitem.args, fun k hk => Option.some.inj hk ▸ hitem.flat,
            fun k hk => Option.some.inj hk ▸ hcomm⟩
        · rw [Label.advance]
          split <;> exact .of_length_le (by simp)
        · obtain ⟨_, -, rfl⟩ := mem_advance_close hc
          obtain ⟨_, -, rfl⟩ := mem_advance_close hd
          exact heq
      · obtain ⟨_, _, -, rfl⟩ := mem_advance_enter ha
        obtain ⟨_, _, -, rfl⟩ := mem_advance_enter hb
        rfl
    | true =>
      rw [places_commutative hcomm]
      refine DifferentBindings.flatMap ?_ (fun between hbetween => ?_)
        fun a ha b hb _ _ _ _ _ => ?_
      · rw [Label.advance]
        split <;> exact .of_length_le (by simp)
      · obtain ⟨rfl, as, rest, hlevel⟩ := mem_advance_commutative hbetween
        have hitem : (Term.node head as).Canonical := hfits.canonical _ (by simp [hlevel])
        unfold Label.advance
        dsimp only
        cases htake : between.queue.takeIf? fun _ => true with
        | none => exact .of_length_le (Nat.zero_le 1)
        | some taken =>
          obtain ⟨item, queue⟩ := taken
          obtain ⟨rest', hlevel', -, -⟩ := ArgumentQueue.takeIf?_eq_some htake
          obtain ⟨rfl, -⟩ := List.cons.inj (hlevel.symm.trans hlevel')
          unfold DifferentBindings
          rw [List.map_map]
          refine (nodup_solve_alone hdefinite (fun p hp _ _ hfits => ih p hp (hdefinite.arg hp)
            hfits) hitem.args hitem.flat between.subst).map fun σ τ h => h
      · obtain ⟨rfl, -⟩ := mem_advance_commutative ha
        obtain ⟨rfl, -⟩ := mem_advance_commutative hb
        rfl

/-- **The matches of a pattern are different.** -/
theorem Pattern.nodup_solutions (pattern : Pattern) (hdefinite : pattern.tree.Definite)
    {t : Term} (ht : t.Canonical) : (pattern.solutions t).Nodup := by
  refine nodup_accepted (pattern.positionalTree.nodup_places (hdefinite.mapVariables _)
    (Place.fits_ofSubject ht)) fun a ha b hb heq => ?_
  -- all positional variables are bound, each to what its variable is bound to
  have hbinds : ∀ {c : Place},
      c ∈ pattern.positionalTree.places pattern.positionalLocals none (.ofSubject t) →
        ∀ y, c.subst.Binds y ↔ ∃ x ∈ pattern.tree.variableNames, pattern.position x = y := by
    intro c hc y
    rw [← PatternTerm.mem_variableNames_mapVariables]
    exact ⟨fun hy => (pattern.positionalTree.mem_of_binds_places hc hy).resolve_left
      (Substitution.not_binds_empty y), pattern.positionalTree.binds_of_mem_places hc y⟩
  refine NameMap.ext_find? fun y => ?_
  by_cases hy : ∃ x ∈ pattern.tree.variableNames, pattern.position x = y
  · obtain ⟨x, hx, rfl⟩ := hy
    rw [← pattern.find?_renamed_position a.subst hx, ← pattern.find?_renamed_position b.subst hx,
      heq]
  · have hunbound : ∀ {c : Place},
        c ∈ pattern.positionalTree.places pattern.positionalLocals none (.ofSubject t) →
          c.subst.find? y = none := fun {c} hc =>
      Option.eq_none_iff_forall_ne_some.mpr fun b hb => hy ((hbinds hc y).mp ⟨b, hb⟩)
    rw [hunbound ha, hunbound hb]

end TermNet
