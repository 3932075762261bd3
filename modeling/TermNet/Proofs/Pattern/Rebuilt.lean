import TermNet.Proofs.Pattern.Consumed

namespace TermNet

/-!
# Whole trees are rebuilt

* `splice_become_perm` — commutative arguments become what their operands and the occurrences of
  their sequence variables take;
* `splice_runBinding` — the run behind the binding of a sequence variable;
* `IsAloneMatch.rebuilds` — a match of commutative arguments rebuilds them;
* `PatternTerm.rebuilt_of_mem_places` — behind a tree, its bindings rebuild what it has
  consumed.
-/

open CommutativePattern (runBinding runBindings)

variable {constraints : List Constraint} {parent : Option Head} {head : Head}
  {args : List PatternTerm}

/-! ### Commutative arguments -/

/-- What commutative arguments contribute, operands first. -/
theorem flatMap_args_perm {contribution : PatternTerm → List Term}
    {takes : SequenceVariable → List Term} (constraints : List Constraint)
    (h : ∀ p ∈ args, ∀ var, p.sequenceVariable? head = some var →
      (contribution p).Perm (takes var)) :
    (args.flatMap contribution).Perm
      ((operandPatterns constraints head args).flatMap (fun o => contribution o.tree) ++
        (occurring head args).flatMap takes) := by
  induction args with
  | nil => exact .refl _
  | cons p ps ih =>
    have hps := ih fun q hq => h q (List.mem_cons_of_mem p hq)
    rw [List.flatMap_cons]
    cases hvar : p.sequenceVariable? head with
    | none =>
      have hoperands : operandPatterns constraints head (p :: ps) =
          ⟨p, operandConstraints constraints p⟩ :: operandPatterns constraints head ps := by
        simp [operandPatterns, hvar]
      have hoccurring : occurring head (p :: ps) = occurring head ps := by
        simp [occurring, hvar]
      rw [hoperands, hoccurring, List.flatMap_cons, List.append_assoc]
      exact hps.append_left _
    | some var =>
      have hoperands : operandPatterns constraints head (p :: ps) =
          operandPatterns constraints head ps := by
        simp [operandPatterns, hvar]
      have hoccurring : occurring head (p :: ps) = var :: occurring head ps := by
        simp [occurring, hvar]
      rw [hoperands, hoccurring, List.flatMap_cons]
      -- A sequence variable is moved behind the operands.
      have hfirst := (h p List.mem_cons_self var hvar).append hps
      refine hfirst.trans ?_
      rw [← List.append_assoc, ← List.append_assoc]
      exact List.perm_append_comm.append_right _

/-- The binding of a variable does not depend on how often it occurs. -/
theorem runBinding_base (head : Head) (var : SequenceVariable) (run : List Term) :
    runBinding head var.base run = runBinding head var run := rfl

/-- Sequence variables of wildcards without defaults. -/
theorem sequenceVariable?_of_definite {w : Wildcard} {var : SequenceVariable}
    (hvar : sequenceVariable? head w = some var) (hdefault : w.default = none) :
    var.default = none ∧ var.fixed = false ∧ var.wrap = head.isAssociative := by
  unfold sequenceVariable? at hvar
  rw [hdefault] at hvar
  split at hvar
  · rw [← Option.some.inj hvar]
    exact ⟨rfl, rfl, rfl⟩
  · split at hvar
    · rename_i hassoc
      rw [Bool.and_eq_true] at hassoc
      rw [← Option.some.inj hvar]
      exact ⟨rfl, rfl, hassoc.1.symm⟩
    · simp [Wildcard.isOptional, hdefault] at hvar

/-- **The run behind the binding** of a sequence variable without default. -/
theorem splice_runBinding {w : Wildcard} {var : SequenceVariable}
    (hvar : sequenceVariable? head w = some var) (hdefault : w.default = none) {run : List Term}
    (hflat : Term.Flat head run) :
    (Term.splice head (runBinding head var run).elements).Perm run := by
  obtain ⟨hnone, hfixed, hwrap⟩ := sequenceVariable?_of_definite hvar hdefault
  unfold runBinding
  rw [hnone, hfixed, hwrap]
  cases run with
  | nil => exact .refl _
  | cons t ts =>
    dsimp only
    rw [Bool.or_false]
    split
    · rename_i hassoc
      rw [Binding.elements, Term.splice_rewrap hassoc hflat]
      exact Term.arrange_perm head _
    · rw [Binding.elements, Term.splice_of_flat hflat]

/-- A list beside its image. -/
theorem zip_map_self {α β : Type} (f : α → β) (xs : List α) :
    xs.zip (xs.map f) = xs.map fun x => (x, f x) := by
  rw [← List.zip_map', List.map_id']

/-- What a tree has become, nothing if it has not. -/
def PatternTerm.become (σ : Substitution) (p : PatternTerm) : List Term :=
  (p.substituteRun σ).getD []

/-- If all trees become terms, the list becomes these terms. -/
theorem PatternTerm.substituteAll_become {σ : Substitution} {ps : List PatternTerm}
    (h : ∀ p ∈ ps, (p.substituteRun σ).isSome = true) :
    substituteAll σ ps = some (ps.flatMap (become σ)) := by
  induction ps with
  | nil => rfl
  | cons p ps ih =>
    obtain ⟨ts, hts⟩ := Option.isSome_iff_exists.mp (h p List.mem_cons_self)
    rw [substituteAll_cons, ih fun q hq => h q (List.mem_cons_of_mem p hq), hts,
      List.flatMap_cons, become, hts]
    rfl

/-- What commutative arguments contribute: the arguments of the operands, and what the
    occurrences of sequence variables take. -/
theorem splice_become_perm {σ : Substitution} {takes : SequenceVariable → List Term}
    {fitting : List (OperandPattern × Term × Substitution)}
    (hoperands : fitting.map Prod.fst = operandPatterns constraints head args)
    (hbecome : ∀ f ∈ fitting, f.1.tree.become σ = [f.2.1])
    (hself : ∀ f ∈ fitting, Term.spliced head f.2.1 = [f.2.1])
    (htakes : ∀ p ∈ args, ∀ var, p.sequenceVariable? head = some var →
      (Term.splice head (p.become σ)).Perm (takes var)) :
    (Term.splice head (args.flatMap (PatternTerm.become σ))).Perm
      (fitting.map (·.2.1) ++ (occurring head args).flatMap takes) := by
  have hsplice : Term.splice head (args.flatMap (PatternTerm.become σ)) =
      args.flatMap fun p => Term.splice head (p.become σ) := by
    rw [Term.splice, List.flatMap_assoc]
    rfl
  have hterms : (operandPatterns constraints head args).flatMap
      (fun o => Term.splice head (o.tree.become σ)) = fitting.map (·.2.1) := by
    rw [← hoperands, List.flatMap_map, ← List.flatMap_pure_eq_map]
    refine List.flatMap_congr fun f hf => ?_
    rw [hbecome f hf, Term.splice_singleton]
    exact hself f hf
  have hargs := flatMap_args_perm constraints htakes
  rw [hterms] at hargs
  rw [hsplice]
  exact hargs

/-- What a tree that is matched by itself is turned into. -/
def PatternTerm.RebuildsAlone (p : PatternTerm) : Prop :=
  ∀ (constraints : List Constraint) (place after : Place), place.Fits none →
    after ∈ p.places constraints none place →
    ∃ ts, p.substituteRun after.subst = some ts ∧ place.Rebuilt none after ts

/-- A place at which the subject is used up rebuilds the subject. -/
theorem PatternTerm.RebuildsAlone.becomes {p : PatternTerm} (h : p.RebuildsAlone) {t : Term}
    (ht : t.Canonical) {after : Place} (hafter : after ∈ p.places constraints none (.ofSubject t))
    (hexhausted : after.queue.isExhausted = true) : p.substituteRun after.subst = some [t] := by
  have hfits : (Place.ofSubject t).Fits none :=
    ⟨fun s hs => List.mem_singleton.mp hs ▸ ht, by simp, by simp⟩
  obtain ⟨ts, hts, rest, hlevel, hqueue⟩ := h _ _ _ hfits hafter
  have hrest : rest = [] := by
    rw [hqueue] at hexhausted
    have hroot : rest.isEmpty = true := hexhausted
    simpa using hroot
  have hsubject : [t] = ts ++ rest := hlevel
  rw [hts, hsubject, hrest, List.append_nil]

/-- **The match of an operand** rebuilds its argument. -/
theorem OperandPattern.rebuilds {operand : OperandPattern} (h : operand.tree.RebuildsAlone)
    {t : Term} (ht : t.Canonical) {τ ρ : Substitution} (hτ : τ ∈ operand.solutions t)
    (hbelow : τ.Below ρ) : operand.tree.substituteRun ρ = some [t] := by
  obtain ⟨after, hafter, hexhausted, -, rfl⟩ := mem_accepted.mp hτ
  rw [← h.becomes ht hafter hexhausted]
  refine operand.tree.substituteRun_congr fun x hx => ?_
  obtain ⟨b, hb⟩ := operand.tree.binds_of_mem_places hafter x hx
  rw [hb]
  refine hbelow x b ?_
  rw [find?_renamed_samePairs, if_pos hx, hb]

/-- Sequence variables among definite arguments are named. -/
theorem namedAmong_of_definite (h : (PatternTerm.node head args).Definite) :
    NamedAmong head args := by
  intro var hvar
  obtain ⟨p, hp, hp'⟩ := List.mem_filterMap.mp hvar
  obtain ⟨w, rfl, hw⟩ := PatternTerm.sequenceVariable?_eq_some hp'
  rw [sequenceVariable?_name hw]
  exact (h.arg hp w (List.mem_singleton_self w)).1

namespace IsAloneMatch

variable {ts : List Term} {σ ρ : Substitution} {takes : SequenceVariable → List Term}
  {fitting : List (OperandPattern × Term × Substitution)} {parts : List (List Term)}

/-- The arguments are those of the operands and what the occurrences of the variables
    take. -/
theorem perm_takes (hnamed : NamedAmong head args)
    (h : IsAloneMatch constraints head args ts σ ρ fitting
      ((sequenceVariables head args).map fun v => takes v.base)) :
    ts.Perm (fitting.map (·.2.1) ++ (occurring head args).flatMap takes) :=
  h.perm.trans (((counted_sequenceVariables hnamed).2.2 takes).append_left _)

/-- An operand becomes its argument. -/
theorem operand_becomes (h : IsAloneMatch constraints head args ts σ ρ fitting parts)
    (hargs : ∀ p ∈ args, p.RebuildsAlone) (hcanonical : ∀ t ∈ ts, t.Canonical)
    {f : OperandPattern × Term × Substitution} (hf : f ∈ fitting) :
    f.1.tree.substituteRun ρ = some [f.2.1] := by
  have hmem : f.1 ∈ operandPatterns constraints head args := by
    rw [← h.operands]
    exact List.mem_map_of_mem hf
  obtain ⟨p, hp, hfirst⟩ := List.mem_map.mp hmem
  have htree : f.1.tree = p := by rw [← hfirst]
  have hterm : f.2.1 ∈ ts :=
    h.perm.mem_iff.mpr (List.mem_append_left _ (List.mem_map_of_mem (f := (·.2.1)) hf))
  refine OperandPattern.rebuilds ?_ (hcanonical _ hterm) (h.ways f hf) fun x b hb =>
    (h.binds x b).mpr (.inr (.inl ⟨f, hf, hb⟩))
  rw [htree]
  exact hargs p (List.mem_filter.mp hp).1

/-- An occurrence of a sequence variable becomes the part of the variable. -/
theorem occurrence_becomes (hdefinite : (PatternTerm.node head args).Definite)
    (h : IsAloneMatch constraints head args ts σ ρ fitting
      ((sequenceVariables head args).map fun v => takes v.base))
    (hflat : Term.Flat head ts) {p : PatternTerm} (hp : p ∈ args) {var : SequenceVariable}
    (hvar : p.sequenceVariable? head = some var) :
    ∃ ss, p.substituteRun ρ = some ss ∧ (Term.splice head ss).Perm (takes var) := by
  have hnamed := namedAmong_of_definite hdefinite
  have hmem : var ∈ occurring head args := List.mem_filterMap.mpr ⟨p, hp, hvar⟩
  obtain ⟨v, hv, rfl⟩ := List.mem_map.mp
    (((counted_sequenceVariables hnamed).2.1 var).mpr hmem)
  obtain ⟨w, rfl, hw⟩ := PatternTerm.sequenceVariable?_eq_some hvar
  obtain ⟨hname, hdefault⟩ := hdefinite.arg hp w (List.mem_singleton_self w)
  obtain ⟨x, hx⟩ := Option.isSome_iff_exists.mp hname
  have hvname : v.name = some x := (sequenceVariable?_name hw).trans hx
  have hbind : (x, runBinding head v (takes v.base)) ∈ runBindings head
      (sequenceVariables head args) ((sequenceVariables head args).map fun v => takes v.base) := by
    refine List.mem_filterMap.mpr ⟨(v, takes v.base), ?_, by simp only [hvname, Option.map_some]⟩
    rw [zip_map_self]
    exact List.mem_map_of_mem hv
  have hfind := (h.binds x _).mpr (.inr (.inr hbind))
  -- The part is among the arguments, which have no nested operations with this head.
  have hpart : Term.Flat head (takes v.base) := hflat.sublist fun t ht =>
    (h.perm_takes hnamed).mem_iff.mpr
      (List.mem_append_right _ (List.mem_flatMap.mpr ⟨_, hmem, ht⟩))
  refine ⟨_, ?_, splice_runBinding hw hdefault hpart⟩
  rw [PatternTerm.substituteRun, hx, Option.bind_some, hfind, Option.map_some, runBinding_base]

/-- **A match of commutative arguments rebuilds them.** -/
theorem rebuilds (h : IsAloneMatch constraints head args ts σ ρ fitting parts)
    (hdefinite : (PatternTerm.node head args).Definite)
    (hargs : ∀ p ∈ args, p.RebuildsAlone) (hcanonical : ∀ t ∈ ts, t.Canonical)
    (hflat : Term.Flat head ts) :
    ∃ ss, PatternTerm.substituteAll ρ args = some ss ∧ (Term.splice head ss).Perm ts := by
  have hnamed := namedAmong_of_definite hdefinite
  obtain ⟨takes, rfl⟩ := exists_takes hnamed h.admitted.length_eq
  have hoperand : ∀ f ∈ fitting, f.1.tree.substituteRun ρ = some [f.2.1] := fun f hf =>
    h.operand_becomes hargs hcanonical hf
  -- An occurrence of a sequence variable becomes its part, an operand becomes its argument.
  have hsome : ∀ p ∈ args, (p.substituteRun ρ).isSome = true := by
    intro p hp
    cases hvar : p.sequenceVariable? head with
    | some var =>
      obtain ⟨ss, hss, -⟩ := h.occurrence_becomes hdefinite hflat hp hvar
      rw [hss]
      rfl
    | none =>
      have hmem : (⟨p, operandConstraints constraints p⟩ : OperandPattern) ∈
          operandPatterns constraints head args :=
        List.mem_map.mpr ⟨p, List.mem_filter.mpr ⟨hp, by simp [hvar]⟩, rfl⟩
      rw [← h.operands] at hmem
      obtain ⟨f, hf, hfirst⟩ := List.mem_map.mp hmem
      have hbecome := hoperand f hf
      rw [hfirst] at hbecome
      rw [hbecome]
      rfl
  have hoccurrences : ∀ p ∈ args, ∀ var, p.sequenceVariable? head = some var →
      (Term.splice head (p.become ρ)).Perm (takes var) := by
    intro p hp var hvar
    obtain ⟨ss, hss, hshare⟩ := h.occurrence_becomes hdefinite hflat hp hvar
    rw [PatternTerm.become, hss]
    exact hshare
  have hself : ∀ f ∈ fitting, Term.spliced head f.2.1 = [f.2.1] := fun f hf =>
    hflat _ (h.perm.mem_iff.mpr
      (List.mem_append_left _ (List.mem_map_of_mem (f := (·.2.1)) hf)))
  have hbecome : ∀ f ∈ fitting, f.1.tree.become ρ = [f.2.1] := by
    intro f hf
    rw [PatternTerm.become, hoperand f hf]
    rfl
  refine ⟨_, PatternTerm.substituteAll_become hsome, ?_⟩
  exact (splice_become_perm h.operands hbecome hself hoccurrences).trans
    (h.perm_takes hnamed).symm

end IsAloneMatch

/-! ### Trees -/

/-- A term has a head if it is an operation with it. -/
theorem hasHead_iff {t : Term} : t.hasHead head = true ↔ ∃ ts, t = .node head ts := by
  cases t with
  | integer value => simp [Term.hasHead, Term.head?]
  | symbol s => simp [Term.hasHead, Term.head?]
  | node inner ts => simp [Term.hasHead, Term.head?]

/-- Behind the head of an operation its arguments are next, on top of what is left. -/
theorem mem_advance_enter {name : Option String} {matcher : Option OperandMatcher}
    {place inside : Place} (h : inside ∈ (Label.enter head).advance matcher name place) :
    ∃ ts rest, place.queue.level = .node head ts :: rest ∧
      inside = ⟨⟨(place.queue.withLevel rest).root, ts :: (place.queue.withLevel rest).nested⟩,
        place.subst⟩ := by
  unfold Label.advance at h
  dsimp only at h
  split at h
  · rename_i item inner henter
    obtain ⟨rest, hlevel, hhead, rfl⟩ := ArgumentQueue.enter?_eq_some henter
    obtain ⟨ts, rfl⟩ := hasHead_iff.mp hhead
    exact ⟨ts, rest, hlevel, List.mem_singleton.mp h⟩
  · simp at h

/-- Behind the end of an operation what is left outside of it is to be matched. -/
theorem mem_advance_close {name : Option String} {matcher : Option OperandMatcher}
    {place after : Place} (h : after ∈ Label.close.advance matcher name place) :
    ∃ outer, place.queue.nested = [] :: outer ∧
      after = ⟨⟨place.queue.root, outer⟩, place.subst⟩ := by
  unfold Label.advance at h
  dsimp only at h
  split at h
  · rename_i outer hclose
    rw [ArgumentQueue.close?_eq_some hclose]
    exact ⟨outer.nested, rfl, List.mem_singleton.mp h⟩
  · simp at h

/-- A commutative operation is looked at, and stays to be matched by its arguments. -/
theorem mem_advance_commutative {name : Option String} {matcher : Option OperandMatcher}
    {place after : Place} (h : after ∈ (Label.commutative head).advance matcher name place) :
    after = place ∧ ∃ ts rest, place.queue.level = .node head ts :: rest := by
  unfold Label.advance at h
  dsimp only at h
  split at h
  · rename_i taken htake
    obtain ⟨rest, hlevel, -, hhead⟩ := ArgumentQueue.takeIf?_eq_some htake
    obtain ⟨ts, hts⟩ := hasHead_iff.mp hhead
    rw [hts] at hlevel
    exact ⟨List.mem_singleton.mp h, ts, rest, hlevel⟩
  · simp at h

/-- **Behind a tree,** its bindings rebuild what it has consumed. -/
theorem PatternTerm.rebuilt_of_mem_places (p : PatternTerm) (hdefinite : p.Definite)
    {place after : Place} (hfits : place.Fits parent)
    (h : after ∈ p.places constraints parent place) :
    ∃ ts, p.substituteRun after.subst = some ts ∧ place.Rebuilt parent after ts := by
  induction p using PatternTerm.inductionOn generalizing constraints parent place after with
  | atom t =>
    rw [places_atom, Label.advance] at h
    split at h
    · rename_i item queue htake
      obtain ⟨rest, hlevel, rfl, hitem⟩ := ArgumentQueue.takeIf?_eq_some htake
      obtain rfl := of_decide_eq_true hitem
      rw [List.mem_singleton.mp h]
      exact ⟨[item], rfl, hfits.rebuilt_taken hlevel⟩
    · simp at h
  | wildcard w => exact rebuilt_of_mem_wildcard hdefinite hfits h
  | node head args ih =>
    cases hcomm : head.isCommutative with
    | false =>
      rw [places_ordered hcomm] at h
      obtain ⟨inside, hinside, h⟩ := List.mem_flatMap.mp h
      obtain ⟨behind, hbehind, hafter⟩ := List.mem_flatMap.mp h
      obtain ⟨as, rest, hlevel, rfl⟩ := mem_advance_enter hinside
      obtain ⟨outer, hnested, rfl⟩ := mem_advance_close hafter
      have hitem : (Term.node head as).Canonical := hfits.canonical _ (by simp [hlevel])
      have hinner : Place.Fits (some head)
          ⟨⟨(place.queue.withLevel rest).root, as :: (place.queue.withLevel rest).nested⟩,
            place.subst⟩ :=
        ⟨hitem.args, fun k hk => Option.some.inj hk ▸ hitem.flat,
          fun k hk => Option.some.inj hk ▸ hcomm⟩
      -- The operation can be left only if its arguments have consumed everything in it.
      obtain ⟨ts, hts, left, has, hqueue⟩ := rebuilt_of_mem_placesAll
        (fun p hp _ _ hfits h => ih p hp (hdefinite.arg hp) hfits h) hinner hbehind
      rw [hqueue] at hnested ⊢
      obtain ⟨hleft, rfl⟩ := List.cons.inj hnested
      have hall : as = Term.splice head ts := by
        rw [hleft, List.append_nil] at has
        exact has
      refine ⟨[.node head as], ?_, hfits.rebuilt_taken hlevel⟩
      rw [substituteRun, hts, Option.map_some, Term.build, ← hall, hitem.arranged]
    | true =>
      rw [places_commutative hcomm] at h
      obtain ⟨between, hbetween, hafter⟩ := List.mem_flatMap.mp h
      obtain ⟨rfl, as, rest, hlevel⟩ := mem_advance_commutative hbetween
      obtain ⟨item, queue, τ, htake, hτ, rfl⟩ := mem_advance_operands.mp hafter
      obtain ⟨rest', hlevel', rfl, -⟩ := ArgumentQueue.takeIf?_eq_some htake
      obtain ⟨rfl, rfl⟩ := List.cons.inj (hlevel.symm.trans hlevel')
      obtain ⟨fitting, parts, hmatch⟩ := mem_solve_alone_iff.mp hτ
      have hitem : (Term.node head as).Canonical := hfits.canonical _ (by simp [hlevel])
      obtain ⟨ss, hss, hperm⟩ := hmatch.rebuilds hdefinite
        (fun p hp _ _ _ hfits h => ih p hp (hdefinite.arg hp) hfits h) hitem.args hitem.flat
      refine ⟨[.node head as], ?_, hfits.rebuilt_taken hlevel⟩
      -- The arguments are rebuilt in some order; they are sorted in both operations.
      rw [substituteRun, hss, Option.map_some, Term.build,
        Term.arrange_eq_of_perm hcomm hperm]
      exact congrArg (fun ts => some [Term.node head ts]) hitem.arranged

end TermNet
