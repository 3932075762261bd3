import TermNet.Proofs.Denotation.Commutative

namespace TermNet

/-!
# Places behind trees and what trees denote

* `PatternTerm.denotes_of_mem_places` — what a tree has consumed is what it denotes under the
  bindings behind it;
* `PatternTerm.exists_mem_places` — behind everything that a tree denotes there is a place.

Both are by induction on the tree, with one lemma for ordered operations and one for commutative
ones.
-/

variable {constraints : List Constraint} {parent : Option Head} {place after : Place}
  {ts rest : List Term} {σ υ : Substitution}

/-- Among ordered arguments the label of a wildcard is that of its step. -/
theorem labelBelow_of_ordered (hordered : unordered parent = false) (w : Wildcard) :
    w.labelBelow parent = (wildcardStep parent w).label := by
  rw [Wildcard.labelBelow, hordered, if_neg Bool.false_ne_true]

/-- Binding more variables changes nothing about what a tree denotes. -/
theorem PatternTerm.Denotes.below {p : PatternTerm} (h : p.Denotes σ parent ts)
    (hbelow : σ.Below υ) (hbinds : ∀ x ∈ p.variableNames, σ.Binds x) : p.Denotes υ parent ts :=
  h.congr fun x hx => hbelow.find?_eq (hbinds x hx)

/-! ### From places to denotations -/

/-- What holds of trees holds of ordered arguments. -/
theorem denotes_of_mem_placesAll {head : Head} {args : List PatternTerm}
    (hargs : ∀ p ∈ args, ∀ {place after : Place}, after ∈ p.places constraints (some head) place →
      ∃ ts, place.Consumed after ts ∧ p.Denotes after.subst (some head) ts)
    (h : after ∈ placesAll constraints head args place) :
    ∃ runs : List (PatternTerm × List Term), runs.map Prod.fst = args ∧
      (∀ r ∈ runs, r.1.Denotes after.subst (some head) r.2) ∧
      place.Consumed after (runs.flatMap Prod.snd) := by
  induction args generalizing place with
  | nil =>
    rw [List.mem_singleton.mp h]
    exact ⟨[], rfl, by simp, place.queue.level, rfl, (ArgumentQueue.withLevel_eq_self _).symm⟩
  | cons p ps ih =>
    obtain ⟨between, hbetween, hafter⟩ := List.mem_flatMap.mp h
    obtain ⟨ts, ⟨rest, hlevel, hqueue⟩, hp⟩ := hargs p List.mem_cons_self hbetween
    obtain ⟨runs, hmap, hall, rest', hlevel', hqueue'⟩ :=
      ih (fun q hq => hargs q (List.mem_cons_of_mem p hq)) hafter
    -- What the first argument has bound stays bound behind the others.
    have hbelow := below_of_mem_placesAll (fun p _ _ _ h => p.below_of_mem_places h) hafter
    have hfirst := hp.below hbelow (p.binds_of_mem_places hbetween)
    rw [hqueue, ArgumentQueue.withLevel_level] at hlevel'
    rw [hqueue, ArgumentQueue.withLevel_withLevel] at hqueue'
    refine ⟨(p, ts) :: runs, by rw [List.map_cons, hmap], List.forall_mem_cons.mpr ⟨hfirst, hall⟩,
      rest', ?_, hqueue'⟩
    rw [List.flatMap_cons, List.append_assoc, ← hlevel', hlevel]

/-- The matches of an operand are what it denotes. -/
theorem OperandPattern.denotes_of_mem_solutions {operand : OperandPattern}
    (hplaces : ∀ {constraints : List Constraint} {place after : Place},
      after ∈ operand.tree.places constraints none place →
        ∃ ts, place.Consumed after ts ∧ operand.tree.Denotes after.subst none ts)
    {t : Term} {τ : Substitution} (h : τ ∈ operand.solutions t) :
    operand.tree.Denotes τ none [t] := by
  obtain ⟨after, hafter, hexhausted, -, rfl⟩ := mem_accepted.mp h
  obtain ⟨ts, ⟨rest, hlevel, hqueue⟩, hdenotes⟩ := hplaces hafter
  have hrest : rest = [] := by
    rw [hqueue] at hexhausted
    have hroot : rest.isEmpty = true := hexhausted
    simpa using hroot
  have hsubject : [t] = ts ++ rest := hlevel
  rw [hsubject, hrest, List.append_nil]
  refine hdenotes.congr fun x hx => ?_
  rw [find?_renamed_samePairs, if_pos hx]

/-- What an ordered operation has consumed, if its arguments denote what they have consumed. -/
theorem denotes_of_mem_places_ordered {head : Head} {args : List PatternTerm}
    (hordered : head.isCommutative = false)
    (hargs : ∀ p ∈ args, ∀ {place after : Place}, after ∈ p.places constraints (some head) place →
      ∃ ts, place.Consumed after ts ∧ p.Denotes after.subst (some head) ts)
    (h : after ∈ (PatternTerm.node head args).places constraints parent place) :
    ∃ ts, place.Consumed after ts ∧ (PatternTerm.node head args).Denotes after.subst parent ts := by
  rw [places_ordered hordered] at h
  obtain ⟨inside, hinside, h⟩ := List.mem_flatMap.mp h
  obtain ⟨behind, hbehind, hafter⟩ := List.mem_flatMap.mp h
  obtain ⟨as, rest, hlevel, rfl⟩ := mem_advance_enter hinside
  obtain ⟨outer, hnested, rfl⟩ := mem_advance_close hafter
  obtain ⟨runs, hmap, hall, left, has, hqueue⟩ := denotes_of_mem_placesAll hargs hbehind
  -- nothing is left inside the operation when it is closed
  rw [hqueue] at hnested ⊢
  obtain ⟨rfl, rfl⟩ := List.cons.inj hnested
  rw [List.append_nil] at has
  have htogether : Together head runs := by
    refine together_iff.mpr fun r _ r' _ hsame => ?_
    exact absurd (hordered.symm.trans hsame.1) Bool.false_ne_true
  exact ⟨[.node head as], ⟨rest, hlevel, rfl⟩, denotes_node.mpr
    ⟨as, rfl, runs, hmap, hall, htogether, (Head.Reorders.iff_eq hordered).mpr has.symm⟩⟩

/-- What a commutative operation has consumed, if its operands denote what they have consumed. -/
theorem denotes_of_mem_places_commutative {head : Head} {args : List PatternTerm}
    (hcomm : head.isCommutative = true)
    (hargs : ∀ p ∈ args, ∀ {constraints : List Constraint} {place after : Place},
      after ∈ p.places constraints none place →
        ∃ ts, place.Consumed after ts ∧ p.Denotes after.subst none ts)
    (h : after ∈ (PatternTerm.node head args).places constraints parent place) :
    ∃ ts, place.Consumed after ts ∧ (PatternTerm.node head args).Denotes after.subst parent ts := by
  rw [places_commutative hcomm] at h
  obtain ⟨between, hbetween, hafter⟩ := List.mem_flatMap.mp h
  obtain ⟨rfl, as, rest, hlevel⟩ := mem_advance_commutative hbetween
  obtain ⟨item, queue, τ, htake, hτ, rfl⟩ := mem_advance_operands.mp hafter
  obtain ⟨rest', hlevel', rfl, -⟩ := ArgumentQueue.takeIf?_eq_some htake
  obtain ⟨rfl, rfl⟩ := List.cons.inj (hlevel.symm.trans hlevel')
  obtain ⟨fitting, parts, hmatch⟩ := mem_solve_alone_iff.mp hτ
  -- What an operand denotes under its own solution it denotes under the whole one.
  have hoperands : ∀ f ∈ fitting, f.1.tree.Denotes τ none [f.2.1] := by
    intro f hf
    have hmem : f.1 ∈ operandPatterns constraints head args :=
      hmatch.operands ▸ List.mem_map_of_mem hf
    obtain ⟨p, hp, hfirst⟩ := List.mem_map.mp hmem
    have htree : f.1.tree ∈ args := by
      rw [← hfirst]
      exact (List.mem_filter.mp hp).1
    have hdenotes :=
      OperandPattern.denotes_of_mem_solutions (hargs f.1.tree htree) (hmatch.ways f hf)
    have hbinds := OperandPattern.binds_of_mem_solutions
      (fun _ _ _ _ h => f.1.tree.binds_of_mem_places h) (hmatch.ways f hf)
    exact hdenotes.below (fun x b hx => (hmatch.binds x b).mpr (.inr (.inl ⟨f, hf, hx⟩))) hbinds
  obtain ⟨runs, hruns⟩ := hmatch.argsDenote hcomm hoperands
  exact ⟨[.node head as], ⟨rest, hlevel, rfl⟩, denotes_node.mpr ⟨as, rfl, runs, hruns⟩⟩

/-- **What a tree has consumed** is what it denotes. -/
theorem PatternTerm.denotes_of_mem_places (p : PatternTerm) (hordered : unordered parent = false)
    (h : after ∈ p.places constraints parent place) :
    ∃ ts, place.Consumed after ts ∧ p.Denotes after.subst parent ts := by
  induction p using PatternTerm.inductionOn generalizing constraints parent place after with
  | atom t =>
    rw [places_atom, Label.advance] at h
    split at h
    · rename_i item queue htake
      obtain ⟨rest, hlevel, rfl, hitem⟩ := ArgumentQueue.takeIf?_eq_some htake
      obtain rfl := of_decide_eq_true hitem
      rw [List.mem_singleton.mp h]
      exact ⟨[item], ⟨rest, hlevel, rfl⟩, rfl⟩
    · simp at h
  | wildcard w =>
    rw [places_wildcard] at h
    have hlabel : (∃ kind d, (wildcardStep parent w).label = .one kind d) ∨
        ∃ minCount wrap d, (wildcardStep parent w).label = .run minCount wrap d := by
      rcases label_wildcardStep parent w with ⟨kind, hone⟩ | ⟨minCount, wrap, hrun⟩
      · exact .inl ⟨kind, _, hone⟩
      · exact .inr ⟨minCount, wrap, _, hrun⟩
    obtain ⟨ts, b, htakes, hconsumed, hname⟩ := takes_of_mem_advance hlabel h
    refine ⟨ts, hconsumed, b, ⟨?_, by simp [hordered]⟩, hname⟩
    rw [labelBelow_of_ordered hordered]
    exact htakes
  | node head args ih =>
    cases hcomm : head.isCommutative with
    | false => exact denotes_of_mem_places_ordered hcomm (fun p hp _ _ h => ih p hp hcomm h) h
    | true => exact denotes_of_mem_places_commutative hcomm (fun p hp _ _ _ h => ih p hp rfl h) h

/-! ### From denotations to places -/

/-- **Ordered arguments** are found one after the other. -/
theorem exists_mem_placesAll {head : Head} {runs : List (PatternTerm × List Term)}
    (hargs : ∀ r ∈ runs, ∀ (place : Place) (rest : List Term),
      place.queue.level = r.2 ++ rest → place.subst.Below υ →
      ∃ after ∈ r.1.places constraints (some head) place,
        after.queue = place.queue.withLevel rest ∧ after.subst.Below υ)
    (hlevel : place.queue.level = runs.flatMap Prod.snd ++ rest) (hbelow : place.subst.Below υ) :
    ∃ after ∈ placesAll constraints head (runs.map Prod.fst) place,
      after.queue = place.queue.withLevel rest ∧ after.subst.Below υ := by
  induction runs generalizing place with
  | nil =>
    refine ⟨place, List.mem_singleton_self _, ?_, hbelow⟩
    rw [← show place.queue.level = rest from hlevel, ArgumentQueue.withLevel_eq_self]
  | cons r others ih =>
    rw [List.flatMap_cons, List.append_assoc] at hlevel
    obtain ⟨between, hbetween, hqueue, hbelow⟩ :=
      hargs r List.mem_cons_self place _ hlevel hbelow
    have hlevel' : between.queue.level = others.flatMap Prod.snd ++ rest := by
      rw [hqueue, ArgumentQueue.withLevel_level]
    obtain ⟨after, hafter, hqueue', hbelow⟩ :=
      ih (fun r hr => hargs r (List.mem_cons_of_mem _ hr)) hlevel' hbelow
    refine ⟨after, List.mem_flatMap.mpr ⟨between, hbetween, hafter⟩, ?_, hbelow⟩
    rw [hqueue', hqueue, ArgumentQueue.withLevel_withLevel]

/-- Behind the arguments of an ordered operation there is a place if there is one behind each of
    them. -/
theorem exists_mem_places_ordered {head : Head} {args : List PatternTerm} {as : List Term}
    {runs : List (PatternTerm × List Term)} (hordered : head.isCommutative = false)
    (hruns : ArgsDenote υ head args as runs)
    (hargs : ∀ r ∈ runs, ∀ (place : Place) (rest : List Term),
      place.queue.level = r.2 ++ rest → place.subst.Below υ →
      ∃ after ∈ r.1.places constraints (some head) place,
        after.queue = place.queue.withLevel rest ∧ after.subst.Below υ)
    (hlevel : place.queue.level = .node head as :: rest) (hbelow : place.subst.Below υ) :
    ∃ after ∈ (PatternTerm.node head args).places constraints parent place,
      after.queue = place.queue.withLevel rest ∧ after.subst.Below υ := by
  let inside : Place := ⟨⟨(place.queue.withLevel rest).root,
    as :: (place.queue.withLevel rest).nested⟩, place.subst⟩
  have hinside : (Label.enter head).advance none none place = [inside] := by
    rw [Label.advance, ArgumentQueue.enter?, hlevel]
    simp [Term.hasHead, Term.head?, Term.args, inside]
  -- Nothing may be left of the arguments when the operation is closed.
  have has : inside.queue.level = runs.flatMap Prod.snd ++ [] := by
    rw [List.append_nil, (Head.Reorders.iff_eq hordered).mp hruns.reorders]
    rfl
  obtain ⟨behind, hbehind, hqueue, hbelow⟩ := exists_mem_placesAll hargs has hbelow
  rw [hruns.args] at hbehind
  refine ⟨⟨place.queue.withLevel rest, behind.subst⟩, ?_, rfl, hbelow⟩
  rw [places_ordered hordered, hinside, List.flatMap_singleton]
  refine List.mem_flatMap.mpr ⟨behind, hbehind, ?_⟩
  rw [Label.advance, hqueue]
  exact List.mem_singleton_self _

/-- Behind a commutative operation there is a place if its operands have solutions. -/
theorem exists_mem_places_commutative {head : Head} {args : List PatternTerm} {as : List Term}
    {runs : List (PatternTerm × List Term)} (hcomm : head.isCommutative = true)
    (hruns : ArgsDenote υ head args as runs)
    (hoperands : ∀ r ∈ runs, r.1.sequenceVariable? head = none → ∃ t τ, r.2 = [t] ∧
      τ ∈ OperandPattern.solutions ⟨r.1, operandConstraints constraints r.1⟩ t ∧ τ.Below υ)
    (hlevel : place.queue.level = .node head as :: rest) (hbelow : place.subst.Below υ) :
    ∃ after ∈ (PatternTerm.node head args).places constraints parent place,
      after.queue = place.queue.withLevel rest ∧ after.subst.Below υ := by
  obtain ⟨ρ, fitting, parts, hmatch, hρ⟩ :=
    exists_isAloneMatch_of_denotes hcomm hruns hoperands hbelow
  refine ⟨⟨place.queue.withLevel rest, ρ⟩, ?_, rfl, hρ⟩
  have hhead : (Term.node head as).hasHead head = true := hasHead_iff.mpr ⟨_, rfl⟩
  have hoperation : (Label.commutative head).advance none none place = [place] := by
    rw [Label.advance, takeIf?_of_level hlevel hhead]
  rw [places_commutative hcomm, hoperation, List.flatMap_singleton]
  exact mem_advance_operands.mpr ⟨_, _, ρ, takeIf?_of_level hlevel rfl,
    mem_solve_alone_iff.mpr ⟨fitting, parts, hmatch⟩, rfl⟩

/-- **Everything that a tree denotes is found:** behind it there is a place, whose bindings are
    still below the target. -/
theorem PatternTerm.exists_mem_places (p : PatternTerm) (hordered : unordered parent = false)
    (hholds : ∀ c ∈ constraints, c.holds υ = true) (h : p.Denotes υ parent ts)
    (hlevel : place.queue.level = ts ++ rest) (hbelow : place.subst.Below υ) :
    ∃ after ∈ p.places constraints parent place,
      after.queue = place.queue.withLevel rest ∧ after.subst.Below υ := by
  induction p using PatternTerm.inductionOn generalizing constraints parent place ts rest with
  | atom t =>
    obtain rfl := denotes_atom.mp h
    refine ⟨⟨place.queue.withLevel rest, place.subst⟩, ?_, rfl, hbelow⟩
    rw [places_atom, Label.advance, takeIf?_of_level hlevel (decide_eq_true rfl)]
    exact List.mem_singleton_self _
  | wildcard w =>
    obtain ⟨b, htakes, hname⟩ := denotes_wildcard.mp h
    rw [places_wildcard]
    have hlabel := htakes.label
    rw [labelBelow_of_ordered hordered] at hlabel
    exact hlabel.exists_mem_advance hlevel hbelow hname
  | node head args ih =>
    obtain ⟨as, rfl, runs, hruns⟩ := denotes_node.mp h
    have hmem : ∀ r ∈ runs, r.1 ∈ args := fun r hr => hruns.args ▸ List.mem_map_of_mem hr
    cases hcomm : head.isCommutative with
    | false =>
      refine exists_mem_places_ordered hcomm hruns (fun r hr place rest hlevel hbelow => ?_) hlevel
        hbelow
      exact ih r.1 (hmem r hr) hcomm hholds (hruns.denotes r hr) hlevel hbelow
    | true =>
      refine exists_mem_places_commutative hcomm hruns (fun r hr hvar => ?_) hlevel hbelow
      have hdenotes := hruns.denotes r hr
      obtain ⟨t, ht⟩ := exists_term_of_operand hvar hdenotes
      rw [denotes_operand_iff hvar, ht] at hdenotes
      -- an operand is matched by itself, with the constraints on its own variables
      let operand : OperandPattern := ⟨r.1, operandConstraints constraints r.1⟩
      have hlocals : ∀ c ∈ operand.constraints, c.holds υ = true := fun c hc =>
        hholds c (operandConstraints_spec hc).1
      have hsubject : (Place.ofSubject t).queue.level = [t] ++ [] := rfl
      have hplace := ih r.1 (hmem r hr) rfl hlocals hdenotes hsubject
        (Substitution.empty_below υ)
      obtain ⟨τ, hτ, hbelow⟩ := operand.exists_solution_of_place hplace hlocals
        fun c hc => (operandConstraints_spec hc).2
      exact ⟨t, τ, ht, hτ, hbelow⟩

end TermNet
