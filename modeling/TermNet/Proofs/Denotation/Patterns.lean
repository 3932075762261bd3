import TermNet.Proofs.Completeness
import TermNet.Proofs.Denotation.Basic
import TermNet.Proofs.Denotation.Places
import TermNet.Proofs.Pattern.Over
import TermNet.Proofs.Soundness

namespace TermNet

/-!
# The matches of a pattern are what it denotes

What a tree denotes depends neither on how its variables are called nor on the order in which
the arguments of commutative operations are written.

* `Alike.denotes` — alike trees denote the same;
* `Pattern.mem_solutions_iff` — the matches of a pattern are the substitutions under which its
  canonical tree denotes the subject;
* `mem_matches_ofTree_iff`, `exists_match_ofTree_iff` — the matches of the net of one tree
  without constraints.

A variable is bound to terms of the subject, to an operation on them with a head of the subject, or
to the default of a wildcard.  So whatever holds of all leaves and heads of the subject and of the
defaults holds of all bindings as well.

* `Wildcard.Takes.over` — the binding of one wildcard;
* `PatternTerm.Denotes.over` — the bindings under which a tree denotes something.
-/

section Bindings

variable {I : Int64 → Prop} {S : Symbol → Prop} {H : Head → Prop}

/-- Wrapping terms keeps what holds of their leaves. -/
theorem Term.Over.rewrap {head : Head} (h : H head) {ts : List Term}
    (hts : ∀ t ∈ ts, t.Over I S H) : (rewrap head ts).Over I S H := by
  unfold Term.rewrap
  split
  · exact hts _ List.mem_cons_self
  · exact .build h hts

variable {σ : Substitution} {parent : Option Head} {ts : List Term}

/-- What a run is bound to. -/
theorem Binding.over_ofRun {wrap : Option Head} (hwrap : ∀ head ∈ wrap, H head)
    (hts : ∀ t ∈ ts, t.Over I S H) : ∀ t ∈ (Binding.ofRun ts wrap).elements, t.Over I S H := by
  unfold ofRun
  split
  · rename_i head
    split
    · exact hts
    · exact List.forall_mem_singleton.mpr (.rewrap (hwrap head rfl) hts)
  · exact hts

/-- **The binding of a wildcard** consists of what it takes, or is the default. -/
theorem Wildcard.Takes.over {w : Wildcard} {b : Binding} (h : w.Takes parent ts b)
    (hparent : ∀ head ∈ parent, H head) (hts : ∀ t ∈ ts, t.Over I S H)
    (hdefault : ∀ d, w.default = some d → d.Over I S H) : ∀ t ∈ b.elements, t.Over I S H := by
  have hsingle {d : Term} (hd : d.Over I S H) : ∀ t ∈ (Binding.single d).elements, t.Over I S H :=
    List.forall_mem_singleton.mpr hd
  have hfilter : ∀ head ∈ parent.filter Head.isAssociative, H head := fun head hhead =>
    hparent head (Option.mem_filter_iff.mp hhead).1
  have hlabel := h.label
  rcases w.labelBelow_cases parent with
    ⟨n, -, hrun⟩ | ⟨head, -, hassoc, hrun⟩ | ⟨kind, -, -, hone⟩
  · rw [hrun, Label.takes_run_iff] at hlabel
    rcases hlabel with ⟨-, d, hd, rfl⟩ | ⟨-, rfl⟩
    · exact hsingle (hdefault d hd)
    · exact Binding.over_ofRun hfilter hts
  · rw [hrun, Label.takes_run_iff] at hlabel
    rcases hlabel with ⟨-, d, hd, rfl⟩ | ⟨-, rfl⟩
    · exact hsingle (hdefault d hd)
    · exact Binding.over_ofRun (hassoc ▸ hfilter) hts
  · rw [hone, Label.takes_one_iff] at hlabel
    rcases hlabel with ⟨-, d, hd, rfl⟩ | ⟨t, rfl, -, rfl⟩
    · exact hsingle (hdefault d hd)
    · exact hsingle (hts t List.mem_cons_self)

/-- **The bindings under which a tree denotes something.** -/
theorem PatternTerm.Denotes.over {p : PatternTerm} (h : p.Denotes σ parent ts)
    (hparent : ∀ head ∈ parent, H head) (hts : ∀ t ∈ ts, t.Over I S H)
    (hdefaults : ∀ w ∈ p.wildcards, ∀ d, w.default = some d → d.Over I S H) {x : String}
    {b : Binding} (hx : x ∈ p.variableNames) (hb : σ.find? x = some b) :
    ∀ t ∈ b.elements, t.Over I S H := by
  induction p using PatternTerm.inductionOn generalizing parent ts with
  | atom t => simp [mem_variableNames, wildcards] at hx
  | wildcard w =>
    obtain ⟨bound, htakes, hname⟩ := h
    have hbound := hname x (mem_variableNames_wildcard.mp hx)
    obtain rfl := Option.some.inj (hb.symm.trans hbound)
    exact htakes.over hparent hts (hdefaults w (by simp [wildcards]))
  | node head args ih =>
    obtain ⟨as, rfl, runs, hruns⟩ := denotes_node.mp h
    cases List.forall_mem_singleton.mp hts with
    | node hhead has =>
      obtain ⟨p, hp, hx⟩ := mem_variableNames_node.mp hx
      have hrun := hruns.args ▸ hp
      obtain ⟨r, hr, rfl⟩ := List.mem_map.mp hrun
      -- What one argument pattern takes is among the arguments, in whatever order.
      refine ih r.1 hp (hruns.denotes r hr) (by simpa using hhead) (fun t ht => has t ?_)
        (fun w hw => hdefaults w ?_) hx
      · exact hruns.reorders.perm.subset (List.mem_flatMap.mpr ⟨r, hr, ht⟩)
      · rw [wildcards, mem_wildcardsAll]
        exact ⟨r.1, hp, hw⟩

end Bindings

/-! ### Alike trees -/

/-! ### Alike trees -/

section Alike

variable {R : String → String → Prop} {p q : PatternTerm} {head : Head} {parent : Option Head}
  {args others : List PatternTerm} {ts as : List Term} {σ τ : Substitution}
  {runs : List (PatternTerm × List Term)}

/-- What becomes of a wildcard does not depend on its name. -/
theorem sequenceVariable?_withName (head : Head) (w : Wildcard) (name : Option String) :
    sequenceVariable? head (w.renamed name) =
      (sequenceVariable? head w).map fun var => { var with name } := by
  obtain ⟨old, extent, default⟩ := w
  cases extent with
  | run minCount => rfl
  | one kind =>
    unfold sequenceVariable?
    dsimp only [Wildcard.renamed, Wildcard.isOptional]
    split
    · rfl
    · cases default <;> rfl

/-- A renamed wildcard takes the same. -/
theorem takes_renamed {w : Wildcard} {name : Option String} {b : Binding}
    (h : w.Takes parent ts b) : (w.renamed name).Takes parent ts b :=
  ⟨h.label, h.sorted⟩

/-- The sequence variable of an alike argument differs in its name only. -/
theorem exists_sequenceVariable_of_alike (h : Alike R p q) {var : SequenceVariable}
    (hvar : q.sequenceVariable? head = some var) :
    ∃ name, Option.Rel R name var.name ∧ p.sequenceVariable? head = some { var with name } := by
  cases h with
  | atom t => simp [PatternTerm.sequenceVariable?] at hvar
  | node _ _ => simp [PatternTerm.sequenceVariable?] at hvar
  | @wildcard w name hname =>
    rw [PatternTerm.sequenceVariable?, sequenceVariable?_withName] at hvar
    obtain ⟨known, hknown, rfl⟩ := Option.map_eq_some_iff.mp hvar
    refine ⟨w.name, hname, hknown.trans ?_⟩
    rw [← sequenceVariable?_name hknown]

/-- Names tell variables apart, so that trees are counted together if alike ones are. -/
theorem CountedTogether.of_alike {p' q' : PatternTerm}
    (hinj : ∀ x x' y, R x y → R x' y → x = x') (h : Alike R p p') (h' : Alike R q q')
    (hsame : CountedTogether head p' q') : CountedTogether head p q := by
  obtain ⟨hcomm, var, hname, hp', hq'⟩ := hsame
  obtain ⟨y, hy⟩ := Option.isSome_iff_exists.mp hname
  obtain ⟨name, hrel, hp⟩ := exists_sequenceVariable_of_alike h hp'
  obtain ⟨name', hrel', hq⟩ := exists_sequenceVariable_of_alike h' hq'
  rw [hy] at hrel hrel'
  cases hrel with
  | some hx =>
    cases hrel' with
    | some hx' =>
      obtain rfl := hinj _ _ y hx hx'
      exact ⟨hcomm, _, rfl, hp, hq⟩

/-- Runs are passed on to related trees. -/
theorem exists_runs_of_forall₂ {S : PatternTerm → PatternTerm → Prop}
    (h : List.Forall₂ (fun r q => S r.1 q) runs others) :
    ∃ more : List (PatternTerm × List Term), more.map Prod.fst = others ∧
      List.Forall₂ (fun r s => S r.1 s.1 ∧ s.2 = r.2) runs more := by
  induction h with
  | nil => exact ⟨[], rfl, .nil⟩
  | @cons r q _ _ hrq _ ih =>
    obtain ⟨more, hmap, hmore⟩ := ih
    exact ⟨(q, r.2) :: more, by rw [List.map_cons, hmap], .cons ⟨hrq, rfl⟩ hmore⟩

/-- Runs of other trees that are equal one by one are equal together. -/
theorem flatMap_snd_of_forall₂ {S : PatternTerm → PatternTerm → Prop}
    {more : List (PatternTerm × List Term)}
    (h : List.Forall₂ (fun r s => S r.1 s.1 ∧ s.2 = r.2) runs more) :
    more.flatMap Prod.snd = runs.flatMap Prod.snd := by
  induction h with
  | nil => rfl
  | cons hfirst _ ih => rw [List.flatMap_cons, List.flatMap_cons, hfirst.2, ih]

/-- **Alike arguments denote the same arguments.** -/
theorem ArgsDenote.alike (h : ArgsDenote σ head args as runs)
    (halike : ArgsAlike R head args others) (hinj : ∀ x x' y, R x y → R x' y → x = x')
    (hargs : ∀ p ∈ args, ∀ q ts, Alike R p q → p.Denotes σ (some head) ts →
      q.Denotes τ (some head) ts) : ∃ more, ArgsDenote τ head others as more := by
  obtain ⟨middle, hreorder, hmiddle⟩ := halike
  have hruns : List.Forall₂ (fun (r : PatternTerm × List Term) p => r.1 = p) runs args := by
    rw [← h.args, List.forall₂_map_right_iff, List.forall₂_same]
    exact fun _ _ => rfl
  -- The runs follow their trees into the other order.
  obtain ⟨ordered, hordered, hfst⟩ := Head.Reorders.exists_forall₂ hruns hreorder
  have hordered' : ordered.map Prod.fst = middle := by
    rw [← List.forall₂_eq_eq_eq, List.forall₂_map_left_iff]
    exact hfst
  rw [← hordered', List.forall₂_map_left_iff] at hmiddle
  obtain ⟨more, hmap, hmore⟩ := exists_runs_of_forall₂ hmiddle
  have hmem : ∀ s ∈ more, ∃ r ∈ runs, Alike R r.1 s.1 ∧ s.2 = r.2 := fun s hs => by
    obtain ⟨r, hr, hrs⟩ := Bipartite.exists_row_of_mem hmore hs
    exact ⟨r, hordered.perm.mem_iff.mpr hr, hrs⟩
  refine ⟨more, hmap, fun s hs => ?_, together_iff.mpr fun s hs s' hs' hsame => ?_, ?_⟩
  · obtain ⟨r, hr, halike, hrun⟩ := hmem s hs
    rw [hrun]
    exact hargs r.1 (h.args ▸ List.mem_map_of_mem hr) s.1 r.2 halike (h.denotes r hr)
  · obtain ⟨r, hr, halike, hrun⟩ := hmem s hs
    obtain ⟨r', hr', halike', hrun'⟩ := hmem s' hs'
    rw [hrun, hrun']
    exact together_iff.mp h.together r hr r' hr' (hsame.of_alike hinj halike halike')
  · rw [flatMap_snd_of_forall₂ hmore]
    exact (hordered.flatMap Prod.snd).symm.trans h.reorders

/-- **Alike trees denote the same** under bindings of related names. -/
theorem Alike.denotes (h : Alike R p q) (hfind : ∀ x y, R x y → τ.find? y = σ.find? x)
    (hinj : ∀ x x' y, R x y → R x' y → x = x') (hdenotes : p.Denotes σ parent ts) :
    q.Denotes τ parent ts := by
  induction p using PatternTerm.inductionOn generalizing q parent ts with
  | atom t =>
    obtain rfl := alike_atom.mp h
    exact hdenotes
  | wildcard w =>
    obtain ⟨name, hname, rfl⟩ := alike_wildcard.mp h
    obtain ⟨b, htakes, hb⟩ := denotes_wildcard.mp hdenotes
    refine denotes_wildcard.mpr ⟨b, takes_renamed htakes, fun y hy => ?_⟩
    obtain rfl : name = some y := hy
    generalize hx : w.name = old at hname hb
    cases hname with
    | some hxy => rw [hfind _ _ hxy, hb _ rfl]
  | node head args ih =>
    obtain ⟨others, rfl, hargs⟩ := alike_node.mp h
    obtain ⟨as, rfl, runs, hruns⟩ := denotes_node.mp hdenotes
    exact denotes_node.mpr ⟨as, rfl, hruns.alike hargs hinj fun p hp _ _ hpq hd => ih p hp hpq hd⟩

end Alike

/-! ### Canonical trees -/

/-- The canonical form of a tree has the same variables. -/
theorem PatternTerm.mem_variableNames_canonical {p : PatternTerm} {x : String} :
    x ∈ p.canonical.variableNames ↔ x ∈ p.variableNames := by
  rw [canonical, mem_variableNames_mapVariables]
  constructor
  · rintro ⟨y, hy, hxy⟩
    exact hxy ▸ hy
  · exact fun hx => ⟨x, hx, rfl⟩

/-- **Making operations canonical** keeps the leaves with the heads above them. -/
theorem PatternTerm.leaves_canonical (p : PatternTerm) (parent : Option Head) :
    (p.canonical.leaves parent).Perm (p.leaves parent) := by
  have hleaf : ∀ leaf ∈ p.leaves parent, Prod.map id (mapVariables id) leaf = leaf := by
    induction p using inductionOn generalizing parent with
    | atom t =>
      intro leaf hleaf
      rw [List.mem_singleton.mp hleaf]
      rfl
    | wildcard w =>
      intro leaf hleaf
      rw [List.mem_singleton.mp hleaf, Prod.map_apply, mapVariables, Option.map_id]
      rfl
    | node head args ih =>
      intro leaf hleaf
      obtain ⟨q, hq, hleaf⟩ := mem_leaves_node.mp hleaf
      exact ih q hq _ leaf hleaf
  have hperm := leaves_mapVariables id p parent
  rwa [List.map_congr_left hleaf, List.map_id'] at hperm

/-- **Making operations canonical** keeps the wildcards. -/
theorem PatternTerm.wildcards_canonical (p : PatternTerm) :
    p.canonical.wildcards.Perm p.wildcards := by
  have hperm := wildcards_mapVariables id p
  have hself : ∀ w ∈ p.wildcards, w.renamed (w.name.map id) = w := fun w _ => by
    rw [Option.map_id]
    rfl
  rwa [List.map_congr_left hself, List.map_id'] at hperm

/-- Where the subject is used up, all of it has been consumed. -/
theorem Place.Consumed.eq_subject {t : Term} {after : Place} {ts : List Term}
    (h : (Place.ofSubject t).Consumed after ts) (hexhausted : after.queue.isExhausted = true) :
    ts = [t] := by
  obtain ⟨rest, hlevel, hqueue⟩ := h
  have hrest : rest = [] := by
    rw [hqueue] at hexhausted
    have hroot : rest.isEmpty = true := hexhausted
    simpa using hroot
  rw [hrest, List.append_nil] at hlevel
  exact hlevel.symm

namespace Pattern

variable {pattern : Pattern} {σ τ : Substitution} {parent : Option Head} {ts : List Term} {t : Term}

/-! ### Positions -/

/-- **The positional tree** denotes what the tree denotes. -/
theorem denotes_positionalTree
    (h : ∀ x ∈ pattern.tree.variableNames, τ.find? (pattern.position x) = σ.find? x) :
    pattern.positionalTree.Denotes τ parent ts ↔ pattern.tree.canonical.Denotes σ parent ts := by
  let R := fun x y => x ∈ pattern.tree.variableNames ∧ pattern.position x = y
  have halike : Alike R pattern.tree.canonical pattern.positionalTree :=
    (Alike.refl pattern.tree).mapVariables fun x hx y hxy => ⟨hx, hxy ▸ rfl⟩
  constructor
  · refine halike.flip.denotes (fun y x hxy => ?_) fun y y' x hxy hxy' => hxy.2.symm.trans hxy'.2
    rw [← hxy.2, h x hxy.1]
  · refine halike.denotes (fun x y hxy => ?_) fun x x' y hxy hxy' => ?_
    · rw [← hxy.2, h x hxy.1]
    · exact position_injective hxy.1 hxy'.1 (hxy.2.trans hxy'.2.symm)

/-- A match binds the variables of its pattern, so that the tree denotes the subject. -/
theorem denotes_of_mem_solutions (hpattern : pattern.Built) (h : σ ∈ pattern.solutions t) :
    (∀ x, σ.Binds x ↔ x ∈ pattern.tree.variableNames) ∧
      pattern.tree.canonical.Denotes σ none [t] ∧ pattern.accepts σ = true := by
  obtain ⟨after, hafter, hexhausted, hholds, rfl⟩ := mem_accepted.mp h
  have hfind : ∀ x ∈ pattern.tree.variableNames, after.subst.find? (pattern.position x) =
      (after.subst.renamed pattern.tree.positionalNames.entries).find? x := fun x hx =>
    (pattern.find?_renamed_position after.subst hx).symm
  obtain ⟨ts, hconsumed, hdenotes⟩ := pattern.positionalTree.denotes_of_mem_places rfl hafter
  obtain rfl := hconsumed.eq_subject hexhausted
  refine ⟨fun x => ?_, (denotes_positionalTree hfind).mp hdenotes,
    (hpattern.accepts_iff hfind).mpr hholds⟩
  by_cases hx : x ∈ pattern.tree.variableNames
  · have hbinds := pattern.positionalTree.binds_of_mem_places hafter _
      (mem_variableNames_positionalTree hx)
    rw [Substitution.Binds, ← hfind x hx]
    exact iff_of_true hbinds hx
  · rw [Substitution.Binds, pattern.find?_renamed_of_not_mem after.subst hx]
    exact iff_of_false (by simp) hx

/-- What the tree denotes is found, with exactly these bindings. -/
theorem mem_solutions_of_denotes (hpattern : pattern.Built)
    (hbinds : ∀ x, σ.Binds x ↔ x ∈ pattern.tree.variableNames)
    (hdenotes : pattern.tree.canonical.Denotes σ none [t]) (haccepts : pattern.accepts σ = true) :
    σ ∈ pattern.solutions t := by
  -- the places are about positions, so that the bindings are moved there and back
  obtain ⟨υ, htarget⟩ := pattern.exists_target σ
  have hholds := (hpattern.accepts_iff htarget).mp haccepts
  have hpositional := (denotes_positionalTree htarget).mpr hdenotes
  have hsubject : (Place.ofSubject t).queue.level = [t] ++ [] := rfl
  obtain ⟨after, hafter, hqueue, hbelow⟩ := pattern.positionalTree.exists_mem_places rfl
    (fun c hc => hholds c (List.mem_append_left _ hc)) hpositional hsubject
    (Substitution.empty_below υ)
  have hbound := pattern.positionalTree.binds_of_mem_places hafter
  have hfind : ∀ x ∈ pattern.tree.variableNames,
      after.subst.find? (pattern.position x) = σ.find? x := by
    intro x hx
    rw [← htarget x hx, hbelow.find?_eq (hbound _ (mem_variableNames_positionalTree hx))]
  refine mem_accepted.mpr ⟨after, hafter, ?_, (hpattern.accepts_iff hfind).mp haccepts, ?_⟩
  · rw [hqueue]
    rfl
  · refine NameMap.ext_find? fun x => ?_
    by_cases hx : x ∈ pattern.tree.variableNames
    · rw [pattern.find?_renamed_position after.subst hx, hfind x hx]
    · rw [pattern.find?_renamed_of_not_mem after.subst hx]
      refine (Option.eq_none_iff_forall_ne_some.mpr fun b hb => hx ?_).symm
      exact (hbinds x).mp ⟨b, hb⟩

/-- **The matches of a pattern** bind its variables only, so that its tree denotes the subject
    and its constraints are satisfied. -/
theorem mem_solutions_iff (hpattern : pattern.Built) :
    σ ∈ pattern.solutions t ↔ (∀ x, σ.Binds x ↔ x ∈ pattern.tree.variableNames) ∧
      pattern.tree.canonical.Denotes σ none [t] ∧ pattern.accepts σ = true := by
  constructor
  · exact denotes_of_mem_solutions hpattern
  · rintro ⟨hbinds, hdenotes, haccepts⟩
    exact mem_solutions_of_denotes hpattern hbinds hdenotes haccepts

end Pattern

/-! ### Nets -/

/-- The matches of one pattern of a net. -/
theorem mem_matches_iff {meaning : Meaning} {patterns : List Pattern} {pattern : Pattern}
    (hbuilt : ∀ p ∈ patterns, p.Built) (hfollows : ∀ p ∈ patterns, p.Follows meaning)
    {index : Nat} (hindex : patterns[index]? = some pattern) {t : Term} {σ : Substitution} :
    (index, σ) ∈ (Net.ofPatterns patterns).matches t ↔ σ ∈ pattern.solutions t := by
  rw [← CommutativePattern.mem_fits_iff]
  exact (Net.fits_ofPatterns hbuilt hfollows hindex t).mem_iff

section Tree

variable {tree : PatternTerm} {pattern : Pattern} {t : Term} {σ : Substitution}

/-- A pattern that is built from a tree has this tree, and no constraints. -/
theorem Pattern.eq_of_ofTree (h : Pattern.ofTree tree = .ok pattern) :
    pattern.tree = tree ∧ pattern.constraints = [] ∧ pattern.globals = [] := by
  unfold Pattern.ofTree at h
  split at h
  · obtain rfl := Except.ok.inj h
    exact ⟨rfl, rfl, rfl⟩
  · simp at h

/-- Without constraints there is nothing to follow. -/
theorem Pattern.follows_of_ofTree (h : Pattern.ofTree tree = .ok pattern) (meaning : Meaning) :
    pattern.Follows meaning := by
  obtain ⟨-, hlocals, hglobals⟩ := Pattern.eq_of_ofTree h
  simp [Pattern.Follows, Pattern.positionalLocals, Pattern.positionalGlobals, hlocals, hglobals]

/-- **The matches of a tree** without constraints are the substitutions of its variables under
    which it denotes the subject. -/
theorem mem_matches_ofTree_iff (h : Pattern.ofTree tree = .ok pattern) :
    (0, σ) ∈ (Net.ofPatterns [pattern]).matches t ↔
      (∀ x, σ.Binds x ↔ x ∈ tree.variableNames) ∧ tree.canonical.Denotes σ none [t] := by
  have hpattern : pattern.Built := .ofTree h
  obtain ⟨htree, hlocals, hglobals⟩ := Pattern.eq_of_ofTree h
  have hbuilt : ∀ p ∈ [pattern], p.Built := by simpa using hpattern
  have hfollows : ∀ p ∈ [pattern], p.Follows fun _ _ _ => true := by
    simpa using Pattern.follows_of_ofTree h _
  have haccepts : pattern.accepts σ = true := by simp [Pattern.accepts, hlocals, hglobals]
  rw [mem_matches_iff hbuilt hfollows rfl, Pattern.mem_solutions_iff hpattern, htree]
  simp [haccepts]

/-- **A match** is what a substitution binds the variables to under which the tree denotes the
    subject. -/
theorem exists_match_of_denotes {υ : Substitution} (h : Pattern.ofTree tree = .ok pattern)
    (hdenotes : tree.canonical.Denotes υ none [t]) :
    ∃ σ, (0, σ) ∈ (Net.ofPatterns [pattern]).matches t ∧
      ∀ x b, σ.find? x = some b ↔ x ∈ tree.variableNames ∧ υ.find? x = some b := by
  obtain ⟨σ, hσ⟩ := NameMap.exists_part υ
    (P := fun x b => x ∈ tree.variableNames ∧ υ.find? x = some b) fun _ _ h => h.2
  refine ⟨σ, (mem_matches_ofTree_iff h).mpr ⟨fun x => ?_, hdenotes.congr fun x hx => ?_⟩, hσ⟩
  · simp only [Substitution.Binds, hσ]
    constructor
    · rintro ⟨b, hx, -⟩
      exact hx
    · intro hx
      obtain ⟨b, hb⟩ := hdenotes.binds x (PatternTerm.mem_variableNames_canonical.mpr hx)
      exact ⟨b, hx, hb⟩
  · have hx := PatternTerm.mem_variableNames_canonical.mp hx
    exact Option.ext fun b => by rw [hσ, and_iff_right hx]

/-- **A tree without constraints has a match** if it denotes the subject under some
    substitution. -/
theorem exists_match_ofTree_iff (h : Pattern.ofTree tree = .ok pattern) :
    (∃ σ, (0, σ) ∈ (Net.ofPatterns [pattern]).matches t) ↔
      ∃ σ, tree.canonical.Denotes σ none [t] := by
  constructor
  · rintro ⟨σ, hσ⟩
    exact ⟨σ, ((mem_matches_ofTree_iff h).mp hσ).2⟩
  · rintro ⟨υ, hdenotes⟩
    obtain ⟨σ, hσ, -⟩ := exists_match_of_denotes h hdenotes
    exact ⟨σ, hσ⟩

end Tree

end TermNet
