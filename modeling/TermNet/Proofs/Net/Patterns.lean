import Mathlib.Data.List.Induction
import TermNet.Proofs.Net.Collect
import TermNet.Proofs.Pattern.Built

namespace TermNet

/-!
# The nets of lists of patterns

* `PathsAgree` — custom constraints with the same path have the same function;
* `Net.Valid.add` — adding a pattern keeps the invariant;
* `Net.valid_ofPatterns` — the invariant of the net of a list of patterns;
* `Net.matches_ofPatterns_append` — one more pattern changes nothing for the others;
* `Net.fits_ofPatterns` — every pattern finds what it finds by itself.
-/

open CommutativePattern (fits)

/-! ### Custom constraints -/

/-- **Custom constraints with the same path have the same function.** -/
def PathsAgree (patterns : List Pattern) : Prop :=
  ∀ p ∈ patterns, ∀ q ∈ patterns, ∀ c ∈ p.constraints ++ p.globals,
    ∀ d ∈ q.constraints ++ q.globals, ∀ path f g,
      c.check = .custom path f → d.check = .custom path g → f = g

/-- Every constraint of a pattern, on its positional variables, follows a meaning. -/
def Pattern.Follows (meaning : Meaning) (pattern : Pattern) : Prop :=
  ∀ c ∈ pattern.positionalLocals ++ pattern.positionalGlobals, c.Follows meaning

/-- The positional constraints of a pattern are its constraints in positional names. -/
theorem Pattern.mem_positional {pattern : Pattern} {c : Constraint} :
    c ∈ pattern.positionalLocals ++ pattern.positionalGlobals ↔
      ∃ d ∈ pattern.constraints ++ pattern.globals,
        d.renamed pattern.tree.positionalNames = c := by
  rw [positionalLocals, positionalGlobals, ← List.map_append]
  exact List.mem_map

/-- Where paths agree, they have meanings. -/
theorem PathsAgree.exists_meaning {patterns : List Pattern} (h : PathsAgree patterns) :
    ∃ meaning, ∀ pattern ∈ patterns, pattern.Follows meaning := by
  classical
  let isCustom := fun path f => ∃ p ∈ patterns, ∃ c ∈ p.constraints ++ p.globals,
    c.check = .custom path f
  let meaning : Meaning := fun path _ =>
    if hpath : ∃ f, isCustom path f then hpath.choose else fun _ => true
  refine ⟨meaning, fun pattern hpattern positional hpositional => ?_⟩
  obtain ⟨c, hc, rfl⟩ := Pattern.mem_positional.mp hpositional
  let names := (c.renamed pattern.tree.positionalNames).variableNames
  show c.check.Follows (meaning · names)
  cases hcheck : c.check with
  | builtin predicate => trivial
  | custom path f =>
    have hpath : ∃ f, isCustom path f := ⟨f, pattern, hpattern, c, hc, hcheck⟩
    obtain ⟨p, hp, d, hd, hchosen⟩ := hpath.choose_spec
    show f = meaning path names
    rw [show meaning path names = hpath.choose from dif_pos hpath]
    exact h pattern hpattern p hp c hc d hd path f _ hcheck hchosen

/-- The two patterns of sums have no custom constraints. -/
theorem pathsAgree_samples : PathsAgree [sampleSum, sampleSuccessor] := by
  have hsample : ∀ p ∈ [sampleSum, sampleSuccessor], ∀ c ∈ p.constraints ++ p.globals,
      ∃ x, c = sampleConstraint x := by
    intro p hp c hc
    rcases List.mem_cons.mp hp with rfl | hp
    · exact ⟨"x", List.mem_singleton.mp hc⟩
    · obtain rfl := List.mem_singleton.mp hp
      exact ⟨"a", List.mem_singleton.mp hc⟩
  intro p hp q hq c hc d hd path f g hf hg
  obtain ⟨x, rfl⟩ := hsample p hp c hc
  obtain ⟨y, rfl⟩ := hsample q hq d hd
  exact (Check.custom.inj hf).2.symm.trans (Check.custom.inj hg).2

namespace Net

variable {meaning : Meaning} {net : Net} {pattern : Pattern}

/-! ### One more pattern -/

/-- The entry of a pattern. -/
def entryFor (net : Net) (pattern : Pattern) : Entry :=
  ⟨net.patternCount, pattern.tree.positionalNames.entries, pattern.positionalLocals,
    pattern.positionalGlobals⟩

/-- The steps of a pattern, and the matchers with its operations. -/
def collectedFor (net : Net) (pattern : Pattern) : List Step × List CommutativeMatcher :=
  collectSteps pattern.positionalLocals none pattern.positionalTree net.matchers

/-- Adding a pattern inserts the steps that have been collected for it. -/
theorem add_eq (net : Net) (pattern : Pattern) :
    net.add pattern = net.insertSteps (net.entryFor pattern) (net.collectedFor pattern).1
      (net.collectedFor pattern).2 := rfl

/-- The steps of a pattern are those that are collected for its tree. -/
theorem collected_collectedFor (hnet : net.Valid meaning) (hfollows : pattern.Follows meaning) :
    Collected meaning pattern.positionalLocals none pattern.positionalTree net.matchers
      (net.collectedFor pattern) :=
  collected_collectSteps _ _ _ _
    (fun c hc => hfollows c (List.mem_append_left _ hc)) (valid_iff.mp hnet).2

/-- The positional names of a constraint are variables of the positional tree. -/
theorem bound_positionalLocals (hpattern : pattern.Built) :
    ∀ c ∈ pattern.positionalLocals,
      c.variableNames ≠ [] ∧ ∀ x ∈ c.variableNames, x ∈ pattern.positionalTree.variableNames := by
  intro c hc
  obtain ⟨d, hd, rfl⟩ := List.mem_map.mp hc
  obtain ⟨hnames, hvariables⟩ := hpattern.constraint d (List.mem_append_left _ hd)
  refine ⟨fun hnone => hnames (List.map_eq_nil_iff.mp hnone), fun x hx => ?_⟩
  obtain ⟨y, hy, rfl⟩ := List.mem_map.mp hx
  exact (PatternTerm.mem_variableNames_mapVariables _ _).mpr ⟨y, hvariables y hy, rfl⟩

/-- The steps of a pattern can be inserted. -/
theorem insertable_entryFor (hnet : net.Valid meaning) (hpattern : pattern.Built)
    (hfollows : pattern.Follows meaning) :
    Insertable meaning net (net.entryFor pattern) (net.collectedFor pattern).1
      (net.collectedFor pattern).2 where
  index := rfl
  grows := (collected_collectedFor hnet hfollows).grows
  leads := (collected_collectedFor hnet hfollows).leads 0
  follows := hfollows
  bound c hc := by
    obtain ⟨hnames, hvariables⟩ := bound_positionalLocals hpattern c hc
    exact ⟨hnames, fun x hx => (collected_collectedFor hnet hfollows).binds x (hvariables x hx)⟩

/-- **Adding a pattern keeps the invariant.** -/
theorem Valid.add (hnet : net.Valid meaning) (hpattern : pattern.Built)
    (hfollows : pattern.Follows meaning) : (net.add pattern).Valid meaning := by
  have htree := (valid_iff.mp hnet).1
  rw [add_eq]
  exact valid_iff.mpr ⟨htree.insertSteps (insertable_entryFor hnet hpattern hfollows),
    (collected_collectedFor hnet hfollows).valid⟩

/-- Adding a pattern makes one more. -/
theorem patternCount_add (hnet : net.Valid meaning) (hpattern : pattern.Built)
    (hfollows : pattern.Follows meaning) :
    (net.add pattern).patternCount = net.patternCount + 1 :=
  patternCount_insertSteps (insertable_entryFor hnet hpattern hfollows)

/-- One more pattern changes nothing for the others. -/
theorem matches_add_other (hnet : net.Valid meaning) (hpattern : pattern.Built)
    (hfollows : pattern.Follows meaning) (t : Term) :
    ((net.add pattern).matches t).filter (·.1 ≠ net.patternCount) = net.matches t :=
  matches_insertSteps_other (valid_iff.mp hnet).1 (insertable_entryFor hnet hpattern hfollows) t

/-- The new pattern finds what it finds by itself. -/
theorem fits_add (hnet : net.Valid meaning) (hpattern : pattern.Built)
    (hfollows : pattern.Follows meaning) (t : Term) :
    (fits net.patternCount ((net.add pattern).matches t)).Perm (pattern.solutions t) := by
  have hown := matches_insertSteps_own (valid_iff.mp hnet).1
    (insertable_entryFor hnet hpattern hfollows) t
  exact (List.Perm.of_eq hown).trans
    (accepted_perm ((collected_collectedFor hnet hfollows).places 0 (.ofSubject t)))

/-! ### Lists of patterns -/

variable {patterns : List Pattern}

/-- The net of one more pattern. -/
theorem ofPatterns_append (patterns : List Pattern) (pattern : Pattern) :
    ofPatterns (patterns ++ [pattern]) = (ofPatterns patterns).add pattern :=
  List.foldl_concat _ _ _ _

/-- **The invariant of the net of a list of patterns.** -/
theorem valid_ofPatterns (hbuilt : ∀ p ∈ patterns, p.Built)
    (hfollows : ∀ p ∈ patterns, p.Follows meaning) :
    (ofPatterns patterns).Valid meaning ∧ (ofPatterns patterns).patternCount = patterns.length := by
  induction patterns using List.reverseRecOn with
  | nil => exact ⟨valid_empty, rfl⟩
  | append_singleton patterns pattern ih =>
    obtain ⟨hvalid, hcount⟩ := ih (fun p hp => hbuilt p (List.mem_append_left _ hp))
      fun p hp => hfollows p (List.mem_append_left _ hp)
    have hpattern := hbuilt pattern (List.mem_append_right _ (List.mem_singleton_self _))
    have hlast := hfollows pattern (List.mem_append_right _ (List.mem_singleton_self _))
    rw [ofPatterns_append]
    refine ⟨hvalid.add hpattern hlast, ?_⟩
    rw [patternCount_add hvalid hpattern hlast, hcount, List.length_append, List.length_singleton]

/-- Everything that is found belongs to a pattern of the list. -/
theorem lt_of_mem_ofPatterns (hbuilt : ∀ p ∈ patterns, p.Built)
    (hfollows : ∀ p ∈ patterns, p.Follows meaning) {t : Term} {found : Match}
    (h : found ∈ (ofPatterns patterns).matches t) : found.1 < patterns.length := by
  obtain ⟨hvalid, hcount⟩ := valid_ofPatterns hbuilt hfollows
  rw [← hcount]
  exact lt_of_mem_matches (valid_iff.mp hvalid).1 h

/-- **One more pattern changes nothing for the others.** -/
theorem matches_ofPatterns_append (hbuilt : ∀ p ∈ patterns ++ [pattern], p.Built)
    (hfollows : ∀ p ∈ patterns ++ [pattern], p.Follows meaning) (t : Term) :
    ((ofPatterns (patterns ++ [pattern])).matches t).filter (·.1 ≠ patterns.length) =
      (ofPatterns patterns).matches t := by
  obtain ⟨hvalid, hcount⟩ := valid_ofPatterns (fun p hp => hbuilt p (List.mem_append_left _ hp))
    fun p hp => hfollows p (List.mem_append_left _ hp)
  rw [ofPatterns_append, ← hcount]
  exact matches_add_other hvalid (hbuilt pattern (by simp)) (hfollows pattern (by simp)) t

/-- **Every pattern finds what it finds by itself.** -/
theorem fits_ofPatterns (hbuilt : ∀ p ∈ patterns, p.Built)
    (hfollows : ∀ p ∈ patterns, p.Follows meaning) {index : Nat}
    (h : patterns[index]? = some pattern) (t : Term) :
    (fits index ((ofPatterns patterns).matches t)).Perm (pattern.solutions t) := by
  induction patterns using List.reverseRecOn with
  | nil => simp at h
  | append_singleton patterns last ih =>
    have hbefore : ∀ p ∈ patterns, p.Built := fun p hp => hbuilt p (List.mem_append_left _ hp)
    have hothers : ∀ p ∈ patterns, p.Follows meaning := fun p hp =>
      hfollows p (List.mem_append_left _ hp)
    by_cases hindex : index < patterns.length
    · rw [List.getElem?_append_left hindex] at h
      rw [← fits_filter_ne (Nat.ne_of_lt hindex), matches_ofPatterns_append hbuilt hfollows]
      exact ih hbefore hothers h
    · have hlast : index = patterns.length ∧ last = pattern := by
        rw [List.getElem?_append_right (Nat.not_lt.mp hindex)] at h
        obtain ⟨hlt, heq⟩ := List.getElem?_eq_some_iff.mp h
        rw [List.length_singleton] at hlt
        exact ⟨by omega, by simpa using heq⟩
      obtain ⟨rfl, rfl⟩ := hlast
      obtain ⟨hvalid, hcount⟩ := valid_ofPatterns hbefore hothers
      rw [ofPatterns_append, ← hcount]
      exact fits_add hvalid (hbuilt last (by simp)) (hfollows last (by simp)) t

end Net

end TermNet
