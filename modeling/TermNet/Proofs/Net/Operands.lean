import TermNet.Proofs.Net.Insert
import TermNet.Proofs.Pattern.Bound

namespace TermNet

/-!
# Matchers with more operands and patterns

A matcher grows by operands, whose steps are inserted into its net, and by patterns that
refer to operands by their positions.  The operands that were there before keep their
positions and their matches.

* `CommutativeMatcher.GrowsTo` — what stays when a matcher grows;
* `CommutativeMatcher.Valid.withOperand` — one more operand;
* `CommutativeMatcher.Valid.register` — one more pattern;
* `change_spec` — changing the matcher of a head.

The operands of a commutative operation are numbered by their positions in a matcher
that other patterns use as well.  This makes no difference to what is found.

* `OperandPattern.eq_of_same` — operands are recognised faithfully;
* `Located` — the positions of operands in a matcher;
* `solve_perm_alone` — a shared matcher finds what the operation finds by itself.
-/

section Growing

open CommutativePattern (fits)

variable {meaning : Meaning}

/-! ### Matches of single arguments -/

/-- Only the matches of its own operands matter to a pattern. -/
theorem CommutativePattern.matchSorted_congr {pattern : CommutativePattern} {head : Head}
    {arguments : List Term} {found others : Term → List (Nat × Substitution)}
    (h : ∀ o ∈ pattern.operands, ∀ t, fits o (found t) = fits o (others t)) (σ : Substitution) :
    pattern.matchSorted head arguments (arguments.map found) σ =
      pattern.matchSorted head arguments (arguments.map others) σ := by
  -- The graph only has the ways for the operands of the pattern.
  have hrows : (pattern.slotGraph (arguments.map found)).rows =
      (pattern.slotGraph (arguments.map others)).rows := by
    rw [slotGraph_rows, slotGraph_rows]
    refine List.map_congr_left fun operand hoperand => ?_
    unfold rowOf
    rw [List.zipIdx_map, List.zipIdx_map, List.filterMap_map, List.filterMap_map]
    refine congrArg (List.filterMap · arguments.zipIdx) (funext fun ⟨t, position⟩ => ?_)
    simp only [Function.comp_apply, Prod.map_apply, h operand hoperand]
  have hgraph : pattern.slotGraph (arguments.map found) =
      pattern.slotGraph (arguments.map others) := by
    have hright : (pattern.slotGraph (arguments.map found)).right =
        (pattern.slotGraph (arguments.map others)).right := by
      show (arguments.map found).length = (arguments.map others).length
      rw [List.length_map, List.length_map]
    exact congrArg₂ Bipartite.mk hright hrows
  unfold matchSorted
  rw [hgraph]

/-- The matches of one operand are not among those of another. -/
theorem fits_filter_ne {index other : Nat} (h : index ≠ other) (found : List Match) :
    fits index (found.filter (·.1 ≠ other)) = fits index found := by
  unfold fits
  rw [List.filterMap_filter]
  refine congrArg (List.filterMap · found) (funext fun ⟨i, σ⟩ => ?_)
  by_cases hi : i = index
  · subst hi
    simp [h]
  · simp [hi]

/-- The order of places does not matter to which of them are accepted. -/
theorem accepted_perm {constraints : List Constraint} {pairs : List (String × String)}
    {ends others : List Place} (h : ends.Perm others) :
    (accepted constraints pairs ends).Perm (accepted constraints pairs others) :=
  h.filterMap _

/-! ### Growing -/

namespace CommutativeMatcher

/-- **What stays when a matcher grows:** the positions of its operands and patterns, and
    the matches of its operands. -/
structure GrowsTo (old new : CommutativeMatcher) : Prop where
  head : new.head = old.head
  patterns : old.patterns <+: new.patterns
  operands : old.operands <+: new.operands
  found : ∀ o < old.operands.length, ∀ t,
    fits o (new.net.matches t) = fits o (old.net.matches t)

/-- A matcher to which nothing is added. -/
theorem GrowsTo.refl (matcher : CommutativeMatcher) : matcher.GrowsTo matcher :=
  ⟨rfl, List.prefix_refl _, List.prefix_refl _, fun _ _ _ => rfl⟩

/-- A matcher that grows twice. -/
theorem GrowsTo.trans {old between new : CommutativeMatcher} (h : old.GrowsTo between)
    (hmore : between.GrowsTo new) : old.GrowsTo new where
  head := hmore.head.trans h.head
  patterns := h.patterns.trans hmore.patterns
  operands := h.operands.trans hmore.operands
  found o ho t :=
    (hmore.found o (Nat.lt_of_lt_of_le ho h.operands.length_le) t).trans (h.found o ho t)

/-- What a net asks of a matcher: its head, its patterns, and the matches of its net. -/
theorem operandMatcher_eq (matcher : CommutativeMatcher) :
    matcher.operandMatcher = ⟨matcher.head, matcher.patterns, matcher.net.matches⟩ := by
  obtain ⟨head, net, operands, patterns⟩ := matcher
  rfl

/-- Growing extends what a matcher matches. -/
theorem GrowsTo.operandMatcher {old new : CommutativeMatcher} (h : old.GrowsTo new)
    (hold : old.OperandsValid meaning) : old.operandMatcher.Extends new.operandMatcher := by
  rw [operandMatcher_eq, operandMatcher_eq]
  refine ⟨h.head, h.patterns.length_le, fun index hindex args σ => ?_⟩
  have hpattern := List.getElem?_eq_getElem hindex
  have hnew : new.patterns[index]? = some old.patterns[index] := by
    obtain ⟨rest, hrest⟩ := h.patterns
    rw [← hrest, List.getElem?_append_left hindex, hpattern]
  simp only [OperandMatcher.solve, hpattern, hnew, h.head]
  refine CommutativePattern.matchSorted_congr (fun o ho t => ?_) σ
  exact h.found o (hold.bounded _ (List.getElem_mem hindex) o ho) t

/-! ### One more pattern -/

/-- A pattern is added behind the others, unless it is there. -/
theorem register_eq (matcher : CommutativeMatcher) (pattern : CommutativePattern) :
    (matcher.register pattern).2.patterns[(matcher.register pattern).1]? = some pattern ∧
      ∃ more, (∀ p ∈ more, p = pattern) ∧
        (matcher.register pattern).2 = { matcher with patterns := matcher.patterns ++ more } := by
  unfold register
  cases hfind : matcher.patterns.findIdx? fun p => decide (p = pattern) with
  | some index =>
    obtain ⟨hlt, hsame, -⟩ := List.findIdx?_eq_some_iff_getElem.mp hfind
    refine ⟨?_, [], by simp, ?_⟩
    · show matcher.patterns[index]? = some pattern
      rw [List.getElem?_eq_getElem hlt]
      exact congrArg some (of_decide_eq_true hsame)
    · show matcher = { matcher with patterns := matcher.patterns ++ [] }
      rw [List.append_nil]
      cases matcher
      rfl
  | none => exact ⟨by simp, [pattern], by simp, rfl⟩

/-- **One more pattern** leaves operands and patterns where they are. -/
theorem register_growsTo (matcher : CommutativeMatcher) (pattern : CommutativePattern) :
    matcher.GrowsTo (matcher.register pattern).2 := by
  obtain ⟨-, more, -, heq⟩ := matcher.register_eq pattern
  rw [heq]
  exact ⟨rfl, List.prefix_append _ _, List.prefix_refl _, fun _ _ _ => rfl⟩

/-- **One more pattern** of operands that are there. -/
theorem Valid.register {matcher : CommutativeMatcher} (h : matcher.Valid meaning)
    {pattern : CommutativePattern} (hordered : pattern.operands.Pairwise (· ≤ ·))
    (hbounded : ∀ o ∈ pattern.operands, o < matcher.operands.length) :
    (matcher.register pattern).2.Valid meaning := by
  obtain ⟨hoperands, hnet⟩ := valid_iff.mp h
  obtain ⟨-, more, hmore, heq⟩ := matcher.register_eq pattern
  rw [heq]
  have hpatterns : ∀ p ∈ matcher.patterns ++ more, p ∈ matcher.patterns ∨ p = pattern := fun p hp =>
    (List.mem_append.mp hp).imp_right (hmore p)
  refine valid_iff.mpr ⟨⟨hoperands.count, fun p hp => ?_, fun p hp => ?_, hoperands.follows,
    hoperands.faithful⟩, hnet⟩
  · rcases hpatterns p hp with hp | rfl
    · exact hoperands.ordered p hp
    · exact hordered
  · rcases hpatterns p hp with hp | rfl
    · exact hoperands.bounded p hp
    · exact hbounded

/-! ### One more operand -/

variable {matcher : CommutativeMatcher} {operand : OperandPattern} {steps : List Step}
variable {matchers : List CommutativeMatcher}

/-- The entry of an operand in the net of its matcher. -/
def entryOf (matcher : CommutativeMatcher) (operand : OperandPattern) : Entry :=
  ⟨matcher.operands.length, samePairs operand.tree.variableNames, operand.constraints, []⟩

/-- An operand gets the next position, and its steps are inserted into the net. -/
theorem withOperand_eq (matcher : CommutativeMatcher) (operand : OperandPattern)
    (steps : List Step) (matchers : List CommutativeMatcher) :
    matcher.withOperand operand steps matchers =
      (matcher.operands.length,
        { matcher with
          net := matcher.net.insertSteps (matcher.entryOf operand) steps matchers
          operands := matcher.operands ++ [operand] }) := rfl

/-- **One more operand** leaves the matches of the others as they are. -/
theorem withOperand_growsTo (hnet : matcher.net.TreeValid meaning)
    (h : Net.Insertable meaning matcher.net (matcher.entryOf operand) steps matchers) :
    matcher.GrowsTo (matcher.withOperand operand steps matchers).2 := by
  rw [withOperand_eq]
  refine ⟨rfl, List.prefix_refl _, List.prefix_append _ _, fun o ho t => ?_⟩
  have hne : o ≠ (matcher.entryOf operand).index := Nat.ne_of_lt ho
  rw [← fits_filter_ne hne, Net.matches_insertSteps_other hnet h]

/-- The matches of the last operand, in the order of the places behind its steps. -/
theorem fits_withOperand (hnet : matcher.net.TreeValid meaning)
    (h : Net.Insertable meaning matcher.net (matcher.entryOf operand) steps matchers) (t : Term) :
    fits matcher.operands.length ((matcher.withOperand operand steps matchers).2.net.matches t) =
      accepted operand.constraints (samePairs operand.tree.variableNames)
        (follow (operandMatchers matchers) (.within 0) steps (.ofSubject t)) := by
  have hown := Net.matches_insertSteps_own hnet h t
  have hconstraints : (matcher.entryOf operand).locals ++ (matcher.entryOf operand).globals =
      operand.constraints := List.append_nil _
  rw [hconstraints] at hown
  exact hown

/-- **One more operand,** whose steps lead to what it finds by itself. -/
theorem Valid.withOperand (hvalid : matcher.Valid meaning)
    (h : Net.Insertable meaning matcher.net (matcher.entryOf operand) steps matchers)
    (hmatchers : ∀ m ∈ matchers, m.Valid meaning)
    (hplaces : ∀ t, (follow (operandMatchers matchers) (.within 0) steps (.ofSubject t)).Perm
      (operand.tree.places operand.constraints none (.ofSubject t))) :
    (matcher.withOperand operand steps matchers).2.Valid meaning := by
  obtain ⟨hoperands, hnet⟩ := valid_iff.mp hvalid
  have htree := (Net.valid_iff.mp hnet).1
  have hgrows := withOperand_growsTo htree h
  rw [withOperand_eq] at hgrows ⊢
  refine valid_iff.mpr ⟨⟨?_, hoperands.ordered, fun p hp o ho => ?_, fun other hother => ?_,
    fun index other hother t => ?_⟩, Net.valid_iff.mpr ⟨htree.insertSteps h, hmatchers⟩⟩
  · rw [Net.patternCount_insertSteps h, hoperands.count, List.length_append, List.length_singleton]
  · exact Nat.lt_of_lt_of_le (hoperands.bounded p hp o ho) hgrows.operands.length_le
  · rcases List.mem_append.mp hother with hother | hother
    · exact hoperands.follows other hother
    · rw [List.mem_singleton.mp hother]
      exact fun c hc => h.follows c (List.mem_append_left _ hc)
  · by_cases hindex : index < matcher.operands.length
    · rw [List.getElem?_append_left hindex] at hother
      exact (List.Perm.of_eq (hgrows.found index hindex t)).trans
        (hoperands.faithful index other hother t)
    -- Old operands find what they found; the new one finds what its steps lead to.
    · have hlast : index = matcher.operands.length ∧ other = operand := by
        rw [List.getElem?_append_right (Nat.not_lt.mp hindex)] at hother
        obtain ⟨hlt, heq⟩ := List.getElem?_eq_some_iff.mp hother
        rw [List.length_singleton] at hlt
        exact ⟨by omega, by simpa using heq.symm⟩
      obtain ⟨rfl, rfl⟩ := hlast
      have hown := Net.matches_insertSteps_own htree h t
      refine (List.Perm.of_eq hown).trans ?_
      have hconstraints : (matcher.entryOf other).locals ++ (matcher.entryOf other).globals =
          other.constraints := List.append_nil _
      rw [hconstraints]
      exact accepted_perm (hplaces t)

end CommutativeMatcher

/-! ### The matcher of a head -/

/-- The net without patterns. -/
theorem Net.valid_empty : Net.empty.Valid meaning := by
  refine Net.valid_iff.mpr ⟨⟨⟨fun _ => rfl, by simp, trivial⟩, ?_, ?_, ?_⟩, ?_⟩
  · intro m hm
    exact absurd hm (by simp [Net.empty, State.markers, markersBelow])
  · intro id pattern hpattern
    exact absurd hpattern (by simp [Net.empty, ConstraintRegistry.owners, ConstraintRegistry.empty])
  · intro id c hc
    exact absurd hc (by simp [Net.empty, ConstraintRegistry.get?, ConstraintRegistry.empty])
  · intro matcher hmatcher
    exact absurd hmatcher (by simp [Net.empty])

/-- The matcher without operands. -/
theorem CommutativeMatcher.valid_ofHead (head : Head) :
    (CommutativeMatcher.ofHead head).Valid meaning := by
  refine CommutativeMatcher.valid_iff.mpr ⟨⟨rfl, ?_, ?_, ?_, ?_⟩, Net.valid_empty⟩
  all_goals simp [CommutativeMatcher.ofHead]

/-- What a net asks of its matchers, one by one. -/
theorem operandMatchers_eq (matchers : List CommutativeMatcher) :
    operandMatchers matchers = matchers.map CommutativeMatcher.operandMatcher := by
  induction matchers with
  | nil => rfl
  | cons matcher rest ih => rw [operandMatchers, List.map_cons, ih]

/-- What changing the matcher of a head does. -/
structure Changed {α : Type} (meaning : Meaning) (head : Head)
    (f : CommutativeMatcher → α × CommutativeMatcher) (matchers : List CommutativeMatcher)
    (changed : Nat × α × List CommutativeMatcher) : Prop where
  valid : ∀ m ∈ changed.2.2, m.Valid meaning
  grows : Grows (operandMatchers matchers) (operandMatchers changed.2.2)
  position : matcherPosition? (operandMatchers changed.2.2) head = some changed.1
  result : ∃ m : CommutativeMatcher, m.Valid meaning ∧ m.head = head ∧ changed.2.1 = (f m).1 ∧
    changed.2.2[changed.1]? = some (f m).2

/-- **Changing the matcher of a head** leaves all matchers where they are. -/
theorem change_spec {α : Type} {head : Head} {f : CommutativeMatcher → α × CommutativeMatcher}
    (hf : ∀ m : CommutativeMatcher, m.Valid meaning → m.head = head →
      (f m).2.Valid meaning ∧ m.GrowsTo (f m).2)
    {matchers : List CommutativeMatcher} (hmatchers : ∀ m ∈ matchers, m.Valid meaning) :
    Changed meaning head f matchers (CommutativeMatcher.change head f matchers) := by
  have hhead : ∀ m : CommutativeMatcher, m.head = head → m.Valid meaning →
      (CommutativeMatcher.operandMatcher (f m).2).head = head := by
    intro m hhead hm
    rw [CommutativeMatcher.operandMatcher_eq]
    exact (hf m hm hhead).2.head.trans hhead
  induction matchers with
  | nil =>
    -- There is no matcher yet, so that the new one stands behind all the others.
    have hnew : (CommutativeMatcher.ofHead head).Valid meaning :=
      CommutativeMatcher.valid_ofHead head
    rw [CommutativeMatcher.change]
    refine ⟨by simpa using (hf _ hnew rfl).1, .nil _, ?_, _, hnew, rfl, rfl, rfl⟩
    rw [operandMatchers, matcherPosition?, List.findIdx?_cons, if_pos]
    exact decide_eq_true (hhead _ rfl hnew)
  | cons m rest ih =>
    have hm := hmatchers m List.mem_cons_self
    have hrest : ∀ m ∈ rest, m.Valid meaning := fun n hn => hmatchers n (List.mem_cons_of_mem m hn)
    rw [CommutativeMatcher.change]
    by_cases hsame : m.head = head
    · rw [if_pos hsame]
      obtain ⟨hvalid, hgrows⟩ := hf m hm hsame
      refine ⟨fun n hn => ?_, ?_, ?_, m, hm, hsame, rfl, rfl⟩
      · rcases List.mem_cons.mp hn with rfl | hn
        · exact hvalid
        · exact hrest n hn
      · exact Grows.cons (hgrows.operandMatcher (CommutativeMatcher.valid_iff.mp hm).1) (.refl _)
      · rw [operandMatchers, matcherPosition?, List.findIdx?_cons, if_pos]
        exact decide_eq_true (hhead m hsame hm)
    · rw [if_neg hsame]
      obtain ⟨hvalid, hgrows, hposition, n, hn, heq, hresult, hget⟩ := ih hrest
      refine ⟨fun n hn => ?_, .cons (.refl _) hgrows, ?_, n, hn, heq, hresult, hget⟩
      · rcases List.mem_cons.mp hn with rfl | hn
        · exact hm
        · exact hvalid n hn
      · rw [operandMatchers, matcherPosition?, List.findIdx?_cons]
        have hne : ¬ (CommutativeMatcher.operandMatcher m).head = head := by
          rw [CommutativeMatcher.operandMatcher_eq]
          exact hsame
        rw [if_neg (by simpa using hne)]
        exact Option.map_eq_some_iff.mpr ⟨_, hposition, rfl⟩

end Growing

/-! ### Shared matchers -/

open CommutativePattern (fits)

variable {meaning : Meaning} {constraints : List Constraint}

/-! ### Recognising operands -/

/-- Every operand is recognised as itself. -/
theorem OperandPattern.same_self (operand : OperandPattern) : operand.same operand = true := by
  have hzip : ∀ cs : List Constraint, ((cs.zip cs).all fun pair => pair.1.same pair.2) = true := by
    intro cs
    induction cs with
    | nil => rfl
    | cons c rest ih => simp [Constraint.same_self, ih]
  simp [same, hzip]

/-- **Operands are recognised faithfully,** as long as paths stand for functions. -/
theorem OperandPattern.eq_of_same {operand other : OperandPattern}
    (hoperand : ∀ c ∈ operand.constraints, c.Follows meaning)
    (hother : ∀ c ∈ other.constraints, c.Follows meaning) (h : operand.same other = true) :
    operand = other := by
  obtain ⟨tree, cs⟩ := operand
  obtain ⟨tree', ds⟩ := other
  simp only [same, Bool.and_eq_true, decide_eq_true_eq] at h
  obtain ⟨⟨htree, hlength⟩, hall⟩ := h
  have hconstraints : cs = ds := by
    clear htree
    induction cs generalizing ds with
    | nil => exact (List.length_eq_zero_iff.mp hlength.symm).symm
    | cons c rest ih =>
      cases ds with
      | nil => simp at hlength
      | cons d others =>
        rw [List.zip_cons_cons, List.all_cons, Bool.and_eq_true] at hall
        have hfirst := Constraint.eq_of_same (hoperand c List.mem_cons_self)
          (hother d List.mem_cons_self) hall.1
        have hrest := ih (fun c hc => hoperand c (List.mem_cons_of_mem _ hc)) others
          (fun c hc => hother c (List.mem_cons_of_mem _ hc)) hall.2 (Nat.succ.inj hlength)
        rw [hfirst, hrest]
  rw [htree, hconstraints]

/-- The constraints of an operand are among those of the pattern. -/
theorem follows_operandConstraints (hconstraints : ∀ c ∈ constraints, c.Follows meaning)
    (p : PatternTerm) : ∀ c ∈ operandConstraints constraints p, c.Follows meaning :=
  fun c hc => hconstraints c (List.mem_filter.mp hc).1

/-- The constraints of all operands are among those of the pattern. -/
theorem follows_of_mem_operandPatterns (hconstraints : ∀ c ∈ constraints, c.Follows meaning)
    {head : Head} {args : List PatternTerm} {operand : OperandPattern}
    (h : operand ∈ operandPatterns constraints head args) :
    ∀ c ∈ operand.constraints, c.Follows meaning := by
  obtain ⟨p, -, rfl⟩ := List.mem_map.mp h
  exact follows_operandConstraints hconstraints p

/-! ### Operands in a shared matcher -/

/-- The operands have these positions in a matcher. -/
def Located (operands : List OperandPattern) (wanted : List OperandPattern)
    (indices : List Nat) : Prop :=
  List.Forall₂ (fun operand index => operands.findIdx? operand.same = some index) wanted indices

variable {m : CommutativeMatcher}

/-- What stands at the position of an operand is the operand. -/
theorem getElem?_of_findIdx?_same (hm : m.OperandsValid meaning) {operand : OperandPattern}
    (hoperand : ∀ c ∈ operand.constraints, c.Follows meaning) {index : Nat}
    (h : m.operands.findIdx? operand.same = some index) : m.operands[index]? = some operand := by
  obtain ⟨hlt, hsame, -⟩ := List.findIdx?_eq_some_iff_getElem.mp h
  have heq := OperandPattern.eq_of_same hoperand (hm.follows _ (List.getElem_mem hlt)) hsame
  rw [List.getElem?_eq_getElem hlt, ← heq]

/-- **A shared matcher finds what the operation finds by itself.** -/
theorem solve_perm_alone (hm : m.OperandsValid meaning)
    (hconstraints : ∀ c ∈ constraints, c.Follows meaning) {head : Head} (hhead : m.head = head)
    {args : List PatternTerm} {indices : List Nat}
    (hindices : Located m.operands (operandPatterns constraints head args) indices) {index : Nat}
    (hpattern : m.patterns[index]? = some ⟨sortBy (· ≤ ·) indices, sequenceVariables head args⟩)
    (ts : List Term) (σ : Substitution) :
    (m.operandMatcher.solve ts σ index).Perm ((alone constraints head args).solve ts σ 0) := by
  subst hhead
  let os := operandPatterns constraints m.head args
  let number := aloneNumber constraints m.head args
  -- An operand's number among those of this operation becomes its position in the matcher.
  let position := fun operand : OperandPattern => (m.operands.findIdx? operand.same).getD 0
  let label := fun n : Nat => (os[n]?.map position).getD 0
  have hlabel : ∀ operand ∈ os, label (number operand) = position operand := by
    intro operand hoperand
    simp only [label, os, number, getElem?_aloneNumber hoperand, Option.map_some, Option.getD_some]
  have hposition : ∀ operand ∈ os, m.operands[position operand]? = some operand := by
    intro operand hoperand
    obtain ⟨index, -, hindex⟩ := Bipartite.exists_row_of_mem hindices.flip hoperand
    have heq : position operand = index := by simp only [position, hindex, Option.getD_some]
    rw [heq]
    exact getElem?_of_findIdx?_same hm (follows_of_mem_operandPatterns hconstraints hoperand) hindex
  have hmap : os.map position = indices := by
    refine List.forall₂_eq_eq_eq ▸ (List.forall₂_map_left_iff.mpr (hindices.imp ?_))
    intro operand index hindex
    simp only [position, hindex, Option.getD_some]
  have hnumbered : ∀ n ∈ (alonePattern constraints m.head args).operands,
      ∃ operand ∈ os, number operand = n := fun n hn =>
    List.mem_map.mp ((sortBy_perm _ _).mem_iff.mp hn)
  have hinjective : Set.InjOn label {n | n ∈ (alonePattern constraints m.head args).operands} := by
    intro n hn n' hn' heq
    obtain ⟨operand, hoperand, rfl⟩ := hnumbered n hn
    obtain ⟨other, hother, rfl⟩ := hnumbered n' hn'
    rw [hlabel operand hoperand, hlabel other hother] at heq
    -- The matcher has one operand at a position, so that different ones stand at different places.
    have hsame : some operand = some other := by
      rw [← hposition operand hoperand, ← hposition other hother, heq]
    rw [Option.some.inj hsame]
  have hoperands : (sortBy (fun a b : Nat => decide (a ≤ b)) indices).Perm
      ((alonePattern constraints m.head args).operands.map label) := by
    have hlabels : (os.map number).map label = indices := by
      rw [List.map_map, ← hmap]
      exact List.map_congr_left hlabel
    refine (sortBy_perm _ _).trans ?_
    rw [← hlabels]
    exact ((sortBy_perm _ _).map label).symm
  have hways : ∀ n ∈ (alonePattern constraints m.head args).operands, ∀ t ∈ sortBy Term.le ts,
      (fits (label n) (m.net.matches t)).Perm
        (fits n ((alone constraints m.head args).matchOperand t)) := by
    intro n hn t _
    obtain ⟨operand, hoperand, rfl⟩ := hnumbered n hn
    rw [hlabel operand hoperand, fits_alone hoperand]
    exact hm.faithful _ operand (hposition operand hoperand) t
  have halone : (alonePattern constraints m.head args).operands.Pairwise (· ≤ ·) :=
    pairwise_sortBy_le _
  have hperm := CommutativePattern.matchSorted_perm _
    ⟨sortBy (fun a b : Nat => decide (a ≤ b)) indices, sequenceVariables m.head args⟩ m.head
    (sorted_sortBy_le ts) halone (pairwise_sortBy_le _) hinjective hoperands rfl hways σ
  rw [solve_alone_eq, CommutativeMatcher.operandMatcher_eq]
  simp only [OperandMatcher.solve, hpattern]
  exact hperm.symm

end TermNet
