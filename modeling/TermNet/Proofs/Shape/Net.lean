import TermNet.Proofs.Shape.Extend
import TermNet.Proofs.Net.Collect
import TermNet.Proofs.Net.Follow

namespace TermNet

/-!
# The shape of a net

Whatever patterns are added, and whatever their constraints: the tree of the net keeps its
shape, its states have the numbers from 0 on, and it has one marker for each pattern.  The same
is true of the nets of its matchers, whose patterns are those of the operands.

* `CommutativeMatcher.Listed`, `Net.Formed` — the shape of a net, with its matchers;
* `Net.Formed.insertSteps` — a pattern keeps it;
* `hasShape` — the steps of a tree lead through the net, and the matchers that come
  with them have the shape;
* `Net.formed_ofPatterns`, `Net.ofPatterns?_eq` — the nets of patterns.
-/

/-- The net of a matcher is that of its operands, and its patterns are made of them. -/
structure CommutativeMatcher.Listed (matcher : CommutativeMatcher) : Prop where
  count : matcher.net.patternCount = matcher.operands.length
  ordered : ∀ pattern ∈ matcher.patterns, pattern.operands.Pairwise (· ≤ ·)
  bounded : ∀ pattern ∈ matcher.patterns, ∀ o ∈ pattern.operands, o < matcher.operands.length

/-- **The shape of a net,** and of the nets of its matchers. -/
inductive Net.Formed : Net → Prop where
  | intro {net : Net} (root : net.root.Formed net.matchers (.within 0))
      (numbers : (0 :: net.root.ids).Perm (List.range net.stateCount))
      (markers : (net.root.markers.map Marker.pattern).Perm (List.range net.patternCount))
      (listed : ∀ matcher ∈ net.matchers, matcher.Listed)
      (nested : ∀ matcher ∈ net.matchers, Net.Formed matcher.net) : Net.Formed net

/-- The shape of a matcher and of its net. -/
structure CommutativeMatcher.Formed (matcher : CommutativeMatcher) : Prop where
  listed : matcher.Listed
  net : matcher.net.Formed

variable {net : Net} {matchers : List CommutativeMatcher} {steps : List Step}
variable {constraints : List Constraint}

namespace Net.Formed

/-- The tree of a net has its shape. -/
theorem root (h : net.Formed) : net.root.Formed net.matchers (.within 0) := by
  cases h with | intro root => exact root

/-- The states of a net have the numbers from 0 on, each one once. -/
theorem numbers (h : net.Formed) : (0 :: net.root.ids).Perm (List.range net.stateCount) := by
  cases h with | intro _ numbers => exact numbers

/-- There is one marker for each pattern of a net. -/
theorem markers (h : net.Formed) :
    (net.root.markers.map Marker.pattern).Perm (List.range net.patternCount) := by
  cases h with | intro _ _ markers => exact markers

/-- The matchers of a net have the shape, too. -/
theorem matcher (h : net.Formed) : ∀ matcher ∈ net.matchers, matcher.Formed := by
  cases h with
  | intro _ _ _ listed nested => exact fun m hm => ⟨listed m hm, nested m hm⟩

end Net.Formed

/-- The net without patterns. -/
theorem Net.formed_empty : Net.empty.Formed := by
  have hroot : Net.empty.root.Formed Net.empty.matchers (.within 0) :=
    .intro (fun depth head h => Stage.noConfusion h)
      .nil (fun edge hedge => absurd hedge List.not_mem_nil)
      (fun edge hedge => absurd hedge List.not_mem_nil)
  exact .intro hroot (.refl _) (.refl _) (fun m hm => absurd hm List.not_mem_nil)
    (fun m hm => absurd hm List.not_mem_nil)

/-! ### Inserting a pattern -/

/-- **A net with one more pattern,** whose steps lead through it. -/
theorem Net.Formed.insertSteps (h : net.Formed) (entry : Entry)
    (hindex : entry.index = net.patternCount) (henlarges : Enlarges net.matchers matchers)
    (hmatchers : ∀ m ∈ matchers, m.Formed) (hruns : Runs matchers (.within 0) steps .finished) :
    (net.insertSteps entry steps matchers).Formed ∧
      net.insertSteps? entry steps matchers = some (net.insertSteps entry steps matchers) := by
  let registered := net.registered entry
  have hsteps : Runs matchers (.within 0)
      ((schedule registered.1 registered.2.1 [] steps).map Prod.fst) .finished := by
    rw [map_fst_schedule]
    exact hruns
  have hroot := h.root.enlarge henlarges
  obtain ⟨hformed, hmarkers⟩ := hroot.extend (net.markerOf entry) hsteps net.stateCount
  obtain ⟨created, hcreated, hids⟩ :=
    hroot.ids_extend (net.markerOf entry) hsteps net.stateCount
  have hcount : (net.insertSteps entry steps matchers).stateCount = (net.root.extend
      (net.markerOf entry) (schedule registered.1 registered.2.1 [] steps) net.stateCount).2 := rfl
  refine ⟨.intro hformed ?_ ?_ (fun m hm => (hmatchers m hm).listed)
    fun m hm => (hmatchers m hm).net, ?_⟩
  -- The new states have the next numbers.
  · rw [hcount]
    refine (hids.cons 0).trans ?_
    rw [hcreated, List.range_eq_range', ← List.range'_append_1, ← List.cons_append,
      ← List.range_eq_range', Nat.zero_add]
    exact h.numbers.append_right _
  -- The new marker has the next pattern.
  · show (List.map _ _).Perm (List.range (max net.patternCount (entry.index + 1)))
    rw [hindex, Nat.max_eq_right (Nat.le_succ _), List.range_succ]
    refine (hmarkers.map Marker.pattern).trans ?_
    rw [List.map_append, List.map_singleton,
      show (net.markerOf entry).pattern = net.patternCount from hindex]
    exact h.markers.append_right _
  -- The checked insertion does not stop.
  · have hextend := hroot.extend?_eq (net.markerOf entry) hsteps net.stateCount
    unfold Net.insertSteps?
    show (do
      let result ← net.root.extend? (net.markerOf entry)
        (schedule registered.1 registered.2.1 [] steps) net.stateCount
      return _) = _
    rw [hextend]
    rfl

/-! ### The matcher of a head -/

/-- **Changing the matcher of a head** changes the first matcher with that head, which is added
    if there is none. -/
theorem CommutativeMatcher.change_eq {α : Type} (head : Head)
    (f : CommutativeMatcher → α × CommutativeMatcher) (matchers : List CommutativeMatcher) :
    ∃ before m after, (∀ other ∈ before, other.head ≠ head) ∧ m.head = head ∧
      (matchers = before ++ m :: after ∨ matchers = before ∧ m = .ofHead head ∧ after = []) ∧
      change head f matchers = (before.length, (f m).1, before ++ (f m).2 :: after) := by
  induction matchers with
  | nil => exact ⟨[], .ofHead head, [], by simp, rfl, .inr ⟨rfl, rfl, rfl⟩, rfl⟩
  | cons first rest ih =>
    rw [change]
    by_cases hsame : first.head = head
    · rw [if_pos hsame]
      exact ⟨[], first, rest, by simp, hsame, .inl rfl, rfl⟩
    · rw [if_neg hsame]
      obtain ⟨before, m, after, hbefore, hhead, hmatchers, hchange⟩ := ih
      refine ⟨first :: before, m, after, List.forall_mem_cons.mpr ⟨hsame, hbefore⟩, hhead, ?_, ?_⟩
      · rcases hmatchers with rfl | ⟨rfl, rfl, rfl⟩
        · exact .inl rfl
        · exact .inr ⟨rfl, rfl, rfl⟩
      · rw [hchange]
        rfl

/-- Changing the matcher of a head fails nowhere if the change does not fail for that head. -/
theorem CommutativeMatcher.change?_eq {α : Type} {head : Head}
    {f : CommutativeMatcher → α × CommutativeMatcher}
    {g : CommutativeMatcher → Option (α × CommutativeMatcher)} (hnew : g (.ofHead head) =
      some (f (.ofHead head))) (h : ∀ m ∈ matchers, m.head = head → g m = some (f m)) :
    change? head g matchers = some (change head f matchers) := by
  induction matchers with
  | nil =>
    rw [change?, hnew]
    rfl
  | cons first rest ih =>
    rw [change?, change]
    by_cases hsame : first.head = head
    · rw [if_pos hsame, if_pos hsame, h first List.mem_cons_self hsame]
      rfl
    · rw [if_neg hsame, if_neg hsame, ih fun m hm => h m (List.mem_cons_of_mem _ hm)]
      rfl

/-- A matcher that was there is there still, unless it is the one that has changed. -/
theorem getElem?_change {α : Type} {head : Head} {f : CommutativeMatcher → α × CommutativeMatcher}
    (matchers : List CommutativeMatcher) {position : Nat} {m : CommutativeMatcher}
    (hm : matchers[position]? = some m) :
    (CommutativeMatcher.change head f matchers).2.2[position]? = some m ∨ m.head = head ∧
      (CommutativeMatcher.change head f matchers).2.2[position]? = some (f m).2 := by
  induction matchers generalizing position with
  | nil => exact absurd hm (by simp)
  | cons first rest ih =>
    rw [CommutativeMatcher.change]
    split
    · rename_i hhead
      cases position with
      | zero =>
        obtain rfl : first = m := by simpa using hm
        exact .inr ⟨hhead, rfl⟩
      | succ position => exact .inl (by simpa using hm)
    · cases position with
      | zero => exact .inl (by simpa using hm)
      | succ position => exact ih (by simpa using hm)

/-- A matcher that is there was there before, or is the one that has changed. -/
theorem mem_change {α : Type} {head : Head} {f : CommutativeMatcher → α × CommutativeMatcher}
    {m : CommutativeMatcher} (hm : m ∈ (CommutativeMatcher.change head f matchers).2.2) :
    m ∈ matchers ∨ ∃ old, (old ∈ matchers ∨ old = .ofHead head) ∧ old.head = head ∧
      m = (f old).2 := by
  obtain ⟨before, old, after, -, hhead, hwhere, hchange⟩ :=
    CommutativeMatcher.change_eq head f matchers
  rw [hchange] at hm
  rcases hwhere with rfl | ⟨rfl, rfl, rfl⟩
  · rcases List.mem_append.mp hm with hm | hm
    · exact .inl (List.mem_append_left _ hm)
    · rcases List.mem_cons.mp hm with rfl | hm
      · exact .inr ⟨old, .inl (List.mem_append_right _ List.mem_cons_self), hhead, rfl⟩
      · exact .inl (List.mem_append_right _ (List.mem_cons_of_mem _ hm))
  · rcases List.mem_append.mp hm with hm | hm
    · exact .inl hm
    · exact .inr ⟨_, .inr rfl, rfl, List.mem_singleton.mp hm⟩

/-- What a changed matcher has to be. -/
structure CommutativeMatcher.Changes (m changed : CommutativeMatcher) : Prop where
  formed : changed.Formed
  head : changed.head = m.head
  patterns : m.patterns.length ≤ changed.patterns.length

/-- The matcher without operands. -/
theorem CommutativeMatcher.formed_ofHead (head : Head) :
    (CommutativeMatcher.ofHead head).Formed where
  listed := ⟨rfl, fun _ h => absurd h List.not_mem_nil, fun _ h => absurd h List.not_mem_nil⟩
  net := Net.formed_empty

/-- The matchers after the matcher of a head has changed. -/
theorem formed_change {α : Type} {head : Head} {f : CommutativeMatcher → α × CommutativeMatcher}
    (hf : ∀ m : CommutativeMatcher, m.Formed → m.head = head → m.Changes (f m).2)
    (hmatchers : ∀ m ∈ matchers, m.Formed) :
    let changed := CommutativeMatcher.change head f matchers
    (∀ m ∈ changed.2.2, m.Formed) ∧ Enlarges matchers changed.2.2 ∧
      positionOf? changed.2.2 head = some changed.1 ∧
      ∃ m : CommutativeMatcher, m.Formed ∧ m.head = head ∧ changed.2.1 = (f m).1 ∧
        changed.2.2[changed.1]? = some (f m).2 := by
  intro changed
  obtain ⟨before, m, after, hbefore, hhead, hwhere, hchange⟩ :=
    CommutativeMatcher.change_eq head f matchers
  have hformed {old : CommutativeMatcher} (hold : old ∈ matchers ∨ old = .ofHead head) :
      old.Formed :=
    hold.elim (hmatchers old) fun hnew => hnew ▸ CommutativeMatcher.formed_ofHead head
  have hm : m.Formed := by
    rcases hwhere with rfl | ⟨-, hnew, -⟩
    · exact hformed (.inl (List.mem_append_right _ List.mem_cons_self))
    · exact hformed (.inr hnew)
  have heq : changed = (before.length, (f m).1, before ++ (f m).2 :: after) := hchange
  refine ⟨fun other hother => ?_, fun position other hother => ?_, ?_, m, hm, hhead, ?_⟩
  · rcases mem_change hother with hother | ⟨old, hwhere, hhead, rfl⟩
    · exact hmatchers other hother
    · exact (hf old (hformed hwhere) hhead).formed
  · rcases getElem?_change matchers hother with hkept | ⟨hhead, hchanged⟩
    · exact ⟨other, hkept, rfl, Nat.le_refl _⟩
    · have hchanges := hf other (hformed (.inl (List.mem_of_getElem? hother))) hhead
      exact ⟨(f other).2, hchanged, hchanges.head, hchanges.patterns⟩
  · rw [heq]
    refine List.findIdx?_eq_some_iff_getElem.mpr ⟨by simp, ?_, fun i hi => ?_⟩
    · simpa using (hf m hm hhead).head.trans hhead
    · rw [List.getElem_append_left hi]
      simpa using hbefore _ (List.getElem_mem hi)
  · rw [heq]
    exact ⟨rfl, by simp⟩

/-! ### Collecting steps -/

/-- **What is true of the steps of a tree** and of the matchers with its operations. -/
structure Shaped (constraints : List Constraint) (parent : Option Head) (p : PatternTerm)
    (matchers : List CommutativeMatcher) (result : List Step × List CommutativeMatcher) :
    Prop where
  formed : ∀ m ∈ result.2, m.Formed
  enlarges : Enlarges matchers result.2
  runs : ∀ depth, Runs result.2 (.within depth) result.1 (.settled depth)
  checked : collectSteps? constraints parent p matchers = some result

/-- The steps of a tree are such wherever it stands. -/
def HasShape (p : PatternTerm) : Prop :=
  ∀ constraints parent matchers, (∀ m ∈ matchers, CommutativeMatcher.Formed m) →
    Shaped constraints parent p matchers (collectSteps constraints parent p matchers)

/-- What is true of the steps of ordered arguments. -/
structure ShapedAll (constraints : List Constraint) (parent : Head) (args : List PatternTerm)
    (matchers : List CommutativeMatcher) (result : List Step × List CommutativeMatcher) :
    Prop where
  formed : ∀ m ∈ result.2, m.Formed
  enlarges : Enlarges matchers result.2
  runs : ∀ depth, Runs result.2 (.within (depth + 1)) result.1 (.within (depth + 1))
  checked : collectStepsAll? constraints parent args matchers = some result

/-- What is true of the operands among commutative arguments. -/
structure ShapedOperands (constraints : List Constraint) (head : Head) (args : List PatternTerm)
    (matcher : CommutativeMatcher) (result : List Nat × CommutativeMatcher) : Prop where
  changes : matcher.Changes result.2
  bounded : ∀ index ∈ result.1, index < result.2.operands.length
  more : matcher.operands.length ≤ result.2.operands.length
  checked : collectOperands? constraints head args matcher = some result

/-- Where an ordinary state stands, a bare branching one may stand. -/
theorem stands_branch_settled (matchers : List CommutativeMatcher) (depth : Nat) :
    (State.branch []).Stands matchers (.settled depth) :=
  Stage.settled_ne_choosing depth

/-- Where no pattern is to be chosen, every label is known. -/
theorem Label.known_within (label : Label) (matchers : List CommutativeMatcher) (depth : Nat) :
    label.Known matchers (.within depth) :=
  fun _ _ _ _ h => Stage.noConfusion h

/-- A step to an ordinary state. -/
theorem Runs.single {step : Step} {depth : Nat} {next : Stage}
    (hleads : step.label.next? (.within depth) = some next)
    (hnext : ∀ d head, next ≠ .choosing d head) (hfresh : step.fresh = .branch []) :
    Runs matchers (.within depth) [step] next :=
  ⟨next, ⟨hleads, step.label.known_within matchers depth, hfresh ▸ hnext,
    hfresh ▸ ⟨rfl, rfl⟩⟩, rfl⟩

/-- The steps of an atom. -/
theorem hasShape_atom (t : Term) : HasShape (.atom t) := fun _ _ matchers hmatchers =>
  ⟨hmatchers, .refl matchers, fun depth => .single rfl (Stage.settled_ne_choosing depth) rfl, rfl⟩

/-- The steps of a wildcard. -/
theorem hasShape_wildcard (w : Wildcard) : HasShape (.wildcard w) := by
  intro constraints parent matchers hmatchers
  refine ⟨hmatchers, .refl matchers, fun depth => ?_, rfl⟩
  refine .single ?_ (Stage.settled_ne_choosing depth) rfl
  rcases label_wildcardStep parent w with ⟨kind, hlabel⟩ | ⟨minCount, wrap, hlabel⟩ <;>
    rw [hlabel] <;> rfl

/-- The steps of ordered arguments, one after the other. -/
theorem shapedAll_collectStepsAll {args : List PatternTerm} (hargs : ∀ p ∈ args, HasShape p)
    (constraints : List Constraint) (parent : Head) (hmatchers : ∀ m ∈ matchers, m.Formed) :
    ShapedAll constraints parent args matchers
      (collectStepsAll constraints parent args matchers) := by
  induction args generalizing matchers with
  | nil => exact ⟨hmatchers, .refl _, fun _ => rfl, rfl⟩
  | cons p ps ih =>
    have hfirst := hargs p List.mem_cons_self constraints (some parent) matchers hmatchers
    have hrest := ih (fun q hq => hargs q (List.mem_cons_of_mem p hq)) hfirst.formed
    refine ⟨hrest.formed, hfirst.enlarges.trans hrest.enlarges, fun depth => ?_, ?_⟩
    · exact ((hfirst.runs (depth + 1)).enlarge hrest.enlarges).append (hrest.runs depth)
    · rw [collectStepsAll?, hfirst.checked]
      show (do
        let result ← collectStepsAll? constraints parent ps
          (collectSteps constraints (some parent) p matchers).2
        return _) = _
      rw [hrest.checked]
      rfl

/-- **An ordered operation** is entered, its arguments follow, and it is closed. -/
theorem hasShape_ordered {head : Head} (hcomm : head.isCommutative = false)
    {args : List PatternTerm} (hargs : ∀ p ∈ args, HasShape p) : HasShape (.node head args) := by
  intro constraints parent matchers hmatchers
  have hall := shapedAll_collectStepsAll hargs constraints head hmatchers
  rw [collectSteps_ordered hcomm]
  refine ⟨hall.formed, hall.enlarges, fun depth => ?_, ?_⟩
  · have henter : Runs (collectStepsAll constraints head args matchers).2 (.within depth)
        [{ label := .enter head }] (.within (depth + 1)) :=
      .single rfl (fun d h heq => Stage.noConfusion heq) rfl
    have hclose : Runs (collectStepsAll constraints head args matchers).2 (.within (depth + 1))
        [{ label := .close }] (.settled depth) :=
      .single rfl (Stage.settled_ne_choosing depth) rfl
    exact (henter.append (hall.runs depth)).append hclose
  · rw [collectSteps?, if_neg (by simp [hcomm]), hall.checked]
    rfl

/-! ### Commutative operations -/

/-- **One more operand,** whose steps lead through the net of its matcher. -/
theorem CommutativeMatcher.Formed.withOperand {m : CommutativeMatcher} (h : m.Formed)
    (operand : OperandPattern) {result : List Step × List CommutativeMatcher}
    (hshaped : Shaped operand.constraints none operand.tree m.net.matchers result) :
    m.Changes (m.withOperand operand result.1 result.2).2 ∧
      m.withOperand? operand result.1 result.2 =
        some (m.withOperand operand result.1 result.2) := by
  obtain ⟨hnet, hchecked⟩ := h.net.insertSteps (m.entryOf operand) h.listed.count.symm
    hshaped.enlarges hshaped.formed (hshaped.runs 0)
  rw [CommutativeMatcher.withOperand_eq]
  refine ⟨⟨⟨⟨?_, h.listed.ordered, fun pattern hpattern o ho => ?_⟩, hnet⟩, rfl, Nat.le_refl _⟩, ?_⟩
  · show max m.net.patternCount (m.operands.length + 1) = (m.operands ++ [operand]).length
    rw [h.listed.count, Nat.max_eq_right (Nat.le_succ _), List.length_append]
    rfl
  · rw [List.length_append]
    exact Nat.lt_add_right _ (h.listed.bounded pattern hpattern o ho)
  · unfold CommutativeMatcher.withOperand?
    show (do
      let net ← m.net.insertSteps? (m.entryOf operand) result.1 result.2
      return _) = _
    rw [hchecked]
    rfl

/-- The operands of a commutative operation, each of which is a pattern of the matcher's net. -/
theorem shapedOperands_collectOperands {args : List PatternTerm} (hargs : ∀ p ∈ args, HasShape p)
    (constraints : List Constraint) (head : Head) {m : CommutativeMatcher} (hm : m.Formed) :
    ShapedOperands constraints head args m (collectOperands constraints head args m) := by
  induction args generalizing m with
  | nil =>
    exact ⟨⟨hm, rfl, Nat.le_refl _⟩, fun _ h => absurd h List.not_mem_nil, Nat.le_refl _, rfl⟩
  | cons p ps ih =>
    have hps : ∀ q ∈ ps, HasShape q := fun q hq => hargs q (List.mem_cons_of_mem p hq)
    rw [collectOperands]
    cases hvar : p.sequenceVariable? head with
    | some var =>
      obtain ⟨hchanges, hbounded, hmore, hchecked⟩ := ih hps hm
      refine ⟨hchanges, hbounded, hmore, ?_⟩
      rw [collectOperands?, hvar]
      exact hchecked
    | none =>
      let operand : OperandPattern := ⟨p, operandConstraints constraints p⟩
      -- Whether the operand is there or new, it has a position in a matcher of the right shape.
      have hfinish : ∀ (index : Nat) (next : CommutativeMatcher), m.Changes next →
          index < next.operands.length → m.operands.length ≤ next.operands.length →
          collectOperands? constraints head (p :: ps) m =
            ((collectOperands? constraints head ps next).bind fun result =>
              some (index :: result.1, result.2)) →
          ShapedOperands constraints head (p :: ps) m
            (index :: (collectOperands constraints head ps next).1,
              (collectOperands constraints head ps next).2) := by
        intro index next hnext hindex hlength hfound
        obtain ⟨hchanges, hbounded, hmore, hchecked⟩ := ih hps hnext.formed
        refine ⟨⟨hchanges.formed, hchanges.head.trans hnext.head,
          Nat.le_trans hnext.patterns hchanges.patterns⟩, ?_, Nat.le_trans hlength hmore, ?_⟩
        · exact List.forall_mem_cons.mpr ⟨Nat.lt_of_lt_of_le hindex hmore, hbounded⟩
        · rw [hfound, hchecked]
          rfl
      dsimp only
      cases hfind : m.operands.findIdx? operand.same with
      | some index =>
        refine hfinish index m ⟨hm, rfl, Nat.le_refl _⟩ ?_ (Nat.le_refl _) ?_
        · exact (List.findIdx?_eq_some_iff_getElem.mp hfind).1
        · rw [collectOperands?, hvar]
          dsimp only
          rw [hfind]
          rfl
      | none =>
        have hshaped := hargs p List.mem_cons_self operand.constraints none m.net.matchers
          hm.net.matcher
        obtain ⟨hchanges, hchecked⟩ := hm.withOperand operand hshaped
        have hlength : (m.withOperand operand
            (collectSteps operand.constraints none p m.net.matchers).1
            (collectSteps operand.constraints none p m.net.matchers).2).2.operands.length =
              m.operands.length + 1 := by
          rw [CommutativeMatcher.withOperand_eq, List.length_append]
          rfl
        refine hfinish m.operands.length _ hchanges (hlength ▸ Nat.lt_succ_self _)
          (hlength ▸ Nat.le_succ _) ?_
        rw [collectOperands?, hvar]
        dsimp only
        rw [hfind]
        dsimp only
        rw [hshaped.checked]
        exact congrArg (fun found : Option _ => found.bind _) hchecked

/-- **One more pattern** of operands that are there. -/
theorem CommutativeMatcher.Formed.register {m : CommutativeMatcher} (h : m.Formed)
    (pattern : CommutativePattern) (hordered : pattern.operands.Pairwise (· ≤ ·))
    (hbounded : ∀ o ∈ pattern.operands, o < m.operands.length) :
    m.Changes (m.register pattern).2 ∧
      (m.register pattern).1 < (m.register pattern).2.patterns.length := by
  obtain ⟨hget, more, hmore, hregister⟩ := m.register_eq pattern
  refine ⟨?_, (List.getElem?_eq_some_iff.mp hget).1⟩
  have hpatterns : ∀ p ∈ m.patterns ++ more, p ∈ m.patterns ∨ p = pattern := fun p hp =>
    (List.mem_append.mp hp).imp_right (hmore p)
  rw [hregister]
  refine ⟨⟨⟨h.listed.count, fun p hp => ?_, fun p hp => ?_⟩, h.net⟩, rfl, ?_⟩
  · rcases hpatterns p hp with hp | rfl
    · exact h.listed.ordered p hp
    · exact hordered
  · rcases hpatterns p hp with hp | rfl
    · exact h.listed.bounded p hp
    · exact hbounded
  · rw [List.length_append]
    exact Nat.le_add_right _ _

/-- Registering a commutative operation in the matcher of its head. -/
theorem changes_registerOperation {args : List PatternTerm} (hargs : ∀ p ∈ args, HasShape p)
    (head : Head) {m : CommutativeMatcher} (hm : m.Formed) :
    m.Changes (registerOperation constraints head args m).2 ∧
      (registerOperation constraints head args m).1 <
        (registerOperation constraints head args m).2.patterns.length := by
  obtain ⟨hchanges, hbounded, -, -⟩ :=
    shapedOperands_collectOperands hargs constraints head hm
  rw [registerOperation_eq]
  obtain ⟨hmore, hindex⟩ := hchanges.formed.register
    ⟨sortBy (· ≤ ·) (collectOperands constraints head args m).1, sequenceVariables head args⟩
    (pairwise_sortBy_le _)
    fun o ho => hbounded o ((sortBy_perm _ _).mem_iff.mp ho)
  exact ⟨⟨hmore.formed, hmore.head.trans hchanges.head,
    Nat.le_trans hchanges.patterns hmore.patterns⟩, hindex⟩

/-- **A commutative operation** is one edge for its head and one for its pattern. -/
theorem hasShape_commutative {head : Head} (hcomm : head.isCommutative = true)
    {args : List PatternTerm} (hargs : ∀ p ∈ args, HasShape p) : HasShape (.node head args) := by
  intro constraints parent matchers hmatchers
  obtain ⟨hformed, henlarges, hposition, m, hm, hhead, hresult, hget⟩ :=
    formed_change (f := registerOperation constraints head args)
      (fun m hm _ => (changes_registerOperation hargs head hm).1) hmatchers
  rw [collectSteps_commutative hcomm]
  let position :=
    (CommutativeMatcher.change head (registerOperation constraints head args) matchers).1
  refine ⟨hformed, henlarges, fun depth => ?_, ?_⟩
  · have hcommutative : Step.Stands _ (.within depth) (.choosing depth head)
        { label := .commutative head, fresh := .commutative position [] } :=
      ⟨rfl, Label.known_within _ _ depth, ⟨depth, head, rfl, hposition⟩, rfl, rfl⟩
    refine ⟨.choosing depth head, hcommutative, .settled depth,
      ⟨rfl, ?_, stands_branch_settled _ depth, rfl, rfl⟩, rfl⟩
    -- The pattern of the second edge is the one that has just been registered.
    intro index d other hlabel hstage
    obtain ⟨rfl, rfl⟩ := Stage.choosing.inj hstage
    obtain rfl := Label.operands.inj hlabel
    exact ⟨_, _, hposition, hget, hresult ▸ (changes_registerOperation hargs head hm).2⟩
  -- The checked registration does not stop either, whatever matcher the head has.
  · have hchange : ∀ m : CommutativeMatcher, m.Formed →
        (collectOperands? constraints head args m).bind (fun result =>
          some (result.2.register ⟨sortBy (· ≤ ·) result.1, sequenceVariables head args⟩)) =
            some (registerOperation constraints head args m) := by
      intro m hm
      rw [(shapedOperands_collectOperands hargs constraints head hm).checked]
      rfl
    have hchanged := CommutativeMatcher.change?_eq
      (hchange _ (CommutativeMatcher.formed_ofHead head)) fun m hm _ => hchange m (hmatchers m hm)
    rw [collectSteps?, if_pos hcomm]
    exact (congrArg (fun changed : Option _ => changed.bind _) hchanged).trans rfl

/-- **The steps of every tree lead through the net.** -/
theorem hasShape (p : PatternTerm) : HasShape p := by
  induction p using PatternTerm.inductionOn with
  | atom t => exact hasShape_atom t
  | wildcard w => exact hasShape_wildcard w
  | node head args ih =>
    cases hcomm : head.isCommutative with
    | true => exact hasShape_commutative hcomm ih
    | false => exact hasShape_ordered hcomm ih

/-! ### Nets of patterns -/

/-- One more pattern keeps the shape of a net, and nothing fails. -/
theorem Net.Formed.add (h : net.Formed) (pattern : Pattern) :
    (net.add pattern).Formed ∧ net.add? pattern = some (net.add pattern) := by
  let names := pattern.tree.positionalNames
  let locals := pattern.constraints.map (·.renamed names)
  let tree := pattern.tree.mapVariables fun name => (names.find? name).getD name
  have hshaped := hasShape tree locals none net.matchers h.matcher
  obtain ⟨hformed, hchecked⟩ := h.insertSteps
    ⟨net.patternCount, names.entries, locals, pattern.globals.map (·.renamed names)⟩
    rfl hshaped.enlarges hshaped.formed (hshaped.runs 0)
  refine ⟨hformed, ?_⟩
  unfold Net.add?
  show (do
    let collected ← collectSteps? locals none tree net.matchers
    _) = _
  rw [hshaped.checked]
  exact hchecked

/-- Any number of patterns keeps the shape of a net, by induction on them. -/
theorem Net.Formed.foldl_add (h : net.Formed) (patterns : List Pattern) :
    (patterns.foldl Net.add net).Formed ∧
      patterns.foldlM Net.add? net = some (patterns.foldl Net.add net) := by
  induction patterns generalizing net with
  | nil => exact ⟨h, rfl⟩
  | cons pattern rest ih =>
    obtain ⟨hformed, hchecked⟩ := h.add pattern
    rw [List.foldlM_cons, hchecked]
    exact ih hformed

/-- **The net of every list of patterns has the shape of a net.** -/
theorem Net.formed_ofPatterns (patterns : List Pattern) : (Net.ofPatterns patterns).Formed :=
  (Net.formed_empty.foldl_add patterns).1

/-- **Building the net of patterns** comes to no case that must not happen. -/
theorem Net.ofPatterns?_eq (patterns : List Pattern) :
    Net.ofPatterns? patterns = some (Net.ofPatterns patterns) :=
  (Net.formed_empty.foldl_add patterns).2

end TermNet
