import TermNet.Proofs.Shape.Paths
import TermNet.Proofs.Shape.Walk

namespace TermNet

/-!
# What every net looks like

Whatever patterns are added to the empty net, at every nesting level of matchers: the states are
a tree, the states of commutative operations stand behind their operations and nowhere else,
every pattern has one marker, and an edge lists the patterns whose paths use it.  So neither
building the net nor matching with it comes to a case that must not happen.

* `Net.WellFormed` — what is true of every net, in terms of its listed states;
* `Net.AtEveryLevel` — what is true of a net and of the nets of its matchers;
* `nets_are_well_formed` — the result.
-/

/-- **What every net looks like,** its matchers' nets apart. -/
structure Net.WellFormed (net : Net) : Prop where
  /-- The states have the numbers from 0 on, which is that of the root. -/
  numbers : net.states.map Prod.fst = List.range net.stateCount
  root : (0, net.root) ∈ net.states
  /-- Every state but the root is the target of exactly one edge. -/
  entered : ((net.states.flatMap fun entry => entry.2.edges).map Edge.id).Perm
    (List.range' 1 (net.stateCount - 1))
  target : ∀ entry ∈ net.states, ∀ edge ∈ entry.2.edges, (edge.id, edge.target) ∈ net.states
  /-- Every state is reached from the root. -/
  reached : ∀ entry ∈ net.states, ∃ path, Descends (0, net.root) path entry
  /-- No two edges of a state have the same label and the same variable. -/
  distinct : ∀ entry ∈ net.states,
    (entry.2.edges.map fun edge => (edge.label, edge.variableName)).Nodup
  /-- The state of a matcher stands behind an operation with its head, and nowhere else. -/
  commutative : ∀ entry ∈ net.states, ∀ edge ∈ entry.2.edges, ∀ head,
    edge.label = .commutative head ↔ ∃ position branches m,
      edge.target = .commutative position branches ∧ net.matchers[position]? = some m ∧
        m.head = head
  ordinary : (∀ position branches, net.root ≠ .commutative position branches) ∧
    ∀ entry ∈ net.states, ∀ edge ∈ entry.2.edges, ∀ position branches,
      edge.target = .commutative position branches → ∃ head, edge.label = .commutative head
  /-- Its edges are labelled with the patterns of the matcher, and no others are. -/
  operands : ∀ id position branches, (id, State.commutative position branches) ∈ net.states →
    ∃ m, net.matchers[position]? = some m ∧
      ∀ branch ∈ branches, ∃ index < m.patterns.length, branch.label = .operands index
  labels : ∀ entry ∈ net.states, ∀ edge ∈ entry.2.edges, ∀ index, edge.label = .operands index →
    ∃ position branches, entry.2 = .commutative position branches
  /-- The operands of a pattern of a matcher are in order, and are patterns of its net. -/
  patterns : ∀ m ∈ net.matchers, m.net.patternCount = m.operands.length ∧
    ∀ pattern ∈ m.patterns, pattern.operands.Pairwise (· ≤ ·) ∧
      ∀ index ∈ pattern.operands, index < m.operands.length
  /-- Every pattern has exactly one marker, and an accepting state has no edges. -/
  markers : ((net.states.flatMap fun entry => entry.2.finals).map Marker.pattern).Perm
    (List.range net.patternCount)
  final : ∀ entry ∈ net.states, entry.2.finals ≠ [] → entry.2.edges = []
  /-- An edge lists the patterns whose paths from the root to their markers use it. -/
  users : ∀ entry ∈ net.states, ∀ edge ∈ entry.2.edges, edge.patterns.Pairwise (· < ·) ∧
    ∀ pattern, pattern ∈ edge.patterns ↔ ∃ path id markers,
      Descends (0, net.root) path (id, .accept markers) ∧ edge ∈ path ∧
        ∃ m ∈ markers, m.pattern = pattern

/-- What is true of a net and, at every nesting level, of the nets of its matchers. -/
inductive Net.AtEveryLevel (P : Net → Prop) : Net → Prop where
  | intro {net : Net} (here : P net)
      (inner : ∀ matcher ∈ net.matchers, Net.AtEveryLevel P matcher.net) : Net.AtEveryLevel P net

variable {net : Net}

/-- What follows from the shape of a net is true at every level. -/
theorem Net.Formed.atEveryLevel {P : Net → Prop} (h : net.Formed)
    (hP : ∀ net : Net, net.Formed → P net) : net.AtEveryLevel P := by
  induction h with
  | intro root numbers markers listed nested ih =>
    exact .intro (hP _ (.intro root numbers markers listed nested)) ih

/-- The states of a net are those that are numbered from its root. -/
theorem Net.states_perm (net : Net) : net.states.Perm (net.root.numbered 0) := sortBy_perm _ _

/-- A net has the states that can be reached from its root. -/
theorem Net.mem_states_iff {entry : StateId × State} :
    entry ∈ net.states ↔ ∃ path, Descends (0, net.root) path entry :=
  net.states_perm.mem_iff.trans mem_numbered_iff

/-- Every listed state has its shape. -/
theorem Net.Formed.of_mem_states (h : net.Formed) {entry : StateId × State}
    (hentry : entry ∈ net.states) : ∃ stage, entry.2.Formed net.matchers stage := by
  obtain ⟨path, hpath⟩ := Net.mem_states_iff.mp hentry
  exact hpath.formed h.root

/-- The states are listed in the order of their numbers. -/
theorem Net.Formed.map_fst_states (h : net.Formed) :
    net.states.map Prod.fst = List.range net.stateCount := by
  have hperm : (net.states.map Prod.fst).Perm (List.range net.stateCount) := by
    refine (net.states_perm.map Prod.fst).trans ?_
    rw [map_fst_numbered]
    exact h.numbers
  have hsorted : (net.states.map Prod.fst).Pairwise (· ≤ ·) := by
    have hle : net.states.Pairwise fun a b => decide (a.1 ≤ b.1) = true := by
      refine sortBy_pairwise (fun a b c hab hbc => ?_) (fun a b => ?_) (net.root.numbered 0)
      · exact decide_eq_true (Nat.le_trans (of_decide_eq_true hab) (of_decide_eq_true hbc))
      · exact (Nat.le_total a.1 b.1).imp decide_eq_true decide_eq_true
    exact List.pairwise_map.mpr (hle.imp of_decide_eq_true)
  exact hperm.eq_of_pairwise (fun _ _ _ _ => Nat.le_antisymm) hsorted List.pairwise_le_range

/-- The label of an edge to the state of a matcher. -/
theorem State.Formed.label_of_target {matchers : List CommutativeMatcher} {stage : Stage}
    {state : State} (h : state.Formed matchers stage) {edge : Edge} (hedge : edge ∈ state.edges)
    {position : Nat} {branches : List Edge}
    (htarget : edge.target = .commutative position branches) :
    ∃ head, edge.label = .commutative head ∧ positionOf? matchers head = some position := by
  obtain ⟨next, hnext⟩ := Option.isSome_iff_exists.mp (h.sound hedge).leads
  have hstands := (h.target hedge hnext).stands
  rw [htarget] at hstands
  obtain ⟨depth, head, rfl, hposition⟩ := hstands
  by_cases hcommutative : ∃ head, edge.label = .commutative head
  · obtain ⟨other, hlabel⟩ := hcommutative
    rw [hlabel] at hnext
    obtain ⟨d, -, hchoosing⟩ := Label.next?_commutative hnext
    obtain ⟨rfl, rfl⟩ := Stage.choosing.inj hchoosing
    exact ⟨head, hlabel, hposition⟩
  · exact absurd rfl (Label.next?_ne_choosing (fun head hlabel => hcommutative ⟨head, hlabel⟩) hnext
      depth head)

/-- The target of the edge of a commutative operation. -/
theorem State.Formed.target_of_label {matchers : List CommutativeMatcher} {stage : Stage}
    {state : State} (h : state.Formed matchers stage) {edge : Edge} (hedge : edge ∈ state.edges)
    {head : Head} (hlabel : edge.label = .commutative head) :
    ∃ position branches, edge.target = .commutative position branches ∧
      positionOf? matchers head = some position := by
  obtain ⟨next, hnext⟩ := Option.isSome_iff_exists.mp (h.sound hedge).leads
  have hstands := (h.target hedge hnext).stands
  rw [hlabel] at hnext
  obtain ⟨depth, -, rfl⟩ := Label.next?_commutative hnext
  -- Behind the edge the patterns of the operation are chosen from, so nothing else stands there.
  cases htarget : edge.target with
  | branch edges =>
    rw [htarget] at hstands
    exact absurd rfl (hstands depth head)
  | accept markers =>
    rw [htarget] at hstands
    exact Stage.noConfusion hstands
  | commutative position branches =>
    rw [htarget] at hstands
    obtain ⟨d, other, heq, hposition⟩ := hstands
    obtain ⟨rfl, rfl⟩ := Stage.choosing.inj heq
    exact ⟨position, branches, rfl, hposition⟩

/-- The labels out of the state of a matcher. -/
theorem State.Formed.branches {matchers : List CommutativeMatcher} {stage : Stage}
    {position : Nat} {branches : List Edge}
    (h : (State.commutative position branches).Formed matchers stage) :
    ∃ m, matchers[position]? = some m ∧
      ∀ branch ∈ branches, ∃ index < m.patterns.length, branch.label = .operands index := by
  obtain ⟨depth, head, rfl, hposition⟩ := h.stands
  obtain ⟨m, hm, -⟩ := exists_of_positionOf? hposition
  refine ⟨m, hm, fun branch hbranch => ?_⟩
  have hsound : branch.Sound matchers _ := h.sound hbranch
  obtain ⟨next, hnext⟩ := Option.isSome_iff_exists.mp hsound.leads
  obtain ⟨index, hlabel⟩ := Label.next?_choosing hnext
  obtain ⟨other, m', hother, hm', hlt⟩ := hsound.known index depth head hlabel rfl
  obtain rfl : position = other := Option.some.inj (hposition.symm.trans hother)
  obtain rfl : m = m' := Option.some.inj (hm.symm.trans hm')
  exact ⟨index, hlt, hlabel⟩

/-- The labels of the patterns of a matcher are found at its state only. -/
theorem State.Formed.eq_commutative {matchers : List CommutativeMatcher} {stage : Stage}
    {state : State} (h : state.Formed matchers stage) {edge : Edge} (hedge : edge ∈ state.edges)
    {index : Nat} (hlabel : edge.label = .operands index) :
    ∃ position branches, state = .commutative position branches := by
  have hleads := (h.sound hedge).leads
  rw [hlabel] at hleads
  cases stage with
  | within depth => exact absurd hleads (by simp [Label.next?])
  | finished => exact absurd hleads (by simp [Label.next?])
  | choosing depth head =>
    cases state with
    | branch edges => exact absurd rfl (h.stands depth head)
    | commutative position branches => exact ⟨position, branches, rfl⟩
    | accept markers => exact Stage.noConfusion h.stands

/-- **A net of the right shape is well-formed.** -/
theorem Net.Formed.wellFormed (h : net.Formed) : net.WellFormed where
  numbers := h.map_fst_states
  root := Net.mem_states_iff.mpr ⟨[], .here _⟩
  entered := by
    refine ((net.states_perm.flatMap_right _).map Edge.id).trans
      ((map_id_numbered 0 net.root).trans ?_)
    -- All numbers but that of the root are those of edges.
    have hnumbers := h.numbers
    have hpos : 0 < net.stateCount := by
      simpa using (hnumbers.mem_iff (a := 0)).mp List.mem_cons_self
    rw [show net.stateCount = net.stateCount - 1 + 1 by omega, List.range_eq_range',
      List.range'_succ] at hnumbers
    exact hnumbers.cons_inv
  target entry hentry edge hedge := by
    obtain ⟨path, hpath⟩ := Net.mem_states_iff.mp hentry
    exact Net.mem_states_iff.mpr ⟨_, hpath.snoc hedge⟩
  reached entry hentry := Net.mem_states_iff.mp hentry
  distinct entry hentry := by
    obtain ⟨stage, hformed⟩ := h.of_mem_states hentry
    exact hformed.distinct
  commutative entry hentry edge hedge head := by
    obtain ⟨stage, hformed⟩ := h.of_mem_states hentry
    constructor
    · intro hlabel
      obtain ⟨position, branches, htarget, hposition⟩ := hformed.target_of_label hedge hlabel
      obtain ⟨m, hm, hhead⟩ := exists_of_positionOf? hposition
      exact ⟨position, branches, m, htarget, hm, hhead⟩
    · rintro ⟨position, branches, m, htarget, hm, rfl⟩
      obtain ⟨head, hlabel, hposition⟩ := hformed.label_of_target hedge htarget
      obtain ⟨m', hm', rfl⟩ := exists_of_positionOf? hposition
      obtain rfl : m = m' := Option.some.inj (hm.symm.trans hm')
      exact hlabel
  ordinary := by
    refine ⟨fun position branches hroot => ?_, fun entry hentry edge hedge position branches
      htarget => ?_⟩
    -- The root does not choose among patterns of a commutative operation.
    · have hstands := h.root.stands
      rw [hroot] at hstands
      obtain ⟨depth, head, heq, -⟩ := hstands
      exact Stage.noConfusion heq
    · obtain ⟨stage, hformed⟩ := h.of_mem_states hentry
      obtain ⟨head, hlabel, -⟩ := hformed.label_of_target hedge htarget
      exact ⟨head, hlabel⟩
  operands id position branches hentry := by
    obtain ⟨stage, hformed⟩ := h.of_mem_states hentry
    exact hformed.branches
  labels entry hentry edge hedge index hlabel := by
    obtain ⟨stage, hformed⟩ := h.of_mem_states hentry
    exact hformed.eq_commutative hedge hlabel
  patterns m hm := by
    obtain ⟨hcount, hordered, hbounded⟩ := (h.matcher m hm).listed
    exact ⟨hcount, fun pattern hpattern => ⟨hordered pattern hpattern, hbounded pattern hpattern⟩⟩
  markers := by
    refine ((net.states_perm.flatMap_right _).map Marker.pattern).trans ?_
    rw [flatMap_finals_numbered]
    exact h.markers
  final entry hentry hfinals := by
    obtain ⟨id, state⟩ := entry
    cases state with
    | branch edges => exact absurd rfl hfinals
    | commutative position edges => exact absurd rfl hfinals
    | accept markers => rfl
  users entry hentry edge hedge := by
    obtain ⟨stage, hformed⟩ := h.of_mem_states hentry
    obtain ⟨path, hpath⟩ := Net.mem_states_iff.mp hentry
    have hsound := hformed.sound hedge
    exact ⟨hsound.ascending, fun pattern => hsound.mem_patterns_iff hpath hedge pattern⟩

/-- Adding patterns adds to the number of patterns. -/
theorem Net.patternCount_foldl_add (net : Net) (patterns : List Pattern) :
    (patterns.foldl Net.add net).patternCount = net.patternCount + patterns.length := by
  induction patterns generalizing net with
  | nil => rfl
  | cons pattern rest ih =>
    have hadd : (net.add pattern).patternCount = net.patternCount + 1 :=
      Nat.max_eq_right (Nat.le_succ _)
    rw [List.foldl_cons, ih, hadd, List.length_cons]
    omega

/-- **Every net is well-formed, at every level.**  Adding patterns to the empty net comes to no
    case that must not happen and gives one index to each pattern; the net and the nets of its
    matchers are well-formed; and none of them comes to a case that must not happen when it
    matches a subject. -/
theorem nets_are_well_formed (patterns : List Pattern) :
    Net.ofPatterns? patterns = some (Net.ofPatterns patterns) ∧
      (Net.ofPatterns patterns).patternCount = patterns.length ∧
      (Net.ofPatterns patterns).AtEveryLevel Net.WellFormed ∧
      (Net.ofPatterns patterns).AtEveryLevel fun net =>
        ∀ subject, net.matches? subject = some (net.matches subject) := by
  have hformed := Net.formed_ofPatterns patterns
  refine ⟨Net.ofPatterns?_eq patterns, ?_, hformed.atEveryLevel fun _ => Net.Formed.wellFormed,
    hformed.atEveryLevel fun _ => Net.Formed.matches?_eq⟩
  rw [Net.ofPatterns, Net.patternCount_foldl_add]
  exact Nat.zero_add _

end TermNet
