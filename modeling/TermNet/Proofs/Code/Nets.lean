import TermNet.Proofs.Code.States
import TermNet.Proofs.Code.Items

namespace TermNet

/-! ### Counting functions -/

mutual

/-- Number of functions for the states of a net and of the nets of its matchers. -/
def Net.functionCount : Net → Nat
  | ⟨root, _, _, matchers, _⟩ => root.functionCount + matcherFunctions matchers
termination_by structural net => net

/-- Number of functions for the states of the nets of matchers. -/
def matcherFunctions : List CommutativeMatcher → Nat
  | [] => 0
  | ⟨_, net, _, _⟩ :: rest => Net.functionCount net + matcherFunctions rest
termination_by structural matchers => matchers

end

/-- The functions of a net are those of its states, and those of its matchers. -/
theorem Net.functionCount_eq (net : Net) :
    net.functionCount = net.root.functionCount + matcherFunctions net.matchers := by
  cases net
  rfl

/-- The functions of matchers, one after the other. -/
theorem matcherFunctions_cons (matcher : CommutativeMatcher) (rest : List CommutativeMatcher) :
    matcherFunctions (matcher :: rest) = matcher.net.functionCount + matcherFunctions rest := by
  cases matcher
  rfl

namespace Code

variable {e e' : Emission}

/-- Number of functions for the states of the nets of matchers among items. -/
def functionsIn (items : List Item) : Nat :=
  ((typesIn items).flatMap (·.function.states)).length

/-! ### Tables -/

/-- A sequence variable adds the static item of its default. -/
theorem steady_emitSequenceVariable (var : SequenceVariable) :
    Steady (emitSequenceVariable var) :=
  (steady_emitDefault var.default).bind fun _ => steady_pure _

/-- The table of a matcher adds the static items of defaults. -/
theorem steady_emitTable (patterns : List CommutativePattern) : Steady (emitTable patterns) :=
  Steady.mapM (fun _ => (Steady.mapM steady_emitSequenceVariable _).bind fun _ => steady_pure _) _

/-- What has been emitted one after the other is read back one after the other. -/
theorem map_of_emits_mapM {α β : Type} {f : α → Emit β} {g : β → α} {heads : String → Option Head}
    {expressions : String → Option Term} (hf : ∀ a, Steady (f a)) {as : List α} {bs : List β}
    (h : Emits (as.mapM f) e bs e') (hknown : e'.KnownTo heads expressions)
    (hback : ∀ a ∈ as, ∀ b before after, Emits (f a) before b after →
      after.KnownTo heads expressions → g b = a) : bs.map g = as := by
  induction as generalizing e e' bs with
  | nil =>
    rw [List.mapM_nil] at h
    obtain ⟨rfl, -⟩ := emits_pure.mp h
    rfl
  | cons a rest ih =>
    rw [List.mapM_cons] at h
    simp only [emits_bind, emits_pure] at h
    obtain ⟨b, between, hb, later, last, hlater, rfl, rfl⟩ := h
    have hsteady := Steady.mapM hf rest _ _ _ hlater
    rw [List.map_cons, hback a List.mem_cons_self b _ _ hb (hknown.of_reaches hsteady),
      ih hlater hknown fun a ha => hback a (List.mem_cons_of_mem _ ha)]

/-- **The table of a matcher** has its patterns. -/
theorem map_emitTable {patterns : List CommutativePattern} {table : List PatternEntry}
    (h : Emits (emitTable patterns) e table e') (hplain : ∀ pattern ∈ patterns, pattern.Plain)
    {heads : String → Option Head} {expressions : String → Option Term}
    (hknown : e'.KnownTo heads expressions) :
    table.map (PatternEntry.pattern expressions) = patterns := by
  refine map_of_emits_mapM (fun _ =>
    (Steady.mapM steady_emitSequenceVariable _).bind fun _ => steady_pure _) h hknown ?_
  intro pattern hpattern entry before after hentry hafter
  simp only [emits_bind, emits_pure] at hentry
  obtain ⟨vars, last, hvars, rfl, rfl⟩ := hentry
  have hback : vars.map (SequenceEntry.variable expressions) = pattern.sequenceVars := by
    refine map_of_emits_mapM steady_emitSequenceVariable hvars hafter ?_
    intro var hvar entry before after hentry hafter
    simp only [emitSequenceVariable, emits_bind, emits_pure] at hentry
    obtain ⟨default, _, hdefault, rfl, rfl⟩ := hentry
    unfold SequenceEntry.variable
    dsimp only
    rw [bind_emitDefault hdefault (hplain pattern hpattern var hvar) hafter]
  unfold PatternEntry.pattern
  dsimp only
  rw [hback]

/-! ### Growth -/

/-- What emitting a net leads to. -/
structure NetEmitted (net : Net) (name : String) (e : Emission) (function : MatcherFunction)
    (e' : Emission) : Prop where
  grows : e.Grows e'
  functions : functionsIn e'.items + function.states.length =
    functionsIn e.items + net.functionCount
  names : ∃ ids : List StateId, ids.Nodup ∧ function.states.map StateFunction.name =
    ids.map (stateFunctionName (Text.withoutRawMark name))

/-- The functions of the states of a net: how many there are, and their names. -/
theorem emits_states {net : Net} (hformed : net.Formed) {scope : NetScope}
    {functions : List StateFunction} (h : Emits (emitStates scope net.states) e functions e') :
    functions.length = net.root.functionCount ∧
      ∃ ids : List StateId, ids.Nodup ∧
        functions.map StateFunction.name = ids.map (stateFunctionName scope.stem) := by
  have hnames := map_name_emitStates h
  constructor
  · have hlength := congrArg List.length hnames
    rw [List.length_map, List.length_map, ← List.countP_eq_length_filter,
      net.states_perm.countP_eq, countP_numbered] at hlength
    exact hlength
  · refine ⟨(net.states.filter (·.2.hasFunction)).map Prod.fst, ?_,
      by rw [hnames, List.map_map]; rfl⟩
    have hnodup : (net.states.map Prod.fst).Nodup := by
      rw [hformed.map_fst_states]
      exact List.nodup_range
    exact hnodup.sublist (List.filter_sublist.map Prod.fst)

/-- The functions of a net have the name that they are emitted with. -/
theorem name_of_emits {name : String} {isPublic : Bool} {net : Net} {function : MatcherFunction}
    (h : Emits (emitNet name isPublic net) e function e') : function.name = name := by
  cases net with
  | mk root stateCount registry matchers patternCount =>
    simp only [emitNet, emits_bind, emits_pure] at h
    obtain ⟨_, _, -, _, _, -, rfl, -⟩ := h
    rfl

mutual

/-- **Emitting a net:** its matchers come first, then the functions of its states. -/
theorem netEmitted_emitNet {name : String} {isPublic : Bool} {net : Net} (hformed : net.Formed)
    {e e' : Emission} {function : MatcherFunction}
    (h : Emits (emitNet name isPublic net) e function e') : NetEmitted net name e function e' := by
  cases net with
  | mk root stateCount registry matchers patternCount =>
    simp only [emitNet, emits_bind, emits_pure] at h
    obtain ⟨types, between, htypes, states, last, hstates, rfl, rfl⟩ := h
    obtain ⟨hgrows, hcount⟩ := grows_emitMatchers hformed.matcher htypes
    have hsteady := steady_emitStates _ _ _ _ _ hstates
    obtain ⟨hlength, hnames⟩ := emits_states hformed hstates
    refine ⟨hgrows.trans hsteady.grows, ?_, hnames⟩
    show functionsIn last.items + states.length = _
    rw [functionsIn, hsteady.typesIn_eq.1, ← functionsIn, hcount, hlength, Net.functionCount_eq,
      Nat.add_assoc, Nat.add_comm (matcherFunctions _)]
termination_by structural net

/-- Emitting matchers, one after the other. -/
theorem grows_emitMatchers {matchers : List CommutativeMatcher}
    (hformed : ∀ matcher ∈ matchers, matcher.Formed) {e e' : Emission} {types : List String}
    (h : Emits (emitMatchers matchers) e types e') :
    e.Grows e' ∧ functionsIn e'.items = functionsIn e.items + matcherFunctions matchers := by
  cases matchers with
  | nil =>
    obtain ⟨-, rfl⟩ := emits_pure.mp h
    exact ⟨.refl e, rfl⟩
  | cons matcher rest =>
    simp only [emitMatchers, emits_bind, emits_pure] at h
    obtain ⟨first, between, hfirst, later, last, hlater, rfl, rfl⟩ := h
    obtain ⟨hhead, hcount⟩ := grows_emitMatcher (hformed matcher List.mem_cons_self) hfirst
    obtain ⟨htail, hrest⟩ :=
      grows_emitMatchers (fun m hm => hformed m (List.mem_cons_of_mem _ hm)) hlater
    refine ⟨hhead.trans htail, ?_⟩
    rw [hrest, hcount, matcherFunctions_cons, Nat.add_assoc]
termination_by structural matchers

/-- **Emitting a matcher** takes the next number, and then those of the matchers of its net. -/
theorem grows_emitMatcher {matcher : CommutativeMatcher} (hformed : matcher.Formed)
    {e e' : Emission} {name : String} (h : Emits (emitMatcher matcher) e name e') :
    e.Grows e' ∧ functionsIn e'.items = functionsIn e.items + matcher.net.functionCount := by
  cases matcher with
  | mk head net operands patterns =>
    simp only [emitMatcher, emits_bind, emits_get, emits_modify, emits_pure] at h
    obtain ⟨_, _, ⟨rfl, rfl⟩, _, begun, rfl, headName, afterHead, hhead, function, afterNet, hnet,
      table, afterTable, htable, _, last, rfl, rfl, rfl⟩ := h
    have hheadSteady := steady_emitHead head _ _ _ hhead
    have htableSteady := steady_emitTable patterns _ _ _ htable
    obtain ⟨hgrows, hcount, hnames⟩ := netEmitted_emitNet hformed.net hnet
    rw [withoutRawMark_operandFunctionName] at hnames
    refine ⟨Emission.Grows.addMatcher
      (hheadSteady.grows.trans (hgrows.trans htableSteady.grows))
        ⟨rfl, name_of_emits hnet, hnames⟩, ?_⟩
    have htypes : typesIn afterHead.items = typesIn e.items := hheadSteady.typesIn_eq.1
    -- Heads and tables add no functions, only the net and the type of the matcher do.
    have hadded (type : MatcherType) : functionsIn (afterTable.items ++ [Item.matcher type]) =
        functionsIn afterNet.items + type.function.states.length := by
      rw [functionsIn, typesIn, List.filterMap_append, ← typesIn, htableSteady.typesIn_eq.1]
      simp [functionsIn]
    rw [hadded, hcount, functionsIn, htypes]
    rfl
termination_by structural matcher

end

/-! ### Matching -/

/-- All functions of a module have different names, and so have the types of its matchers. -/
structure Module.Distinct (m : Module) : Prop where
  states : (m.states.map StateFunction.name).Nodup
  types : (m.matcherTypes.map MatcherType.name).Nodup

/-- What has been emitted by some point is in a module. -/
structure Module.Holds (m : Module) (e : Emission) : Prop where
  known : e.KnownTo m.headOf m.expressionOf
  types : ∀ type ∈ typesIn e.items, type ∈ m.matcherTypes

variable {m : Module} {checks : Source.Path → List Binding → Bool}

/-- A module with everything that has been emitted later has what was emitted before. -/
theorem Module.Holds.of_grows (h : m.Holds e') (hgrows : e.Grows e') : m.Holds e :=
  ⟨h.known.of_grows hgrows, fun type htype => h.types type (hgrows.mem_typesIn htype)⟩

/-- The functions of states: those of matchers, and those of the net. -/
theorem Module.states_eq (m : Module) :
    m.states = m.matcherTypes.flatMap (·.function.states) ++ m.main.states := by
  rw [Module.states, Module.functions, List.flatMap_append, List.flatMap_map, List.flatMap_cons,
    List.flatMap_nil, List.append_nil]

/-- The functions of the states of a matcher in a module are functions of the module. -/
theorem Module.mem_states {type : MatcherType} (htype : type ∈ m.matcherTypes)
    {function : StateFunction} (h : function ∈ type.function.states) : function ∈ m.states :=
  List.mem_flatMap.mpr
    ⟨type.function, List.mem_append_left _ (List.mem_map_of_mem htype), h⟩

/-- **What is known of a net whose functions are in a module,** once its matchers are. -/
theorem hosts_of_emits {net : Net} (hplain : net.Plain (Denotes checks))
    (hdistinct : m.Distinct) {stem : String} {types : List String}
    {functions : List StateFunction}
    (h : Emits (emitStates ⟨net.registry, stem, types⟩ net.states) e functions e')
    (hknown : e'.KnownTo m.headOf m.expressionOf) (hstates : ∀ f ∈ functions, f ∈ m.states)
    {inner : Nat} (hmatchers : ∀ depth, inner ≤ depth → ∀ (position : Nat) (found : OperandMatcher),
      (operandMatchers net.matchers)[position]? = some found →
        m.matcherOf (m.call checks depth) (types[position]?.getD "") = some found) :
    m.Hosts checks ⟨net.registry, stem, types⟩ (operandMatchers net.matchers) net.states inner where
  nodup := hdistinct.states
  denote := fun _ _ hget => hplain.checks _ (ConstraintRegistry.mem_constraints_of_get? hget)
  plain := by
    intro entry hentry edge hedge
    obtain ⟨path, hpath⟩ := Net.mem_states_iff.mp hentry
    exact ((hplain.root.of_path hpath).edge edge hedge).1
  closed := by
    intro entry hentry edge hedge
    obtain ⟨path, hpath⟩ := Net.mem_states_iff.mp hentry
    exact Net.mem_states_iff.mpr ⟨_, hpath.snoc hedge⟩
  functions := by
    intro entry hentry hfunction
    obtain ⟨function, hmem, hname, before, after, hemits, hreaches⟩ :=
      exists_of_emitStates h hentry hfunction
    exact ⟨function, hstates function hmem, hname, before, after, hemits,
      hknown.of_reaches hreaches⟩
  matchers := hmatchers

mutual

/-- **The function of a net** matches like the net, with calls nested as deep as there are
    functions. -/
theorem matches_emitNet {name : String} {isPublic : Bool} {net : Net} (hformed : net.Formed)
    (hplain : net.Plain (Denotes checks)) (hdistinct : m.Distinct) {e e' : Emission}
    {function : MatcherFunction} (h : Emits (emitNet name isPublic net) e function e')
    (hholds : m.Holds e') (hstates : ∀ f ∈ function.states, f ∈ m.states) {depth : Nat}
    (hdepth : net.functionCount ≤ depth) :
    function.matches (m.call checks depth) = net.matches := by
  cases net with
  | mk root stateCount registry matchers patternCount =>
    simp only [emitNet, emits_bind, emits_pure] at h
    obtain ⟨types, between, htypes, states, last, hemits, rfl, rfl⟩ := h
    have hsteady := steady_emitStates _ _ _ _ _ hemits
    have hosts := hosts_of_emits hplain hdistinct hemits hholds.known hstates
      fun inner hinner => matcherOf_emitMatchers hformed.matcher hplain.matcher hdistinct
        htypes (hholds.of_grows hsteady.grows) hinner
    have hcall := (hosts.call_eq_walk hformed.root
      (Net.mem_states_iff.mpr ⟨[], .here _⟩)).2 hformed.hasFunction_root depth
      (by rw [Net.functionCount_eq] at hdepth; exact (Nat.add_comm _ _).trans_le hdepth)
    funext subject
    show (m.call checks depth _ _ _ _).1 = _
    rw [hcall]
    rfl
termination_by structural net

/-- The types of matchers stand for the matchers of the net. -/
theorem matcherOf_emitMatchers {matchers : List CommutativeMatcher}
    (hformed : ∀ matcher ∈ matchers, matcher.Formed)
    (hplain : ∀ matcher ∈ matchers, matcher.Plain (Denotes checks)) (hdistinct : m.Distinct)
    {e e' : Emission} {types : List String}
    (h : Emits (emitMatchers matchers) e types e') (hholds : m.Holds e') {depth : Nat}
    (hdepth : matcherFunctions matchers ≤ depth) (position : Nat) (found : OperandMatcher)
    (hfound : (operandMatchers matchers)[position]? = some found) :
    m.matcherOf (m.call checks depth) (types[position]?.getD "") = some found := by
  cases matchers with
  | nil => simp [operandMatchers] at hfound
  | cons matcher rest =>
    simp only [emitMatchers, emits_bind, emits_pure] at h
    obtain ⟨first, between, hfirst, later, last, hlater, rfl, rfl⟩ := h
    rw [matcherFunctions_cons] at hdepth
    cases position with
    | zero =>
      have hgrows := (grows_emitMatchers (fun m hm => hformed m (List.mem_cons_of_mem _ hm))
        hlater).1
      rw [operandMatchers, List.getElem?_cons_zero] at hfound
      obtain rfl := Option.some.inj hfound
      exact matcherOf_emitMatcher (hformed matcher List.mem_cons_self)
        (hplain matcher List.mem_cons_self) hdistinct hfirst
        (hholds.of_grows hgrows) (by omega)
    | succ position =>
      rw [operandMatchers, List.getElem?_cons_succ] at hfound
      exact matcherOf_emitMatchers (fun m hm => hformed m (List.mem_cons_of_mem _ hm))
        (fun m hm => hplain m (List.mem_cons_of_mem _ hm))
        hdistinct hlater hholds (by omega)
        position found hfound
termination_by structural matchers

/-- The type of a matcher stands for the matcher. -/
theorem matcherOf_emitMatcher {matcher : CommutativeMatcher} (hformed : matcher.Formed)
    (hplain : matcher.Plain (Denotes checks)) (hdistinct : m.Distinct)
    {e e' : Emission} {name : String} (h : Emits (emitMatcher matcher) e name e')
    (hholds : m.Holds e') {depth : Nat} (hdepth : matcher.net.functionCount ≤ depth) :
    m.matcherOf (m.call checks depth) name = some matcher.operandMatcher := by
  cases matcher with
  | mk head net operands patterns =>
    simp only [emitMatcher, emits_bind, emits_get, emits_modify, emits_pure] at h
    obtain ⟨_, _, ⟨rfl, rfl⟩, _, begun, rfl, headName, afterHead, hhead, function, afterNet, hnet,
      table, afterTable, htable, _, last, rfl, rfl, rfl⟩ := h
    have htableSteady := steady_emitTable patterns _ _ _ htable
    have hnetGrows := (netEmitted_emitNet hformed.net hnet).grows
    have hholdsTable : m.Holds afterTable :=
      ⟨⟨hholds.known.heads, hholds.known.expressions⟩, fun type htype => hholds.types type (by
        rw [typesIn, List.filterMap_append]
        exact List.mem_append_left _ htype)⟩
    have htype := hholds.types
      ⟨matcherTypeName e.matcherCount, headName, table, function⟩ (by
        rw [typesIn, List.filterMap_append]
        exact List.mem_append_right _ (by simp))
    have hholdsNet := hholdsTable.of_grows htableSteady.grows
    obtain ⟨-, index, hindex, rfl⟩ := emits_emitHead hhead
    have hheadOf : m.headOf (headName index) = some head :=
      (hholdsNet.of_grows hnetGrows).known.heads index head hindex
    have hmatches := matches_emitNet hformed.net hplain.net hdistinct hnet hholdsNet
      (fun f hf => Module.mem_states htype hf) hdepth
    have htableEq := map_emitTable htable hplain.patterns hholdsTable.known
    have hfind := find?_name_eq hdistinct.types htype
    rw [Module.matcherOf, hfind]
    simp only [Option.bind_some, hheadOf, Option.map_some, htableEq, hmatches]
    rfl
termination_by structural matcher

end

end Code

end TermNet
