import TermNet.Proofs.Code.Legible
import TermNet.Proofs.Code.Nets
import TermNet.Proofs.Pattern.Compiled

namespace TermNet

open TermNet.Source
open Text (withoutRawMark)

/-!
# Whatever is emitted is legible

All names that emitting makes up are words with numbers behind them, and built-in checks have the
names of predicates.  So the code of every function is legible, and so are the items that are added
meanwhile.

* `Yields` — what is true of all that emitting can yield;
* `NetScope.Worded` — a scope whose names are words and whose checks are built in;
* `yields_emitTake`, `yields_emitStates` — the code of edges and of states;
* `legible_of_reaches` — the items that are added with them;
* `legible_emitNet`, `legible_emitMatcher` — by induction on the net.
-/

namespace Code

/-! ### Emitting -/

/-- **Whatever emitting yields** has the property. -/
def Yields {α : Type} (x : Emit α) (P : α → Prop) : Prop := ∀ e a e', Emits x e a e' → P a

section Yields

variable {α β : Type} {P : α → Prop} {Q : β → Prop}

/-- What is given as it is must have the property. -/
theorem yields_pure {a : α} (h : P a) : Yields (pure a : Emit α) P := by
  intro e b e' hb
  obtain ⟨rfl, -⟩ := emits_pure.mp hb
  exact h

/-- **Emitting in two steps:** whatever the first step yields, the second one must yield the right
    thing for it. -/
theorem Yields.bind {x : Emit α} {f : α → Emit β} (hx : Yields x P)
    (hf : ∀ a, P a → Yields (f a) Q) : Yields (x >>= f) Q := by
  intro e b e'' h
  obtain ⟨a, e', ha, hb⟩ := emits_bind.mp h
  exact hf a (hx e a e' ha) e' b e'' hb

/-- Emitting something for each member of a list, by induction on the list. -/
theorem Yields.mapM {f : α → Emit β} {as : List α} (h : ∀ a ∈ as, Yields (f a) Q) :
    Yields (as.mapM f) fun bs => ∀ b ∈ bs, Q b := by
  induction as with
  | nil => exact yields_pure fun _ hb => absurd hb List.not_mem_nil
  | cons a as ih =>
    rw [List.forall_mem_cons] at h
    rw [List.mapM_cons]
    exact h.1.bind fun b hb => (ih h.2).bind fun bs hbs =>
      yields_pure (List.forall_mem_cons.mpr ⟨hb, hbs⟩)

end Yields

/-! ### Names -/

/-- The names of static items for heads are words. -/
theorem isWordText_headName (index : Nat) : IsWordText (headName index) :=
  isWordText_numbered (by decide) index

/-- The names of static items for terms are words. -/
theorem isWordText_expressionName (index : Nat) : IsWordText (expressionName index) :=
  isWordText_numbered (by decide) index

/-- The names of the types of matchers are words. -/
theorem isWordText_matcherTypeName (index : Nat) : IsWordText (matcherTypeName index) :=
  isWordText_numbered (by decide) index

/-- The names of operand functions are words without the mark of raw identifiers, so that more may
    be put behind them. -/
theorem isPlainWord_operandFunctionName (index : Nat) :
    IsPlainWord (operandFunctionName index).toList :=
  isPlainWord_numbered (by decide) index

/-- The names of operand functions are words. -/
theorem isWordText_operandFunctionName (index : Nat) : IsWordText (operandFunctionName index) :=
  (isPlainWord_operandFunctionName index).isWord

/-- The names of the functions of states are words if what they begin with is a plain one. -/
theorem isWordText_stateFunctionName {stem : String} (h : IsPlainWord stem.toList) (id : StateId) :
    IsWordText (stateFunctionName stem id) := by
  have hstem : IsPlainWord (stem ++ "_s").toList := by
    rw [String.toList_append]
    exact h.append (List.all_iff_forall_prop.mp (by decide))
  have hname : stateFunctionName stem id = stem ++ "_s" ++ toString id := by
    rw [← String.toList_inj]
    simp [stateFunctionName, stateLabel]
  exact hname ▸ isWordText_numbered hstem id

/-- A local variable has a word for its name: what it stands for, and a number. -/
theorem yields_freshName {base : String} (h : IsPlainWord (base ++ "_").toList) :
    Yields (freshName base) IsWordText := by
  intro e name e' hname
  simp only [freshName, emits_bind, emits_get, emits_set, emits_pure] at hname
  obtain ⟨_, _, -, _, _, -, rfl, -⟩ := hname
  exact isWordText_numbered h _

/-- The static item of a head has a word for its name. -/
theorem yields_emitHead (head : Head) : Yields (emitHead head) IsWordText := by
  intro e name e' h
  obtain ⟨-, index, -, rfl⟩ := emits_emitHead h
  exact isWordText_headName index

/-- The static item of a term has a word for its name. -/
theorem yields_emitExpression (t : Term) : Yields (emitExpression t) IsWordText := by
  intro e name e' h
  obtain ⟨-, index, -, rfl⟩ := emits_emitExpression h
  exact isWordText_expressionName index

/-- The static item of a default has a word for its name, if there is a default. -/
theorem yields_emitDefault (default : Option Term) :
    Yields (emitDefault default) fun name => ∀ text ∈ name, IsWordText text := by
  cases default with
  | none => exact yields_pure nofun
  | some t => exact (yields_emitExpression t).bind fun name hname =>
    yields_pure (by simpa using hname)

/-- The static item of a head that runs are put under has a word for its name, if there is such a
    head. -/
theorem yields_emitWrap (wrap : Option Head) :
    Yields (emitWrap wrap) fun name => ∀ text ∈ name, IsWordText text := by
  cases wrap with
  | none => exact yields_pure nofun
  | some head =>
    intro e name e' h
    obtain ⟨text, htext, rfl⟩ := emits_map.mp h
    simpa using yields_emitHead head _ _ _ htext

/-! ### Statements -/

attribute [local simp] separated commas callOf callPath method ref refMut ended letTokens ifTokens
  typed generic closure thunk vecOf Statement.tokens Statement.tokensOfAll

/-- The code of a block is legible. -/
def LegibleBody (block : List Statement) : Prop := Legible (Statement.tokensOfAll block)

/-- The tokens of two blocks, one after the other. -/
theorem tokensOfAll_append (block more : List Statement) :
    Statement.tokensOfAll (block ++ more) =
      Statement.tokensOfAll block ++ Statement.tokensOfAll more := by
  induction block with
  | nil => rfl
  | cons statement block ih => rw [List.cons_append, Statement.tokensOfAll, ih]; simp

/-- Two legible blocks, one after the other. -/
theorem LegibleBody.append {block more : List Statement} (h : LegibleBody block)
    (hmore : LegibleBody more) : LegibleBody (block ++ more) := by
  rw [LegibleBody, tokensOfAll_append]
  exact Legible.append h hmore

/-- A block without statements. -/
theorem legibleBody_nil : LegibleBody [] := .nil

/-- **A scope whose names are words,** and whose checks are built in. -/
structure NetScope.Worded (scope : NetScope) : Prop where
  stem : IsPlainWord scope.stem.toList
  types : ∀ type ∈ scope.matcherTypes, IsWordText type
  checks : ∀ c ∈ scope.registry.constraints, c.check.IsBuiltin

variable {scope : NetScope} {edge : Edge}

/-- The functions of states have words for their names. -/
theorem NetScope.Worded.state (h : scope.Worded) (id : StateId) :
    IsWordText (stateFunctionName scope.stem id) :=
  isWordText_stateFunctionName h.stem id

/-! ### Checks -/

/-- The call of a built-in predicate for variables, whose names are literals. -/
theorem legible_condition (predicate : Predicate) (names : List String) :
    Legible (Condition.tokens ⟨.builtin predicate, names⟩) := by
  have hnames : Legible (separated false (names.map literal)) := legible_separated (by simp)
  simp [Condition.tokens, Callee.closure, Callee.tokens, hnames]

/-- The condition of a registered constraint is legible: the constraint is built in. -/
theorem yields_emitRegistered (h : scope.Worded) (id : ConstraintId) :
    Yields (emitRegistered scope id) fun condition => ∀ c ∈ condition, Legible c.tokens := by
  unfold emitRegistered
  split
  · rename_i c hc
    obtain ⟨predicate, hpredicate⟩ :=
      h.checks c (ConstraintRegistry.mem_constraints_of_get? hc)
    have hcondition : Yields (emitCondition c) fun condition => Legible condition.tokens := by
      rw [emitCondition, hpredicate]
      exact yields_pure (legible_condition predicate c.variableNames)
    exact hcondition.bind fun condition hlegible => yields_pure (by simpa using hlegible)
  · exact yields_pure fun c hc => absurd hc (Option.not_mem_none c)

/-- The checks of an edge, by induction on its constraints. -/
theorem yields_emitChecks (h : scope.Worded) {narrowed : String} (hnarrowed : IsWordText narrowed)
    (ids : List ConstraintId) : Yields (emitChecks scope narrowed ids) LegibleBody := by
  induction ids with
  | nil => exact yields_pure legibleBody_nil
  | cons id rest ih =>
    refine (yields_emitRegistered h id).bind fun condition hcondition =>
      ih.bind fun later hlater => yields_pure (LegibleBody.append ?_ hlater)
    cases condition with
    | none => exact legibleBody_nil
    | some condition => simp [LegibleBody, hcondition condition rfl, hnarrowed]

/-- The conditions of a marker, by induction on its constraints. -/
theorem yields_emitGlobals (h : scope.Worded) (ids : List ConstraintId) :
    Yields (emitGlobals scope ids) fun conditions => Legible (alsoTokens conditions) := by
  induction ids with
  | nil => exact yields_pure .nil
  | cons id rest ih =>
    refine (yields_emitRegistered h id).bind fun condition hcondition =>
      ih.bind fun later hlater => yields_pure ?_
    rw [alsoTokens, List.flatMap_append]
    refine Legible.append ?_ hlater
    cases condition with
    | none => exact .nil
    | some condition => simp [hcondition condition rfl]

/-! ### Edges -/

/-- Going on calls the function of the state behind the edge. -/
theorem yields_emitProceed (h : scope.Worded) (edge : Edge) :
    Yields (emitProceed scope edge) LegibleBody := by
  have hcall : LegibleBody [.call (stateFunctionName scope.stem edge.id)] := by
    simp [LegibleBody, h.state]
  unfold emitProceed
  split
  · exact yields_pure hcall
  · refine (yields_freshName (by decide)).bind fun narrowed hnarrowed =>
      (yields_emitChecks h hnarrowed _).bind fun checks hchecks => yields_pure ?_
    rw [LegibleBody] at hchecks hcall
    rw [LegibleBody, List.cons_append, Statement.tokensOfAll, tokensOfAll_append]
    simp [letMut, hnarrowed, hchecks, h.state]

/-- Binding a variable before going on; the name of the variable is a literal. -/
theorem yields_emitBind (h : scope.Worded) (edge : Edge) {value : BoundValue}
    (hvalue : Legible value.tokens) : Yields (emitBind scope edge value) LegibleBody := by
  refine (yields_emitProceed h edge).bind fun next hnext => ?_
  split
  · exact yields_pure hnext
  · refine (yields_freshName (by decide)).bind fun extended hextended => yields_pure ?_
    rw [LegibleBody] at hnext
    simp [LegibleBody, hextended, hvalue, hnext]

/-- Going on with the default, if there is one. -/
theorem yields_emitSkip (h : scope.Worded) (edge : Edge) (default : Option Term) :
    Yields (emitSkip scope edge default) LegibleBody := by
  cases default with
  | none => exact yields_pure legibleBody_nil
  | some t =>
    exact (yields_emitExpression t).bind fun name hname =>
      yields_emitBind h edge (by simp [BoundValue.tokens, hname])

/-- A guard, and going on within its block. -/
theorem yields_emitGuarded (h : scope.Worded) (edge : Edge) {base : String} {opening : Opening}
    (hbase : IsPlainWord (base ++ "_").toList) (hopening : Legible opening.tokens) :
    Yields (emitGuarded scope edge base opening) LegibleBody := by
  refine (yields_freshName hbase).bind fun guard hguard =>
    (yields_emitProceed h edge).bind fun next hnext => yields_pure ?_
  rw [LegibleBody] at hnext
  simp [LegibleBody, hguard, hopening, hnext]

/-! ### Commutative operations -/

/-- The branches behind a commutative operation, by induction on them: their requests and their
    arms. -/
theorem yields_emitBranches (h : scope.Worded) {wanted : String} (hwanted : IsWordText wanted)
    (branches : List Edge) : Yields (emitBranches scope wanted branches) fun parts =>
      LegibleBody (parts.map Prod.fst) ∧ Legible (Arm.tokensOfAll (parts.map Prod.snd)) := by
  induction branches with
  | nil => exact yields_pure ⟨legibleBody_nil, .nil⟩
  | cons branch rest ih =>
    have hfirst : Yields (emitBranch scope wanted branch) fun part => ∀ p ∈ part,
        LegibleBody [p.1] ∧ Legible p.2.tokens := by
      unfold emitBranch
      split
      · refine (yields_emitProceed h branch).bind fun next hnext => yields_pure ?_
        rw [LegibleBody] at hnext
        simp [LegibleBody, Arm.tokens, hwanted, hnext]
      · exact yields_pure nofun
    refine hfirst.bind fun first hfirst => ih.bind fun later hlater => yields_pure ?_
    cases first with
    | none => exact hlater
    | some part =>
      obtain ⟨hrequest, harm⟩ := hfirst part rfl
      exact ⟨hrequest.append hlater.1, harm.append hlater.2⟩

/-- A commutative operation, whose type is found among those of the net. -/
theorem yields_emitCommutative (h : scope.Worded) (head : Head) {position : Nat}
    (hposition : position < scope.matcherTypes.length) (branches : List Edge) :
    Yields (emitCommutative scope head position branches) LegibleBody := by
  have htype : IsWordText (scope.matcherTypes[position]?.getD "") := by
    rw [List.getElem?_eq_getElem hposition]
    exact h.types _ (List.getElem_mem hposition)
  refine (yields_emitHead head).bind fun name hname =>
    (yields_freshName (by decide)).bind fun wanted hwanted =>
    (yields_freshName (by decide)).bind fun guard hguard =>
    (yields_freshName (by decide)).bind fun operation hoperation =>
    (yields_freshName (by decide)).bind fun pattern hpattern =>
    (yields_freshName (by decide)).bind fun found hfound =>
    (yields_emitBranches h hwanted branches).bind fun parts ⟨hrequests, harms⟩ => yields_pure ?_
  rw [LegibleBody] at hrequests
  rw [LegibleBody, List.cons_append, Statement.tokensOfAll, tokensOfAll_append]
  simp [letMut, Opening.tokens, hname, hwanted, hguard, hoperation, hpattern, hfound, htype,
    hrequests, harms]

/-- Where the code of an edge asks for a matcher there is one. -/
def Placed (scope : NetScope) (edge : Edge) : Prop :=
  ∀ head position branches, edge.label = .commutative head →
    edge.target = .commutative position branches → position < scope.matcherTypes.length

/-- **The code of an edge** is legible. -/
theorem yields_emitTake (h : scope.Worded) (hplaced : Placed scope edge) :
    Yields (emitTake scope edge) LegibleBody := by
  cases hlabel : edge.label with
  | enter head =>
    simp only [emitTake, hlabel]
    exact (yields_emitHead head).bind fun name hname =>
      yields_emitGuarded h edge (by decide) (by simp [Opening.tokens, hname])
  | close =>
    simp only [emitTake, hlabel]
    exact yields_emitGuarded h edge (by decide) (by simp [Opening.tokens])
  | atom t =>
    simp only [emitTake, hlabel]
    exact (yields_emitExpression t).bind fun name hname =>
      yields_emitGuarded h edge (by decide) (by simp [Opening.tokens, hname])
  | one kind default =>
    simp only [emitTake, hlabel]
    refine (yields_emitSkip h edge default).bind fun skipped hskipped =>
      (yields_freshName (by decide)).bind fun guard hguard =>
      (yields_freshName (by decide)).bind fun item hitem =>
      (yields_emitBind h edge (by simp [BoundValue.tokens, hitem])).bind fun next hnext =>
        yields_pure (hskipped.append ?_)
    rw [LegibleBody] at hnext
    cases kind <;> simp [LegibleBody, Opening.tokens, hguard, hitem, hnext]
  | run minCount wrap default =>
    rw [emitTake_run hlabel]
    refine (yields_emitSkip h edge default).bind fun skipped hskipped =>
      (yields_emitWrap wrap).bind fun wrapName hwrap =>
      (yields_freshName (by decide)).bind fun run hrun =>
      (yields_freshName (by decide)).bind fun binding hbinding =>
      (yields_emitBind h edge (by simp [BoundValue.tokens, hbinding])).bind fun next hnext =>
        yields_pure (hskipped.append ?_)
    rw [LegibleBody] at hnext
    cases wrapName with
    | none => simp [LegibleBody, Opening.tokens, optionTokens, hrun, hbinding, hnext]
    | some name =>
      simp [LegibleBody, Opening.tokens, optionTokens, hrun, hbinding, hnext, hwrap name rfl]
  | commutative head =>
    simp only [emitTake, hlabel]
    split
    · rename_i position branches htarget
      exact yields_emitCommutative h head (hplaced head position branches hlabel htarget) branches
    · exact yields_pure legibleBody_nil
  | operands index =>
    simp only [emitTake, hlabel]
    exact yields_pure legibleBody_nil

/-- The code of the edges of a state, by induction on them. -/
theorem yields_emitEdges (h : scope.Worded) {edges : List Edge}
    (hplaced : ∀ edge ∈ edges, Placed scope edge) : Yields (emitEdges scope edges) LegibleBody := by
  induction edges with
  | nil => exact yields_pure legibleBody_nil
  | cons edge rest ih =>
    rw [List.forall_mem_cons] at hplaced
    refine (yields_emitTake h hplaced.1).bind fun body hbody =>
      (ih hplaced.2).bind fun later hlater => yields_pure ?_
    rw [LegibleBody] at hbody hlater
    simp [LegibleBody, hbody, hlater]

/-! ### States -/

/-- The code of the markers of an accepting state, by induction on them. -/
theorem yields_emitMarkers (h : scope.Worded) (markers : List Marker) :
    Yields (emitMarkers scope markers) LegibleBody := by
  induction markers with
  | nil => exact yields_pure legibleBody_nil
  | cons marker rest ih =>
    refine (yields_emitGlobals h marker.globals).bind fun globals hglobals =>
      ih.bind fun later hlater => yields_pure ?_
    have hpairs : Legible (pairTokens marker.pairs) := by
      have hlist : Legible (separated false (marker.pairs.map fun pair =>
          parens (literal pair.1 ++ (mark "," ++ literal pair.2)))) := by
        refine legible_separated fun part hpart => ?_
        obtain ⟨pair, -, rfl⟩ := List.mem_map.mp hpart
        simp
      simpa [pairTokens] using hlist
    rw [LegibleBody] at hlater
    simp [LegibleBody, hglobals, hlater, hpairs]

/-- The function of a state, if it has one. -/
theorem yields_emitState (h : scope.Worded) (id : StateId) {state : State}
    (hplaced : ∀ edge ∈ state.edges, Placed scope edge) :
    Yields (emitState scope id state) fun function => ∀ f ∈ function, Legible f.tokens := by
  cases state with
  | branch edges =>
    refine (yields_emitEdges h hplaced).bind fun body hbody => yields_pure fun f hf => ?_
    obtain rfl := Option.some.inj hf
    exact legible_stateFunction (h.state id) hbody
  | commutative position edges => exact yields_pure nofun
  | accept markers =>
    refine (yields_emitMarkers h markers).bind fun body hbody => yields_pure fun f hf => ?_
    obtain rfl := Option.some.inj hf
    rw [LegibleBody] at hbody
    exact legible_stateFunction (h.state id) (by simp [hbody])

/-- **The functions of states** are legible. -/
theorem yields_emitStates (h : scope.Worded) {states : List (StateId × State)}
    (hplaced : ∀ entry ∈ states, ∀ edge ∈ entry.2.edges, Placed scope edge) :
    Yields (emitStates scope states) fun functions => ∀ f ∈ functions, Legible f.tokens := by
  induction states with
  | nil => exact yields_pure nofun
  | cons entry rest ih =>
    rw [List.forall_mem_cons] at hplaced
    refine (yields_emitState h entry.1 hplaced.1).bind fun function hfunction =>
      (ih hplaced.2).bind fun later hlater => yields_pure fun f hf => ?_
    rcases List.mem_append.mp hf with hf | hf
    · exact hfunction f (Option.mem_toList.mp hf)
    · exact hlater f hf

/-! ### Items -/

/-- The items that have been emitted are legible. -/
def LegibleItems (e : Emission) : Prop := ∀ item ∈ e.items, Legible item.tokens

/-- One more legible item. -/
theorem LegibleItems.append {e e' : Emission} {item : Item} (h : LegibleItems e)
    (hitem : Legible item.tokens) (hitems : e'.items = e.items ++ [item]) : LegibleItems e' := by
  rw [LegibleItems, hitems]
  simpa [or_imp, forall_and] using ⟨h, hitem⟩

/-- **Bodies add static items,** which are legible. -/
theorem legible_of_reaches {e e' : Emission} (h : e.Reaches e') (hitems : LegibleItems e) :
    LegibleItems e' := by
  induction h with
  | refl => exact hitems
  | tail _ hstep ih =>
    cases hstep with
    | name count => exact ih
    | readable isReadable => exact ih
    | head head =>
      exact ih.append (by simp [Item.tokens, isWordText_headName]) rfl
    | expression hbuilds hheads hrange =>
      have hconstructor := legible_constructor _ fun name hname => by
        obtain ⟨index, -, rfl⟩ := hheads name hname
        exact isWordText_headName index
      exact ih.append (by simp [Item.tokens, isWordText_expressionName, hconstructor]) rfl

/-- The table of a matcher: a row for each pattern. -/
theorem yields_emitTable (patterns : List CommutativePattern) :
    Yields (emitTable patterns) fun table => ∀ entry ∈ table, Legible entry.tokens := by
  refine Yields.mapM fun pattern _ => ?_
  have hvars : Yields (pattern.sequenceVars.mapM emitSequenceVariable)
      fun vars => ∀ var ∈ vars, ∀ name ∈ var.default, IsWordText name :=
    Yields.mapM fun var _ =>
      (yields_emitDefault var.default).bind fun default hdefault => yields_pure hdefault
  exact hvars.bind fun vars hvars => yields_pure (legible_patternEntry hvars)

/-! ### Nets and matchers -/

/-- Behind an edge for a commutative operation stands one of the matchers of the net. -/
theorem placed_of_formed {net : Net} (hformed : net.Formed) {stem : String} {types : List String}
    (htypes : types.length = net.matchers.length) {entry : StateId × State}
    (hentry : entry ∈ net.states) {edge : Edge} (hedge : edge ∈ entry.2.edges) :
    Placed ⟨net.registry, stem, types⟩ edge := by
  intro head position branches _ htarget
  obtain ⟨path, hpath⟩ := Net.mem_states_iff.mp hentry
  obtain ⟨stage, hstate⟩ := hformed.of_mem_states (Net.mem_states_iff.mpr ⟨_, hpath.snoc hedge⟩)
  rw [htarget] at hstate
  obtain ⟨matcher, hmatcher, -⟩ := hstate.branches
  exact htypes ▸ (List.getElem?_eq_some_iff.mp hmatcher).1

mutual

/-- **The functions of a net** are legible, and so are the items that come with them. -/
theorem legible_emitNet {name : String} {isPublic : Bool} {net : Net} (hformed : net.Formed)
    (hplain : net.Plain Check.IsBuiltin) (hname : IsWordText name)
    (hstem : IsPlainWord (withoutRawMark name).toList) {e e' : Emission}
    {function : MatcherFunction} (h : Emits (emitNet name isPublic net) e function e')
    (hitems : LegibleItems e) : Legible function.tokens ∧ LegibleItems e' := by
  cases net with
  | mk root stateCount registry matchers patternCount =>
    simp only [emitNet, emits_bind, emits_pure] at h
    obtain ⟨types, between, htypes, states, last, hstates, rfl, rfl⟩ := h
    obtain ⟨hlength, hwords, hbetween⟩ :=
      legible_emitMatchers hformed.matcher hplain.matcher htypes hitems
    have hscope : NetScope.Worded ⟨registry, withoutRawMark name, types⟩ :=
      ⟨hstem, hwords, hplain.checks⟩
    have hfunctions := yields_emitStates hscope
      (fun entry hentry edge hedge => placed_of_formed hformed hlength hentry hedge) _ _ _ hstates
    exact ⟨legible_matcherFunction hname (hscope.state 0) hfunctions,
      legible_of_reaches (steady_emitStates _ _ _ _ _ hstates) hbetween⟩
termination_by structural net

/-- The types of matchers have names, and so on. -/
theorem legible_emitMatchers {matchers : List CommutativeMatcher}
    (hformed : ∀ matcher ∈ matchers, matcher.Formed)
    (hplain : ∀ matcher ∈ matchers, matcher.Plain Check.IsBuiltin) {e e' : Emission}
    {types : List String} (h : Emits (emitMatchers matchers) e types e')
    (hitems : LegibleItems e) :
    types.length = matchers.length ∧ (∀ type ∈ types, IsWordText type) ∧ LegibleItems e' := by
  cases matchers with
  | nil =>
    obtain ⟨rfl, rfl⟩ := emits_pure.mp h
    exact ⟨rfl, fun _ htype => absurd htype List.not_mem_nil, hitems⟩
  | cons matcher rest =>
    simp only [emitMatchers, emits_bind, emits_pure] at h
    obtain ⟨first, between, hfirst, later, last, hlater, rfl, rfl⟩ := h
    rw [List.forall_mem_cons] at hformed hplain
    obtain ⟨hname, hbetween⟩ := legible_emitMatcher hformed.1 hplain.1 hfirst hitems
    obtain ⟨hlength, hnames, hlast⟩ :=
      legible_emitMatchers hformed.2 hplain.2 hlater hbetween
    exact ⟨congrArg (· + 1) hlength, List.forall_mem_cons.mpr ⟨hname, hnames⟩, hlast⟩
termination_by structural matchers

/-- **The type of a matcher** is legible. -/
theorem legible_emitMatcher {matcher : CommutativeMatcher} (hformed : matcher.Formed)
    (hplain : matcher.Plain Check.IsBuiltin) {e e' : Emission} {name : String}
    (h : Emits (emitMatcher matcher) e name e') (hitems : LegibleItems e) :
    IsWordText name ∧ LegibleItems e' := by
  cases matcher with
  | mk head net operands patterns =>
    simp only [emitMatcher, emits_bind, emits_get, emits_modify, emits_pure] at h
    obtain ⟨_, _, ⟨rfl, rfl⟩, _, begun, rfl, headName, afterHead, hhead, function, afterNet, hnet,
      table, afterTable, htable, _, last, rfl, rfl, rfl⟩ := h
    have hbegun : LegibleItems { e with matcherCount := e.matcherCount + 1 } := hitems
    have hstart := legible_of_reaches (steady_emitHead head _ _ _ hhead) hbegun
    -- The name of an operand function is a plain word, so the mark that is removed is not there.
    have hfunctionName := isWordText_operandFunctionName e.matcherCount
    have hstem : IsPlainWord (withoutRawMark (operandFunctionName e.matcherCount)).toList :=
      (withoutRawMark_operandFunctionName e.matcherCount).symm ▸
        isPlainWord_operandFunctionName e.matcherCount
    obtain ⟨hfunction, hnetItems⟩ :=
      legible_emitNet hformed.net hplain.net hfunctionName hstem hnet hstart
    have htableItems := legible_of_reaches (steady_emitTable patterns _ _ _ htable) hnetItems
    have htype := isWordText_matcherTypeName e.matcherCount
    have htype' : Legible (Item.tokens
        (.matcher ⟨matcherTypeName e.matcherCount, headName, table, function⟩)) :=
      legible_matcherType htype (yields_emitHead head _ _ _ hhead)
        (yields_emitTable patterns _ _ _ htable) (name_of_emits hnet ▸ hfunctionName) hfunction
    exact ⟨htype, htableItems.append htype' rfl⟩
termination_by structural matcher

end

end Code

end TermNet
