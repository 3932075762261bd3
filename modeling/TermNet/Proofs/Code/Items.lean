import Mathlib.Data.List.Sigma
import TermNet.Code.Generator
import TermNet.Proofs.Code.Emits
import TermNet.Proofs.Pattern.Positional

namespace TermNet.Code

open TermNet.Text

/-!
# The items of a module and their names

Whatever is emitted, an item is found by its name: heads and terms are numbered in the order of
their items, and the types of matchers in the order in which they are begun.

Items of one kind are told apart by their numbers, and functions of different nets by what their
names begin with, since the number of a state stands at the end of the name of its function.

* `headName_injective`, `expressionName_injective`, `matcherTypeName_injective` — names of items;
* `stateFunctionName_injective` — the net and the state are read off the name of a function;
* `ne_operandFunctionName` — a name that is not reserved is no name for the functions of a matcher;
* `Emission.Listed` — the items for heads and terms are those that have been emitted;
* `MatcherType.Numbered` — the type of a matcher with a number, and the functions of its net;
* `Emission.Grows` — what emitting matchers leads to;
* `Emission.Listed.knownTo` — the items are found by their names.
-/

/-! ### Names -/

/-- A name that ends with a number is told apart by the number. -/
theorem append_toString_injective {stem : String} {m n : Nat}
    (h : stem ++ toString m = stem ++ toString n) : m = n := by
  have hlist := congrArg String.toList h
  rw [String.toList_append, String.toList_append] at hlist
  have hdigits := List.append_cancel_left hlist
  exact toDigits_injective (by simpa using hdigits)

/-- Static items of different heads have different names. -/
theorem headName_injective {m n : Nat} (h : headName m = headName n) : m = n :=
  append_toString_injective h

/-- Static items of different terms have different names. -/
theorem expressionName_injective {m n : Nat} (h : expressionName m = expressionName n) : m = n :=
  append_toString_injective h

/-- The types of different matchers have different names. -/
theorem matcherTypeName_injective {m n : Nat} (h : matcherTypeName m = matcherTypeName n) :
    m = n :=
  append_toString_injective h

/-- The operand functions of different matchers have different names. -/
theorem operandFunctionName_injective {m n : Nat}
    (h : operandFunctionName m = operandFunctionName n) : m = n :=
  append_toString_injective h

/-- The name of the function of a state ends in the number of the state. -/
theorem toList_stateFunctionName (stem : String) (id : StateId) :
    (stateFunctionName stem id).toList = stem.toList ++ '_' :: 's' :: Nat.toDigits 10 id := by
  simp [stateFunctionName, stateLabel]

/-- The number at the end of a list of characters. -/
theorem takeWhile_reverse_digits (before : List Char) (n : Nat) :
    (before ++ 's' :: Nat.toDigits 10 n).reverse.takeWhile Char.isDigit =
      (Nat.toDigits 10 n).reverse := by
  have hdigits : ∀ c ∈ (Nat.toDigits 10 n).reverse, c.isDigit = true := fun c hc =>
    Nat.isDigit_of_mem_toDigits (by decide) (by decide) (List.mem_reverse.mp hc)
  rw [List.reverse_append, List.reverse_cons, List.append_assoc,
    List.takeWhile_append_of_pos hdigits]
  simp

/-- **The net and the state** are read off the name of a function. -/
theorem stateFunctionName_injective {stem stem' : String} {id id' : StateId}
    (h : stateFunctionName stem id = stateFunctionName stem' id') : stem = stem' ∧ id = id' := by
  have hlist := congrArg String.toList h
  rw [toList_stateFunctionName, toList_stateFunctionName] at hlist
  have hreverse : ∀ (stem : String) (id : Nat),
      stem.toList ++ '_' :: 's' :: Nat.toDigits 10 id =
        (stem.toList ++ ['_']) ++ 's' :: Nat.toDigits 10 id := by simp
  have hdigits := congrArg (fun cs => cs.reverse.takeWhile Char.isDigit) hlist
  rw [hreverse, hreverse, takeWhile_reverse_digits, takeWhile_reverse_digits] at hdigits
  obtain rfl := toDigits_injective (List.reverse_injective hdigits)
  exact ⟨String.toList_injective (List.append_cancel_right hlist), rfl⟩

/-- The name of an operand function has no mark of raw identifiers. -/
theorem withoutRawMark_operandFunctionName (index : Nat) :
    withoutRawMark (operandFunctionName index) = operandFunctionName index := by
  have hlist : (operandFunctionName index).toList =
      'm' :: ("atch_operands_".toList ++ Nat.toDigits 10 index) := by
    simp [operandFunctionName]
  rw [withoutRawMark, hlist]
  rfl

/-- A name that is not reserved is no name for the functions of a matcher. -/
theorem ne_operandFunctionName {stem : String} (h : isReservedName stem = false) (index : Nat) :
    stem ≠ operandFunctionName index := by
  rintro rfl
  simp [isReservedName, operandFunctionName] at h

/-! ### Items -/

/-- The heads among items. -/
def headsIn (items : List Item) : List (String × Head) :=
  items.filterMap fun item => match item with
    | .head name head => some (name, head)
    | _ => none

/-- The constructors among items. -/
def expressionsIn (items : List Item) : List (String × Constructor) :=
  items.filterMap fun item => match item with
    | .expression name constructor => some (name, constructor)
    | _ => none

/-- The matcher types among items. -/
def typesIn (items : List Item) : List MatcherType :=
  items.filterMap fun item => match item with
    | .matcher type => some type
    | _ => none

/-- A head is among the items if its item is. -/
theorem mem_headsIn {items : List Item} {entry : String × Head} :
    entry ∈ headsIn items ↔ Item.head entry.1 entry.2 ∈ items := by
  rw [headsIn, List.mem_filterMap]
  refine ⟨?_, fun hitem => ⟨_, hitem, rfl⟩⟩
  rintro ⟨_ | _ | _, hitem, ⟨⟩⟩
  exact hitem

/-- A term is among the items if its item is. -/
theorem mem_expressionsIn {items : List Item} {entry : String × Constructor} :
    entry ∈ expressionsIn items ↔ Item.expression entry.1 entry.2 ∈ items := by
  rw [expressionsIn, List.mem_filterMap]
  refine ⟨?_, fun hitem => ⟨_, hitem, rfl⟩⟩
  rintro ⟨_ | _ | _, hitem, ⟨⟩⟩
  exact hitem

/-- The type of a matcher is among the items if its item is. -/
theorem mem_typesIn {items : List Item} {type : MatcherType} :
    type ∈ typesIn items ↔ Item.matcher type ∈ items := by
  rw [typesIn, List.mem_filterMap]
  refine ⟨?_, fun hitem => ⟨_, hitem, rfl⟩⟩
  rintro ⟨_ | _ | _, hitem, ⟨⟩⟩
  exact hitem

/-- What is known of the item for a term. -/
structure Builds (heads : List Head) (item : String × Constructor) (numbered : Term × Nat) :
    Prop where
  name : item.1 = expressionName numbered.2
  builds : ∀ find, HeadsKnown heads find → numbered.1.Canonical →
    item.2.value? find = some numbered.1
  refers : item.2.Refers heads
  inRange : item.2.inRange = true

/-- **The items for heads and terms** are those that have been emitted, by their numbers. -/
structure Emission.Listed (e : Emission) : Prop where
  heads : headsIn e.items = e.heads.zipIdx.map fun (head, index) => (headName index, head)
  expressions : List.Forall₂ (Builds e.heads) (expressionsIn e.items) e.expressions.zipIdx

/-- **The type of a matcher** with a number: its name, and those of its function and of the
    functions of its net. -/
structure MatcherType.Numbered (type : MatcherType) (index : Nat) : Prop where
  name : type.name = matcherTypeName index
  function : type.function.name = operandFunctionName index
  states : ∃ ids : List StateId, ids.Nodup ∧
    type.function.states.map StateFunction.name =
      ids.map (stateFunctionName (operandFunctionName index))

/-- **What emitting matchers leads to:** more items, and new types of matchers with numbers of
    their own. -/
structure Emission.Grows (e e' : Emission) : Prop where
  heads : e.heads <+: e'.heads
  expressions : e.expressions <+: e'.expressions
  listed : e.Listed → e'.Listed
  count : e.matcherCount ≤ e'.matcherCount
  types : ∃ new indices, typesIn e'.items = typesIn e.items ++ new ∧
    List.Forall₂ MatcherType.Numbered new indices ∧ indices.Nodup ∧
      ∀ index ∈ indices, e.matcherCount ≤ index ∧ index < e'.matcherCount

variable {e e' e'' : Emission}

/-- The item of a term still builds it after more heads have been added. -/
theorem Builds.of_isPrefix {heads more : List Head} {item : String × Constructor}
    {numbered : Term × Nat} (h : Builds heads item numbered) (hstart : heads <+: more) :
    Builds more item numbered :=
  ⟨h.name, fun find hfind => h.builds find (hfind.of_isPrefix hstart),
    h.refers.of_isPrefix hstart, h.inRange⟩

/-- A new last member gets the next number. -/
theorem zipIdx_append_singleton {α : Type} (as : List α) (a : α) :
    (as ++ [a]).zipIdx = as.zipIdx ++ [(a, as.length)] := by
  simp [List.zipIdx_append]

/-- **One step of emitting a body** keeps the items in the order of their numbers. -/
theorem Emission.Listed.step (h : e.Listed) (hstep : Emission.Step e e') : e'.Listed := by
  obtain ⟨hheads, hexpressions⟩ := h
  cases hstep with
  | name count => exact ⟨hheads, hexpressions⟩
  | readable isReadable => exact ⟨hheads, hexpressions⟩
  | head head =>
    constructor
    · rw [headsIn, List.filterMap_append, ← headsIn, hheads, zipIdx_append_singleton,
        List.map_append]
      rfl
    · rw [expressionsIn, List.filterMap_append, ← expressionsIn]
      simp only [List.filterMap_cons, List.filterMap_nil, List.append_nil]
      -- Expressions keep what they build when more heads are there.
      exact hexpressions.imp fun item numbered hbuilds =>
        hbuilds.of_isPrefix (List.prefix_append _ _)
  | expression hvalue hrefers hrange =>
    constructor
    · rw [headsIn, List.filterMap_append, ← headsIn]
      simpa using hheads
    · rw [expressionsIn, List.filterMap_append, ← expressionsIn, zipIdx_append_singleton]
      exact List.rel_append hexpressions (.cons ⟨rfl, hvalue, hrefers, hrange⟩ .nil)

/-- What is added first and what is added later are added in this order, and have numbers of their
    own. -/
theorem Emission.Grows.trans (h : e.Grows e') (h' : e'.Grows e'') : e.Grows e'' := by
  obtain ⟨new, indices, htypes, hnumbered, hnodup, hrange⟩ := h.types
  obtain ⟨more, indices', htypes', hnumbered', hnodup', hrange'⟩ := h'.types
  have hcount := h.count
  have hcount' := h'.count
  refine ⟨h.heads.trans h'.heads, h.expressions.trans h'.expressions, h'.listed ∘ h.listed,
    hcount.trans hcount', new ++ more, indices ++ indices', ?_,
    List.rel_append hnumbered hnumbered',
    ?_, fun index hindex => ?_⟩
  · rw [htypes', htypes, List.append_assoc]
  · refine hnodup.append hnodup' fun index hindex hindex' => ?_
    have := hrange index hindex
    have := hrange' index hindex'
    omega
  · rcases List.mem_append.mp hindex with hindex | hindex
    · have := hrange index hindex
      omega
    · have := hrange' index hindex
      omega

/-- What the names of static items stand for is known before it is emitted. -/
theorem Emission.KnownTo.of_grows {heads : String → Option Head}
    {expressions : String → Option Term} (h : e'.KnownTo heads expressions)
    (hgrows : e.Grows e') : e.KnownTo heads expressions :=
  ⟨h.heads.of_isPrefix hgrows.heads, fun index t ht =>
    h.expressions index t (getElem?_of_isPrefix hgrows.expressions ht)⟩

/-- The types of matchers that have been emitted stay. -/
theorem Emission.Grows.mem_typesIn (h : e.Grows e') {type : MatcherType}
    (htype : type ∈ typesIn e.items) : type ∈ typesIn e'.items := by
  obtain ⟨new, indices, htypes, -⟩ := h.types
  rw [htypes]
  exact List.mem_append_left _ htype

/-- Where nothing is emitted, nothing is added. -/
theorem Emission.Grows.refl (e : Emission) : e.Grows e :=
  ⟨List.prefix_rfl, List.prefix_rfl, id, Nat.le_refl _, [], [], by simp, .nil, List.nodup_nil,
    fun _ hindex => absurd hindex List.not_mem_nil⟩

/-- Emitting bodies of functions adds no matchers. -/
theorem Emission.Reaches.typesIn_eq (h : e.Reaches e') :
    typesIn e'.items = typesIn e.items ∧ e'.matcherCount = e.matcherCount := by
  induction h with
  | refl => exact ⟨rfl, rfl⟩
  | tail _ hstep ih =>
    rw [← ih.1, ← ih.2]
    cases hstep with
    | name count => exact ⟨rfl, rfl⟩
    | readable isReadable => exact ⟨rfl, rfl⟩
    | head head => simp [typesIn]
    | expression => simp [typesIn]

/-- The body of a function adds no types of matchers. -/
theorem Emission.Reaches.grows (h : e.Reaches e') : e.Grows e' := by
  obtain ⟨hheads, hexpressions⟩ := h.isPrefix
  obtain ⟨htypes, hcount⟩ := h.typesIn_eq
  refine ⟨hheads, hexpressions, fun hlisted => ?_, hcount.ge, [], [], by simp [htypes], .nil,
    List.nodup_nil, fun _ hindex => absurd hindex List.not_mem_nil⟩
  induction h with
  | refl => exact hlisted
  | tail hreaches hstep ih =>
    obtain ⟨hheads, hexpressions⟩ := Emission.Reaches.isPrefix hreaches
    obtain ⟨htypes, hcount⟩ := Emission.Reaches.typesIn_eq hreaches
    exact (ih hheads hexpressions htypes hcount).step hstep

/-- **A matcher is begun,** whatever it needs is emitted, and then its type is added. -/
theorem Emission.Grows.addMatcher {type : MatcherType}
    (h : Emission.Grows { e with matcherCount := e.matcherCount + 1 } e')
    (hnumbered : type.Numbered e.matcherCount) :
    e.Grows { e' with items := e'.items ++ [Item.matcher type] } := by
  obtain ⟨new, indices, htypes, hforall, hnodup, hrange⟩ := h.types
  have hcount : e.matcherCount + 1 ≤ e'.matcherCount := h.count
  refine ⟨h.heads, h.expressions, fun hlisted => ?_, (Nat.le_succ _).trans hcount,
    new ++ [type], indices ++ [e.matcherCount], ?_,
    List.rel_append hforall (.cons hnumbered .nil), ?_, fun index hindex => ?_⟩
  · obtain ⟨hheads, hexpressions⟩ := h.listed ⟨hlisted.heads, hlisted.expressions⟩
    constructor
    · rw [headsIn, List.filterMap_append, ← headsIn]
      simpa using hheads
    · rw [expressionsIn, List.filterMap_append, ← expressionsIn]
      simpa using hexpressions
  · rw [typesIn, List.filterMap_append, ← typesIn, htypes, List.append_assoc]
    rfl
  -- The number was given away before any of those in between.
  · refine hnodup.append (List.nodup_singleton _) fun index hindex hlast => ?_
    obtain rfl := List.mem_singleton.mp hlast
    have hle : e.matcherCount + 1 ≤ e.matcherCount := (hrange _ hindex).1
    omega
  · rcases List.mem_append.mp hindex with hindex | hindex
    · have hge : e.matcherCount + 1 ≤ index := (hrange index hindex).1
      exact ⟨by omega, (hrange index hindex).2⟩
    · obtain rfl := List.mem_singleton.mp hindex
      exact ⟨Nat.le_refl _, hcount⟩

/-! ### Finding items -/

/-- Where all names are different, a name is that of one value. -/
theorem lookup_eq_of_mem {α : Type} {entries : List (String × α)}
    (hnodup : (entries.map Prod.fst).Nodup) {name : String} {value : α}
    (h : (name, value) ∈ entries) : entries.lookup name = some value := by
  induction entries with
  | nil => exact absurd h List.not_mem_nil
  | cons entry rest ih =>
    obtain ⟨hfirst, hrest⟩ := List.nodup_cons.mp hnodup
    rcases List.mem_cons.mp h with rfl | h
    · simp
    · have hne : (name == entry.1) = false := by
        rw [beq_eq_false_iff_ne]
        rintro rfl
        exact hfirst (List.mem_map.mpr ⟨_, h, rfl⟩)
      rw [List.lookup_cons, hne]
      exact ih hrest h

/-- Names that are made of numbers are different if the numbers can be read off them. -/
theorem nodup_map_zipIdx {α : Type} {name : Nat → String} (as : List α)
    (hname : ∀ {m n}, name m = name n → m = n) : (as.zipIdx.map fun a => name a.2).Nodup := by
  have hmap := (List.nodup_zipIdx_map_snd as).map (f := name) fun m n h => hname h
  rwa [List.map_map] at hmap

/-- The items for terms have the names of the terms. -/
theorem map_fst_of_builds {heads : List Head} {items : List (String × Constructor)}
    {numbered : List (Term × Nat)} (h : List.Forall₂ (Builds heads) items numbered) :
    items.map Prod.fst = numbered.map (fun t => expressionName t.2) ∧
      ∀ t ∈ numbered, ∃ item ∈ items, Builds heads item t := by
  induction h with
  | nil => exact ⟨rfl, fun _ ht => absurd ht List.not_mem_nil⟩
  | cons hbuilds _ ih =>
    refine ⟨by rw [List.map_cons, List.map_cons, hbuilds.name, ih.1], fun t ht => ?_⟩
    rcases List.mem_cons.mp ht with rfl | ht
    · exact ⟨_, List.mem_cons_self, hbuilds⟩
    · obtain ⟨item, hitem, h⟩ := ih.2 t ht
      exact ⟨item, List.mem_cons_of_mem _ hitem, h⟩

/-- The calls for terms refer to heads that have been emitted. -/
theorem refers_of_builds {heads : List Head} {items : List (String × Constructor)}
    {numbered : List (Term × Nat)} (h : List.Forall₂ (Builds heads) items numbered) :
    ∀ item ∈ items, item.2.Refers heads := by
  induction h with
  | nil => exact fun _ hitem => absurd hitem List.not_mem_nil
  | cons hbuilds _ ih => exact List.forall_mem_cons.mpr ⟨hbuilds.refers, ih⟩

section Found

variable {m : Module}

/-- The static items of heads are found under their names. -/
theorem Emission.Listed.headsKnown (h : e.Listed) (hitems : m.items = e.items) :
    HeadsKnown e.heads m.headOf := by
  have hheads : m.heads = e.heads.zipIdx.map fun (head, index) => (headName index, head) := by
    rw [← h.heads, ← hitems]
    rfl
  intro index head hhead
  refine lookup_eq_of_mem ?_ ?_
  · rw [hheads, List.map_map]
    exact nodup_map_zipIdx e.heads headName_injective
  · rw [hheads]
    exact List.mem_map.mpr ⟨(head, index), List.mem_zipIdx_iff_getElem?.mpr hhead, rfl⟩

/-- The item of a term that has been emitted. -/
theorem Emission.Listed.exists_lookup (h : e.Listed) (hitems : m.items = e.items) {index : Nat}
    {t : Term} (ht : e.expressions[index]? = some t) :
    ∃ constructor, m.expressions.lookup (expressionName index) = some constructor ∧
      Builds e.heads (expressionName index, constructor) (t, index) := by
  have hexpressions : m.expressions = expressionsIn e.items := by
    rw [← hitems]
    rfl
  obtain ⟨hnames, hbuilt⟩ := map_fst_of_builds h.expressions
  obtain ⟨⟨name, constructor⟩, hitem, hbuilds⟩ :=
    hbuilt (t, index) (List.mem_zipIdx_iff_getElem?.mpr ht)
  obtain rfl : name = expressionName index := hbuilds.name
  refine ⟨constructor, lookup_eq_of_mem ?_ (hexpressions ▸ hitem), hbuilds⟩
  rw [hexpressions, hnames]
  exact nodup_map_zipIdx e.expressions expressionName_injective

/-- **The items are found by their names.** -/
theorem Emission.Listed.knownTo (h : e.Listed) (m : Module) (hitems : m.items = e.items) :
    e.KnownTo m.headOf m.expressionOf := by
  have hknown := h.headsKnown hitems
  refine ⟨hknown, fun index t ht hcanonical => ?_⟩
  obtain ⟨constructor, hlookup, hbuilds⟩ := h.exists_lookup hitems ht
  rw [Module.expressionOf, hlookup]
  exact hbuilds.builds m.headOf hknown hcanonical

end Found

end TermNet.Code
