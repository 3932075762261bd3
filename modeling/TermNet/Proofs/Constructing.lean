import TermNet.Proofs.Code.Nets

namespace TermNet

/-!
# Constructors rebuild their terms

The code for a term builds its operations one by one, from the inside out.  Building flattens and
sorts, which changes nothing where the arguments are those of a canonical operation already.  A
negative integer is a sign and a magnitude, so that the least integer has a literal, too.

* `Code.value?_ofTerm`, `Code.inRange_ofTerm` — the calls with every head in place;
* `Code.total_emitExpression` — there is always a static item for a term;
* `constructors_rebuild_terms` — both kinds of calls build the term.
-/

namespace Code

/-! ### Heads in place -/

mutual

/-- **The calls for a canonical term build it,** with every head in place. -/
theorem value?_ofTerm {t : Term} (ht : t.Canonical) (heads : String → Option Head) :
    (Constructor.ofTerm t).value? heads = some t := by
  cases t with
  | integer value => exact value?_ofInteger heads value
  | symbol s => rfl
  | node head args =>
    have hvalues := values?_ofTerms ht.args heads
    simp only [Constructor.ofTerm, Constructor.value?, HeadSource.head?, hvalues, ht.build_args]
termination_by structural t

/-- The calls for canonical terms build them, with every head in place. -/
theorem values?_ofTerms {ts : List Term} (hts : ∀ t ∈ ts, t.Canonical)
    (heads : String → Option Head) :
    Constructor.values? heads (Constructor.ofTerms ts) = some ts := by
  cases ts with
  | nil => rfl
  | cons t rest =>
    have hvalue := value?_ofTerm (hts t List.mem_cons_self) heads
    have hvalues := values?_ofTerms (fun s hs => hts s (List.mem_cons_of_mem _ hs)) heads
    simp only [Constructor.ofTerms, Constructor.values?, hvalue, hvalues]
termination_by structural ts

end

mutual

/-- The integers in the calls for a term are those of the term. -/
theorem inRange_ofTerm (t : Term) : (Constructor.ofTerm t).inRange = true := by
  cases t with
  | integer value => exact inRange_ofInteger value
  | symbol s => rfl
  | node head args => exact inRangeAll_ofTerms args
termination_by structural t

/-- The integers in the calls for the terms of a list are those of the terms. -/
theorem inRangeAll_ofTerms (ts : List Term) :
    Constructor.inRangeAll (Constructor.ofTerms ts) = true := by
  cases ts with
  | nil => rfl
  | cons t rest =>
    rw [Constructor.ofTerms, Constructor.inRangeAll, inRange_ofTerm t, inRangeAll_ofTerms rest]
    rfl
termination_by structural ts

end

/-! ### Static items -/

/-- Emitting that cannot fail. -/
def Total {α : Type} (x : Emit α) : Prop := ∀ e, ∃ a e', Emits x e a e'

/-- Giving a value does not fail. -/
theorem total_pure {α : Type} (a : α) : Total (pure a) := fun e => ⟨a, e, emits_pure.mpr ⟨rfl, rfl⟩⟩

/-- Looking at what has been emitted does not fail. -/
theorem total_get : Total get := fun e => ⟨e, e, emits_get.mpr ⟨rfl, rfl⟩⟩

/-- Replacing what has been emitted does not fail. -/
theorem total_set (next : Emission) : Total (set next) := fun _ => ⟨⟨⟩, next, emits_set.mpr rfl⟩

/-- Two steps that do not fail, one after the other. -/
theorem Total.bind {α β : Type} {x : Emit α} {f : α → Emit β} (hx : Total x)
    (hf : ∀ a, Total (f a)) : Total (x >>= f) := by
  intro e
  obtain ⟨a, between, ha⟩ := hx e
  obtain ⟨b, after, hb⟩ := hf a between
  exact ⟨b, after, emits_bind.mpr ⟨a, between, ha, hb⟩⟩

/-- A head can always be emitted. -/
theorem total_emitHead (head : Head) : Total (emitHead head) := by
  refine total_get.bind fun emission => ?_
  split
  · exact total_pure _
  · exact (total_set _).bind fun _ => total_pure _

mutual

/-- The calls for a term can always be emitted. -/
theorem total_emitConstructor (t : Term) : Total (emitConstructor t) := by
  cases t with
  | integer value => exact total_pure _
  | symbol s => exact total_pure _
  | node head args =>
    exact (total_emitHead head).bind fun _ =>
      (total_emitConstructors args).bind fun _ => total_pure _
termination_by structural t

/-- The calls for the terms of a list can always be emitted. -/
theorem total_emitConstructors (ts : List Term) : Total (emitConstructors ts) := by
  cases ts with
  | nil => exact total_pure _
  | cons t rest =>
    exact (total_emitConstructor t).bind fun _ =>
      (total_emitConstructors rest).bind fun _ => total_pure _
termination_by structural ts

end

/-- **There is always a static item for a term.** -/
theorem total_emitExpression (t : Term) : Total (emitExpression t) := by
  refine total_get.bind fun emission => ?_
  split
  · exact total_pure _
  · exact (total_emitConstructor t).bind fun _ =>
      total_get.bind fun _ => (total_set _).bind fun _ => total_pure _

/-- A module has a static item of this name, whose calls build the term. -/
def Module.Initializes (m : Module) (name : String) (t : Term) : Prop :=
  ∃ constructor, m.expressions.lookup name = some constructor ∧ constructor.inRange = true ∧
    constructor.value? m.headOf = some t

/-- **The static item of a canonical term** builds it from the items of its heads. -/
theorem Emission.Listed.initializes {e : Emission} (h : e.Listed) {m : Module}
    (hitems : m.items = e.items) {t : Term} (ht : t.Canonical) {index : Nat}
    (hindex : e.expressions[index]? = some t) : m.Initializes (expressionName index) t := by
  obtain ⟨constructor, hlookup, hbuilds⟩ := h.exists_lookup hitems hindex
  exact ⟨constructor, hlookup, hbuilds.inRange, hbuilds.builds _ (h.headsKnown hitems) ht⟩

end Code

/-- **Constructors rebuild their terms.**  For a term that is built from its leaves up, the calls
    with every head in place build it, whatever static items there are.  A static item can be
    emitted for it at any time, and whatever is emitted later, the calls of that item build the term
    with the heads of the static items.  And so do the calls of the items in a module for the net of
    patterns.  All integers in the calls are literals of 64 bits. -/
theorem constructors_rebuild_terms {t : Term} (ht : t.Canonical) :
    ((Code.Constructor.ofTerm t).inRange = true ∧
      ∀ heads, (Code.Constructor.ofTerm t).value? heads = some t) ∧
    (∀ before : Code.Emission, before.Listed →
      ∃ name after, Code.Emits (Code.emitExpression t) before name after ∧
        ∀ (later : Code.Emission) (m : Code.Module), after.Grows later → m.items = later.items →
          m.Initializes name t) ∧
    ∀ (name : String) (patterns : List Pattern) (main : Code.MatcherFunction)
      (emission : Code.Emission),
      Code.Emits (Code.emitNet name true (Net.ofPatterns patterns)) {} main emission →
        ∀ index, emission.expressions[index]? = some t →
          (Code.Module.mk emission.items main).Initializes (Code.expressionName index) t := by
  refine ⟨⟨Code.inRange_ofTerm t, Code.value?_ofTerm ht⟩, fun before hlisted => ?_,
    fun name patterns main emission hemits index hindex => ?_⟩
  -- Items are only added, so the static item keeps its place in whatever is emitted later.
  · obtain ⟨name, after, hemits⟩ := Code.total_emitExpression t before
    refine ⟨name, after, hemits, fun later m hgrows hitems => ?_⟩
    obtain ⟨hreaches, index, hindex, rfl⟩ := Code.emits_emitExpression hemits
    exact (hgrows.listed (hreaches.grows.listed hlisted)).initializes hitems ht
      (Code.getElem?_of_isPrefix hgrows.expressions hindex)
  · have hgrows := (Code.netEmitted_emitNet (Net.formed_ofPatterns patterns) hemits).grows
    exact (hgrows.listed ⟨rfl, .nil⟩).initializes rfl ht hindex

/-- The least integer is a sign and a magnitude that is out of range without the sign. -/
example : Code.Constructor.ofInteger Int64.minValue = .integer true 0x8000000000000000 := by
  rfl

/-- A sum with the least integer, a product and a symbol. -/
def sampleOffset : Term :=
  .build .sum [.ofName "a", .integer Int64.minValue, .build .product [.integer 2, .ofName "a"]]

/-- The calls for a sum with the least integer build it. -/
theorem constructors_rebuild_terms_with_least_integer :
    sampleOffset.Canonical ∧ (Code.Constructor.ofTerm sampleOffset).value? (fun _ => none) =
      some sampleOffset ∧
    ∃ name after, Code.Emits (Code.emitExpression sampleOffset) {} name after ∧
      (Code.Module.mk after.items default).Initializes name sampleOffset := by
  have hcanonical : sampleOffset.Canonical := by
    refine .build _ fun t ht => ?_
    simp only [List.mem_cons, List.not_mem_nil, or_false] at ht
    rcases ht with rfl | rfl | rfl
    · exact .symbol _
    · exact .integer _
    · refine .build _ fun t ht => ?_
      rcases List.mem_pair.mp ht with rfl | rfl
      · exact .integer _
      · exact .symbol _
  obtain ⟨⟨-, hvalue⟩, hstatic, -⟩ := constructors_rebuild_terms hcanonical
  obtain ⟨name, after, hemits, hlater⟩ := hstatic {} ⟨rfl, .nil⟩
  exact ⟨hcanonical, hvalue _, name, after, hemits, hlater after _ (.refl after) rfl⟩

end TermNet
