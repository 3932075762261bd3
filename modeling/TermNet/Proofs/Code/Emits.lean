import Mathlib.Logic.Relation
import TermNet.Code.Semantics
import TermNet.Code.Generator
import TermNet.Proofs.Code.References
import TermNet.Proofs.Term.Canonical

namespace TermNet.Code

/-!
# What emitting does

Emitting the body of a function names local variables and adds static items, and does nothing
else.  So an item keeps its name, and what has been emitted with it keeps its meaning.

* `Emits` — emitting succeeds, with this and with what has been emitted by then;
* `Emission.Step`, `Emission.Reaches` — what emitting a body does, step by step;
* `Steady` — emitting that does nothing else;
* `Emission.KnownTo` — what the names of static items stand for;
* `emits_emitHead`, `emits_emitExpression` — the names of heads and terms;
* `value?_emitConstructor`, `refers_emitConstructor` — the calls for a term.
-/

variable {α β : Type} {e e' e'' : Emission}

/-- **Emitting succeeds** with this, and leads from one emission to another. -/
def Emits (x : Emit α) (e : Emission) (a : α) (e' : Emission) : Prop := x.run e = .ok (a, e')

/-- Giving a value emits nothing. -/
@[simp] theorem emits_pure {a b : α} : Emits (pure a) e b e' ↔ a = b ∧ e = e' := by
  rw [Emits, StateT.run_pure]
  simp [pure, Except.pure]

/-- **Emitting in two steps** succeeds if both do, and the second one goes on from where the first
    one leads. -/
@[simp] theorem emits_bind {x : Emit α} {f : α → Emit β} {b : β} :
    Emits (x >>= f) e b e'' ↔ ∃ a e', Emits x e a e' ∧ Emits (f a) e' b e'' := by
  unfold Emits
  rw [StateT.run_bind]
  cases h : x.run e with
  | error error => simp [bind, Except.bind]
  | ok result =>
    obtain ⟨a, e'⟩ := result
    simp [bind, Except.bind, and_assoc]

/-- What is yielded may be changed afterwards. -/
@[simp] theorem emits_map {x : Emit α} {f : α → β} {b : β} :
    Emits (f <$> x) e b e' ↔ ∃ a, Emits x e a e' ∧ f a = b := by
  rw [← bind_pure_comp, emits_bind]
  simp only [emits_pure]
  exact ⟨fun ⟨a, _, h, hb, he⟩ => ⟨a, he ▸ h, hb⟩, fun ⟨a, h, hb⟩ => ⟨a, e', h, hb, rfl⟩⟩

/-- Looking at what has been emitted changes nothing. -/
@[simp] theorem emits_get {a : Emission} : Emits get e a e' ↔ e = a ∧ e = e' := by
  simp [Emits, get, getThe, MonadStateOf.get, StateT.run, StateT.get, pure, Except.pure]

/-- What has been emitted may be replaced. -/
@[simp] theorem emits_set {next : Emission} {u : PUnit} : Emits (set next) e u e' ↔ next = e' := by
  rw [Emits, StateT.run_set]
  simp [pure, Except.pure]

/-- What has been emitted may be changed. -/
@[simp] theorem emits_modify {f : Emission → Emission} {u : PUnit} :
    Emits (modify f) e u e' ↔ f e = e' := by
  simp [Emits, modify, modifyGet, MonadStateOf.modifyGet, StateT.run, StateT.modifyGet, pure,
    Except.pure]

/-- An error is no success. -/
@[simp] theorem emits_throw {error : CodeError} {a : α} :
    Emits (throw error) e a e' ↔ False := by
  simp [Emits, throw, throwThe, MonadExceptOf.throw, StateT.run, StateT.lift, bind, Except.bind]

/-! ### Static items -/

/-- What the names of the heads stand for. -/
def HeadsKnown (heads : List Head) (find : String → Option Head) : Prop :=
  ∀ index head, heads[index]? = some head → find (headName index) = some head

/-- **What the names of static items stand for:** heads, and terms as far as they are
    canonical, since a term is built when its item is. -/
structure Emission.KnownTo (e : Emission) (heads : String → Option Head)
    (expressions : String → Option Term) : Prop where
  heads : HeadsKnown e.heads heads
  expressions : ∀ index t, e.expressions[index]? = some t → t.Canonical →
    expressions (expressionName index) = some t

namespace Constructor

mutual

/-- Whether all integers in the calls for a term are literals of 64 bits: the magnitude is less than
    `2 ^ 63`, and behind a sign it may be just that. -/
def inRange : Constructor → Bool
  | .integer negative magnitude =>
    if negative then magnitude ≤ 0x8000000000000000 else magnitude < 0x8000000000000000
  | .symbol _ => true
  | .operation _ args => inRangeAll args
termination_by structural c => c

/-- Whether all integers in the calls for the terms of a list are literals of 64 bits. -/
def inRangeAll : List Constructor → Bool
  | [] => true
  | c :: cs => inRange c && inRangeAll cs
termination_by structural cs => cs

end

end Constructor

/-- All heads in the calls for a term are those of static items. -/
def Constructor.Refers (heads : List Head) (constructor : Constructor) : Prop :=
  ∀ name ∈ constructor.headNames, ∃ index < heads.length, name = headName index

/-- **One step of emitting a body:** a local variable is named, a path is found that cannot be
    called, or a static item is added. -/
inductive Emission.Step : Emission → Emission → Prop where
  | name {e : Emission} (count : Nat) : Step e { e with localCount := count }
  | readable {e : Emission} (isReadable : Bool) : Step e { e with isReadable }
  | head {e : Emission} (head : Head) :
      Step e { e with
        heads := e.heads ++ [head], items := e.items ++ [Item.head (headName e.heads.length) head] }
  | expression {e : Emission} {t : Term} {constructor : Constructor}
      (h : ∀ find, HeadsKnown e.heads find → t.Canonical → constructor.value? find = some t)
      (hheads : constructor.Refers e.heads) (hrange : constructor.inRange = true) :
      Step e { e with
        expressions := e.expressions ++ [t]
        items := e.items ++
          [Item.expression (expressionName e.expressions.length) constructor] }

/-- What emitting a body leads to. -/
def Emission.Reaches : Emission → Emission → Prop := Relation.ReflTransGen Emission.Step

/-- **Emitting that only names local variables and adds static items.** -/
def Steady (x : Emit α) : Prop := ∀ e a e', Emits x e a e' → e.Reaches e'

/-- What leads from one emission to the next. -/
theorem Emission.Reaches.trans (h : e.Reaches e') (h' : e'.Reaches e'') : e.Reaches e'' :=
  Relation.ReflTransGen.trans h h'

/-- Giving a value takes no step. -/
theorem steady_pure (a : α) : Steady (pure a : Emit α) := by
  intro e b e' h
  obtain ⟨-, rfl⟩ := emits_pure.mp h
  exact .refl

/-- Emitting in two steps takes the steps of both. -/
theorem Steady.bind {x : Emit α} {f : α → Emit β} (hx : Steady x) (hf : ∀ a, Steady (f a)) :
    Steady (x >>= f) := by
  intro e b e'' h
  obtain ⟨a, e', ha, hb⟩ := emits_bind.mp h
  exact (hx e a e' ha).trans (hf a e' b e'' hb)

/-- Changing what is yielded takes no further step. -/
theorem Steady.map {x : Emit α} (hx : Steady x) (f : α → β) : Steady (f <$> x) := by
  intro e b e' h
  obtain ⟨a, ha, -⟩ := emits_map.mp h
  exact hx e a e' ha

/-- Emitting something for each member of a list, by induction on the list. -/
theorem Steady.mapM {f : α → Emit β} (hf : ∀ a, Steady (f a)) (as : List α) :
    Steady (as.mapM f) := by
  induction as with
  | nil => exact steady_pure []
  | cons a rest ih =>
    rw [List.mapM_cons]
    exact (hf a).bind fun b => ih.bind fun bs => steady_pure (b :: bs)

/-- Steps keep the static items that are there. -/
theorem Emission.Reaches.isPrefix (h : e.Reaches e') :
    e.heads <+: e'.heads ∧ e.expressions <+: e'.expressions := by
  induction h with
  | refl => exact ⟨List.prefix_rfl, List.prefix_rfl⟩
  | tail _ hstep ih =>
    obtain ⟨hheads, hexpressions⟩ := ih
    cases hstep with
    | name count => exact ⟨hheads, hexpressions⟩
    | readable isReadable => exact ⟨hheads, hexpressions⟩
    | head head => exact ⟨hheads.trans (List.prefix_append _ _), hexpressions⟩
    | expression => exact ⟨hheads, hexpressions.trans (List.prefix_append _ _)⟩

/-- Members keep their places when more are added behind them. -/
theorem getElem?_of_isPrefix {as bs : List α} (h : as <+: bs) {index : Nat} {a : α}
    (ha : as[index]? = some a) : bs[index]? = some a := by
  obtain ⟨more, rfl⟩ := h
  obtain ⟨hlt, -⟩ := List.getElem?_eq_some_iff.mp ha
  rw [List.getElem?_append_left hlt, ha]

/-- Whoever knows all heads knows the first ones. -/
theorem HeadsKnown.of_isPrefix {heads more : List Head} {find : String → Option Head}
    (h : HeadsKnown more find) (hstart : heads <+: more) : HeadsKnown heads find :=
  fun index head hhead => h index head (getElem?_of_isPrefix hstart hhead)

/-- Calls refer to the same heads after more have been added. -/
theorem Constructor.Refers.of_isPrefix {heads more : List Head} {constructor : Constructor}
    (h : constructor.Refers heads) (hstart : heads <+: more) : constructor.Refers more := by
  intro name hname
  obtain ⟨index, hlt, rfl⟩ := h name hname
  exact ⟨index, Nat.lt_of_lt_of_le hlt hstart.length_le, rfl⟩

/-- **Names keep their meaning:** whoever knows the items of a later emission knows those of an
    earlier one. -/
theorem Emission.KnownTo.of_reaches {heads : String → Option Head}
    {expressions : String → Option Term} (h : e'.KnownTo heads expressions)
    (hreaches : e.Reaches e') : e.KnownTo heads expressions := by
  obtain ⟨hheads, hexpressions⟩ := hreaches.isPrefix
  exact ⟨h.heads.of_isPrefix hheads, fun index t ht =>
    h.expressions index t (getElem?_of_isPrefix hexpressions ht)⟩

/-! ### Names -/

/-- Naming a local variable is one step. -/
theorem steady_freshName (base : String) : Steady (freshName base) := by
  intro e name e' h
  simp only [freshName, emits_bind, emits_get, emits_set, emits_pure] at h
  obtain ⟨_, _, ⟨rfl, rfl⟩, _, _, rfl, -, rfl⟩ := h
  exact .single (.name _)

/-- The name of a head is that of its static item. -/
theorem emits_emitHead {head : Head} {name : String} (h : Emits (emitHead head) e name e') :
    e.Reaches e' ∧ ∃ index, e'.heads[index]? = some head ∧ name = headName index := by
  simp only [emitHead, emits_bind, emits_get] at h
  obtain ⟨_, _, ⟨rfl, rfl⟩, h⟩ := h
  split at h
  · rename_i index hindex
    obtain ⟨rfl, rfl⟩ := emits_pure.mp h
    obtain ⟨hlt, hfound, -⟩ := List.findIdx?_eq_some_iff_getElem.mp hindex
    have hhead : e.heads[index] = head := by simpa using hfound
    exact ⟨.refl, index, by rw [List.getElem?_eq_getElem hlt, hhead], rfl⟩
  · simp only [emits_bind, emits_set, emits_pure] at h
    obtain ⟨_, _, rfl, rfl, rfl⟩ := h
    exact ⟨.single (.head head), e.heads.length, by simp, rfl⟩

/-- Emitting a head takes one step, or none if it has an item. -/
theorem steady_emitHead (head : Head) : Steady (emitHead head) :=
  fun _ _ _ h => (emits_emitHead h).1

/-! ### Terms -/

/-- The literal of an integer, with its sign in front, is that integer. -/
theorem value?_ofInteger (find : String → Option Head) (value : Int64) :
    (Constructor.ofInteger value).value? find = some (.integer value) := by
  have hlt : value < 0 ↔ value.toInt < 0 := Int64.lt_iff_toInt_lt
  have hvalue : (if decide (value < 0) = true then -(value.toInt.natAbs : Int)
      else value.toInt.natAbs) = value.toInt := by
    by_cases hneg : value < 0
    · have := hlt.mp hneg
      simp only [hneg, decide_true, if_true]
      omega
    · have : ¬ value.toInt < 0 := fun h => hneg (hlt.mpr h)
      simp only [hneg, decide_false, Bool.false_eq_true, if_false]
      omega
  simp only [Constructor.ofInteger, Constructor.value?, hvalue, Int64.ofInt_toInt]

/-- The literal of an integer has 64 bits; that of the least one has its sign in front. -/
theorem inRange_ofInteger (value : Int64) : (Constructor.ofInteger value).inRange = true := by
  have hlt : value < 0 ↔ value.toInt < 0 := Int64.lt_iff_toInt_lt
  have hleast := value.le_toInt
  have hgreatest := value.toInt_lt
  by_cases hneg : value < 0
  · have hmagnitude : value.toInt.natAbs ≤ 0x8000000000000000 := by omega
    simpa [Constructor.ofInteger, Constructor.inRange, hneg] using hmagnitude
  · have hnonneg : ¬ value.toInt < 0 := fun h => hneg (hlt.mpr h)
    have hmagnitude : value.toInt.natAbs < 0x8000000000000000 := by omega
    simpa [Constructor.ofInteger, Constructor.inRange, hneg] using hmagnitude

mutual

/-- The calls for a term take a step for each head that has no item yet. -/
theorem steady_emitConstructor (t : Term) : Steady (emitConstructor t) := by
  cases t with
  | integer value => exact steady_pure _
  | symbol s => exact steady_pure _
  | node head args =>
    simp only [emitConstructor]
    exact (steady_emitHead head).bind fun name =>
      (steady_emitConstructors args).bind fun constructors => steady_pure _
termination_by structural t

/-- The calls for the terms of a list take the steps of one after the other. -/
theorem steady_emitConstructors (ts : List Term) : Steady (emitConstructors ts) := by
  cases ts with
  | nil => exact steady_pure _
  | cons t rest =>
    simp only [emitConstructors]
    exact (steady_emitConstructor t).bind fun first =>
      (steady_emitConstructors rest).bind fun later => steady_pure _
termination_by structural ts

end

mutual

/-- **The calls for a canonical term build it,** with the heads of the static items. -/
theorem value?_emitConstructor {t : Term} (ht : t.Canonical) {before after : Emission}
    {constructor : Constructor} (h : Emits (emitConstructor t) before constructor after)
    {find : String → Option Head} (hfind : HeadsKnown after.heads find) :
    constructor.value? find = some t := by
  cases t with
  | integer value =>
    obtain ⟨rfl, -⟩ := emits_pure.mp h
    exact value?_ofInteger find value
  | symbol s =>
    obtain ⟨rfl, -⟩ := emits_pure.mp h
    rfl
  | node head args =>
    simp only [emitConstructor, emits_bind, emits_pure] at h
    obtain ⟨name, between, hhead, constructors, _, hargs, rfl, rfl⟩ := h
    obtain ⟨-, index, hindex, rfl⟩ := emits_emitHead hhead
    have hstart := (steady_emitConstructors args _ _ _ hargs).isPrefix.1
    have hname : find (headName index) = some head :=
      hfind index head (getElem?_of_isPrefix hstart hindex)
    have hvalues := values?_emitConstructors ht.args hargs hfind
    simp only [Constructor.value?, HeadSource.head?, hname, hvalues, ht.build_args]
termination_by structural t

/-- The calls for canonical terms build them, one after the other. -/
theorem values?_emitConstructors {ts : List Term} (hts : ∀ t ∈ ts, t.Canonical)
    {before after : Emission} {constructors : List Constructor}
    (h : Emits (emitConstructors ts) before constructors after) {find : String → Option Head}
    (hfind : HeadsKnown after.heads find) : Constructor.values? find constructors = some ts := by
  cases ts with
  | nil =>
    obtain ⟨rfl, -⟩ := emits_pure.mp h
    rfl
  | cons t rest =>
    simp only [emitConstructors, emits_bind, emits_pure] at h
    obtain ⟨first, between, hfirst, later, _, hlater, rfl, rfl⟩ := h
    have hstart := (steady_emitConstructors rest _ _ _ hlater).isPrefix.1
    have hvalue := value?_emitConstructor (hts t List.mem_cons_self) hfirst
      (hfind.of_isPrefix hstart)
    have hvalues := values?_emitConstructors (fun s hs => hts s (List.mem_cons_of_mem _ hs))
      hlater hfind
    simp only [Constructor.values?, hvalue, hvalues]
termination_by structural ts

end

mutual

/-- The heads in the calls for a term have been emitted. -/
theorem refers_emitConstructor {t : Term} {before after : Emission} {constructor : Constructor}
    (h : Emits (emitConstructor t) before constructor after) : constructor.Refers after.heads := by
  cases t with
  | integer value =>
    obtain ⟨rfl, -⟩ := emits_pure.mp h
    exact fun _ hname => absurd hname List.not_mem_nil
  | symbol s =>
    obtain ⟨rfl, -⟩ := emits_pure.mp h
    exact fun _ hname => absurd hname List.not_mem_nil
  | node head args =>
    simp only [emitConstructor, emits_bind, emits_pure] at h
    obtain ⟨name, between, hhead, constructors, _, hargs, rfl, rfl⟩ := h
    obtain ⟨-, index, hindex, rfl⟩ := emits_emitHead hhead
    have hstart := (steady_emitConstructors args _ _ _ hargs).isPrefix.1
    intro other hother
    rcases List.mem_cons.mp hother with rfl | hother
    · exact ⟨index, (List.getElem?_eq_some_iff.mp (getElem?_of_isPrefix hstart hindex)).1, rfl⟩
    · exact refers_emitConstructors hargs other hother
termination_by structural t

/-- The heads in the calls for the terms of a list have been emitted. -/
theorem refers_emitConstructors {ts : List Term} {before after : Emission}
    {constructors : List Constructor}
    (h : Emits (emitConstructors ts) before constructors after) :
    ∀ name ∈ Constructor.headNamesAll constructors,
      ∃ index < after.heads.length, name = headName index := by
  cases ts with
  | nil =>
    obtain ⟨rfl, -⟩ := emits_pure.mp h
    exact fun _ hname => absurd hname List.not_mem_nil
  | cons t rest =>
    simp only [emitConstructors, emits_bind, emits_pure] at h
    obtain ⟨first, between, hfirst, later, _, hlater, rfl, rfl⟩ := h
    have hstart := (steady_emitConstructors rest _ _ _ hlater).isPrefix.1
    intro name hname
    rcases List.mem_append.mp hname with hname | hname
    · exact (refers_emitConstructor hfirst).of_isPrefix hstart name hname
    · exact refers_emitConstructors hlater name hname
termination_by structural ts

end

mutual

/-- The integers in the calls for a term are those of the term. -/
theorem inRange_emitConstructor {t : Term} {before after : Emission} {constructor : Constructor}
    (h : Emits (emitConstructor t) before constructor after) : constructor.inRange = true := by
  cases t with
  | integer value =>
    obtain ⟨rfl, -⟩ := emits_pure.mp h
    exact inRange_ofInteger value
  | symbol s =>
    obtain ⟨rfl, -⟩ := emits_pure.mp h
    rfl
  | node head args =>
    simp only [emitConstructor, emits_bind, emits_pure] at h
    obtain ⟨name, between, -, constructors, _, hargs, rfl, -⟩ := h
    exact inRange_emitConstructors hargs
termination_by structural t

/-- The integers in the calls for the terms of a list are those of the terms. -/
theorem inRange_emitConstructors {ts : List Term} {before after : Emission}
    {constructors : List Constructor} (h : Emits (emitConstructors ts) before constructors after) :
    Constructor.inRangeAll constructors = true := by
  cases ts with
  | nil =>
    obtain ⟨rfl, -⟩ := emits_pure.mp h
    rfl
  | cons t rest =>
    simp only [emitConstructors, emits_bind, emits_pure] at h
    obtain ⟨first, between, hfirst, later, _, hlater, rfl, -⟩ := h
    rw [Constructor.inRangeAll, inRange_emitConstructor hfirst, inRange_emitConstructors hlater]
    rfl
termination_by structural ts

end

/-- The name of a term is that of its static item. -/
theorem emits_emitExpression {t : Term} {name : String} (h : Emits (emitExpression t) e name e') :
    e.Reaches e' ∧ ∃ index, e'.expressions[index]? = some t ∧ name = expressionName index := by
  simp only [emitExpression, emits_bind, emits_get] at h
  obtain ⟨_, _, ⟨rfl, rfl⟩, h⟩ := h
  split at h
  · rename_i index hindex
    obtain ⟨rfl, rfl⟩ := emits_pure.mp h
    obtain ⟨hlt, hfound, -⟩ := List.findIdx?_eq_some_iff_getElem.mp hindex
    have hterm : e.expressions[index] = t := by simpa using hfound
    exact ⟨.refl, index, by rw [List.getElem?_eq_getElem hlt, hterm], rfl⟩
  · simp only [emits_bind, emits_get, emits_set, emits_pure] at h
    obtain ⟨constructor, between, hconstructor, _, _, ⟨rfl, rfl⟩, _, _, rfl, rfl, rfl⟩ := h
    refine ⟨(steady_emitConstructor t _ _ _ hconstructor).trans
      (.single (.expression ?_ (refers_emitConstructor hconstructor)
        (inRange_emitConstructor hconstructor))),
      between.expressions.length, by simp, rfl⟩
    exact fun find hfind ht => value?_emitConstructor ht hconstructor hfind

/-- Emitting a term takes the steps of its calls, and one for its item. -/
theorem steady_emitExpression (t : Term) : Steady (emitExpression t) :=
  fun _ _ _ h => (emits_emitExpression h).1

/-- Emitting a default takes the steps of its term, if there is one. -/
theorem steady_emitDefault (default : Option Term) : Steady (emitDefault default) := by
  cases default with
  | none => exact steady_pure _
  | some t => exact (steady_emitExpression t).bind fun name => steady_pure _

/-- The static item of a default, if there is a default. -/
theorem bind_emitDefault {default : Option Term} {name : Option String}
    (h : Emits (emitDefault default) e name e') (hcanonical : ∀ t ∈ default, t.Canonical)
    {heads : String → Option Head}
    {expressions : String → Option Term} (hknown : e'.KnownTo heads expressions) :
    name.bind expressions = default := by
  cases default with
  | none =>
    obtain ⟨rfl, -⟩ := emits_pure.mp h
    rfl
  | some t =>
    simp only [emitDefault, emits_bind, emits_pure] at h
    obtain ⟨name, _, hname, rfl, rfl⟩ := h
    obtain ⟨-, index, hindex, rfl⟩ := emits_emitExpression hname
    exact hknown.expressions index t hindex (hcanonical t rfl)

end TermNet.Code
