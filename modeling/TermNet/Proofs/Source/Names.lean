import TermNet.Source.Language
import TermNet.Proofs.Source.Scanned
import TermNet.Proofs.Source.Readers

namespace TermNet.Source

open Reader TermNet.Text

/-!
# The names in an expression

Expressions hold much that patterns are not made of.  Where an expression has none of that, the
names of its paths are words of the language that may stand in a path.

* `Gives` — readers that give something with a property if they are given words of the language;
* `Grammar.Taking.gives_qualifiedPath` — the names of a path;
* `Expression.Over` — expressions that patterns are made of, with a property of their paths;
* `FineFrom` — readers that keep the names of what they continue and of what they find.
-/

/-! ### Readers of sound tokens -/

/-- From sound tokens a reader gives only what has the property, and leaves sound ones. -/
def Gives {α : Type} (P : α → Prop) (r : Reader α) : Prop :=
  ∀ ts a rest, Sound ts → r ts = some (a, rest) → P a ∧ Sound rest

namespace Gives

variable {α β : Type} {P : α → Prop} {Q : β → Prop}

/-- Giving what has the property. -/
theorem pure {a : α} (h : P a) : Gives P (pure a : Reader α) := by
  rintro ts _ rest hts ⟨⟩
  exact ⟨h, hts⟩

/-- A reader that fails gives nothing. -/
theorem failure : Gives P (failure : Reader α) := fun _ _ _ _ h => nomatch h

/-- The second reader is given sound tokens again, and what the first one gives. -/
theorem bind {r : Reader α} {f : α → Reader β} (h : Gives P r) (hf : ∀ a, P a → Gives Q (f a)) :
    Gives Q (r >>= f) := by
  intro ts b rest hts hrest
  rw [bind_apply, Option.bind_eq_some_iff] at hrest
  obtain ⟨⟨a, between⟩, ha, hb⟩ := hrest
  obtain ⟨hp, hbetween⟩ := h ts a between hts ha
  exact hf a hp between b rest hbetween hb

/-- Nothing is asked of what is found on the way. -/
theorem after {r : Reader α} {f : α → Reader β} (h : Takes r) (hf : ∀ a, Gives Q (f a)) :
    Gives Q (r >>= f) :=
  bind (P := fun _ => True) (fun ts a rest hts ha => ⟨trivial, hts.of_suffix (h ts a rest ha)⟩)
    fun a _ => hf a

/-- A choice between two readers. -/
theorem ite {c : Prop} [Decidable c] {r s : Reader α} (hr : Gives P r) (hs : Gives P s) :
    Gives P (if c then r else s) := by
  split
  · exact hr
  · exact hs

end Gives

/-! ### Paths -/

/-- The names of segments may stand in a path. -/
def SoundSegments (segments : List Segment) : Prop := ∀ s ∈ segments, IsSegment s.name

/-- The names of a path may stand in a path. -/
def Path.Sound (path : Path) : Prop := ∀ name ∈ path.names, IsSegment name

namespace Grammar.Taking

variable {g : Grammar} (h : g.Taking)
include h

/-- The name of a segment is a word that may follow `::`. -/
theorem gives_segment (inExpression : Bool) :
    Gives (fun s : Segment => IsSegment s.name) (g.segment inExpression) := by
  intro ts s rest hts hread
  refine ⟨?_, hts.of_suffix (h.segment inExpression ts s rest hread)⟩
  simp only [Grammar.segment, bind_apply, get_apply, Option.bind_some] at hread
  split at hread
  · rename_i w more
    have hw := hts.word
    split at hread
    · -- `try` and the words that stand for places
      rename_i hplace
      cases hread
      rw [Bool.or_eq_true, decide_eq_true_eq, List.contains_iff_mem] at hplace
      exact ⟨hw, .inr (.inr hplace)⟩
    split at hread
    · -- identifiers and `Self`, with generic arguments or without
      rename_i hname
      have hsegment : IsSegment w := by
        rw [Bool.or_eq_true, decide_eq_true_eq, Bool.not_eq_true'] at hname
        exact ⟨hw, hname.symm.imp_right .inl⟩
      split at hread
      · simp only [bind_apply, Option.bind_eq_some_iff, pure_apply, Option.some.injEq,
          Prod.mk.injEq] at hread
        obtain ⟨_, -, _, -, _, -, rfl, -⟩ := hread
        exact hsegment
      · cases hread
        exact hsegment
    · cases hread
  · cases hread

/-- The names of the segments behind the first one, by induction on the steps of the loop. -/
theorem gives_moreSegments (inExpression : Bool) :
    Gives SoundSegments (g.moreSegments inExpression) := by
  refine .after takes_stepsOfLoop fun steps => ?_
  induction steps with
  | zero => exact .failure
  | succ steps ih =>
    refine .after (takes_ahead _) fun _ => .ite ?_ (.pure nofun)
    refine .after (takes_operator _) fun _ => .bind (h.gives_segment _) fun s hs => ?_
    exact ih.bind fun more hmore => .pure (List.forall_mem_cons.mpr ⟨hs, hmore⟩)

/-- The names of a path. -/
theorem gives_path (inExpression : Bool) :
    Gives (fun p : Path => SoundSegments p.segments ∧ p.Sound) (g.path inExpression) := by
  refine .after (takes_optionalOperator _) fun lead => .bind (h.gives_segment _) fun s hs => ?_
  refine .bind (h.gives_moreSegments _) fun more hmore => .pure ?_
  have hsegments : SoundSegments (s :: more) := List.forall_mem_cons.mpr ⟨hs, hmore⟩
  exact ⟨hsegments, List.forall_mem_map.mpr hsegments⟩

/-- The names of the segments behind a type in angles, by induction on the steps of the loop. -/
theorem gives_qualifiedSteps (inExpression : Bool) (steps : Nat) :
    Gives SoundSegments (g.qualifiedSteps inExpression steps) := by
  induction steps with
  | zero => exact .failure
  | succ steps ih =>
    refine .bind (h.gives_segment _) fun s hs => .after (takes_ahead _) fun _ => .ite ?_ ?_
    · refine .after (takes_operator _) fun _ => ih.bind fun more hmore => .pure ?_
      exact List.forall_mem_cons.mpr ⟨hs, hmore⟩
    · exact .pure (List.forall_mem_singleton.mpr hs)

/-- **The names of a path** may stand in a path, those of the trait in a qualified type
    included. -/
theorem gives_qualifiedPath (inExpression : Bool) :
    Gives Path.Sound (g.qualifiedPath inExpression) := by
  have hclosing : Takes (inOrder [operator ">", operator "::"]) :=
    takes_inOrder (by simp [takes_operator])
  have hrest : ∀ (lead : List Token → List Token) (qualifier : List Segment),
      SoundSegments qualifier → Gives Path.Sound (do
        let closing ← inOrder [operator ">", operator "::"]
        let segments ← g.qualifiedSteps inExpression (← stepsOfLoop)
        return { lead := lead closing, segments, qualifier }) := by
    intro lead qualifier hqualifier
    refine .after hclosing fun _ => .after takes_stepsOfLoop fun steps => ?_
    refine .bind (h.gives_qualifiedSteps _ steps) fun segments hsegments =>
      .pure fun name hname => ?_
    obtain ⟨s, hs, rfl⟩ := List.mem_map.mp hname
    rcases List.mem_append.mp hs with hs | hs
    · exact hqualifier s hs
    · exact hsegments s hs
  have hpath := (h.gives_path inExpression).bind fun p hp => Gives.pure (P := Path.Sound) hp.2
  rw [bind_pure] at hpath
  refine .after (takes_ahead _) fun _ => .ite ?_ hpath
  -- the type is kept as tokens, and its names are not among those of the path
  refine .after (takes_operator _) fun _ => .after h.typeTokens fun _ => ?_
  have hqualified : ∀ found : List Token × List Segment, SoundSegments found.2 →
      Gives (fun found : List Token × List Segment => SoundSegments found.2) (pure found) :=
    fun found hfound => .pure hfound
  refine .after (takes_ahead _) fun _ => .ite (.after (takes_keyword _) fun _ => ?_) ?_
  · refine .bind (h.gives_path _) fun trait htrait => ?_
    exact .bind (hqualified _ htrait.1) fun found hfound => hrest _ _ hfound
  · exact .bind (hqualified _ nofun) fun found hfound => hrest _ _ hfound

end Grammar.Taking

/-! ### Expressions -/

/-- Expressions that patterns are made of, with a property of their paths. -/
inductive Expression.Over (P : Path → Prop) : Expression → Prop
  | number (literal : String) : Over P (.number literal)
  | blank : Over P .blank
  | path {p : Path} (h : P p) : Over P (.path p)
  | paren {e : Expression} (h : Over P e) : Over P (.paren e)
  | negated {e : Expression} (h : Over P e) : Over P (.negated e)
  | binary (operator : BinaryOperator) {l r : Expression} (hl : Over P l) (hr : Over P r) :
    Over P (.binary operator l r)
  | call {f : Expression} {args : List Expression} (comma : Bool) (hf : Over P f)
    (hargs : ∀ e ∈ args, Over P e) : Over P (.call f args comma)
  | attributed (attributes : List Token) {e : Expression} (h : Over P e) :
    Over P (.attributed attributes e)

/-- An expression that patterns are made of. -/
def Expression.Simple (e : Expression) : Prop := e.Over fun _ => True

/-- An expression that patterns are made of, whose names may stand in a path. -/
def Expression.Sound (e : Expression) : Prop := e.Over Path.Sound

/-- Patterns are not made of what is kept as tokens. -/
theorem not_simple_other (shape : ExpressionShape) (tokens : List Token) :
    ¬ (Expression.other shape tokens).Simple := nofun

/-- Patterns are not made of expressions that tokens follow. -/
theorem not_simple_extended (left : Expression) (rest : List Token) :
    ¬ (Expression.extended left rest).Simple := nofun

/-- If patterns are made of an expression, its names may stand in a path, and so may those of what
    follows it. -/
def Fine (e : Expression) (rest : List Token) : Prop :=
  e.Simple → e.Sound ∧ TermNet.Source.Sound rest

/-- Behind a blank nothing is asked but sound tokens. -/
theorem fine_blank {ts : List Token} : Fine .blank ts ↔ Sound ts :=
  ⟨fun h => (h .blank).2, fun h _ => ⟨.blank, h⟩⟩

/-- Nothing is asked behind what patterns are not made of. -/
theorem fine_of_not_simple {e : Expression} (h : ¬ e.Simple) (ts : List Token) : Fine e ts :=
  fun he => absurd he h

/-- Later tokens are as sound as earlier ones. -/
theorem Fine.of_suffix {e : Expression} {ts rest : List Token} (h : Fine e ts)
    (hrest : rest <:+ ts) : Fine e rest :=
  fun he => (h he).imp_right (·.of_suffix hrest)

/-- Attributes change no names. -/
theorem Fine.withAttributes {e : Expression} {ts : List Token} (h : Fine e ts)
    (attributes : List Token) : Fine (e.withAttributes attributes) ts := by
  unfold Expression.withAttributes
  split
  · exact h
  split
  · exact fine_of_not_simple (not_simple_other _ _) ts
  · exact fine_of_not_simple (not_simple_other _ _) ts
  · intro hsimple
    cases hsimple with
    | attributed _ he => exact ⟨.attributed _ (h he).1, (h he).2⟩

/-- Readers that keep the names of what they continue and of what they find. -/
def FineFrom (e : Expression) (r : Reader Expression) : Prop :=
  ∀ ts found rest, Fine e ts → r ts = some (found, rest) → Fine found rest

namespace FineFrom

variable {α : Type} {e : Expression}

/-- What is given is as fine as what it is made of. -/
theorem pure {found : Expression} (h : ∀ ts, Fine e ts → Fine found ts) :
    FineFrom e (pure found) := by
  rintro ts _ rest hts ⟨⟩
  exact h ts hts

/-- What is kept as tokens is fine. -/
theorem other (shape : ExpressionShape) (tokens : List Token) :
    FineFrom e (Pure.pure (.other shape tokens)) :=
  pure fun ts _ => fine_of_not_simple (not_simple_other _ _) ts

/-- A reader that fails finds nothing. -/
theorem failure : FineFrom e failure := fun _ _ _ _ h => nomatch h

/-- A choice between two readers. -/
theorem ite {c : Prop} [Decidable c] {r s : Reader Expression} (hr : FineFrom e r)
    (hs : FineFrom e s) : FineFrom e (if c then r else s) := by
  split
  · exact hr
  · exact hs

/-- What is found behind the expression. -/
theorem after {r : Reader α} {f : α → Reader Expression} (h : Takes r)
    (hf : ∀ a, FineFrom e (f a)) : FineFrom e (r >>= f) := by
  intro ts found rest hts hrest
  rw [bind_apply, Option.bind_eq_some_iff] at hrest
  obtain ⟨⟨a, between⟩, ha, hb⟩ := hrest
  exact hf a between found rest (hts.of_suffix (h ts a between ha)) hb

/-- What is found in front of the expression. -/
theorem gives {P : α → Prop} {r : Reader α} {f : α → Reader Expression} (h : Gives P r)
    (hf : ∀ a, P a → FineFrom .blank (f a)) : FineFrom .blank (r >>= f) := by
  intro ts found rest hts hrest
  rw [bind_apply, Option.bind_eq_some_iff] at hrest
  obtain ⟨⟨a, between⟩, ha, hb⟩ := hrest
  obtain ⟨hp, hbetween⟩ := h ts a between (fine_blank.mp hts) ha
  exact hf a hp between found rest (fine_blank.mpr hbetween) hb

/-- What goes on with an expression that patterns are not made of. -/
theorem leave {r : Reader α} {f : α → Reader Expression} {g : α → Expression}
    (hg : ∀ a, ¬ (g a).Simple) (hf : ∀ a, FineFrom (g a) (f a)) : FineFrom e (r >>= f) := by
  intro ts found rest _ hrest
  rw [bind_apply, Option.bind_eq_some_iff] at hrest
  obtain ⟨⟨a, between⟩, -, hb⟩ := hrest
  exact hf a between found rest (fine_of_not_simple (hg a) between) hb

/-- What is kept as tokens. -/
theorem kept (r : Reader α) (shape : ExpressionShape) (tokens : α → List Token) :
    FineFrom e (r >>= fun a => Pure.pure (.other shape (tokens a))) :=
  leave (fun a => not_simple_other shape (tokens a)) fun _ => other _ _

/-- What goes on with a further expression. -/
theorem bind {r : Reader Expression} {f : Expression → Reader Expression}
    (h : FineFrom e r) (hf : ∀ found, FineFrom found (f found)) : FineFrom e (r >>= f) := by
  intro ts found rest hts hrest
  rw [bind_apply, Option.bind_eq_some_iff] at hrest
  obtain ⟨⟨a, between⟩, ha, hb⟩ := hrest
  exact hf a between found rest (h ts a between hts ha) hb

/-- A further expression that a new one is made of. -/
theorem join {r : Reader Expression} {f : Expression → Reader Expression}
    {whole : Expression → Expression}
    (h : FineFrom .blank r) (hwhole : ∀ right, (whole right).Simple → e.Simple ∧ right.Simple)
    (hsound : ∀ right, e.Sound → right.Sound → (whole right).Sound)
    (hf : ∀ right, FineFrom (whole right) (f right)) : FineFrom e (r >>= f) := by
  intro ts found rest hts hrest
  rw [bind_apply, Option.bind_eq_some_iff] at hrest
  obtain ⟨⟨right, between⟩, hright, hb⟩ := hrest
  refine hf right between found rest (fun hsimple => ?_) hb
  obtain ⟨he, hr⟩ := hwhole right hsimple
  obtain ⟨hesound, hsounds⟩ := hts he
  obtain ⟨hrsound, hbetween⟩ := h ts right between (fine_blank.mpr hsounds) hright hr
  exact ⟨hsound right hesound hrsound, hbetween⟩

end FineFrom

end TermNet.Source
