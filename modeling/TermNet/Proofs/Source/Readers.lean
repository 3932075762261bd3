import TermNet.Source.Reader
import TermNet.Source.Type

namespace TermNet.Source.Reader

/-!
# What readers do to the tokens

* `bind_apply`, `pure_apply`, … — one equation for each way to build a reader;
* `Takes` — readers that take tokens from the front;
* `takes_operator`, `takes_inside`, … — readers of single tokens and of groups do;
* `takes_listUntil`, `takes_listWhile` — lists do if their items do;
* `Grammar.Taking` — a grammar whose types, generic arguments and blocks take tokens from the front;
* `takes_outerAttributes`, `Taking.path`, `Taking.bound`, … — then so does what is made of them;
* `Taking.typeRule`, `Taking.genericsRule` — so do types and generic arguments one level up.
-/

variable {α β : Type}

/-! ### Equations -/

/-- The second reader goes on where the first one stops; it fails if one of them does. -/
@[simp] theorem bind_apply (r : Reader α) (f : α → Reader β) (ts : List Token) :
    (r >>= f) ts = (r ts).bind fun found => f found.1 found.2 := rfl

/-- What is read may be changed afterwards, and what is left stays. -/
@[simp] theorem map_apply (f : α → β) (r : Reader α) (ts : List Token) :
    (f <$> r) ts = (r ts).map fun found => (f found.1, found.2) := by
  show ((r ts).bind fun found => some (f found.1, found.2)) = _
  cases r ts <;> rfl

/-- A value is given without a look at the tokens. -/
@[simp] theorem pure_apply (a : α) (ts : List Token) : (pure a : Reader α) ts = some (a, ts) := rfl

/-- The tokens in front are given and left where they are. -/
@[simp] theorem get_apply (ts : List Token) : (get : Reader (List Token)) ts = some (ts, ts) := rfl

/-- The tokens are replaced, whatever was there. -/
@[simp] theorem set_apply (us ts : List Token) : (set us : Reader PUnit) ts = some (⟨⟩, us) := rfl

/-- Failing does not depend on the tokens. -/
@[simp] theorem failure_apply (ts : List Token) : (failure : Reader α) ts = none := rfl

/-- A test of the tokens in front takes none of them. -/
@[simp] theorem ahead_apply (test : List Token → Bool) (ts : List Token) :
    ahead test ts = some (test ts, ts) := rfl

/-- An operator in front is taken, and given as it is printed. -/
theorem operator_apply {text : String} {ts rest : List Token} (h : after? text ts = some rest) :
    operator text ts = some (mark text, rest) := by
  simp [operator, h]

/-- The bound of a loop is one more than the number of tokens that are left. -/
@[simp] theorem stepsOfLoop_apply (ts : List Token) :
    stepsOfLoop ts = some (ts.length + 1, ts) := rfl

/-! ### Readers that take tokens from the front -/

/-- What a reader leaves is the end of what it was given. -/
def Takes (r : Reader α) : Prop := ∀ ts a rest, r ts = some (a, rest) → rest <:+ ts

/-- Giving a value takes nothing. -/
theorem takes_pure (a : α) : Takes (pure a) := by
  rintro ts _ rest ⟨⟩
  exact List.suffix_rfl

/-- A reader that fails leaves nothing that could be wrong. -/
theorem takes_failure : Takes (failure : Reader α) := nofun

/-- A reader that begins with a failure fails, whatever would follow. -/
theorem takes_failure_bind (f : α → Reader β) : Takes ((failure : Reader α) >>= f) := by
  intro ts b rest h
  simp at h

/-- Looking at the tokens takes none. -/
theorem takes_get : Takes (get : Reader (List Token)) := by
  rintro ts _ rest ⟨⟩
  exact List.suffix_rfl

/-- Testing the tokens takes none. -/
theorem takes_ahead (test : List Token → Bool) : Takes (ahead test) := by
  rintro ts _ rest ⟨⟩
  exact List.suffix_rfl

/-- Counting the tokens takes none. -/
theorem takes_stepsOfLoop : Takes stepsOfLoop := by
  rintro ts _ rest ⟨⟩
  exact List.suffix_rfl

/-- **Two readers in a row:** the end of an end is an end. -/
theorem Takes.bind {r : Reader α} {f : α → Reader β} (h : Takes r)
    (hf : ∀ a, Takes (f a)) : Takes (r >>= f) := by
  intro ts b rest hrest
  rw [bind_apply, Option.bind_eq_some_iff] at hrest
  obtain ⟨⟨a, between⟩, ha, hb⟩ := hrest
  exact (hf a between b rest hb).trans (h ts a between ha)

/-- What is read may be put into something else. -/
theorem Takes.bind_pure {r : Reader α} (h : Takes r) (f : α → β) :
    Takes (r >>= fun a => pure (f a)) :=
  h.bind fun _ => takes_pure _

/-- A choice between two readers takes tokens from the front if both do. -/
theorem Takes.ite {c : Prop} [Decidable c] {r s : Reader α} (hr : Takes r) (hs : Takes s) :
    Takes (if c then r else s) := by
  split
  · exact hr
  · exact hs

/-! ### Single tokens -/

/-- Behind an operator, character by character, is an end of the tokens. -/
theorem suffix_of_afterChars? {cs : List Char} {ts rest : List Token}
    (h : afterChars? cs ts = some rest) : rest <:+ ts := by
  fun_induction afterChars? cs ts with
  | case1 => exact Option.some.inj h ▸ List.suffix_rfl
  | case2 => exact Option.some.inj h ▸ List.suffix_cons _ _
  | case4 cs d more _ ih => exact (ih h).trans (List.suffix_cons _ _)
  | _ => cases h

/-- Behind an operator is an end of the tokens. -/
theorem suffix_of_after? {operator : String} {ts rest : List Token}
    (h : after? operator ts = some rest) : rest <:+ ts :=
  suffix_of_afterChars? h

/-- An operator is taken from the front. -/
theorem takes_operator (text : String) : Takes (operator text) := by
  intro ts a rest h
  cases hafter : after? text ts with
  | none => simp [operator, hafter] at h
  | some more =>
    rw [operator_apply hafter] at h
    cases h
    exact suffix_of_after? hafter

/-- A keyword is one token. -/
theorem takes_keyword (text : String) : Takes (keyword text) := by
  intro ts a rest h
  simp only [keyword, bind_apply, get_apply, Option.bind_some] at h
  split at h
  · split at h
    · cases h
      exact List.suffix_cons _ _
    · cases h
  · cases h

/-- A word is one token. -/
theorem takes_anyWord : Takes anyWord := by
  intro ts a rest h
  simp only [anyWord, bind_apply, get_apply, Option.bind_some] at h
  split at h
  · cases h
    exact List.suffix_cons _ _
  · cases h

/-- A lifetime is two tokens, its mark and its name. -/
theorem takes_lifetime : Takes lifetime := by
  intro ts a rest h
  simp only [lifetime, bind_apply, get_apply, Option.bind_some] at h
  split at h
  · cases h
    exact (List.suffix_cons _ _).trans (List.suffix_cons _ _)
  · cases h

/-- A literal is one token, or two if a number has a sign. -/
theorem takes_literal : Takes literal := by
  intro ts a rest h
  simp only [literal, bind_apply, get_apply, Option.bind_some] at h
  split at h
  · cases h
    exact List.suffix_cons _ _
  · split at h
    · cases h
      exact (List.suffix_cons _ _).trans (List.suffix_cons _ _)
    · cases h
  · split at h
    · exact takes_anyWord _ _ _ h
    · cases h

/-- A group is one token, whatever it holds. -/
theorem takes_anyGroup : Takes anyGroup := by
  intro ts a rest h
  simp only [anyGroup, bind_apply, get_apply, Option.bind_some] at h
  split at h
  · cases h
    exact List.suffix_cons _ _
  · cases h

/-- What is inside a group and behind it. -/
theorem inside_eq_some {delimiter : Delimiter} {r : Reader α} {ts rest : List Token} {a : α}
    (h : inside delimiter r ts = some (a, rest)) :
    ∃ tokens, ts = .group delimiter tokens :: rest ∧ r tokens = some (a, []) := by
  simp only [inside, bind_apply, get_apply, Option.bind_some] at h
  split at h
  · rename_i d tokens more
    cases hfound : r tokens with
    | none => simp [hfound] at h
    | some found =>
      obtain ⟨b, left⟩ := found
      cases left with
      | nil =>
        simp only [hfound] at h
        split at h
        · rename_i hdelimiter
          cases h
          exact ⟨tokens, by rw [hdelimiter], hfound⟩
        · cases h
      | cons t left => simp [hfound] at h
  · cases h

/-- What is read inside a group does not matter to what is behind it. -/
theorem takes_inside (delimiter : Delimiter) (r : Reader α) : Takes (inside delimiter r) := by
  intro ts a rest h
  obtain ⟨tokens, rfl, -⟩ := inside_eq_some h
  exact List.suffix_cons _ _

/-- A group is taken as a whole. -/
theorem takes_group (delimiter : Delimiter) (r : Reader (List Token)) :
    Takes (group delimiter r) :=
  (takes_inside _ _).bind_pure _

/-! ### Readers put together -/

/-- A reader that is used on a condition takes tokens from the front or none. -/
theorem Takes.whenAhead {r : Reader (List Token)} (h : Takes r) (test : List Token → Bool) :
    Takes (whenAhead test r) :=
  .bind (takes_ahead _) fun _ => .ite h (takes_pure _)

/-- An identifier is a word. -/
theorem takes_identifier : Takes identifier :=
  .bind (takes_ahead _) fun _ => .ite takes_anyWord takes_failure

/-- One of some words is a word as well. -/
theorem takes_identifierOr (words : List String) : Takes (identifierOr words) :=
  .bind (takes_ahead _) fun _ => .ite takes_anyWord takes_identifier

/-- An operator that may be missing. -/
theorem takes_optionalOperator (text : String) : Takes (optionalOperator text) :=
  (takes_operator text).whenAhead _

/-- A keyword that may be missing. -/
theorem takes_optionalKeyword (text : String) : Takes (optionalKeyword text) :=
  (takes_keyword text).whenAhead _

/-- A lifetime that may be missing. -/
theorem takes_optionalLifetime : Takes optionalLifetime :=
  takes_lifetime.whenAhead _

/-- Readers one after the other, by induction on how many there are. -/
theorem takes_inOrder {readers : List (Reader (List Token))}
    (h : ∀ r ∈ readers, Takes r) : Takes (inOrder readers) := by
  induction readers with
  | nil => exact takes_pure _
  | cons r readers ih =>
    rw [List.forall_mem_cons] at h
    exact h.1.bind fun _ => (ih h.2).bind_pure _

/-- Looking back at what has been read takes nothing. -/
theorem takes_writtenSince (before : List Token) : Takes (writtenSince before) :=
  takes_get.bind_pure _

/-! ### Lists -/

/-- The items of a list up to its end, by induction on the steps of the loop. -/
theorem takes_untilSteps {separator : String} {ends : List Token → Bool} {item : Reader α}
    (h : Takes item) (steps : Nat) : Takes (untilSteps separator ends item steps) := by
  induction steps with
  | zero => exact takes_failure
  | succ steps ih =>
    exact .bind (takes_ahead _) fun _ => .ite (takes_pure _) <| h.bind fun _ =>
      .bind (takes_ahead _) fun _ => .ite (takes_pure _) <|
        .bind (takes_operator _) fun _ => ih.bind_pure _

/-- **A list up to an end** takes tokens from the front if its items do. -/
theorem takes_listUntil {separator : String} {ends : List Token → Bool} {item : Reader α}
    (h : Takes item) : Takes (listUntil separator ends item) :=
  takes_stepsOfLoop.bind (takes_untilSteps h)

/-- The items of a list as long as separators follow, by induction on the steps of the loop. -/
theorem takes_whileSteps {separator : String} {ends : List Token → Bool} {item : Reader α}
    (h : Takes item) (steps : Nat) : Takes (whileSteps separator ends item steps) := by
  induction steps with
  | zero => exact takes_failure
  | succ steps ih =>
    exact .bind (takes_ahead _) fun _ => .ite (takes_pure _) <| h.bind fun _ =>
      .bind (takes_ahead _) fun _ =>
        .ite (.bind (takes_operator _) fun _ => ih.bind_pure _) (takes_pure _)

/-- **A list as long as separators follow** takes tokens from the front if its items do. -/
theorem takes_listWhile {separator : String} {ends : List Token → Bool} {item : Reader α}
    (h : Takes item) : Takes (listWhile separator ends item) :=
  takes_stepsOfLoop.bind (takes_whileSteps h)

end TermNet.Source.Reader

namespace TermNet.Source.Grammar

open Reader

/-! ### Attributes, paths and types -/

variable {g : Grammar}

/-! ### Attributes -/

/-- Attributes are read one by one; what they say is inside brackets. -/
theorem takes_outerSteps (g : Grammar) (steps : Nat) : Takes (g.outerSteps steps) := by
  induction steps with
  | zero => exact takes_failure
  | succ steps ih =>
    refine .bind (takes_ahead _) fun _ => .ite ?_ (takes_pure _)
    exact .bind (takes_operator _) fun _ => .bind (takes_group _ _) fun _ => ih.bind_pure _

/-- Attributes in front of a thing. -/
theorem takes_outerAttributes (g : Grammar) : Takes g.outerAttributes :=
  takes_stepsOfLoop.bind (takes_outerSteps g)

/-- The exclamation mark of a macro and the group behind it. -/
theorem takes_macroArguments : Takes macroArguments :=
  takes_inOrder (by simp [takes_operator, takes_anyGroup])

/-! ### Paths -/

/-- A grammar whose types, generic arguments and blocks take tokens from the front. -/
structure Taking (g : Grammar) : Prop where
  type : ∀ plus, Takes (g.type plus)
  generics : Takes g.generics
  block : ∀ inner, Takes (g.block inner)

/-- A list between angles. -/
theorem takes_betweenAngles {item : Reader (Bool × List Token)} (h : Takes item) :
    Takes (betweenAngles item) :=
  .bind (takes_operator _) fun _ => (takes_listUntil h).bind fun _ => (takes_operator _).bind_pure _

namespace Taking

variable (h : g.Taking)
include h

/-- A type of which the tokens are kept. -/
theorem typeTokens : Takes g.typeTokens := (h.type true).bind_pure _

/-- A constant is a literal, a name or a block. -/
theorem constant : Takes g.constant :=
  .bind (takes_ahead _) fun _ => .ite takes_literal <|
    .bind (takes_ahead _) fun _ => .ite takes_identifier (h.block true)

/-- A segment is a word, with generic arguments if it may have some. -/
theorem segment (inExpression : Bool) : Takes (g.segment inExpression) := by
  intro ts a rest hrest
  simp only [Grammar.segment, bind_apply, get_apply, Option.bind_some] at hrest
  split at hrest
  · rename_i w more
    have hgenerics : Takes (do return ⟨w, (← optionalOperator "::") ++ (← g.generics)⟩ :
        Reader Segment) :=
      .bind (takes_optionalOperator _) fun _ => h.generics.bind_pure _
    have hmore : Takes (if w = "try" || placeWords.contains w then pure ⟨w, []⟩
        else if w = "Self" || !Text.isKeyword w then
          if (!inExpression && startsAngle more) || afterColons (starts "<") more then
            (do return ⟨w, (← optionalOperator "::") ++ (← g.generics)⟩)
          else pure ⟨w, []⟩
        else failure : Reader Segment) :=
      .ite (takes_pure _) (.ite (.ite hgenerics (takes_pure _)) takes_failure)
    exact (hmore _ _ _ hrest).trans (List.suffix_cons _ _)
  · cases hrest

/-- The segments behind the first one, by induction on the steps of the loop. -/
theorem moreSegments (inExpression : Bool) : Takes (g.moreSegments inExpression) := by
  refine takes_stepsOfLoop.bind fun steps => ?_
  induction steps with
  | zero => exact takes_failure
  | succ steps ih =>
    refine .bind (takes_ahead _) fun _ => .ite ?_ (takes_pure _)
    exact .bind (takes_operator _) fun _ => .bind (h.segment _) fun _ => ih.bind_pure _

/-- **A path** takes tokens from the front. -/
theorem path (inExpression : Bool) : Takes (g.path inExpression) :=
  .bind (takes_optionalOperator _) fun _ => .bind (h.segment _) fun _ =>
    (h.moreSegments _).bind_pure _

/-- The segments behind a type in angles, by induction on the steps of the loop. -/
theorem qualifiedSteps (inExpression : Bool) (steps : Nat) :
    Takes (g.qualifiedSteps inExpression steps) := by
  induction steps with
  | zero => exact takes_failure
  | succ steps ih =>
    refine .bind (h.segment _) fun _ => .bind (takes_ahead _) fun _ => .ite ?_ (takes_pure _)
    exact .bind (takes_operator _) fun _ => ih.bind_pure _

/-- **A path that may begin with a type,** and with a trait that the type has. -/
theorem qualifiedPath (inExpression : Bool) : Takes (g.qualifiedPath inExpression) := by
  have hclosing : Takes (inOrder [operator ">", operator "::"]) :=
    takes_inOrder (by simp [takes_operator])
  refine .bind (takes_ahead _) fun _ => .ite ?_ (h.path _)
  refine .bind (takes_operator _) fun _ => h.typeTokens.bind fun _ =>
    .bind (takes_ahead _) fun _ => ?_
  -- the segments after the type, whether or not it has a trait
  have hrest := fun (f : List Token → List Segment → Path) =>
    hclosing.bind fun closing => takes_stepsOfLoop.bind fun steps =>
      (h.qualifiedSteps inExpression steps).bind_pure (f closing)
  refine .ite (.bind (takes_keyword _) fun _ => .bind (h.path _) fun _ => ?_) ?_
  · exact .bind (takes_pure _) fun _ => hrest _
  · exact .bind (takes_pure _) fun _ => hrest _

/-- The type behind an arrow, which may be missing. -/
theorem returnType (plus : Bool) : Takes (g.returnType plus) := by
  refine .bind (takes_ahead _) fun _ => .ite ?_ (takes_pure _)
  exact .bind (takes_operator _) fun _ => (h.type _).bind_pure _

/-- Arguments in parentheses, and the type that they give. -/
theorem parenthesized : Takes g.parenthesized :=
  .bind (takes_optionalOperator _) fun _ => .bind (takes_group _ _) fun _ =>
    (h.returnType _).bind_pure _

/-- Arguments in parentheses may follow one another, by induction on the steps of the loop. -/
theorem callSteps (steps : Nat) (segments : List Segment) : Takes (g.callSteps steps segments) := by
  induction steps generalizing segments with
  | zero => exact takes_failure
  | succ steps ih =>
    refine .bind (takes_ahead _) fun _ => .ite (h.parenthesized.bind fun _ => ?_) (takes_pure _)
    exact .ite (.bind (h.moreSegments _) fun _ => ih _) (takes_pure _)

/-- A path that is a type. -/
theorem typePath : Takes g.typePath :=
  (h.qualifiedPath _).bind fun _ => takes_stepsOfLoop.bind fun _ => (h.callSteps _ _).bind_pure _

end Taking

/-! ### Bounds -/

/-- The lifetimes that `for` introduces, or none. -/
theorem takes_boundLifetimes (g : Grammar) : Takes g.boundLifetimes := by
  have hstart : Takes (inOrder [keyword "for", operator "<"]) :=
    takes_inOrder (by simp [takes_keyword, takes_operator])
  have hlifetime : Takes (inOrder [g.outerAttributes, lifetime]) :=
    takes_inOrder (by simp [takes_outerAttributes, takes_lifetime])
  refine .bind (takes_ahead _) fun _ => .ite ?_ (takes_pure _)
  exact hstart.bind fun _ => (takes_listUntil hlifetime).bind fun _ =>
    (takes_operator _).bind_pure _

/-- The names behind `use`. -/
theorem takes_captured : Takes captured := by
  refine .bind (takes_keyword _) fun _ => Takes.bind_pure (takes_betweenAngles ?_) _
  exact .bind (takes_ahead _) fun _ =>
    .ite (takes_lifetime.bind_pure _) ((takes_identifierOr _).bind_pure _)

/-- The mark of a bound that holds in constants only; it may be missing. -/
theorem takes_constantMark : Takes constantMark :=
  .bind (takes_ahead _) fun _ =>
    .ite ((takes_group _ _).bind_pure _) ((takes_optionalKeyword _).bind_pure _)

namespace Taking

variable (h : g.Taking)
include h

/-- A trait that is asked for: what stands in front of it, its path and its arguments. -/
theorem traitBound (constants : Bool) : Takes (g.traitBound constants) := by
  refine .bind (takes_boundLifetimes g) fun lifetimes =>
    takes_constantMark.bind fun isConstant => ?_
  refine .ite (takes_failure_bind _) ?_
  refine .bind (takes_optionalOperator _) fun maybe => .bind (takes_ahead _) fun _ => ?_
  refine .ite (takes_failure_bind _) ?_
  refine .bind (h.path _) fun _ => .bind (takes_ahead _) fun _ => .ite ?_ ?_
  · exact .bind h.parenthesized fun _ => .bind (takes_pure _) fun _ => takes_pure _
  · exact .bind (takes_pure _) fun _ => takes_pure _

/-- **What is asked of a type:** a lifetime, the names that it may hold on to, or a trait. -/
theorem bound (captures constants : Bool) : Takes (g.bound captures constants) := by
  refine takes_get.bind fun before => .ite (takes_lifetime.bind_pure _) ?_
  refine .ite (.ite (takes_captured.bind_pure _) takes_failure) (.ite ?_ ?_)
  · refine .bind (takes_inside _ _) fun _ => .bind (takes_pure _) fun _ => ?_
    exact .ite ((takes_writtenSince _).bind_pure _) (takes_pure _)
  · refine .bind (h.traitBound _) fun _ => ?_
    exact .ite ((takes_writtenSince _).bind_pure _) (takes_pure _)

/-- A bound in a declaration, of which the tokens are kept. -/
theorem declaredBound : Takes g.declaredBound := (h.bound _ _).bind_pure _

/-- The bounds of a type, one or many. -/
theorem bounds (plus captures constants : Bool) : Takes (g.bounds plus captures constants) := by
  refine .ite (.bind (takes_listWhile (h.bound _ _)) fun _ => ?_) (.bind (h.bound _ _) fun _ => ?_)
  · exact .ite (takes_pure _) takes_failure
  · exact .bind (takes_pure _) fun _ => .ite (takes_pure _) takes_failure

/-- What is said of a name between angles, its value or its bounds. -/
theorem said : Takes g.said := by
  refine .bind (takes_ahead _) fun _ => .ite ?_
    (.bind (takes_ahead _) fun _ => .ite ?_ (takes_pure _))
  · refine .bind (takes_operator _) fun _ => .bind (takes_ahead _) fun _ => ?_
    exact .ite (h.constant.bind_pure _) (h.typeTokens.bind_pure _)
  · exact .bind (takes_operator _) fun _ => (takes_listWhile h.declaredBound).bind_pure _

/-- A generic argument is a lifetime, a constant or a type of which something may be said. -/
theorem genericArgument : Takes g.genericArgument := by
  refine takes_get.bind fun _ => .ite (takes_lifetime.bind_pure _)
    (.ite (h.constant.bind_pure _) ?_)
  refine .bind (h.type _) fun type => ?_
  cases type with
  | path path => exact .ite (h.said.bind_pure _) (takes_pure _)
  | _ => exact takes_pure _

/-- **Generic arguments** take tokens from the front. -/
theorem genericsRule : Takes g.genericsRule := takes_betweenAngles h.genericArgument

/-! ### Types -/

/-- The type of a function. -/
theorem functionType : Takes g.functionType := by
  have hconvention : Takes convention := .bind (takes_ahead _) fun _ =>
    .ite (.bind (takes_keyword _) fun _ => (takes_literal.whenAhead _).bind_pure _) (takes_pure _)
  have hstart : Takes (inOrder [optionalKeyword "unsafe", convention, keyword "fn"]) :=
    takes_inOrder (by simp [takes_optionalKeyword, hconvention, takes_keyword])
  refine hstart.bind fun _ => .bind (takes_group _ _) fun _ => Takes.bind_pure ?_ _
  exact (h.returnType _).bind_pure _

/-- Further bounds, each behind a plus sign, by induction on the steps of the loop. -/
theorem plusBounds (mayEnd : Bool) : Takes (g.plusBounds mayEnd) := by
  refine takes_stepsOfLoop.bind fun steps => ?_
  induction steps with
  | zero => exact takes_failure
  | succ steps ih =>
    refine .bind (takes_ahead _) fun _ => .ite (.bind (takes_operator _) fun _ => ?_) (takes_pure _)
    exact .bind (takes_ahead _) fun _ => .ite (takes_pure _)
      (.bind (h.bound _ _) fun _ => ih.bind_pure _)

/-- A type in parentheses, which more bounds may follow. -/
theorem parenthesizedType (plus : Bool) : Takes (g.parenthesizedType plus) := by
  refine .bind (takes_inside _ _) fun found => ?_
  obtain ⟨whole, _ | first⟩ := found
  · exact takes_pure _
  · exact .bind (takes_ahead _) fun _ => .ite ((h.plusBounds _).bind_pure _) (takes_pure _)

/-- A type that begins with a path. -/
theorem pathType (plus : Bool) (lifetimes : List Token) : Takes (g.pathType plus lifetimes) := by
  refine h.typePath.bind fun path => .ite (takes_pure _) (.bind (takes_ahead _) fun _ => ?_)
  refine .ite (takes_macroArguments.bind_pure _) (.ite ?_ ?_)
  · exact .bind (h.plusBounds _) fun _ => .ite (takes_pure _) (.ite (takes_pure _) (takes_pure _))
  · exact .bind (takes_pure _) fun _ => .ite (takes_pure _) (.ite (takes_pure _) (takes_pure _))

/-- A pointer says whether it may write. -/
theorem pointerType : Takes g.pointerType := by
  refine .bind (takes_operator _) fun _ => .bind (takes_ahead _) fun _ => .ite ?_ ?_
  · exact takes_anyWord.bind fun _ => (h.type _).bind_pure _
  · exact takes_failure_bind _

/-- A type of objects. -/
theorem objectType (plus : Bool) : Takes (g.objectType plus) :=
  takes_get.bind fun _ => .bind (takes_keyword _) fun _ => .bind (takes_optionalOperator _) fun _ =>
    .bind (h.bounds _ _ _) fun _ => .ite (takes_pure _) (takes_writtenSince _)

/-- A reference, as it stands inside the rule for types. -/
theorem referenceType : Takes (do
    let start ← inOrder [operator "&", optionalLifetime, optionalKeyword "mut"]
    return SourceType.other (start ++ (← g.type false).tokens)) := by
  have hstart : Takes (inOrder [operator "&", optionalLifetime, optionalKeyword "mut"]) :=
    takes_inOrder (by simp [takes_operator, takes_optionalLifetime, takes_optionalKeyword])
  exact hstart.bind fun _ => (h.type _).bind_pure _

/-- **Types** take tokens from the front. -/
theorem typeRule (plus : Bool) : Takes (g.typeRule plus) := by
  refine .bind (takes_boundLifetimes g) fun lifetimes => takes_get.bind fun tokens => ?_
  refine .ite takes_failure <| .ite (h.parenthesizedType _) <| .ite (h.functionType.bind_pure _) <|
    .ite (h.pathType _ _) <| .ite ((h.objectType _).bind_pure _) <|
    .ite ((takes_group _ _).bind_pure _) <| .ite (h.pointerType.bind_pure _) <|
    .ite h.referenceType <| .ite ((takes_operator _).bind_pure _) <| .ite ?_ <|
    .ite (takes_anyWord.bind_pure _) <| .ite ((h.bounds _ _ _).bind_pure _) takes_failure
  exact .bind (takes_keyword _) fun _ => (h.bounds _ _ _).bind_pure _

end Taking

end TermNet.Source.Grammar
