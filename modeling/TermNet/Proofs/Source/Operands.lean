import TermNet.Proofs.Source.Names

namespace TermNet.Source

open Reader TermNet.Text

/-!
# The names in operands and operations

* `Grammar.Finding` — a grammar whose expressions keep the names of what they are read from;
* `Grammar.Finding.operandRule`, `Grammar.Finding.operationsRule` — those one level up do, too;
* `sound_of_ofText?` — the names in an expression may stand in a path.
-/

/-- Behind a binary operator is an end of the tokens. -/
theorem suffix_of_binaryOperator? {ts more : List Token} {operator : BinaryOperator}
    (h : binaryOperator? ts = some (operator, more)) : more <:+ ts := by
  obtain ⟨found, -, hfound⟩ := List.exists_of_findSome?_eq_some h
  obtain ⟨rest, hrest, heq⟩ := Option.map_eq_some_iff.mp hfound
  cases heq
  exact suffix_of_after? hrest

namespace Grammar

/-- A grammar whose expressions keep the names of what they are read from. -/
structure Finding (g : Grammar) : Prop extends g.Taking where
  expression : ∀ structs, FineFrom .blank (g.expression structs)
  operand : ∀ structs, FineFrom .blank (g.operand structs)
  operations : ∀ structs level e, FineFrom e (g.operations structs level e)

namespace Finding

variable {g : Grammar} (h : g.Finding)
include h

/-! ### Operations -/

/-- The operand on the right takes in the operations that bind more tightly. -/
theorem rightOperand (structs : Bool) (level : Level) :
    FineFrom .blank (g.rightOperand structs level) := by
  have hsteps : ∀ steps right, FineFrom right (g.rightSteps structs level steps right) := by
    intro steps
    induction steps with
    | zero => exact fun _ => .failure
    | succ steps ih =>
      refine fun right => .after takes_get fun tokens => .ite ?_ (.pure fun _ hts => hts)
      refine .bind (h.operations _ _ _) fun extended => .after takes_get fun _ => ?_
      exact .ite (.pure fun _ hts => hts) (ih extended)
  exact .bind (h.operand _) fun right => .after takes_stepsOfLoop fun steps => hsteps steps right

/-- **One operation after the other,** by induction on the steps of the loop. Sums and products
    join the names of both sides; whatever else follows is no pattern any more. -/
theorem operationSteps (structs : Bool) (base : Level) (steps : Nat) (left : Expression) :
    FineFrom left (g.operationSteps structs base steps left) := by
  induction steps generalizing left with
  | zero => exact .failure
  | succ steps ih =>
    intro ts found rest hts hrest
    simp only [Grammar.operationSteps, bind_apply, get_apply, Option.bind_some] at hrest
    split at hrest
    · cases hrest
      exact hts
    cases hoperator : binaryOperator? ts with
    | none =>
      -- assignments, ranges and casts are kept as tokens
      simp only [hoperator] at hrest
      refine FineFrom.ite (.after (takes_operator _) fun _ => ?_) (.ite ?_ (.ite ?_ ?_)) ts found
        rest hts hrest
      · exact .leave (fun _ => not_simple_extended _ _) fun _ => ih _
      · exact .leave (fun _ => not_simple_other _ _) fun _ => ih _
      · exact .leave (fun _ => not_simple_extended _ _) fun _ => ih _
      · exact .pure fun _ hts => hts
    | some found =>
      obtain ⟨operator, more⟩ := found
      simp only [hoperator] at hrest
      have hjoin : FineFrom left (do
          let right ← g.rightOperand structs operator.level
          g.operationSteps structs base steps (.binary operator left right)) :=
        .join (h.rightOperand _ _) (fun right hsimple => by cases hsimple; exact ⟨‹_›, ‹_›⟩)
          (fun right hl hr => .binary operator hl hr) fun _ => ih _
      -- an operator that binds too loosely is left, and two comparisons are refused
      split at hrest
      · cases hrest
        exact hts
      split at hrest
      · cases hrest
      · exact hjoin more _ rest (hts.of_suffix (suffix_of_binaryOperator? hoperator)) hrest

/-- The operations behind an operand. -/
theorem operationsRule (structs : Bool) (base : Level) (left : Expression) :
    FineFrom left (g.operationsRule structs base left) :=
  .after takes_stepsOfLoop fun _ => h.operationSteps _ _ _ _

/-- An expression is an operand and the operations behind it. -/
theorem expressionRule (structs : Bool) : FineFrom .blank (g.expressionRule structs) :=
  .bind (h.operand _) fun left => h.operations _ _ left

/-! ### Operands -/

/-- Items with commas between them, by induction on the steps of the loop. -/
theorem sound_of_untilSteps {ends : List Token → Bool} {steps : Nat} {ts rest : List Token}
    {found : List (Expression × Bool)} (hts : Sound ts)
    (hread : untilSteps "," ends (g.expression true) steps ts = some (found, rest))
    (hfound : ∀ e ∈ found, e.1.Simple) : ∀ e ∈ found, e.1.Sound := by
  induction steps generalizing ts found with
  | zero => cases hread
  | succ steps ih =>
    simp only [untilSteps, bind_apply, ahead_apply, Option.bind_some] at hread
    split at hread
    · cases hread
      nofun
    · rw [bind_apply, Option.bind_eq_some_iff] at hread
      obtain ⟨⟨first, behind⟩, hfirst, hread⟩ := hread
      have hfine := h.expression true ts first behind (fine_blank.mpr hts) hfirst
      simp only [bind_apply, ahead_apply, Option.bind_some] at hread
      split at hread
      · cases hread
        exact List.forall_mem_singleton.mpr (hfine (hfound _ List.mem_cons_self)).1
      · rw [bind_apply, Option.bind_eq_some_iff] at hread
        obtain ⟨⟨comma, next⟩, hcomma, hread⟩ := hread
        rw [bind_apply, Option.bind_eq_some_iff] at hread
        obtain ⟨⟨more, last⟩, hmore, hread⟩ := hread
        cases hread
        rw [List.forall_mem_cons] at hfound ⊢
        obtain ⟨hsound, hbehind⟩ := hfine hfound.1
        -- What is behind the comma is a part of what was sound before.
        exact ⟨hsound, ih (hbehind.of_suffix (takes_operator _ _ _ _ hcomma)) hmore hfound.2⟩

/-- The arguments of a call. -/
theorem sound_of_arguments {ts rest : List Token} {args : List Expression} {comma : Bool}
    (hts : Sound ts) (hread : g.arguments ts = some ((args, comma), rest))
    (hargs : ∀ e ∈ args, e.Simple) : ∀ e ∈ args, e.Sound := by
  rw [Grammar.arguments, bind_apply, Option.bind_eq_some_iff] at hread
  obtain ⟨⟨found, behind⟩, hfound, hread⟩ := hread
  cases hread
  rw [List.forall_mem_map] at hargs ⊢
  exact h.sound_of_untilSteps hts hfound hargs

/-- Of what stands in parentheses, only one expression without a comma is a pattern. -/
theorem tuple : FineFrom .blank g.tuple := by
  intro ts found rest hts hrest hsimple
  rw [Grammar.tuple, bind_apply, Option.bind_eq_some_iff] at hrest
  obtain ⟨⟨⟨args, comma⟩, behind⟩, hinside, hrest⟩ := hrest
  obtain ⟨tokens, rfl, hargs⟩ := inside_eq_some hinside
  have hsound := fine_blank.mp hts
  obtain _ | ⟨inner, _ | ⟨second, more⟩⟩ := args
  · cases hrest
    cases hsimple
  · -- with a comma behind it, what is in parentheses is a tuple
    cases comma
    · cases hrest
      cases hsimple with
      | paren hinner =>
        have hall := h.sound_of_arguments hsound.inside hargs (List.forall_mem_singleton.mpr hinner)
        exact ⟨.paren (hall _ List.mem_cons_self), (sound_cons.mp hsound).2⟩
    · cases hrest
      cases hsimple
  · cases hrest
    cases hsimple

/-- A path in front of `!` or `{` is no pattern; otherwise its names are those of the tokens. -/
theorem pathOperand (structs : Bool) : FineFrom .blank (g.pathOperand structs) := by
  refine .gives (h.gives_qualifiedPath true) fun path hpath => .after takes_get fun _ => ?_
  refine .ite (.kept _ _ _) (.ite (.kept _ _ _) (.pure fun ts hts _ => ⟨.path hpath, ?_⟩))
  exact fine_blank.mp hts

/-- What begins with a word: of the keywords, few begin a pattern. -/
theorem wordAtom (structs : Bool) (w : String) (rest : List Token) :
    FineFrom .blank (g.wordAtom structs w rest) := by
  unfold Grammar.wordAtom
  have hplain : ∀ r : Reader (List Token), FineFrom .blank (do return .other .plain (← r)) :=
    fun r => .kept r _ _
  have hblock : ∀ r : Reader (List Token), FineFrom .blank (do return .other .block (← r)) :=
    fun r => .kept r _ _
  -- of the words with rules of their own, only the underscore and `try` may begin a pattern
  split
  · exact .after takes_anyWord fun _ => .pure fun _ hts => hts
  · exact hplain _
  · exact hplain _
  · exact .ite (hplain _) (.ite (hplain _) .failure)
  · exact .ite (hblock _) (.ite (h.pathOperand _) .failure)
  · exact hplain _
  · exact hplain _
  · exact .ite (hblock _) (hplain _)
  · exact hblock _
  · exact hblock _
  · exact hblock _
  · exact .after (takes_ahead _) fun _ => .ite (hplain _) (hblock _)
  · exact hblock _
  · exact hblock _
  · exact hplain _
  · exact hplain _
  · exact hplain _
  · exact hplain _
  · exact hplain _
  · exact .kept _ _ _
  · exact .ite (.kept _ _ _) (.ite (h.pathOperand _) .failure)

/-- What an operand begins with: a literal, a group, a word, or a path behind a type. -/
theorem atom (structs : Bool) : FineFrom .blank (g.atom structs) := by
  intro ts found rest hts hrest
  simp only [Grammar.atom, bind_apply, get_apply, Option.bind_some] at hrest
  split at hrest
  · rename_i text more
    have hbehind : Fine .blank more := hts.of_suffix (List.suffix_cons _ _)
    have hnumber : FineFrom .blank (pure (if (wholeNumber? text).isSome then .number text
        else .other .plain [.literal text])) := by
      split
      · exact .pure fun ts hts _ => ⟨.number text, fine_blank.mp hts⟩
      · exact .other _ _
    exact hnumber more _ _ hbehind hrest
  · exact h.tuple _ _ _ hts hrest
  · exact FineFrom.kept _ _ _ _ _ _ hts hrest
  · exact FineFrom.kept _ _ _ _ _ _ hts hrest
  · exact h.wordAtom _ _ _ _ _ _ hts hrest
  · refine FineFrom.ite (.kept _ _ _) (.ite (h.pathOperand _)
      (.ite (.kept _ _ _) (.kept _ _ _))) _ _
      _ hts hrest

/-- The arguments of a call join the names of what is called. -/
theorem call {operand : Expression} {f : List Expression → Bool → Reader Expression}
    (hf : ∀ args comma, FineFrom (.call operand args comma) (f args comma)) :
    FineFrom operand (do
      let (args, comma) ← inside .parenthesis g.arguments
      f args comma) := by
  intro ts found rest hts hrest
  rw [bind_apply, Option.bind_eq_some_iff] at hrest
  obtain ⟨⟨⟨args, comma⟩, behind⟩, hinside, hrest⟩ := hrest
  obtain ⟨tokens, rfl, hargs⟩ := inside_eq_some hinside
  refine hf args comma behind found rest (fun hsimple => ?_) hrest
  cases hsimple with
  | call _ hoperand hsimple =>
    obtain ⟨hoperand, hsound⟩ := hts hoperand
    exact ⟨.call _ hoperand (h.sound_of_arguments hsound.inside hargs hsimple),
      (sound_cons.mp hsound).2⟩

/-- **What follows an atom,** by induction on the steps of the loop: arguments keep a pattern one,
    and points, indices and question marks do not. -/
theorem trailerSteps (steps : Nat) (operand : Expression) :
    FineFrom operand (g.trailerSteps steps operand) := by
  induction steps generalizing operand with
  | zero => exact .failure
  | succ steps ih =>
    refine .after takes_get fun tokens => .ite ?_ <| .ite ?_ <| .ite (.pure fun _ hts => hts) <|
      .ite ?_ <| .ite ?_ (.pure fun _ hts => hts)
    · exact h.call fun _ _ => ih _
    · exact .leave (fun _ => not_simple_other _ _) fun _ => ih _
    · exact .leave (fun _ => not_simple_other _ _) fun _ => ih _
    · exact .leave (fun _ => not_simple_other _ _) fun _ => ih _

/-- All that follows an atom. -/
theorem trailers (operand : Expression) : FineFrom operand (g.trailers operand) :=
  .after takes_stepsOfLoop fun _ => h.trailerSteps _ _

/-- **An operand:** attributes, signs and what they stand in front of. -/
theorem operandRule (structs : Bool) : FineFrom .blank (g.operandRule structs) := by
  refine .after takes_get fun before => .after (takes_outerAttributes g) fun attributes => ?_
  -- patterns are not made of operands with another sign than a minus
  have hsigned : ∀ (sign : Reader (List Token)), FineFrom .blank (do
      let start ← sign
      let operand ← g.operand structs
      return (Expression.other .plain (start ++ operand.tokens)).withAttributes attributes) :=
    fun sign => .leave (g := fun start => .other .plain start) (fun _ => not_simple_other _ _)
      fun _ => .leave (g := fun e => .other .plain e.tokens) (fun _ => not_simple_other _ _)
      fun _ => .pure fun ts _ => (fine_of_not_simple (not_simple_other _ _) ts).withAttributes _
  refine .after takes_get fun tokens => .ite (hsigned _) (.ite ?_ (.ite (.ite ?_ ?_) ?_))
  · refine .after (takes_operator _) fun _ => .join (h.operand _)
      (fun operand hsimple => ⟨.blank, ?_⟩) (fun operand _ hsound => .negated hsound)
      fun operand => ?_
    · cases hsimple
      assumption
    · exact .pure fun ts hts => hts.withAttributes attributes
  · exact hsigned _
  · exact hsigned _
  · refine .bind (h.atom _) fun e => .bind (h.trailers e) fun operand => ?_
    have hattributes : FineFrom operand (Pure.pure (operand.withAttributes attributes)) :=
      .pure fun ts hts => hts.withAttributes attributes
    split
    · exact .kept _ _ _
    · exact .ite (.pure fun _ hts => hts) .failure
    · exact hattributes

end Finding

/-! ### Any depth -/

/-- The grammar that reads nothing keeps all names. -/
theorem finding_empty : empty.Finding where
  type _ := takes_failure
  generics := takes_failure
  block _ := takes_failure
  expression _ := .failure
  operand _ := .failure
  operations _ _ _ := .failure

/-- One level up, the rules are those proved above. -/
theorem Finding.deeper {g : Grammar} (h : g.Finding) : g.deeper.Finding where
  type := h.toTaking.typeRule
  generics := h.toTaking.genericsRule
  block _ := takes_group _ _
  expression := h.expressionRule
  operand := h.operandRule
  operations structs level e := h.operationsRule structs level e

/-- However deep the rules may nest, by induction on the depth. -/
theorem finding_ofDepth (depth : Nat) : (ofDepth depth).Finding := by
  induction depth with
  | zero => exact finding_empty
  | succ depth ih => exact ih.deeper

end Grammar

/-- **The names in an expression** that patterns are made of may stand in a path. -/
theorem sound_of_ofText? {text : String} {e : Expression} (h : Expression.ofText? text = some e)
    (hsimple : e.Simple) : e.Sound := by
  obtain ⟨tokens, htokens, hread⟩ := Option.bind_eq_some_iff.mp h
  unfold readAll? at hread
  split at hread
  · rename_i found hfound
    cases hread
    have hstart : Fine .blank tokens := fine_blank.mpr (sound_of_tokens? htokens)
    have hfinding := Grammar.finding_ofDepth (8 * (sizeOfTokens tokens + 1))
    exact (hfinding.expression true tokens e [] hstart hfound hsimple).1
  · cases hread

end TermNet.Source
