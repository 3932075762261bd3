import Mathlib.Data.List.Basic
import TermNet.Proofs.Source.Blanks
import TermNet.Proofs.Source.Following
import TermNet.Proofs.Source.Names

namespace TermNet.Source

open Reader TermNet.Text

/-!
# Texts that begin with a bracket

What begins with a bracket is an array, or goes on with one as its leftmost operand: an index is
taken of it, it is called, or there is an operator behind it.  Patterns are not made of arrays, and
so of none of these.

* `head?_of_nest?` — the group of the first bracket is the first token;
* `Shuns` — readers that find nothing that patterns are made of;
* `not_simple_of_bracket` — **patterns are not made of what begins with a bracket.**
-/

/-! ### The first token -/

/-- The first token is a group: one that has been closed, or the outermost one that is open. -/
def BeginsGroup (delimiter : Delimiter) (outer : List (Delimiter × List Token))
    (current : List Token) : Prop :=
  match outer.getLast? with
  | none => ∃ inner, current.getLast? = some (.group delimiter inner)
  | some (opened, before) =>
    (opened = delimiter ∧ before = []) ∨ ∃ inner, before.getLast? = some (.group delimiter inner)

variable {delimiter : Delimiter} {lexemes : List Lexeme} {tokens : List Token}

/-- The group of the first bracket is the first token. -/
theorem head?_of_nest? {outer : List (Delimiter × List Token)} {current : List Token}
    (h : nest? lexemes outer current = some tokens) (hgroup : BeginsGroup delimiter outer current) :
    ∃ inner, tokens.head? = some (.group delimiter inner) := by
  induction lexemes, outer, current using nest?.induct with
  | case1 current =>
    rw [nest?, Option.some.injEq] at h
    rwa [← h, List.head?_reverse]
  | case2 => simp [nest?] at h
  | case3 token rest outer current ih =>
    refine ih h ?_
    unfold BeginsGroup at hgroup ⊢
    split at hgroup
    · exact hgroup.imp fun _ => List.mem_getLast?_cons
    · exact hgroup
  | case4 opened rest outer current ih =>
    refine ih h ?_
    cases outer with
    | nil => exact .inr hgroup
    | cons next outer => exact hgroup
  | case5 => simp [nest?] at h
  | case6 rest opened before outer current ih =>
    rw [nest?, if_pos rfl] at h
    refine ih h ?_
    cases outer with
    | nil =>
      -- the outermost group is closed, or another one behind the first
      rcases hgroup with ⟨rfl, rfl⟩ | hbefore
      · exact ⟨_, rfl⟩
      · exact hbefore.imp fun _ => List.mem_getLast?_cons
    | cons next outer => exact hgroup
  | case7 opened rest other before outer current hne =>
    rw [nest?, if_neg hne] at h
    cases h

/-- White space is blank. -/
theorem isBlank_of_isWhiteSpace {c : Char} (h : isWhiteSpace c = true) : isBlank c = true := by
  unfold isBlank
  split
  · simp only [isWhiteSpace, inTable, whiteSpaceTable, List.any_cons, List.any_nil,
      Bool.and_eq_true, Bool.or_eq_true, decide_eq_true_eq, Bool.or_false] at h
    have hspace (h : c.toNat = 32) : c = ' ' := Char.toNat_inj.mp (h.trans rfl)
    simp only [Bool.and_eq_true, Bool.or_eq_true, decide_eq_true_eq]
    by_cases hc : c.toNat = 32
    · exact .inl (hspace hc)
    · exact .inr (by omega)
  · simp [h]

/-- A bracket in front, blanks apart, is the first lexeme. -/
theorem lexemes?_first_bracket {blanks rest : List Char}
    (hblanks : ∀ c ∈ blanks, isBlank c = true)
    (h : lexemes? (blanks ++ '[' :: rest) = some lexemes) :
    ∃ more, lexemes = .opening .bracket :: more := by
  have hsolid : IsSolid '[' := by decide
  rw [lexemes?, skipBlank_append hblanks, skipBlank_solid hsolid] at h
  have hnext : next? ('[' :: rest) = some ([.opening .bracket], rest) := by
    rw [next?, scanDocumentation?_solid hsolid]
    rfl
  rw [hnext] at h
  simp only [List.isEmpty_cons, Bool.false_eq_true, if_false] at h
  split at h
  · obtain ⟨more, -, rfl⟩ := Option.map_eq_some_iff.mp h
    exact ⟨more, rfl⟩
  · cases h

/-- **The tokens of a text that begins with a bracket** begin with the group. -/
theorem tokens?_bracket {text : String} (h : tokens? text = some tokens)
    (hbracket : (text.toList.dropWhile isWhiteSpace).head? = some '[') :
    ∃ inner rest, tokens = .group .bracket inner :: rest := by
  obtain ⟨rest, hrest⟩ := List.head?_eq_some_iff.mp hbracket
  have htext : text.toList = text.toList.takeWhile isWhiteSpace ++ '[' :: rest := by
    rw [← hrest, List.takeWhile_append_dropWhile]
  have hblanks : ∀ c ∈ text.toList.takeWhile isWhiteSpace, isBlank c = true := fun c hc =>
    isBlank_of_isWhiteSpace (List.mem_takeWhile_imp hc)
  -- The mark of the byte order is no blank, so it does not stand in front of the bracket.
  have hmark : text.toList.head? ≠ some '\ufeff' := by
    rw [htext, List.head?_append]
    intro hhead
    cases hfirst : (text.toList.takeWhile isWhiteSpace).head? with
    | none => simp [hfirst] at hhead
    | some c =>
      rw [hfirst] at hhead
      obtain rfl : c = '\ufeff' := by simpa using hhead
      exact absurd (hblanks _ (List.mem_of_mem_head? hfirst)) (by decide)
  rw [tokens?, withoutOrderMark_eq_self hmark, htext] at h
  split at h
  · rename_i found hfound
    obtain ⟨more, rfl⟩ := lexemes?_first_bracket hblanks hfound
    rw [nest?] at h
    have hgroup : BeginsGroup .bracket [(.bracket, [])] [] := .inl ⟨rfl, rfl⟩
    obtain ⟨inner, hinner⟩ := head?_of_nest? h hgroup
    obtain ⟨behind, hbehind⟩ := List.head?_eq_some_iff.mp hinner
    exact ⟨inner, behind, hbehind⟩
  · cases h

/-! ### Readers -/

/-- The reader finds nothing that patterns are made of. -/
def Shuns (r : Reader Expression) : Prop :=
  ∀ ts found rest, r ts = some (found, rest) → ¬ found.Simple

namespace Shuns

variable {α : Type}

/-- Giving what patterns are not made of. -/
theorem pure {e : Expression} (h : ¬ e.Simple) : Shuns (pure e) := by
  rintro ts _ rest ⟨⟩
  exact h

/-- A reader that fails finds nothing. -/
theorem failure : Shuns failure := nofun

/-- What is read first makes no difference. -/
theorem bind {r : Reader α} {f : α → Reader Expression} (hf : ∀ a, Shuns (f a)) :
    Shuns (r >>= f) := by
  intro ts found rest h
  rw [bind_apply, Option.bind_eq_some_iff] at h
  obtain ⟨⟨a, between⟩, -, hfound⟩ := h
  exact hf a between found rest hfound

/-- A choice between two readers. -/
theorem ite {c : Prop} [Decidable c] {r s : Reader Expression} (hr : Shuns r) (hs : Shuns s) :
    Shuns (if c then r else s) := by
  split
  · exact hr
  · exact hs

end Shuns

/-- Attributes do not make a pattern of what is none. -/
theorem not_simple_withAttributes {e : Expression} (h : ¬ e.Simple) (attributes : List Token) :
    ¬ (e.withAttributes attributes).Simple := by
  unfold Expression.withAttributes
  split
  · exact h
  split
  · exact not_simple_other _ _
  · exact not_simple_other _ _
  · intro hsimple
    cases hsimple with
    | attributed _ he => exact h he

namespace Grammar

variable (g : Grammar)

/-- What goes on behind an operand that patterns are not made of. -/
theorem shuns_trailers {operand : Expression} (h : ¬ operand.Simple) :
    Shuns (g.trailers operand) := by
  refine .bind fun steps => ?_
  induction steps generalizing operand with
  | zero => exact .failure
  | succ steps ih =>
    refine .bind fun tokens => .ite (.bind fun _ => ih fun hsimple => ?_) <|
      .ite (.bind fun _ => ih (not_simple_other _ _)) <| .ite (.pure h) <|
      .ite (.bind fun _ => ih (not_simple_other _ _)) <|
      .ite (.bind fun _ => ih (not_simple_other _ _)) (.pure h)
    cases hsimple
    exact h ‹_›

/-- With such an operand on the left, patterns are not made of any operation. -/
theorem shuns_operationsRule (structs : Bool) (base : Level) {left : Expression}
    (h : ¬ left.Simple) : Shuns (g.operationsRule structs base left) := by
  refine .bind fun steps => ?_
  induction steps generalizing left with
  | zero => exact .failure
  | succ steps ih =>
    refine .bind fun tokens => .ite (.pure h) ?_
    split
    · refine .ite (.pure h) (.ite .failure (.bind fun _ => .bind fun _ => ih fun hsimple => ?_))
      cases hsimple
      exact h ‹_›
    · exact .ite (.bind fun _ => .bind fun _ => ih (not_simple_extended _ _)) <|
        .ite (.bind fun _ => ih (not_simple_other _ _)) <|
        .ite (.bind fun _ => ih (not_simple_extended _ _)) (.pure h)

/-- An array with what is taken of it. -/
theorem not_simple_of_operandRule {structs : Bool} {inner rest more : List Token}
    {found : Expression}
    (h : g.operandRule structs (.group .bracket inner :: rest) = some (found, more)) :
    ¬ found.Simple := by
  have hstarts (sign : String) (hne : sign.toList ≠ []) :
      starts sign (.group .bracket inner :: rest) = false :=
    starts_eq_false (by simp) hne rest
  rw [operandRule] at h
  simp only [bind_apply, get_apply, Option.bind_some,
    outerAttributes_none (hstarts "#" (by decide)), hstarts "&" (by decide),
    hstarts "-" (by decide), hstarts "*" (by decide), hstarts "!" (by decide), Bool.false_eq_true,
    if_false, Bool.or_self] at h
  obtain ⟨⟨first, between⟩, hfirst, h⟩ := Option.bind_eq_some_iff.mp h
  obtain ⟨⟨operand, behind⟩, hoperand, h⟩ := Option.bind_eq_some_iff.mp h
  -- No trailer and no operator makes an array one of the expressions that are read.
  have hatom : ¬ first.Simple := by
    have harray : Shuns (do return .other .plain (← group .bracket g.elements)) :=
      .bind fun _ => .pure (not_simple_other _ _)
    exact harray _ _ _ hfirst
  replace hoperand : ¬ operand.Simple := g.shuns_trailers hatom _ _ _ hoperand
  dsimp only at h
  split at h
  · exact Shuns.bind (fun _ => .pure (not_simple_other _ _)) _ _ _ h
  · cases h
    exact hoperand
  · cases h
    exact not_simple_withAttributes hoperand []

end Grammar

/-- **Patterns are not made of what begins with a bracket.** -/
theorem not_simple_of_bracket {text : String} {e : Expression}
    (h : Expression.ofText? text = some e)
    (hbracket : (text.toList.dropWhile isWhiteSpace).head? = some '[') : ¬ e.Simple := by
  obtain ⟨tokens, htokens, hread⟩ := Option.bind_eq_some_iff.mp h
  obtain ⟨inner, rest, rfl⟩ := tokens?_bracket htokens hbracket
  unfold readAll? at hread
  split at hread
  · rename_i found hfound
    cases hread
    -- the grammar is deep enough for an expression and an operand in it
    obtain ⟨depth, hdepth⟩ : ∃ depth, 8 * (sizeOfTokens (.group .bracket inner :: rest) + 1) =
        depth + 1 + 1 := ⟨8 * sizeOfTokens (.group .bracket inner :: rest) + 6, by omega⟩
    rw [Grammar.forTokens, hdepth] at hfound
    obtain ⟨⟨left, behind⟩, hleft, hfound⟩ := Option.bind_eq_some_iff.mp hfound
    have harray := Grammar.not_simple_of_operandRule _ hleft
    exact Grammar.shuns_operationsRule _ true .none harray _ _ _ hfound
  · cases hread

end TermNet.Source
