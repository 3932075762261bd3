import TermNet.Source.Language
import TermNet.Proofs.Source.Readers
import TermNet.Proofs.Source.Spelling

namespace TermNet.Source

open TermNet.Text

/-!
# What stands in front of operands and behind them

Where an operand ends is decided by what follows: a reader goes on with calls, points and the
operators that bind tightly enough.

* `Begins` — what operands of spellings begin with;
* `Ends` — what may follow a spelling that binds as tightly as a level;
* `Grammar.operationSteps_foldl` — operands with the same sign between them are taken one after
  the other;
* `Grammar.operandRule_atom` — an operand without operators and attributes in front of it.
-/

/-! ### What is in front -/

/-- A literal, a word, a group or a minus sign is in front. -/
inductive Begins : List Token → Prop
  | literal (text : String) (rest : List Token) : Begins (.literal text :: rest)
  | word (text : String) (rest : List Token) : Begins (.word text :: rest)
  | group (delimiter : Delimiter) (inside rest : List Token) :
    Begins (.group delimiter inside :: rest)
  | minus (joined : Bool) (rest : List Token) : Begins (.mark '-' joined :: rest)

/-- What may follow a spelling that binds as tightly as a level: nothing, a comma, or an operator
    that binds no tighter. -/
inductive Ends (level : Level) : List Token → Prop
  | nil : Ends level []
  | comma (rest : List Token) : Ends level (.mark ',' false :: rest)
  | plus (h : Level.sum.rank ≤ level.rank) (rest : List Token) :
    Ends level (.mark '+' false :: rest)
  | times (h : Level.product.rank ≤ level.rank) (joined : Bool) {rest : List Token}
    (hrest : Begins rest) : Ends level (.mark '*' joined :: rest)

/-- What is in front stays there when more follows. -/
theorem Begins.append {ts : List Token} (h : Begins ts) (rest : List Token) :
    Begins (ts ++ rest) := by
  cases h <;> constructor

/-- Something is in front. -/
theorem Begins.isEmpty_eq {ts : List Token} (h : Begins ts) : ts.isEmpty = false := by
  cases h <;> rfl

/-- What ends a spelling that binds loosely ends one that binds more tightly. -/
theorem Ends.mono {level tighter : Level} {rest : List Token} (h : Ends level rest)
    (hle : level.rank ≤ tighter.rank) : Ends tighter rest := by
  cases h with
  | nil => exact .nil
  | comma rest => exact .comma rest
  | plus h rest => exact .plus (h.trans hle) rest
  | times h joined hrest => exact .times (h.trans hle) joined hrest

/-- A plus sign on its own is the operator of sums, not one of assignments. -/
theorem binaryOperator?_plus (rest : List Token) :
    binaryOperator? (.mark '+' false :: rest) = some (plusOperator, rest) := by
  simp [binaryOperator?, binaryOperators, after?, afterChars?, plusOperator]

/-- An asterisk in front of an operand is the operator of products, whether or not a minus sign is
    joined to it. -/
theorem binaryOperator?_times (joined : Bool) {rest : List Token} (h : Begins rest) :
    binaryOperator? (.mark '*' joined :: rest) = some (timesOperator, rest) := by
  cases h <;> cases joined <;> simp [binaryOperator?, binaryOperators, after?, afterChars?,
    timesOperator]

/-- There is no operator at the end, or where a comma is. -/
theorem binaryOperator?_end {rest : List Token}
    (h : rest = [] ∨ ∃ more, rest = .mark ',' false :: more) : binaryOperator? rest = none := by
  rcases h with rfl | ⟨more, rfl⟩ <;> simp [binaryOperator?, binaryOperators, after?, afterChars?]

/-- An end has no operator in front, or one that binds no tighter. -/
theorem Ends.operator {level : Level} {rest : List Token} (h : Ends level rest) :
    binaryOperator? rest = none ∨ ∃ operator more, binaryOperator? rest = some (operator, more) ∧
      operator.level.rank ≤ level.rank ∧ Level.sum.rank ≤ operator.level.rank := by
  cases h with
  | nil => exact .inl (binaryOperator?_end (.inl rfl))
  | comma more => exact .inl (binaryOperator?_end (.inr ⟨more, rfl⟩))
  | plus h more => exact .inr ⟨_, _, binaryOperator?_plus more, h, by decide⟩
  | times h joined hmore => exact .inr ⟨_, _, binaryOperator?_times joined hmore, h, by decide⟩

/-- Nothing that goes on with an operand, and none of the looser operators, is in front. -/
theorem Ends.quiet {level : Level} {rest : List Token} (h : Ends level rest) :
    (∀ delimiter, startsGroup delimiter rest = false) ∧ startsPoint rest = false ∧
      starts "?" rest = false ∧ starts "::" rest = false ∧ starts "!" rest = false ∧
      startsAssignment rest = false ∧ starts ".." rest = false ∧
        startsWord ["as"] rest = false := by
  cases h with
  | nil => exact ⟨fun _ => rfl, by decide⟩
  | comma more => exact ⟨fun _ => rfl, rfl, rfl, rfl, rfl, rfl, rfl, rfl⟩
  | plus h more => exact ⟨fun _ => rfl, rfl, rfl, rfl, rfl, rfl, rfl, rfl⟩
  | times h joined hmore =>
    cases joined <;> exact ⟨fun _ => rfl, rfl, rfl, rfl, rfl, rfl, rfl, rfl⟩

/-- What follows binds no tighter than the level, and is no assignment. -/
theorem Ends.nextLevel_le {level : Level} {rest : List Token} (h : Ends level rest) :
    (nextLevel rest).rank ≤ level.rank ∧ nextLevel rest ≠ .assign := by
  obtain ⟨-, -, -, -, -, hassign, hpoints, has⟩ := h.quiet
  rcases h.operator with hnone | ⟨operator, more, hsome, hle, hsum⟩
  · simp [nextLevel, hnone, hassign, hpoints, has, Level.rank]
  · have hne : operator.level ≠ .assign := fun hassign => by
      rw [hassign] at hsum
      exact absurd hsum (by decide)
    simp [nextLevel, hsome, hle, hne]

/-- Nothing that goes on with a path is in front. -/
structure EndsPath (rest : List Token) : Prop where
  colons : after? "::" rest = none
  exclamation : starts "!" rest = false
  brace : startsGroup .brace rest = false
  hash : starts "#" rest = false

/-- What may follow an operand does not go on with a path. -/
theorem Ends.endsPath {level : Level} {rest : List Token} (h : Ends level rest) :
    EndsPath rest := by
  cases h with
  | nil => exact ⟨rfl, rfl, rfl, rfl⟩
  | comma more => exact ⟨rfl, rfl, rfl, rfl⟩
  | plus h more => exact ⟨rfl, rfl, rfl, rfl⟩
  | times h joined hmore => cases joined <;> exact ⟨rfl, rfl, rfl, rfl⟩

/-- Arguments do not go on with a path: they are taken as those of a call. -/
theorem endsPath_arguments (inside rest : List Token) :
    EndsPath (.group .parenthesis inside :: rest) :=
  ⟨rfl, rfl, rfl, rfl⟩

namespace Grammar

open Reader

variable {g : Grammar}

/-! ### Operations -/

/-- Operators that do not bind as tightly as the base end an operation. -/
theorem operationSteps_end {base level : Level} {rest : List Token} (h : Ends level rest)
    (hbase : level.rank < base.rank ∨ level = .none) (steps : Nat) (left : Expression) :
    g.operationSteps true base (steps + 1) left rest = some (left, rest) := by
  obtain ⟨-, -, -, -, -, hassign, hpoints, has⟩ := h.quiet
  rw [operationSteps]
  simp only [bind_apply, get_apply, Option.bind_some]
  -- nothing may follow a range, whatever is in front
  by_cases hrange : left.isRange = true
  · rw [if_pos hrange]
    rfl
  · rw [if_neg hrange]
    rcases h.operator with hnone | ⟨operator, more, hsome, hle, hsum⟩
    · simp [hnone, hassign, hpoints, has]
    · -- signs bind tighter than the end of an expression, so they cannot stand there
      have hlt : operator.level.rank < base.rank := by
        rcases hbase with hbase | rfl
        · omega
        · exact absurd (hsum.trans hle) (by decide)
      simp [hsome, hlt]

/-- **One operation is taken,** if its operator binds tightly enough and it is no comparison. -/
theorem operationSteps_operator {base : Level} {operator : BinaryOperator}
    {left right : Expression} {ts more rest : List Token} (hleft : left.isRange = false)
    (hoperator : binaryOperator? ts = some (operator, more))
    (hbase : base.rank ≤ operator.level.rank) (hcompare : operator.level ≠ .compare)
    (hright : g.rightOperand true operator.level more = some (right, rest)) (steps : Nat) :
    g.operationSteps true base (steps + 1) left ts =
      g.operationSteps true base steps (.binary operator left right) rest := by
  rw [operationSteps]
  simp [hleft, hoperator, Nat.not_lt.mpr hbase, hcompare, hright]

/-- The operand on the right ends where nothing binds more tightly. -/
theorem rightSteps_end {level : Level} {rest : List Token} (h : Ends level rest) (steps : Nat)
    (right : Expression) : g.rightSteps true level (steps + 1) right rest = some (right, rest) := by
  obtain ⟨hle, hne⟩ := h.nextLevel_le
  have hstop :
      ¬ (level.rank < (nextLevel rest).rank ∨ nextLevel rest = level ∧ level = .assign) := by
    rintro (hlt | ⟨heq, hassign⟩)
    · omega
    · exact hne (heq.trans hassign)
  rw [rightSteps]
  simp [hstop]

/-- An operand that no tighter operator follows. -/
theorem rightOperand_operand {level : Level} {right : Expression} {ts rest : List Token}
    (h : Ends level rest) (hright : g.operand true ts = some (right, rest)) :
    g.rightOperand true level ts = some (right, rest) := by
  simp [rightOperand, hright, rightSteps_end h]

/-- An operand with the tighter operations behind it. -/
theorem rightOperand_operations {level : Level} {first right : Expression}
    {ts more rest : List Token} (h : Ends level rest)
    (hfirst : g.operand true ts = some (first, more))
    (hmore : level.rank < (nextLevel more).rank)
    (hright : g.operations true (nextLevel more) first more = some (right, rest))
    (hlt : rest.length < more.length) : g.rightOperand true level ts = some (right, rest) := by
  rw [rightOperand]
  simp only [bind_apply, hfirst, Option.bind_some, stepsOfLoop_apply]
  rw [rightSteps]
  obtain ⟨steps, hsteps⟩ : ∃ steps, more.length = steps + 1 := ⟨more.length - 1, by omega⟩
  -- tokens have been taken, so the loop goes on
  have hother : rest.length ≠ steps + 1 := by omega
  simp only [bind_apply, get_apply, Option.bind_some, hmore, decide_true, Bool.true_or, if_true,
    hright, hsteps]
  rw [if_neg hother]
  exact rightSteps_end h steps right

/-- **Operations from left to right:** the right operands and their signs are taken one after the
    other. -/
theorem operationSteps_foldl {base : Level} (operator : BinaryOperator) (sign : Spelling → Token)
    (operation : Spelling → Spelling → Spelling)
    (hoperation : ∀ l r, (operation l r).expression =
      .binary operator l.expression r.expression)
    (hbase : base.rank ≤ operator.level.rank) (hcompare : operator.level ≠ .compare)
    {first : Spelling} {rest : List Spelling} {tail : List Token}
    (hfirst : first.expression.isRange = false) (htail : Ends operator.level tail)
    (hsign : ∀ r ∈ rest, ∀ more, Ends operator.level (sign r :: (r.tokens ++ more)) ∧
      binaryOperator? (sign r :: (r.tokens ++ more)) = some (operator, r.tokens ++ more))
    (hright : ∀ r ∈ rest, ∀ more, Ends operator.level more →
      g.rightOperand true operator.level (r.tokens ++ more) = some (r.expression, more))
    (steps : Nat) (hsteps : (rest.flatMap (fun r => sign r :: r.tokens) ++ tail).length < steps) :
    ∃ steps', tail.length < steps' ∧
      g.operationSteps true base steps first.expression
          (rest.flatMap (fun r => sign r :: r.tokens) ++ tail) =
        g.operationSteps true base steps' (rest.foldl operation first).expression tail := by
  induction rest generalizing first steps with
  | nil => exact ⟨steps, hsteps, rfl⟩
  | cons r rest ih =>
    obtain ⟨steps, rfl⟩ : ∃ before, steps = before + 1 := ⟨steps - 1, by omega⟩
    -- the next sign is behind the operand, or all of it ends
    have hmore : Ends operator.level (rest.flatMap (fun r => sign r :: r.tokens) ++ tail) := by
      cases rest with
      | nil => exact htail
      | cons next rest =>
        rw [List.flatMap_cons, List.cons_append, List.cons_append, List.append_assoc]
        exact (hsign next (by simp) _).1
    rw [List.flatMap_cons, List.cons_append, List.cons_append, List.append_assoc] at hsteps ⊢
    rw [operationSteps_operator hfirst (hsign r (by simp) _).2 hbase hcompare
      (hright r (by simp) _ hmore) steps, ← hoperation]
    refine ih ?_ (fun r hr => hsign r (by simp [hr])) (fun r hr => hright r (by simp [hr])) steps ?_
    · rw [hoperation]
      rfl
    · simp only [List.length_cons, List.length_append] at hsteps ⊢
      omega

/-! ### Operands -/

/-- Without a `#` in front there are no attributes. -/
theorem outerAttributes_none {ts : List Token} (h : starts "#" ts = false) :
    g.outerAttributes ts = some ([], ts) := by
  simp [outerAttributes, outerSteps, h]

/-- No operator is in front of a token that is no mark. -/
theorem starts_eq_false {token : Token} (htoken : ∀ c joined, token ≠ .mark c joined)
    {operator : String} (hne : operator.toList ≠ []) (rest : List Token) :
    starts operator (token :: rest) = false := by
  cases token with
  | mark c joined => exact absurd rfl (htoken c joined)
  | word text | literal text | group delimiter inside =>
    cases hchars : operator.toList with
    | nil => exact absurd hchars hne
    | cons c cs => cases cs <;> simp [starts, after?, hchars, afterChars?]

/-- What may follow an operand does not go on with it. -/
theorem trailerSteps_end {level : Level} {rest : List Token} (h : Ends level rest) (steps : Nat)
    (operand : Expression) :
    g.trailerSteps (steps + 1) operand rest = some (operand, rest) := by
  obtain ⟨hgroup, hpoint, hquestion, -⟩ := h.quiet
  rw [trailerSteps]
  simp [hgroup, hpoint, hquestion]

/-- Arguments in parentheses make a call of an operand. -/
theorem trailerSteps_call {args : List Expression} {comma : Bool} {inside : List Token}
    (h : g.arguments inside = some ((args, comma), [])) (steps : Nat) (operand : Expression)
    (rest : List Token) :
    g.trailerSteps (steps + 1) operand (.group .parenthesis inside :: rest) =
      g.trailerSteps steps (.call operand args comma) rest := by
  rw [trailerSteps]
  simp [startsGroup, Reader.inside, h]

/-- An operand without operators and attributes in front of it. -/
theorem operandRule_atom {token : Token} (htoken : ∀ c joined, token ≠ .mark c joined)
    {first operand : Expression} {ts more rest : List Token}
    (hatom : g.atom true (token :: ts) = some (first, more))
    (htrailers : g.trailers first more = some (operand, rest))
    (hoperand : ∀ shape tokens, operand ≠ .other shape tokens) :
    g.operandRule true (token :: ts) = some (operand, rest) := by
  have hstarts : ∀ text ∈ ["#", "&", "-", "*", "!"], starts text (token :: ts) = false := by
    intro text htext
    refine starts_eq_false htoken ?_ ts
    rintro hnil
    simp at htext
    rcases htext with rfl | rfl | rfl | rfl | rfl <;> simp at hnil
  rw [operandRule]
  simp only [bind_apply, get_apply, Option.bind_some, outerAttributes_none (hstarts "#" (by simp)),
    hstarts "&" (by simp), hstarts "-" (by simp), hstarts "*" (by simp), hstarts "!" (by simp),
    Bool.false_eq_true, if_false, Bool.or_self, hatom, htrailers]
  cases operand with
  | other shape tokens => exact absurd rfl (hoperand shape tokens)
  | _ => rfl

end Grammar

end TermNet.Source
