import TermNet.Proofs.Source.Atoms

namespace TermNet.Source

open TermNet.Text

/-!
# Tokens as expressions

The tokens of a spelling are read as its expression: the rules for operands and operators take
exactly what was put together.

* `Grammar.IsProductOf`, `Grammar.readsExpression_sum` — products of operands, and sums of them;
* `Spelled.isRead` — a grammar of sufficient depth reads what is spelled;
* `Spelled.ofText?_eq` — so the text of a spelling is read as its expression.
-/

namespace Grammar

open Reader

variable {g : Grammar}

/-! ### Products and sums -/

/-- The tokens of a factor with the sign in front of it. -/
def timesTokens (s : Spelling) : List Token := .mark '*' (startsMark s.chars) :: s.tokens

/-- The tokens of a summand with the sign in front of it. -/
def plusTokens (s : Spelling) : List Token := .mark '+' false :: s.tokens

/-- The tokens of a product: the first factor, and the others with their signs. -/
theorem tokens_foldl_times (first : Spelling) (rest : List Spelling) :
    (rest.foldl .times first).tokens = first.tokens ++ rest.flatMap timesTokens := by
  induction rest generalizing first with
  | nil => simp
  | cons next rest ih => rw [List.foldl_cons, ih]; simp [Spelling.times, timesTokens]

/-- The tokens of a sum: the first summand, and the others with their signs. -/
theorem tokens_foldl_plus (first : Spelling) (rest : List Spelling) :
    (rest.foldl .plus first).tokens = first.tokens ++ rest.flatMap plusTokens := by
  induction rest generalizing first with
  | nil => simp
  | cons next rest ih =>
    rw [List.foldl_cons, ih]
    simp [Spelling.plus, plusTokens, mark, markChars]

/-- A spelling that is a product of operands which are read as they are spelled. -/
def IsProductOf (g : Grammar) (s : Spelling) (first : Spelling) (rest : List Spelling) : Prop :=
  s = rest.foldl .times first ∧ first.expression.isRange = false ∧
    ∀ r ∈ first :: rest, Begins r.tokens ∧ ReadsOperand g r

variable {s first : Spelling} {rest : List Spelling} {tail : List Token}

/-- Further factors may follow a product, and then what may follow it anyway. -/
theorem ends_times {level : Level} (hlevel : Level.product.rank ≤ level.rank)
    (htail : Ends level tail)
    (hrest : ∀ r ∈ rest, Begins r.tokens) : Ends level (rest.flatMap timesTokens ++ tail) := by
  cases rest with
  | nil => exact htail
  | cons next rest =>
    rw [List.flatMap_cons, timesTokens, List.cons_append, List.cons_append, List.append_assoc]
    exact .times hlevel _ ((hrest next List.mem_cons_self).append _)

/-- The factors of a product are taken one after the other. -/
theorem operationSteps_times (base : Level) (h : IsProductOf g s first rest)
    (hbase : base.rank ≤ Level.product.rank) (htail : Ends .product tail) (steps : Nat)
    (hsteps : (rest.flatMap timesTokens ++ tail).length < steps) :
    ∃ steps', tail.length < steps' ∧
      g.operationSteps true base steps first.expression (rest.flatMap timesTokens ++ tail) =
        g.operationSteps true base steps' s.expression tail := by
  obtain ⟨rfl, hfirst, hread⟩ := h
  refine operationSteps_foldl timesOperator
    (fun r => .mark '*' (startsMark r.chars)) .times (fun _ _ => rfl) hbase (by decide) hfirst htail
    (fun r hr more => ?_) (fun r hr more hmore => ?_) steps hsteps
  · have hbegins := (hread r (List.mem_cons_of_mem first hr)).1.append more
    exact ⟨.times le_rfl _ hbegins, binaryOperator?_times _ hbegins⟩
  · exact rightOperand_operand hmore ((hread r (List.mem_cons_of_mem first hr)).2 more hmore)

/-- A summand is read with all its factors. -/
theorem rightOperand_product (h : IsProductOf g s first rest)
    (h' : IsProductOf g.deeper s first rest) (htail : Ends .sum tail) :
    g.deeper.rightOperand true .sum (s.tokens ++ tail) = some (s.expression, tail) := by
  have hs : s = rest.foldl .times first := h.1
  have htokens : s.tokens ++ tail = first.tokens ++ (rest.flatMap timesTokens ++ tail) := by
    rw [hs, tokens_foldl_times, List.append_assoc]
  have hproduct : Ends .product tail := htail.mono (by decide)
  have hfirst := (h'.2.2 first List.mem_cons_self).2 (rest.flatMap timesTokens ++ tail)
    (ends_times le_rfl hproduct fun r hr => (h.2.2 r (List.mem_cons_of_mem first hr)).1)
  rw [htokens]
  cases rest with
  | nil =>
    rw [hs]
    exact rightOperand_operand htail hfirst
  | cons next rest =>
    have hnext := (h.2.2 next (by simp)).1
    have hlevel : nextLevel ((next :: rest).flatMap timesTokens ++ tail) = .product := by
      rw [List.flatMap_cons, timesTokens, List.cons_append, List.cons_append, List.append_assoc,
        nextLevel, binaryOperator?_times _ (hnext.append _)]
      rfl
    -- a sum takes the product behind its sign as one operand
    refine rightOperand_operations htail hfirst (by rw [hlevel]; decide) ?_
      (by simp [timesTokens]; omega)
    rw [hlevel]
    obtain ⟨steps, hsteps, heq⟩ := operationSteps_times .product h le_rfl hproduct _
      (Nat.lt_succ_self _)
    obtain ⟨before, rfl⟩ : ∃ before, steps = before + 1 := ⟨steps - 1, by omega⟩
    show g.operationsRule true .product first.expression _ = _
    rw [operationsRule]
    simp only [bind_apply, stepsOfLoop_apply, Option.bind_some]
    rw [heq]
    exact operationSteps_end htail (.inl (by decide)) before s.expression

/-- A product is no range. -/
theorem isRange_foldl_times (h : IsProductOf g s first rest) : s.expression.isRange = false := by
  obtain ⟨rfl, hfirst, -⟩ := h
  clear * - hfirst
  induction rest generalizing first with
  | nil => exact hfirst
  | cons next rest ih => exact ih rfl

/-- **A sum is read with all its summands.** -/
theorem readsExpression_sum {first : Spelling} {rest : List Spelling}
    (h : ∀ s ∈ first :: rest, ∃ factor factors, IsProductOf g s factor factors ∧
      IsProductOf g.deeper s factor factors ∧ IsProductOf g.deeper.deeper s factor factors) :
    ReadsExpression g.deeper.deeper.deeper (rest.foldl .plus first) := by
  intro tail htail
  obtain ⟨factor, factors, hproduct, hproduct', hproduct''⟩ := h first List.mem_cons_self
  have hsum : Ends .sum tail := htail.mono (by decide)
  have hplus : Ends .sum (rest.flatMap plusTokens ++ tail) := by
    cases rest with
    | nil => exact hsum
    | cons next rest => exact .plus le_rfl _
  have hmore : Ends .product (rest.flatMap plusTokens ++ tail) := hplus.mono (by decide)
  have htokens : (rest.foldl .plus first).tokens ++ tail =
      factor.tokens ++ (factors.flatMap timesTokens ++ (rest.flatMap plusTokens ++ tail)) := by
    have hs : first.tokens = factor.tokens ++ factors.flatMap timesTokens := by
      rw [hproduct.1, tokens_foldl_times]
    rw [tokens_foldl_plus, hs]
    simp
  have hoperand := (hproduct''.2.2 factor List.mem_cons_self).2 _
    (ends_times le_rfl hmore fun r hr => (hproduct.2.2 r (List.mem_cons_of_mem factor hr)).1)
  show g.deeper.deeper.expressionRule true _ = _
  rw [htokens, expressionRule]
  simp only [bind_apply, hoperand, Option.bind_some]
  -- the factors of the first summand, then the other summands
  show g.deeper.operationsRule true .none factor.expression _ = _
  rw [operationsRule]
  simp only [bind_apply, stepsOfLoop_apply, Option.bind_some]
  obtain ⟨steps, hsteps, heq⟩ := operationSteps_times .none hproduct' (by decide) hmore _
    (Nat.lt_succ_self _)
  rw [heq]
  obtain ⟨steps', hsteps', heq'⟩ := operationSteps_foldl (g := g.deeper) plusOperator
    (fun _ => .mark '+' false) .plus (fun _ _ => rfl) (show Level.none.rank ≤ _ by decide)
    (by decide) (isRange_foldl_times hproduct) hsum
    (fun r hr more => ⟨.plus le_rfl _, binaryOperator?_plus _⟩) (fun r hr more hends => by
      obtain ⟨_, _, hr, hr', -⟩ := h r (List.mem_cons_of_mem first hr)
      exact rightOperand_product hr hr' hends)
    steps hsteps
  obtain ⟨before, rfl⟩ : ∃ before, steps' = before + 1 := ⟨steps' - 1, by omega⟩
  exact heq'.trans (operationSteps_end htail (.inr rfl) before _)

end Grammar

/-! ### Spellings -/

open Grammar

/-- The size of two lists of tokens. -/
theorem sizeOfTokens_append (ts us : List Token) :
    sizeOfTokens (ts ++ us) = sizeOfTokens ts + sizeOfTokens us := by
  induction ts with
  | nil => simp [sizeOfTokens]
  | cons t ts ih => rw [List.cons_append, sizeOfTokens, sizeOfTokens, ih, Nat.add_assoc]

/-- Operands are no larger than what they are put together to. -/
theorem sizeOfTokens_operand_le (sign : Spelling → Token) {s first : Spelling}
    {rest : List Spelling} (hs : s ∈ first :: rest) : sizeOfTokens s.tokens ≤
      sizeOfTokens first.tokens + sizeOfTokens (rest.flatMap fun s => sign s :: s.tokens) := by
  rcases List.mem_cons.mp hs with rfl | hs
  · omega
  · induction rest with
    | nil => simp at hs
    | cons next rest ih =>
      rw [List.flatMap_cons, sizeOfTokens_append, sizeOfTokens]
      rcases List.mem_cons.mp hs with rfl | hmem
      · omega
      · have := ih (List.mem_cons_of_mem first hmem) hmem
        omega

/-- An argument is no larger than all arguments. -/
theorem sizeOfTokens_listTokens_le {args : List Spelling} {s : Spelling} (hs : s ∈ args) :
    sizeOfTokens s.tokens ≤ sizeOfTokens (Spelling.listTokens args) := by
  induction args with
  | nil => simp at hs
  | cons first args ih =>
    cases args with
    | nil => rw [List.mem_singleton.mp hs]; exact le_rfl
    | cons next args =>
      rw [listTokens_cons_cons, sizeOfTokens_append, sizeOfTokens]
      rcases List.mem_cons.mp hs with rfl | hs
      · omega
      · have := ih hs
        omega

/-- A spelling begins with a token that begins an operand. -/
theorem Spelled.begins {level : Level} {s : Spelling} (h : Spelled level s) : Begins s.tokens := by
  induction h with
  | number n => exact .literal _ _
  | negative n => exact .minus _ _
  | blank => exact .word _ _
  | path h => cases h <;> exact .word _ _
  | call hf hargs ih => cases hf <;> exact .word _ _
  | paren h ih => exact .group _ _ _
  | product h ih =>
    rw [tokens_foldl_times]
    exact (ih _ List.mem_cons_self).append _
  | sum h ih =>
    rw [tokens_foldl_plus]
    exact (ih _ List.mem_cons_self).append _

/-- What a grammar of sufficient depth makes of a spelling of each level. -/
def IsRead : Level → Spelling → Prop
  | .cast, s => s.expression.isRange = false ∧
    ∀ depth, 4 * sizeOfTokens s.tokens ≤ depth → ReadsOperand (ofDepth depth) s
  | .product, s => ∃ first rest, ∀ depth, 4 * sizeOfTokens s.tokens ≤ depth →
    IsProductOf (ofDepth depth) s first rest
  | .sum, s => ∀ depth, 4 * sizeOfTokens s.tokens + 3 ≤ depth → ReadsExpression (ofDepth depth) s
  | _, _ => True

/-- A path is no range. -/
theorem SpelledPath.isRange {s : Spelling} (h : SpelledPath s) : s.expression.isRange = false := by
  cases h <;> rfl

/-- A path has a token. -/
theorem SpelledPath.one_le_size {s : Spelling} (h : SpelledPath s) : 1 ≤ sizeOfTokens s.tokens := by
  cases h <;> simp [Spelling.name, Spelling.qualified, sizeOfTokens, Token.size]

/-- **A grammar of sufficient depth reads what is spelled.** -/
theorem Spelled.isRead {level : Level} {s : Spelling} (h : Spelled level s) : IsRead level s := by
  induction h with
  | number n =>
    refine ⟨rfl, fun depth hdepth => ?_⟩
    simp only [Spelling.number, sizeOfTokens, Token.size] at hdepth
    obtain ⟨depth, rfl⟩ : ∃ before, depth = before + 1 := ⟨depth - 1, by omega⟩
    exact readsOperand_number n
  | negative n =>
    refine ⟨rfl, fun depth hdepth => ?_⟩
    simp only [Spelling.negated, Spelling.number, sizeOfTokens, Token.size] at hdepth
    obtain ⟨depth, rfl⟩ : ∃ before, depth = before + 2 := ⟨depth - 2, by omega⟩
    exact readsOperand_negated (readsOperand_number n)
  | blank =>
    refine ⟨rfl, fun depth hdepth => ?_⟩
    simp only [Spelling.blank, sizeOfTokens, Token.size] at hdepth
    obtain ⟨depth, rfl⟩ : ∃ before, depth = before + 1 := ⟨depth - 1, by omega⟩
    exact readsOperand_blank
  | path h =>
    refine ⟨h.isRange, fun depth hdepth => ?_⟩
    have hsize := h.one_le_size
    obtain ⟨depth, rfl⟩ : ∃ before, depth = before + 1 := ⟨depth - 1, by omega⟩
    exact readsOperand_path h
  | @call f args hf hargs ih =>
    refine ⟨rfl, fun depth hdepth => ?_⟩
    simp only [Spelling.call, sizeOfTokens_append, sizeOfTokens, Token.size] at hdepth
    obtain ⟨depth, rfl⟩ : ∃ before, depth = before + 1 := ⟨depth - 1, by omega⟩
    refine readsOperand_call hf fun s hs => ⟨(hargs s hs).begins, ih s hs depth ?_⟩
    have hsize := sizeOfTokens_listTokens_le hs
    omega
  | paren h ih =>
    refine ⟨rfl, fun depth hdepth => ?_⟩
    simp only [Spelling.paren, sizeOfTokens, Token.size] at hdepth
    -- the group is one token more, which makes room for the rules of the sum inside
    obtain ⟨depth, rfl⟩ : ∃ before, depth = before + 1 := ⟨depth - 1, by omega⟩
    exact readsOperand_paren ⟨h.begins, ih depth (by omega)⟩
  | @product first rest h ih =>
    refine ⟨first, rest, fun depth hdepth => ⟨rfl, (ih first List.mem_cons_self).1, ?_⟩⟩
    rw [tokens_foldl_times, sizeOfTokens_append] at hdepth
    intro r hr
    have hsize := sizeOfTokens_operand_le (fun r => .mark '*' (startsMark r.chars)) hr
    exact ⟨(h r hr).begins, (ih r hr).2 depth ((Nat.mul_le_mul_left 4 hsize).trans hdepth)⟩
  | @sum first rest h ih =>
    intro depth hdepth
    obtain ⟨depth, rfl⟩ : ∃ before, depth = before + 3 := ⟨depth - 3, by omega⟩
    rw [tokens_foldl_plus, sizeOfTokens_append] at hdepth
    -- the summands are read at each of the three levels that a sum passes through
    refine readsExpression_sum fun s hs => ?_
    obtain ⟨factor, factors, hproduct⟩ := ih s hs
    have hsize : sizeOfTokens s.tokens ≤
        sizeOfTokens first.tokens + sizeOfTokens (rest.flatMap plusTokens) :=
      sizeOfTokens_operand_le (fun _ => .mark '+' false) hs
    exact ⟨factor, factors, hproduct depth (by omega), hproduct (depth + 1) (by omega),
      hproduct (depth + 2) (by omega)⟩

/-- **The text of a spelling is read as its expression.** -/
theorem Spelled.ofText?_eq {s : Spelling} (h : Spelled .sum s) :
    Expression.ofText? (String.ofList s.chars) = some s.expression := by
  have htokens : tokens? (String.ofList s.chars) = some s.tokens :=
    Reads.tokens?_eq (by rw [String.toList_ofList]; exact h.reads.1)
      (by rw [String.toList_ofList]; exact h.reads.2)
  have hread : (forTokens s.tokens).expression true (s.tokens ++ []) = some (s.expression, []) :=
    h.isRead _ (by omega) [] .nil
  rw [List.append_nil] at hread
  rw [Expression.ofText?, htokens, Option.bind_some, readAll?, hread]

end TermNet.Source
