import TermNet.Proofs.Pattern.Parsed
import TermNet.Proofs.Source.Printed

namespace TermNet

open Source

/-!
# Texts tell terms and bindings apart

The text of a term is made of tokens.  A sum is cut at its plus signs, any other product at its
signs of multiplication, and the arguments of a call at the commas between them, since whatever has
such signs itself stands in parentheses.  So the tokens tell a term from every other one, even
where its text is not read back because of its names.

* `Term.Shown`, `Term.shown` — the shapes of terms as tokens;
* `Term.eq_of_tokens_eq` — terms with the same tokens are equal;
* `Binding.tokens?_text` — the text of a binding is read as its tokens;
* `Binding.eq_of_text_eq` — so bindings with the same text are equal.
-/

namespace Source

/-! ### Marks -/

/-- Whether a token is this mark. -/
def Token.isMark (c : Char) : Token → Bool
  | .mark d _ => d == c
  | _ => false

/-- No token is this mark, inside of groups apart. -/
def Without (c : Char) (ts : List Token) : Prop := ∀ t ∈ ts, t.isMark c = false

variable {c : Char} {ts us : List Token} {parts : List (List Token)}

/-- Two lists of tokens without a mark, one after the other. -/
theorem without_append : Without c (ts ++ us) ↔ Without c ts ∧ Without c us :=
  List.forall_mem_append

/-- Tokens without a mark: the first one is not that mark, and the others have none. -/
theorem without_cons {t : Token} : Without c (t :: ts) ↔ t.isMark c = false ∧ Without c ts :=
  List.forall_mem_cons

/-- Tokens without a mark are one piece. -/
theorem Without.splitOnP_eq (h : Without c ts) : ts.splitOnP (Token.isMark c) = [ts] :=
  List.splitOnP_eq_singleton h

/-- Parts between commas are found again. -/
theorem splitOnP_separated (hne : parts ≠ []) (h : ∀ part ∈ parts, Without ',' part) :
    (separated false parts).splitOnP (Token.isMark ',') = parts := by
  induction parts with
  | nil => exact absurd rfl hne
  | cons part parts ih =>
    rw [List.forall_mem_cons] at h
    cases parts with
    | nil => simpa [separated] using h.1.splitOnP_eq
    | cons next parts =>
      have hmore := ih (by simp) h.2
      have hjoined : separated false (part :: next :: parts) =
          part ++ .mark ',' false :: separated false (next :: parts) := by
        simp [separated, mark, markChars]
      rw [hjoined, List.splitOnP_append_cons _ _ rfl, h.1.splitOnP_eq, hmore]
      rfl

/-- **Parts with commas between them** can be told apart if none is empty or has a comma. -/
theorem separated_injective {others : List (List Token)}
    (h : ∀ part ∈ parts, Without ',' part ∧ part ≠ [])
    (hothers : ∀ part ∈ others, Without ',' part ∧ part ≠ [])
    (heq : separated false parts = separated false others) : parts = others := by
  -- No parts and one empty part would look the same.
  have hnil {more : List (List Token)} (hmore : ∀ part ∈ more, Without ',' part ∧ part ≠ [])
      (hempty : separated false more = []) : more = [] := by
    cases hcases : more with
    | nil => rfl
    | cons part rest =>
      have hsplit := splitOnP_separated (hcases ▸ List.cons_ne_nil part rest)
        fun part hpart => (hmore part hpart).1
      rw [hempty, hcases] at hsplit
      obtain ⟨rfl, -⟩ := List.cons.inj hsplit
      exact absurd rfl (hmore [] (hcases ▸ List.mem_cons_self)).2
  by_cases hparts : parts = []
  · subst hparts
    exact (hnil hothers heq.symm).symm
  by_cases hmore : others = []
  · subst hmore
    exact hnil h heq
  rw [← splitOnP_separated hparts fun part hpart => (h part hpart).1, heq,
    splitOnP_separated hmore fun part hpart => (hothers part hpart).1]

variable {operation : Spelling → Spelling → Spelling} {first : Spelling} {rest : List Spelling}

/-- Operands between the signs of an operation are found again. -/
theorem splitOnP_foldl {sign : Spelling → Token} (hsign : ∀ r, (sign r).isMark c = true)
    (hoperation : ∀ l r, (operation l r).tokens = l.tokens ++ sign r :: r.tokens)
    (h : ∀ s ∈ first :: rest, Without c s.tokens) :
    (rest.foldl operation first).tokens.splitOnP (Token.isMark c) =
      (first :: rest).map Spelling.tokens := by
  -- what has been joined so far need not be an operand
  have hjoined : ∀ first, (rest.foldl operation first).tokens.splitOnP (Token.isMark c) =
      first.tokens.splitOnP (Token.isMark c) ++ rest.map Spelling.tokens := by
    rw [List.forall_mem_cons] at h
    replace h := h.2
    induction rest with
    | nil => simp
    | cons next rest ih =>
      rw [List.forall_mem_cons] at h
      intro first
      rw [List.foldl_cons, ih h.2, hoperation, List.splitOnP_append_cons _ _ (hsign next),
        h.1.splitOnP_eq]
      simp
  rw [hjoined, (h first List.mem_cons_self).splitOnP_eq]
  rfl

/-- Nor are there marks but those of the operands and the signs. -/
theorem without_foldl {sign : Spelling → Token} (hsign : ∀ r, (sign r).isMark c = false)
    (hoperation : ∀ l r, (operation l r).tokens = l.tokens ++ sign r :: r.tokens)
    (h : ∀ s ∈ first :: rest, Without c s.tokens) :
    Without c (rest.foldl operation first).tokens := by
  induction rest generalizing first with
  | nil => exact h first List.mem_cons_self
  | cons next rest ih =>
    rw [List.forall_mem_cons, List.forall_mem_cons] at h
    refine ih (List.forall_mem_cons.mpr ⟨?_, h.2.2⟩)
    rw [hoperation, without_append, without_cons]
    exact ⟨h.1, hsign next, h.2.1⟩

end Source

/-! ### Terms as tokens -/

/-- The signs that separate operands and arguments. -/
def separatingMarks : List Char := [',', '+', '*']

/-- The marks that separate operands are neither colons nor minus signs. -/
theorem ne_of_mem_separatingMarks {c : Char} (h : c ∈ separatingMarks) :
    (':' == c) = false ∧ ('-' == c) = false := by
  have hall : ∀ c ∈ separatingMarks, (':' == c) = false ∧ ('-' == c) = false :=
    List.all_iff_forall_prop.mp (by decide)
  exact hall c h

/-- A symbol has no marks that separate operands. -/
theorem Symbol.without_spelling (s : Symbol) {c : Char} (h : c ∈ separatingMarks) :
    Without c s.spelling.tokens := by
  unfold Symbol.spelling
  cases s.kind <;> simp [Spelling.name, Spelling.qualified, mark, markChars, Without, Token.isMark,
    (ne_of_mem_separatingMarks h).1]

/-- A head has no marks that separate operands. -/
theorem Head.without_path (head : Head) {c : Char} (h : c ∈ separatingMarks) :
    Without c head.path.tokens := by
  unfold Head.path
  cases head.kind <;> simp [Spelling.name, Spelling.qualified, mark, markChars, Without,
    Token.isMark, (ne_of_mem_separatingMarks h).1]

/-- An integer has no marks that separate operands. -/
theorem without_integerSpelling (value : Int64) {c : Char} (h : c ∈ separatingMarks) :
    Without c (integerSpelling value).tokens := by
  unfold integerSpelling
  split <;> simp [Spelling.number, Spelling.negated, Without, Token.isMark,
    (ne_of_mem_separatingMarks h).2]

namespace Term

variable {s t : Term} {c : Char} {head outer : Head} {args : List Term}

/-- The tokens of a term. -/
def tokens (t : Term) : List Token := t.spelling.tokens

/-- The spelling of an operand of a sum or product. -/
def operand (outer : Head) (t : Term) : Spelling := outer.operand (t.head?, t.spelling)

/-- The spelling of an operation is put together from those of its arguments. -/
theorem spelling_node (head : Head) (args : List Term) :
    (node head args).spelling = head.spelling (args.map fun t => (t.head?, t.spelling)) := by
  have hhead (t : Term) : (PatternTerm.ofTerm t).head? = t.head? := by cases t <;> rfl
  rw [spelling, PatternTerm.ofTerm, PatternTerm.spellingWith, PatternTerm.argumentsWith_eq,
    PatternTerm.ofTerms_eq, List.map_map]
  simp only [Function.comp_def, hhead]
  rfl

/-- The tokens of an operand, in parentheses where it would be grouped otherwise. -/
theorem tokens_operand (outer : Head) (t : Term) : (operand outer t).tokens =
    if t.head?.any fun inner => inner.regroupsIn outer then [.group .parenthesis t.tokens]
    else t.tokens := by
  unfold operand Head.operand
  split <;> rfl

/-- The signs of sums and products, and what they join. -/
inductive Joins : Head → Char → (Spelling → Spelling → Spelling) → Prop
  | plus : Joins .sum '+' .plus
  | times : Joins .product '*' .times

/-- Sums and products are joined by marks that separate operands. -/
theorem Joins.mem_separatingMarks {operation : Spelling → Spelling → Spelling}
    (h : Joins head c operation) : c ∈ separatingMarks := by
  cases h <;> decide

/-- Between two operands stands one token, which is the sign. -/
theorem Joins.exists_sign {operation : Spelling → Spelling → Spelling}
    (h : Joins head c operation) :
    ∃ sign : Spelling → Token, (∀ r d, (sign r).isMark d = (c == d)) ∧
      ∀ l r, (operation l r).tokens = l.tokens ++ sign r :: r.tokens := by
  cases h with
  | plus => exact ⟨fun _ => .mark '+' false, fun _ _ => rfl, by
      simp [Spelling.plus, mark, markChars]⟩
  | times => exact ⟨fun r => .mark '*' (startsMark r.chars), fun _ _ => rfl, fun _ _ => rfl⟩

/-- **How operations are spelled:** with a sign between two operands or more, or as calls. -/
theorem spelling_cases (head : Head) (args : List Term) :
    (∃ c operation first second rest, Joins head c operation ∧ args = first :: second :: rest ∧
      (node head args).spelling =
        ((second :: rest).map (operand head)).foldl operation (operand head first)) ∨
    (node head args).spelling = .call head.path (args.map spelling) := by
  have hcall : (args.map fun t => (t.head?, t.spelling)).map Prod.snd = args.map spelling :=
    List.map_map
  have hoperands (ts : List Term) :
      (ts.map fun t => (t.head?, t.spelling)).map head.operand = ts.map (operand head) :=
    List.map_map
  rw [spelling_node]
  -- Sums and products of less than two operands are calls, too.
  match args, hcall with
  | [], _ | [_], _ => exact .inr rfl
  | first :: second :: rest, hcall =>
    by_cases hsum : head = .sum
    · subst hsum
      refine .inl ⟨_, _, first, second, rest, .plus, rfl, ?_⟩
      rw [← hoperands]
      rfl
    by_cases hproduct : head = .product
    · subst hproduct
      refine .inl ⟨_, _, first, second, rest, .times, rfl, ?_⟩
      rw [← hoperands]
      rfl
    · refine .inr ?_
      rw [← hcall]
      simp [Head.spelling, hsum, hproduct]

/-- The sign may stand in the text of a term with this head, outside of parentheses. -/
def Shows (inner : Option Head) (c : Char) : Prop :=
  (c = '+' ∧ inner = some .sum) ∨ (c = '*' ∧ (inner = some .sum ∨ inner = some .product))

/-- Operands that show a sign that they should not stand in parentheses. -/
theorem Joins.without_operand {operation : Spelling → Spelling → Spelling} {d : Char}
    (h : Joins head d operation) (hc : c = d ∨ ¬ Shows (some head) c)
    (ht : ¬ Shows t.head? c → Without c t.tokens) : Without c (operand head t).tokens := by
  rw [tokens_operand]
  split
  · simp [Without, Token.isMark]
  · rename_i hopen
    refine ht fun hshows => ?_
    cases hhead : t.head? with
    | none => simp [Shows, hhead] at hshows
    | some inner =>
      simp only [hhead, Option.any_some, Head.regroupsIn, Shows, Option.some.injEq] at hopen hshows
      cases h with
      | plus => simp_all [Shows]
      | times => simp_all [Shows]

/-- **Signs stand between operands,** and nowhere else outside of parentheses. -/
theorem without_tokens (t : Term) (hc : c ∈ separatingMarks) (h : ¬ Shows t.head? c) :
    Without c t.tokens := by
  induction t using Term.inductionOn with
  | integer value => exact without_integerSpelling value hc
  | symbol s => exact s.without_spelling hc
  | node head args ih =>
    rcases spelling_cases head args with
      ⟨d, operation, first, second, rest, hjoins, rfl, hspelling⟩ | hspelling
    · obtain ⟨sign, hsign, hoperation⟩ := hjoins.exists_sign
      have hother : (d == c) = false := by
        rw [← Bool.not_eq_true, beq_iff_eq]
        rintro rfl
        cases hjoins <;> simp [Shows, head?] at h
      rw [tokens, hspelling]
      refine without_foldl (fun r => (hsign r c).trans hother) hoperation ?_
      rw [← List.map_cons, List.forall_mem_map]
      exact fun t ht => hjoins.without_operand (.inr h) (ih t ht)
    · rw [tokens, hspelling]
      exact without_append.mpr ⟨head.without_path hc, by simp [Without, Token.isMark]⟩

/-! ### Shapes -/

/-- **What terms are shown as.** -/
inductive Shown (ts : List Token) : Term → Prop
  | integer {value : Int64} (h : ts = (integerSpelling value).tokens) : Shown ts (.integer value)
  | symbol {s : Symbol} (h : ts = s.spelling.tokens) : Shown ts (.symbol s)
  | call {head : Head} {args : List Term} (h : ts = head.path.tokens ++
      [.group .parenthesis (separated false (args.map tokens))]) : Shown ts (.node head args)
  /-- Operands with a sign between them. -/
  | joined {head : Head} {args : List Term} {c : Char}
    {operation : Spelling → Spelling → Spelling} (hjoins : Joins head c operation)
    (hlength : 2 ≤ args.length)
    (hsplit : ts.splitOnP (Token.isMark c) = args.map fun t => (operand head t).tokens) :
    Shown ts (.node head args)

/-- **Every term is shown** as an integer, a symbol, a call, or operands with signs between. -/
theorem shown (t : Term) : Shown t.tokens t := by
  cases t with
  | integer value => exact .integer rfl
  | symbol s => exact .symbol rfl
  | node head args =>
    rcases spelling_cases head args with
      ⟨c, operation, first, second, rest, hjoins, rfl, hspelling⟩ | hspelling
    · obtain ⟨sign, hsign, hoperation⟩ := hjoins.exists_sign
      refine .joined hjoins (by simp) ?_
      rw [tokens, hspelling, splitOnP_foldl (fun r => (hsign r c).trans (beq_self_eq_true c))
        hoperation]
      · rw [← List.map_cons, List.map_map]
        rfl
      · rw [← List.map_cons, List.forall_mem_map]
        exact fun t _ => hjoins.without_operand (.inl rfl)
          (t.without_tokens hjoins.mem_separatingMarks)
    · refine .call ?_
      rw [tokens, hspelling, Spelling.call, Spelling.listTokens, List.map_map]
      rfl

/-- Tokens without the sign are no operands with the sign between them. -/
theorem not_without_of_joined {ts : List Token} (hlength : 2 ≤ args.length)
    (hsplit : ts.splitOnP (Token.isMark c) = args.map fun t => (operand head t).tokens) :
    ¬ Without c ts := by
  intro h
  have hone := congrArg List.length hsplit
  rw [h.splitOnP_eq, List.length_singleton, List.length_map] at hone
  omega

/-- A call has its commas inside its parentheses. -/
theorem without_call (head : Head) (ts : List Token) (hc : c ∈ separatingMarks) :
    Without c (head.path.tokens ++ [.group .parenthesis ts]) :=
  without_append.mpr ⟨head.without_path hc, by simp [Without, Token.isMark]⟩

/-- The tokens of a term are not those of a group. -/
theorem tokens_ne_group (t : Term) (delimiter : Delimiter) (ts : List Token) :
    t.tokens ≠ [.group delimiter ts] := by
  intro hgroup
  cases t.shown with
  | @integer value h =>
    rw [hgroup, integerSpelling] at h
    split at h <;> simp [Spelling.number, Spelling.negated] at h
  | @symbol s h =>
    rw [hgroup, Symbol.spelling] at h
    cases hkind : s.kind <;> simp [hkind, Spelling.name, Spelling.qualified] at h
  | @call head args h =>
    rw [hgroup, Head.path] at h
    cases hkind : head.kind <;> simp [hkind, Spelling.name, Spelling.qualified] at h
  | joined hjoins hlength hsplit =>
    rw [hgroup] at hsplit
    exact not_without_of_joined hlength hsplit (by simp [Without, Token.isMark])

/-- Every term has a token. -/
theorem tokens_ne_nil (t : Term) : t.tokens ≠ [] := by
  intro hnil
  cases t.shown with
  | @integer value h =>
    rw [hnil, integerSpelling] at h
    split at h <;> simp [Spelling.number, Spelling.negated] at h
  | @symbol s h =>
    rw [hnil, Symbol.spelling] at h
    cases hkind : s.kind <;> simp [hkind, Spelling.name, Spelling.qualified] at h
  | call h => simp [hnil] at h
  | joined hjoins hlength hsplit =>
    rw [hnil] at hsplit
    exact not_without_of_joined hlength hsplit (by simp [Without])

/-- An operand tells the term that it is. -/
theorem tokens_eq_of_operand (h : (operand outer s).tokens = (operand outer t).tokens) :
    s.tokens = t.tokens := by
  rw [tokens_operand, tokens_operand] at h
  split at h
  · split at h
    · simpa using h
    · exact absurd h.symm (t.tokens_ne_group _ _)
  · split at h
    · exact absurd h (s.tokens_ne_group _ _)
    · exact h

/-! ### Different terms -/

/-- Integers with the same tokens are equal. -/
theorem eq_of_integerSpelling {value other : Int64}
    (h : (integerSpelling value).tokens = (integerSpelling other).tokens) : value = other := by
  refine Int64.toInt_inj.mp ?_
  unfold integerSpelling at h
  have hnumber {m n : Nat} (h : m.repr = n.repr) : m = n := by
    have hvalue := congrArg wholeNumber? h
    change wholeNumber? (toString m) = wholeNumber? (toString n) at hvalue
    rwa [wholeNumber?_toString, wholeNumber?_toString, Option.some.injEq] at hvalue
  split at h <;> split at h <;> rename_i _ m hm _ n hn <;> rw [hm, hn]
  · have hrepr : m.repr = n.repr := by simpa [Spelling.number] using h
    rw [hnumber hrepr]
  · simp [Spelling.number, Spelling.negated] at h
  · simp [Spelling.number, Spelling.negated] at h
  · have hlast := congrArg List.getLast? h
    have hrepr : (m + 1).repr = (n + 1).repr := by
      simpa [Spelling.number, Spelling.negated] using hlast
    rw [Nat.succ.inj (hnumber hrepr)]

/-- Symbols with the same tokens are equal. -/
theorem eq_of_symbolSpelling {symbol other : Symbol}
    (h : symbol.spelling.tokens = other.spelling.tokens) : symbol = other := by
  obtain ⟨name, kind⟩ := symbol
  obtain ⟨name', kind'⟩ := other
  unfold Symbol.spelling at h
  cases kind <;> cases kind' <;>
    simp_all [Spelling.name, Spelling.qualified, SymbolKind.name, mark, markChars]

/-- A call tells its head and the tokens between its parentheses. -/
theorem eq_of_path {other : Head} {ts us : List Token}
    (h : head.path.tokens ++ [.group .parenthesis ts] =
      other.path.tokens ++ [.group .parenthesis us]) : head = other ∧ ts = us := by
  obtain ⟨name, kind⟩ := head
  obtain ⟨name', kind'⟩ := other
  unfold Head.path at h
  cases kind <;> cases kind' <;>
    simp_all [Spelling.name, Spelling.qualified, OpKind.qualifier, mark, markChars]

/-- The last token tells integers, symbols and calls apart. -/
theorem getLast?_integerSpelling (value : Int64) :
    ∃ text, (integerSpelling value).tokens.getLast? = some (.literal text) := by
  unfold integerSpelling
  split <;> simp [Spelling.number, Spelling.negated]

/-- The tokens of a symbol end with its name. -/
theorem getLast?_symbolSpelling (s : Symbol) :
    s.spelling.tokens.getLast? = some (.word s.name) := by
  unfold Symbol.spelling
  cases s.kind <;> simp [Spelling.name, Spelling.qualified, mark, markChars]

/-- Lists are equal if their members can be told apart by what is made of them. -/
theorem eq_of_map_eq {α β : Type} {f : α → β} {as bs : List α}
    (hf : ∀ a ∈ as, ∀ b, f a = f b → a = b) (h : as.map f = bs.map f) : as = bs := by
  induction as generalizing bs with
  | nil => exact (List.map_eq_nil_iff.mp h.symm).symm
  | cons a as ih =>
    obtain ⟨b, bs, rfl, hb, hbs⟩ := List.map_eq_cons_iff.mp h.symm
    rw [List.forall_mem_cons] at hf
    rw [hf.1 b hb.symm, ih hf.2 hbs.symm]

/-- Arguments are found again between their commas. -/
theorem map_tokens_eq {others : List Term}
    (h : separated false (args.map tokens) = separated false (others.map tokens)) :
    args.map tokens = others.map tokens := by
  have hparts (ts : List Term) : ∀ part ∈ ts.map tokens, Without ',' part ∧ part ≠ [] :=
    List.forall_mem_map.mpr fun t _ =>
      ⟨t.without_tokens (by decide) (by simp [Shows]), t.tokens_ne_nil⟩
  exact separated_injective (hparts args) (hparts others) h

/-- **Terms with the same tokens are equal.** -/
theorem eq_of_tokens_eq (h : s.tokens = t.tokens) : s = t := by
  -- The last token tells integers, symbols and calls apart; an infix operator stands outside of
  -- all brackets, where none of the others has a separating mark.
  induction s using Term.inductionOn generalizing t with
  | integer value =>
    obtain ⟨text, hlast⟩ := getLast?_integerSpelling value
    have hvalue : (integerSpelling value).tokens = t.tokens := h
    cases t.shown with
    | integer hother => rw [eq_of_integerSpelling (hvalue.trans hother)]
    | symbol hother => simp [hvalue, hother, getLast?_symbolSpelling] at hlast
    | call hother => simp [hvalue, hother] at hlast
    | joined hjoins hlength hsplit =>
      exact absurd (hvalue ▸ without_integerSpelling value hjoins.mem_separatingMarks)
        (not_without_of_joined hlength hsplit)
  | symbol s =>
    have hlast := getLast?_symbolSpelling s
    have hname : s.spelling.tokens = t.tokens := h
    cases t.shown with
    | @integer other hother =>
      obtain ⟨text, htext⟩ := getLast?_integerSpelling other
      simp [hname, hother, htext] at hlast
    | symbol hother => rw [eq_of_symbolSpelling (hname.trans hother)]
    | call hother => simp [hname, hother] at hlast
    | joined hjoins hlength hsplit =>
      exact absurd (hname ▸ s.without_spelling hjoins.mem_separatingMarks)
        (not_without_of_joined hlength hsplit)
  | node head args ih =>
    have hs := (node head args).shown
    rw [h] at hs
    cases hs with
    | call hcall =>
      cases t.shown with
      | @integer other hother =>
        obtain ⟨text, htext⟩ := getLast?_integerSpelling other
        simp [← hother, hcall] at htext
      | @symbol other hother =>
        have hlast := getLast?_symbolSpelling other
        simp [← hother, hcall] at hlast
      | @call other others hother =>
        obtain ⟨rfl, hseparated⟩ := eq_of_path (hcall.symm.trans hother)
        rw [eq_of_map_eq (fun a ha b => ih a ha) (map_tokens_eq hseparated)]
      | joined hjoins hlength hsplit =>
        exact absurd (hcall ▸ without_call _ _ hjoins.mem_separatingMarks)
          (not_without_of_joined hlength hsplit)
    | joined hjoins hlength hsplit =>
      have hnot := not_without_of_joined hlength hsplit
      have hc := hjoins.mem_separatingMarks
      cases t.shown with
      | @integer other hother => exact absurd (hother ▸ without_integerSpelling other hc) hnot
      | @symbol other hother => exact absurd (hother ▸ other.without_spelling hc) hnot
      | @call other others hother => exact absurd (hother ▸ without_call _ _ hc) hnot
      | @joined _ others _ _ hjoins' hlength' hsplit' =>
        have hne : Head.product ≠ .sum := by decide
        cases hjoins <;> cases hjoins'
        case plus.plus =>
          rw [eq_of_map_eq (fun a ha b hab => ih a ha (tokens_eq_of_operand hab))
            (hsplit.symm.trans hsplit')]
        case times.times =>
          rw [eq_of_map_eq (fun a ha b hab => ih a ha (tokens_eq_of_operand hab))
            (hsplit.symm.trans hsplit')]
        case plus.times => exact absurd (without_tokens _ hc (by simp [Shows, head?, hne])) hnot
        case times.plus =>
          have hplus := without_tokens (c := '+') (node .product args) (by decide)
            (by simp [Shows, head?, hne])
          exact absurd (h ▸ hplus) (not_without_of_joined hlength' hsplit')

end Term

/-! ### Texts -/

/-- The text of a symbol is read as its tokens. -/
theorem Symbol.Parsed.reads {s : Symbol} (h : s.Parsed) :
    Solid s.spelling.chars ∧ Reads s.spelling.chars s.spelling.tokens := by
  unfold Symbol.spelling
  cases s.kind
  case plain => exact ⟨solid_word h.1, .word h.1⟩
  all_goals exact (SpelledPath.qualified (by decide +kernel) h).reads

/-- The text of a head is read as its tokens. -/
theorem Head.Parsed.reads {head : Head} (h : head.Parsed) :
    Solid head.path.chars ∧ Reads head.path.chars head.path.tokens := by
  unfold Head.path
  cases head.kind
  case plain => exact ⟨solid_word h.1.1, .word h.1.1⟩
  all_goals exact (SpelledPath.qualified (by decide +kernel) h.1).reads

/-- **The text of a term** is read as its tokens, if its names are words. -/
theorem Term.Parsed.reads {t : Term} (h : t.Parsed) :
    Solid t.spelling.chars ∧ Reads t.spelling.chars t.tokens := by
  unfold Term.Parsed at h
  induction h with
  | integer _ => exact (spelled_integer _).reads
  | symbol h => exact h.reads
  | @node head args h _ ih =>
    rcases Term.spelling_cases head args with
      ⟨c, operation, first, second, rest, hjoins, rfl, hspelling⟩ | hspelling
    · rw [Term.tokens, hspelling]
      refine reads_foldl (fun l r hl hr => ?_) ?_
      · cases hjoins with
        | plus => exact reads_plus hl hr
        | times => exact reads_times hl hr
      · rw [← List.map_cons, List.forall_mem_map]
        intro t ht
        unfold Term.operand Head.operand
        split
        · exact reads_paren (ih t ht)
        · exact ih t ht
    · rw [Term.tokens, hspelling]
      exact reads_call h.reads (List.forall_mem_map.mpr ih)

namespace Binding

variable {b other : Binding}

/-- The tokens of a binding: those of its term, or of its terms in brackets. -/
def tokens : Binding → List Token
  | single t => t.tokens
  | sequence ts => [.group .bracket (separated false (ts.map Term.tokens))]

/-- Bindings with the same tokens are equal: those of one term have no brackets. -/
theorem eq_of_tokens_eq (h : b.tokens = other.tokens) : b = other := by
  cases b with
  | single s =>
    cases other with
    | single t => rw [Term.eq_of_tokens_eq h]
    | sequence ts => exact absurd h (s.tokens_ne_group _ _)
  | sequence ss =>
    cases other with
    | single t => exact absurd h.symm (t.tokens_ne_group _ _)
    | sequence ts =>
      have hseparated : separated false (ss.map Term.tokens) =
          separated false (ts.map Term.tokens) := by
        simpa [tokens] using h
      rw [Term.eq_of_map_eq (fun _ _ _ => Term.eq_of_tokens_eq) (Term.map_tokens_eq hseparated)]

/-- **The text of a binding** is read as its tokens. -/
theorem tokens?_text (h : ∀ t ∈ b.elements, t.Parsed) : tokens? b.text = some b.tokens := by
  cases b with
  | single t =>
    obtain ⟨hsolid, hreads⟩ := (h t (by simp [elements])).reads
    rw [← Term.toList_text] at hsolid hreads
    exact hreads.tokens?_eq hsolid
  | sequence ts =>
    have hread : ∀ s ∈ ts.map Term.spelling, Solid s.chars ∧ Reads s.chars s.tokens :=
      List.forall_mem_map.mpr fun t ht => (h t ht).reads
    have htext : (sequence ts).text.toList =
        '[' :: (Spelling.listChars (ts.map Term.spelling) ++ [']']) := by
      have hchars : ts.map (String.toList ∘ Term.text) = ts.map (Spelling.chars ∘ Term.spelling) :=
        List.map_congr_left fun t _ => t.toList_text
      simp [text, toList_joinWith, Spelling.listChars, hchars]
    -- A slash behind the bracket would begin a comment with what follows.
    have hlist : Reads (Spelling.listChars (ts.map Term.spelling))
        (Spelling.listTokens (ts.map Term.spelling)) ∧
        (Spelling.listChars (ts.map Term.spelling)).head? ≠ some '/' := by
      generalize ts.map Term.spelling = args at hread
      cases args with
      | nil => exact ⟨Reads.nil, (Option.some_ne_none '/').symm⟩
      | cons s args => exact ⟨(reads_list hread).2, (reads_list hread).1.head?_ne⟩
    have hprints := hlist.1.prints.brackets (show bracket? '[' = some (.opening .bracket) from rfl)
      (show bracket? ']' = some (.closing .bracket) from rfl) (by decide) hlist.2
    obtain ⟨found, hfound, hnests⟩ := hprints [] [] (by simp [Ended]) lexemes?_nil
    rw [List.append_nil, List.append_nil, ← htext] at hfound
    have htokens : (sequence ts).tokens =
        [.group .bracket (Spelling.listTokens (ts.map Term.spelling))] := by
      rw [Spelling.listTokens, List.map_map]
      rfl
    exact htokens ▸ hnests.tokens?_eq hfound (by simp [htext])

/-- **Bindings with the same text are equal.** -/
theorem eq_of_text_eq (hb : ∀ t ∈ b.elements, t.Parsed) (hother : ∀ t ∈ other.elements, t.Parsed)
    (h : b.text = other.text) : b = other := by
  have htokens := tokens?_text hb
  rw [h, tokens?_text hother] at htokens
  exact (eq_of_tokens_eq (Option.some.inj htokens)).symm

end Binding

end TermNet
