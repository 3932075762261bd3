import TermNet.Code.Printer
import TermNet.Proofs.Code.References
import TermNet.Proofs.Source.Printed

namespace TermNet.Code

open TermNet.Source TermNet.Text

/-!
# Emitted code is legible

What modules are written with yields legible tokens, if the names in it are words.

* `legible_callOf`, `legible_method`, `legible_letTokens`, … — the shapes of source text;
* `legible_constructor` — the calls that build a term.
-/

/-! ### Words -/

/-- The text is a word of the language. -/
def IsWordText (name : String) : Prop := IsWord name.toList

/-- Whether a text is a word can be read off its characters. -/
instance (name : String) : Decidable (IsWordText name) :=
  inferInstanceAs (Decidable (IsWord name.toList))

/-- The characters of a literal are at hand, and its bytes need not be read. -/
theorem isWordText_ofList {cs : List Char} (h : IsWord cs) : IsWordText (String.ofList cs) := by
  rwa [IsWordText, String.toList_ofList]

/-- The keywords of modules. -/
theorem isWordText_keyword :
    IsWordText "_" ∧ IsWordText "fn" ∧ IsWordText "for" ∧ IsWordText "if" ∧ IsWordText "impl" ∧
    IsWordText "in" ∧ IsWordText "let" ∧ IsWordText "loop" ∧ IsWordText "match" ∧
    IsWordText "mod" ∧ IsWordText "mut" ∧ IsWordText "pub" ∧ IsWordText "self" ∧
    IsWordText "Self" ∧ IsWordText "static" ∧ IsWordText "struct" ∧ IsWordText "super" ∧
    IsWordText "true" ∧ IsWordText "false" ∧ IsWordText "use" ∧ IsWordText "break" := by
  unfold IsWordText
  repeat rw [String.toList_ofList]
  decide

/-- The types and constructors that modules refer to. -/
theorem isWordText_type :
    IsWordText "Arc" ∧ IsWordText "Binding" ∧ IsWordText "CommutativePattern" ∧
    IsWordText "Expr" ∧ IsWordText "Head" ∧ IsWordText "INSTANCE" ∧ IsWordText "IntoIter" ∧
    IsWordText "LazyLock" ∧ IsWordText "None" ∧ IsWordText "OnceLock" ∧ IsWordText "OpKind" ∧
    IsWordText "OperandMatcher" ∧ IsWordText "Option" ∧ IsWordText "PatternSet" ∧
    IsWordText "Predicate" ∧ IsWordText "SequenceVariable" ∧ IsWordText "Single" ∧
    IsWordText "Some" ∧ IsWordText "String" ∧ IsWordText "Subjects" ∧ IsWordText "Substitution" ∧
    IsWordText "SymbolKind" ∧ IsWordText "ToString" ∧ IsWordText "Vec" := by
  unfold IsWordText
  repeat rw [String.toList_ofList]
  decide

/-- The functions and macros that modules call. -/
theorem isWordText_method :
    IsWordText "as_deref" ∧ IsWordText "as_ref" ∧ IsWordText "assert" ∧ IsWordText "assert_eq" ∧
    IsWordText "binding" ∧ IsWordText "check" ∧ IsWordText "clone" ∧ IsWordText "close" ∧
    IsWordText "collect" ∧ IsWordText "contains" ∧ IsWordText "enter" ∧ IsWordText "extended" ∧
    IsWordText "from" ∧ IsWordText "from_static" ∧ IsWordText "full" ∧ IsWordText "get" ∧
    IsWordText "get_or_init" ∧ IsWordText "get_or_insert_with" ∧ IsWordText "grow" ∧
    IsWordText "head" ∧ IsWordText "integer" ∧ IsWordText "intersects_any" ∧
    IsWordText "into_iter" ∧ IsWordText "is_empty" ∧ IsWordText "is_exhausted" ∧
    IsWordText "is_operation" ∧ IsWordText "is_symbol_of" ∧ IsWordText "item" ∧ IsWordText "map" ∧
    IsWordText "match_commutative" ∧ IsWordText "match_operand" ∧ IsWordText "new" ∧
    IsWordText "operation" ∧ IsWordText "patterns" ∧ IsWordText "push" ∧ IsWordText "remove_all" ∧
    IsWordText "renamed" ∧ IsWordText "satisfies" ∧ IsWordText "symbol_of" ∧ IsWordText "take" ∧
    IsWordText "take_if" ∧ IsWordText "take_sequence" ∧ IsWordText "to_string" ∧
    IsWordText "unwrap_or" ∧ IsWordText "vec" := by
  unfold IsWordText
  repeat rw [String.toList_ofList]
  decide

/-- Attributes, crates, fields, and the variables that have one name everywhere. -/
theorem isWordText_name :
    IsWordText "active" ∧ IsWordText "all" ∧ IsWordText "allow" ∧ IsWordText "args" ∧
    IsWordText "cfg" ∧ IsWordText "clippy" ∧ IsWordText "count" ∧ IsWordText "default" ∧
    IsWordText "expr" ∧ IsWordText "fixed" ∧ IsWordText "matchgen_expr" ∧
    IsWordText "matchgen_runtime" ∧ IsWordText "min_count" ∧ IsWordText "name" ∧
    IsWordText "operand" ∧ IsWordText "operands" ∧ IsWordText "results" ∧
    IsWordText "sequence_vars" ∧ IsWordText "std" ∧ IsWordText "subject" ∧ IsWordText "subjects" ∧
    IsWordText "subst" ∧ IsWordText "sync" ∧ IsWordText "test" ∧ IsWordText "tests" ∧
    IsWordText "unused_imports" ∧ IsWordText "unused_mut" ∧ IsWordText "unused_variables" ∧
    IsWordText "usize" ∧ IsWordText "wrap" := by
  unfold IsWordText
  repeat rw [String.toList_ofList]
  decide

attribute [simp] isWordText_keyword isWordText_type isWordText_method isWordText_name

/-- The names of kinds of operations are words. -/
@[simp] theorem isWordText_opKind (kind : OpKind) : IsWordText kind.name := by
  cases kind <;> exact isWordText_ofList (by decide)

/-- The names of kinds of symbols are words. -/
@[simp] theorem isWordText_symbolKind (kind : SymbolKind) : IsWordText kind.name := by
  cases kind <;> exact isWordText_ofList (by decide)

/-- The names of predicates are words. -/
@[simp] theorem isWordText_predicate (predicate : Predicate) : IsWordText predicate.name := by
  cases predicate <;> exact isWordText_ofList (by decide)

/-- A digit may stand in a word, though not at its beginning. -/
theorem isIdentifierRest_of_isDigit {c : Char} (h : c.isDigit = true) :
    isIdentifierRest c = true := by
  have hrange := h
  simp only [Char.isDigit, Bool.and_eq_true, decide_eq_true_eq, ge_iff_le,
    UInt32.le_iff_toNat_le] at hrange
  have hhigh : c.toNat ≤ 57 := hrange.2
  rw [isIdentifierRest, if_pos (by omega), Char.isAlphanum, h]
  simp

/-- **A number may stand behind a word.** -/
theorem isPlainWord_numbered {base : String} (h : IsPlainWord base.toList) (n : Nat) :
    IsPlainWord (base ++ toString n).toList := by
  have hdigits : ∀ c ∈ Nat.toDigits 10 n, isIdentifierRest c = true := fun c hc =>
    isIdentifierRest_of_isDigit (Nat.isDigit_of_mem_toDigits (by decide) (by decide) hc)
  have htext : (base ++ toString n).toList = base.toList ++ Nat.toDigits 10 n := by
    simp
  exact htext ▸ h.append hdigits

/-- A word with a number behind it is a word. -/
theorem isWordText_numbered {base : String} (h : IsPlainWord base.toList) (n : Nat) :
    IsWordText (base ++ toString n) :=
  (isPlainWord_numbered h n).isWord

variable {ts us body : List Token} {parts : List (List Token)} {name : String}

/-! ### Parts of source text -/

/-- What stands in front makes no difference, if it is legible. -/
@[simp] theorem legible_append_iff (h : Legible ts) : Legible (ts ++ us) ↔ Legible us := by
  refine ⟨fun happend => ?_, h.append⟩
  induction h with
  | nil => exact happend
  | word _ _ ih => cases happend with | word _ rest => exact ih rest
  | number n _ ih =>
    rw [List.cons_append] at happend
    generalize toString n = text at happend
    cases happend with
    | number _ rest => exact ih rest
    | quoted _ rest => exact ih rest
  | quoted text _ ih =>
    rw [List.cons_append] at happend
    generalize quote text = text at happend
    cases happend with
    | number _ rest => exact ih rest
    | quoted _ rest => exact ih rest
  | group _ _ _ _ ih => cases happend with | group _ _ rest => exact ih rest
  | mark _ _ ih => cases happend with | mark _ rest => exact ih rest
  | joined _ _ _ ih => cases happend with | joined _ _ rest => exact ih rest
  | static _ ih => cases happend with | static rest => exact ih rest

/-- Nothing is legible. -/
@[simp] theorem legible_nil : Legible [] := .nil

/-- A word on its own is legible if it is one. -/
@[simp] theorem legible_word : Legible (word name) ↔ IsWordText name :=
  ⟨fun h => by cases h with | word h _ => exact h, fun h => .word h .nil⟩

/-- A word in front is legible if it is one, and what follows is. -/
@[simp] theorem legible_word_append : Legible (word name ++ ts) ↔ IsWordText name ∧ Legible ts :=
  ⟨fun h => by cases h with | word h rest => exact ⟨h, rest⟩, fun ⟨h, rest⟩ => .word h rest⟩

/-- No words are no tokens. -/
@[simp] theorem words_nil : words [] = [] := rfl

/-- Words stand one after the other. -/
@[simp] theorem words_cons (name : String) (names : List String) :
    words (name :: names) = word name ++ words names := rfl

/-- A number is legible, whatever its size. -/
@[simp] theorem legible_number (n : Nat) : Legible (number n) := .number n .nil

/-- A literal is legible, whatever characters the text has: they are escaped where it must be. -/
@[simp] theorem legible_literal (text : String) : Legible (literal text) := .quoted text .nil

/-- The marks of an operator are joined, and none of them begins a comment or a lifetime. -/
theorem legible_markChars {cs : List Char} (h : ∀ c ∈ cs, c ∈ plainMarks) :
    Legible (markChars cs) := by
  induction cs with
  | nil => exact .nil
  | cons c cs ih =>
    rw [List.forall_mem_cons] at h
    cases cs with
    | nil => exact .mark h.1 .nil
    | cons d cs =>
      have hmore := ih h.2
      cases cs with
      | nil => exact .joined h.1 (h.2 d (by simp)) hmore
      | cons => exact .joined h.1 (h.2 d (by simp)) hmore

/-- The operators that modules are written with. -/
@[simp] theorem legible_mark : Legible (mark "=") ∧ Legible (mark "==") ∧ Legible (mark "=>") ∧
    Legible (mark "->") ∧ Legible (mark "::") ∧ Legible (mark "&") ∧ Legible (mark "&&") ∧
    Legible (mark "*") ∧ Legible (mark "!") ∧ Legible (mark "#") ∧ Legible (mark ".") ∧
    Legible (mark "-") ∧ Legible (mark ",") ∧ Legible (mark ";") ∧ Legible (mark ":") ∧
    Legible (mark "<") ∧ Legible (mark ">") ∧ Legible (mark "|") := by
  have hmark {operator : String} (h : operator.toList.all (· ∈ plainMarks) = true) :
      Legible (mark operator) := legible_markChars (List.all_iff_forall_prop.mp h)
  refine ⟨?_, ?_, ?_, ?_, ?_, ?_, ?_, ?_, ?_, ?_, ?_, ?_, ?_, ?_, ?_, ?_, ?_, ?_⟩ <;>
    exact hmark (by decide)

/-- A group is legible if what it holds is, and what follows. -/
theorem legible_group {delimiter : Delimiter} :
    Legible (.group delimiter ts :: us) ↔ Legible ts ∧ Legible us :=
  ⟨fun h => by cases h with | group _ inside rest => exact ⟨inside, rest⟩,
    fun ⟨inside, rest⟩ => .group delimiter inside rest⟩

/-- Parentheses in front of other tokens. -/
@[simp] theorem legible_parens_append : Legible (parens ts ++ us) ↔ Legible ts ∧ Legible us :=
  legible_group

/-- Brackets in front of other tokens. -/
@[simp] theorem legible_brackets_append : Legible (brackets ts ++ us) ↔ Legible ts ∧ Legible us :=
  legible_group

/-- Braces in front of other tokens. -/
@[simp] theorem legible_braces_append : Legible (braces ts ++ us) ↔ Legible ts ∧ Legible us :=
  legible_group

/-- Parentheses on their own. -/
@[simp] theorem legible_parens : Legible (parens ts) ↔ Legible ts := by
  simp [parens, legible_group]

/-- Brackets on their own. -/
@[simp] theorem legible_brackets : Legible (brackets ts) ↔ Legible ts := by
  simp [brackets, legible_group]

/-- Braces on their own. -/
@[simp] theorem legible_braces : Legible (braces ts) ↔ Legible ts := by
  simp [braces, legible_group]

/-- A path with one name is that name. -/
@[simp] theorem pathTokens_singleton (name : String) : pathTokens [name] = word name := rfl

/-- A path has `::` behind each name but the last. -/
@[simp] theorem pathTokens_cons (name next : String) (names : List String) :
    pathTokens (name :: next :: names) =
      word name ++ (mark "::" ++ pathTokens (next :: names)) := by
  simp [pathTokens, Path.segmentTokens, word]

attribute [local simp] separated commas callOf callPath method ref refMut ended letTokens ifTokens
  typed generic closure thunk vecOf

/-- Any number of parts between commas. -/
theorem legible_separated {comma : Bool} (h : ∀ part ∈ parts, Legible part) :
    Legible (separated comma parts) := by
  induction parts with
  | nil => exact .nil
  | cons part parts ih =>
    rw [List.forall_mem_cons] at h
    cases parts with
    | nil => cases comma <;> simp [h.1]
    | cons next parts => simpa [h.1] using ih h.2

/-- Legible tokens one after the other, without anything between them. -/
theorem legible_flatMap {α : Type} {f : α → List Token} {as : List α}
    (h : ∀ a ∈ as, Legible (f a)) : Legible (as.flatMap f) := by
  induction as with
  | nil => exact .nil
  | cons a as ih =>
    rw [List.forall_mem_cons] at h
    exact h.1.append (ih h.2)

/-- The numbers of patterns in a slice. -/
@[simp] theorem legible_indexSlice (indices : List Nat) : Legible (indexSlice indices) := by
  have hnumbers : Legible (separated false (indices.map number)) :=
    legible_separated (by simp)
  simp [indexSlice, hnumbers]

/-- A value that may be missing. -/
theorem legible_optionTokens {value : Option (List Token)} (h : ∀ tokens ∈ value, Legible tokens) :
    Legible (optionTokens value) := by
  cases value with
  | none => simp [optionTokens]
  | some tokens => simp [optionTokens, h tokens rfl]

/-- The two truth values. -/
@[simp] theorem legible_boolTokens (b : Bool) : Legible (boolTokens b) := by
  cases b <;> simp [boolTokens]

/-! ### Constructors -/

/-- A head that is built in place. -/
@[simp] theorem legible_headTokens (head : Head) : Legible (headTokens head) := by
  simp [headTokens]

mutual

/-- **The calls that build a term** are legible, if the heads that they refer to have names. -/
theorem legible_constructor (c : Constructor) (h : ∀ name ∈ c.headNames, IsWordText name) :
    Legible c.tokens := by
  cases c with
  | integer negative magnitude => cases negative <;> simp [Constructor.tokens]
  | symbol s => simp [Constructor.tokens]
  | operation source args =>
    have hhead : Legible source.tokens := by
      cases source with
      | shared name => simp [HeadSource.tokens, h name List.mem_cons_self]
      | inPlace head => exact legible_headTokens head
    have hargs : Legible (separated false (Constructor.tokensOfAll args)) :=
      legible_separated (legible_constructors args fun name hname => h name <| by
        cases source with
        | shared => exact List.mem_cons_of_mem _ hname
        | inPlace => exact hname)
    simp [Constructor.tokens, hhead, hargs]
termination_by structural c

/-- The calls that build terms are legible, if the heads that they refer to have names. -/
theorem legible_constructors (cs : List Constructor)
    (h : ∀ name ∈ Constructor.headNamesAll cs, IsWordText name) :
    ∀ part ∈ Constructor.tokensOfAll cs, Legible part := by
  cases cs with
  | nil => exact fun _ hpart => absurd hpart List.not_mem_nil
  | cons c cs =>
    rw [Constructor.headNamesAll, List.forall_mem_append] at h
    exact List.forall_mem_cons.mpr ⟨legible_constructor c h.1, legible_constructors cs h.2⟩
termination_by structural cs

end

mutual

/-- With every head in place no static item is referred to. -/
theorem headNames_ofTerm (t : Term) : (Constructor.ofTerm t).headNames = [] := by
  cases t with
  | integer value => rfl
  | symbol s => rfl
  | node head args =>
    rw [Constructor.ofTerm, Constructor.headNames, headNames_ofTerms]
termination_by structural t

/-- With every head in place no static item is referred to in a list. -/
theorem headNames_ofTerms (ts : List Term) :
    Constructor.headNamesAll (Constructor.ofTerms ts) = [] := by
  cases ts with
  | nil => rfl
  | cons t ts =>
    rw [Constructor.ofTerms, Constructor.headNamesAll, headNames_ofTerm, headNames_ofTerms]
    rfl
termination_by structural ts

end

/-- The calls for a term, with every head in place. -/
theorem legible_ofTerm (t : Term) : Legible (Constructor.ofTerm t).tokens :=
  legible_constructor _ (by simp [headNames_ofTerm])

/-! ### Functions and items -/

/-- The type of a match. -/
@[simp] theorem legible_matchType : Legible matchType := by
  simp [matchType]

/-- The type of the matches that the public function gives. -/
@[simp] theorem legible_matchesType : Legible matchesType := by
  simp [matchesType]

/-- The type of a shared term. -/
@[simp] theorem legible_termType : Legible termType := by
  simp [termType]

/-- A reference to a static item is legible if the item has a word for its name. -/
@[simp] theorem legible_sharedExpression :
    Legible (sharedExpression name) ↔ IsWordText name := by
  simp [sharedExpression]

/-- The set of the patterns that are active on the way. -/
@[simp] theorem legible_activeTokens (patterns : List Nat) : Legible (activeTokens patterns) := by
  simp [activeTokens]

/-- The attributes and imports in front of a module. -/
@[simp] theorem legible_preamble : Legible Module.preamble := by
  simp [Module.preamble, useTokens]

/-- A sequence variable, whose default is a static item. -/
theorem legible_sequenceEntry {entry : SequenceEntry}
    (h : ∀ name ∈ entry.default, IsWordText name) : Legible entry.tokens := by
  have hname : Legible (optionTokens
      (entry.name.map fun name => callPath ["String", "from"] [literal name])) :=
    legible_optionTokens (by simp)
  have hdefault : Legible (optionTokens (entry.default.map sharedExpression)) :=
    legible_optionTokens (by simpa using h)
  unfold SequenceEntry.tokens
  generalize optionTokens (entry.name.map fun name => callPath ["String", "from"] [literal name]) =
    tokens at hname ⊢
  simp [recordTokens, hname, hdefault]

/-- A row of the table of a matcher: operands, and sequence variables with their defaults. -/
theorem legible_patternEntry {entry : PatternEntry}
    (h : ∀ var ∈ entry.sequenceVars, ∀ name ∈ var.default, IsWordText name) :
    Legible entry.tokens := by
  have hoperands : Legible (separated false (entry.operands.map number)) :=
    legible_separated (by simp)
  have hvars : Legible (separated false (entry.sequenceVars.map SequenceEntry.tokens)) :=
    legible_separated (by simpa using fun var hvar => legible_sequenceEntry (h var hvar))
  simp [PatternEntry.tokens, recordTokens, hoperands, hvars]

/-- The function of a state. -/
theorem legible_stateFunction {function : StateFunction} (h : IsWordText function.name)
    (hbody : Legible (Statement.tokensOfAll function.body)) : Legible function.tokens := by
  simp [StateFunction.tokens, functionTokens, h, hbody]

/-- **The functions of a net** are legible, if those of its states are. -/
theorem legible_matcherFunction {function : MatcherFunction} (h : IsWordText function.name)
    (hroot : IsWordText function.root) (hstates : ∀ state ∈ function.states, Legible state.tokens) :
    Legible function.tokens := by
  have hall := legible_flatMap hstates
  cases hpublic : function.isPublic <;>
    simp [MatcherFunction.tokens, functionTokens, letMut, hpublic, h, hroot, hall]

/-- A reference that lives as long as the program; its lifetime is the only one in a module. -/
theorem legible_staticSelf : Legible staticSelf := by
  simp only [staticSelf, legible_append_iff legible_mark.2.2.2.2.2.1, List.append_assoc]
  exact .static (.word (by decide) (.word (by decide) .nil))

/-- **A matcher type** with its table and its functions. -/
theorem legible_matcherType {type : MatcherType} (h : IsWordText type.name)
    (hhead : IsWordText type.head) (htable : ∀ entry ∈ type.table, Legible entry.tokens)
    (hname : IsWordText type.function.name) (hfunction : Legible type.function.tokens) :
    Legible type.tokens := by
  have hentries : Legible (separated false (type.table.map PatternEntry.tokens)) :=
    legible_separated (by simpa using htable)
  simp [MatcherType.tokens, functionTokens, refSelf, h, hhead, hname, hfunction, legible_staticSelf,
    hentries]

end TermNet.Code
