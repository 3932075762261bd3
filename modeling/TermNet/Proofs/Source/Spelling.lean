import TermNet.Source.Expression
import TermNet.Proofs.Source.Lexing

namespace TermNet.Source

/-!
# Expressions as terms and patterns are written

Terms and patterns are printed as expressions made of numbers, names, calls, sums and products.
The characters, the tokens and the expression of such a text are put together in the same way.

* `Spelling` — a text with its tokens and the expression that they are;
* `Spelling.name`, `Spelling.call`, `Spelling.plus`, … — the ways to put them together;
* `Spelled` — spellings that a reader groups as they are: what binds more loosely stands in
  parentheses;
* `Spelled.reads` — the characters of a spelling are read as its tokens.
-/

/-- A text, the tokens that it is made of, and the expression that it stands for. -/
structure Spelling where
  chars : List Char
  tokens : List Token
  expression : Expression

/-- The sign of sums. -/
def plusOperator : BinaryOperator := ⟨"+", .sum⟩

/-- The sign of products. -/
def timesOperator : BinaryOperator := ⟨"*", .product⟩

namespace Spelling

/-- A number, with its digits. -/
def number (n : Nat) : Spelling :=
  ⟨Nat.toDigits 10 n, [.literal (toString n)], .number (toString n)⟩

/-- A minus sign in front of an operand. -/
def negated (s : Spelling) : Spelling :=
  ⟨'-' :: s.chars, .mark '-' (startsMark s.chars) :: s.tokens, .negated s.expression⟩

/-- The underscore alone. -/
def blank : Spelling := ⟨['_'], [.word "_"], .blank⟩

/-- A path of one name. -/
def name (w : String) : Spelling := ⟨w.toList, [.word w], .path { segments := [⟨w, []⟩] }⟩

/-- A path of two names. -/
def qualified (qualifier w : String) : Spelling :=
  ⟨qualifier.toList ++ ':' :: ':' :: w.toList, .word qualifier :: (mark "::" ++ [.word w]),
    .path { segments := [⟨qualifier, []⟩, ⟨w, []⟩] }⟩

/-- An expression in parentheses. -/
def paren (s : Spelling) : Spelling :=
  ⟨'(' :: (s.chars ++ [')']), [.group .parenthesis s.tokens], .paren s.expression⟩

/-- The texts of arguments, with a comma and a blank between them. -/
def listChars (args : List Spelling) : List Char := [',', ' '].intercalate (args.map chars)

/-- The tokens of arguments. -/
def listTokens (args : List Spelling) : List Token := separated false (args.map tokens)

/-- A call, with commas and blanks between the arguments. -/
def call (f : Spelling) (args : List Spelling) : Spelling :=
  ⟨f.chars ++ '(' :: (listChars args ++ [')']), f.tokens ++ [.group .parenthesis (listTokens args)],
    .call f.expression (args.map expression) false⟩

/-- A sum, with blanks around its sign. -/
def plus (l r : Spelling) : Spelling :=
  ⟨l.chars ++ ' ' :: '+' :: ' ' :: r.chars, l.tokens ++ mark "+" ++ r.tokens,
    .binary plusOperator l.expression r.expression⟩

/-- A product, whose sign is joined to a minus sign behind it. -/
def times (l r : Spelling) : Spelling :=
  ⟨l.chars ++ '*' :: r.chars, l.tokens ++ .mark '*' (startsMark r.chars) :: r.tokens,
    .binary timesOperator l.expression r.expression⟩

end Spelling

open Spelling

/-! ### Grouping -/

/-- Spellings of paths: a name, or two of them joined by `::`. -/
inductive SpelledPath : Spelling → Prop
  | name {w : String} (h : IsName w) : SpelledPath (name w)
  | qualified {qualifier w : String} (hqualifier : IsName qualifier) (h : IsSegment w) :
    SpelledPath (qualified qualifier w)

/-- Spellings that bind at least as tightly as a level: operands, products of operands, and sums
    of products, each from left to right. -/
inductive Spelled : Level → Spelling → Prop
  | number (n : Nat) : Spelled .cast (number n)
  | negative (n : Nat) : Spelled .cast (negated (number n))
  | blank : Spelled .cast blank
  | path {s : Spelling} (h : SpelledPath s) : Spelled .cast s
  | call {f : Spelling} {args : List Spelling} (hf : SpelledPath f)
    (hargs : ∀ s ∈ args, Spelled .sum s) : Spelled .cast (call f args)
  | paren {s : Spelling} (h : Spelled .sum s) : Spelled .cast (paren s)
  | product {first : Spelling} {rest : List Spelling}
    (h : ∀ s ∈ first :: rest, Spelled .cast s) : Spelled .product (rest.foldl times first)
  | sum {first : Spelling} {rest : List Spelling}
    (h : ∀ s ∈ first :: rest, Spelled .product s) : Spelled .sum (rest.foldl plus first)

/-- An operand is a product of one factor. -/
theorem Spelled.toProduct {s : Spelling} (h : Spelled .cast s) : Spelled .product s :=
  @Spelled.product s [] (by simpa using h)

/-- A product is a sum of one summand. -/
theorem Spelled.toSum {s : Spelling} (h : Spelled .product s) : Spelled .sum s :=
  @Spelled.sum s [] (by simpa using h)

/-- An operand is a sum of one product of one factor. -/
theorem Spelled.castToSum {s : Spelling} (h : Spelled .cast s) : Spelled .sum s :=
  h.toProduct.toSum

/-- A call with two arguments. -/
theorem Spelled.call_pair {f a b : Spelling} (hf : SpelledPath f) (ha : Spelled .sum a)
    (hb : Spelled .sum b) : Spelled .cast (Spelling.call f [a, b]) :=
  .call hf (by simp [ha, hb])

/-! ### Characters and tokens -/

/-- A word begins with a token, its own. -/
theorem solid_word {w : List Char} (h : IsWord w) : Solid w := by
  obtain ⟨c, rest, hw, hc⟩ := h.exists_cons
  exact ⟨c, rest, hw, (isIdentifierStart_solid hc).1⟩

/-- A number begins with a token, its own. -/
theorem solid_number (n : Nat) : Solid (Nat.toDigits 10 n) := by
  cases hdigits : Nat.toDigits 10 n with
  | nil => exact absurd hdigits Nat.toDigits_ne_nil
  | cons c rest =>
    have hc : c.isDigit = true :=
      Nat.isDigit_of_mem_toDigits (b := 10) (n := n) (by decide) (by decide)
        (hdigits ▸ List.mem_cons_self)
    exact ⟨c, rest, rfl, (isDigit_solid hc).1⟩

/-- A text with a token in front is not empty. -/
theorem Solid.ne_nil {cs : List Char} (h : Solid cs) : cs ≠ [] := by
  obtain ⟨c, rest, rfl, -⟩ := h
  exact List.cons_ne_nil c rest

namespace Reads

variable {cs ds : List Char} {ts us : List Token}

/-- A sign between two texts. -/
theorem between {c : Char} (hc : c ∈ signs) (hsep : c ∈ separators) (h : Reads cs ts)
    (hds : Solid ds) (h' : Reads ds us) :
    Reads (cs ++ c :: ds) (ts ++ .mark c (startsMark ds) :: us) :=
  h.append (separated_cons hsep) (h'.sign hc hds.ne_nil hds.head?_ne)

/-- A sign with a blank behind it. -/
theorem sign_blank {c : Char} (hc : c ∈ signs) (h : Reads ds us) :
    Reads (c :: ' ' :: ds) (.mark c false :: us) :=
  h.blank.sign hc (by simp) (by simp)

end Reads

/-- A path is read as its words with `::` between them. -/
theorem SpelledPath.reads {s : Spelling} (h : SpelledPath s) :
    Solid s.chars ∧ Reads s.chars s.tokens := by
  cases h with
  | name h => exact ⟨solid_word h.1, .word h.1⟩
  | @qualified qualifier w hqualifier h =>
    have hsolid : Solid (':' :: w.toList) := ⟨':', _, rfl, by decide⟩
    have hmark : startsMark w.toList = false := by
      obtain ⟨c, rest, hw, hc⟩ := h.1.exists_cons
      rw [hw, startsMark_eq_false (isIdentifierStart_solid hc).2.1]
    have hright : Reads (':' :: w.toList) (.mark ':' false :: [.word w]) :=
      hmark ▸ (Reads.word h.1).sign (by decide) (solid_word h.1).ne_nil (solid_word h.1).head?_ne
    exact ⟨(solid_word hqualifier.1).append _,
      (Reads.word hqualifier.1).between (by decide) (by decide) hsolid hright⟩

/-- Arguments one after the other. -/
theorem reads_list {s : Spelling} {args : List Spelling}
    (h : ∀ a ∈ s :: args, Solid a.chars ∧ Reads a.chars a.tokens) :
    Solid (listChars (s :: args)) ∧ Reads (listChars (s :: args)) (listTokens (s :: args)) := by
  obtain ⟨hsolid, hs⟩ := h s List.mem_cons_self
  induction args generalizing s with
  | nil =>
    rw [show listChars [s] = s.chars from List.intercalate_singleton]
    exact ⟨hsolid, hs⟩
  | cons next args ih =>
    have htail := fun a ha => h a (List.mem_cons_of_mem s ha)
    obtain ⟨hnext, hrest⟩ := ih htail (htail next List.mem_cons_self).1
      (htail next List.mem_cons_self).2
    have htext : listChars (s :: next :: args) =
        s.chars ++ ',' :: ' ' :: listChars (next :: args) := by
      simp [listChars, List.intercalate_cons_cons]
    have htokens : listTokens (s :: next :: args) =
        s.tokens ++ .mark ',' false :: listTokens (next :: args) := by
      simp [listTokens, separated, mark, markChars]
    rw [htext, htokens]
    exact ⟨hsolid.append _,
      hs.append (separated_cons (by decide)) (hrest.sign_blank (by decide))⟩

/-- A product is read with its sign between the factors. -/
theorem reads_times {l r : Spelling} (hl : Solid l.chars ∧ Reads l.chars l.tokens)
    (hr : Solid r.chars ∧ Reads r.chars r.tokens) :
    Solid (times l r).chars ∧ Reads (times l r).chars (times l r).tokens :=
  ⟨hl.1.append _, hl.2.between (by decide) (by decide) hr.1 hr.2⟩

/-- A sum is read with its sign between the summands, whatever blanks are around it. -/
theorem reads_plus {l r : Spelling} (hl : Solid l.chars ∧ Reads l.chars l.tokens)
    (hr : Solid r.chars ∧ Reads r.chars r.tokens) :
    Solid (plus l r).chars ∧ Reads (plus l r).chars (plus l r).tokens := by
  have hsign := hr.2.sign_blank (c := '+') (by decide)
  have htokens : (plus l r).tokens = l.tokens ++ .mark '+' false :: r.tokens :=
    List.append_assoc _ _ _
  rw [htokens]
  exact ⟨hl.1.append _, hl.2.append (separated_cons (by decide)) hsign.blank⟩

/-- A call is read as what is called with a group behind it. -/
theorem reads_call {f : Spelling} (hf : Solid f.chars ∧ Reads f.chars f.tokens)
    {args : List Spelling} (h : ∀ a ∈ args, Solid a.chars ∧ Reads a.chars a.tokens) :
    Solid (call f args).chars ∧ Reads (call f args).chars (call f args).tokens := by
  refine ⟨hf.1.append _, hf.2.append (separated_cons (by decide)) ?_⟩
  cases args with
  | nil => exact Reads.nil.group nofun
  | cons s args => exact (reads_list h).2.group (reads_list h).1.head?_ne

/-- An expression in parentheses is read as a group. -/
theorem reads_paren {s : Spelling} (h : Solid s.chars ∧ Reads s.chars s.tokens) :
    Solid (paren s).chars ∧ Reads (paren s).chars (paren s).tokens :=
  ⟨⟨'(', _, rfl, by decide⟩, h.2.group h.1.head?_ne⟩

/-- Operands one after the other. -/
theorem reads_foldl {operation : Spelling → Spelling → Spelling}
    (hoperation : ∀ l r, Solid l.chars ∧ Reads l.chars l.tokens →
      Solid r.chars ∧ Reads r.chars r.tokens →
      Solid (operation l r).chars ∧ Reads (operation l r).chars (operation l r).tokens)
    {first : Spelling} {rest : List Spelling}
    (h : ∀ s ∈ first :: rest, Solid s.chars ∧ Reads s.chars s.tokens) :
    Solid (rest.foldl operation first).chars ∧
      Reads (rest.foldl operation first).chars (rest.foldl operation first).tokens := by
  induction rest generalizing first with
  | nil => exact h first List.mem_cons_self
  | cons next rest ih =>
    refine ih fun s hs => ?_
    rcases List.mem_cons.mp hs with rfl | hs
    · exact hoperation first next (h first (by simp)) (h next (by simp))
    · exact h s (List.mem_cons_of_mem _ (List.mem_cons_of_mem _ hs))

/-- **The characters of a spelling are read as its tokens.** -/
theorem Spelled.reads {level : Level} {s : Spelling} (h : Spelled level s) :
    Solid s.chars ∧ Reads s.chars s.tokens := by
  induction h with
  | number n => exact ⟨solid_number n, .number n⟩
  | negative n =>
    refine ⟨⟨'-', _, rfl, by decide⟩, (Reads.number n).sign (by decide) ?_ ?_⟩
    · exact (solid_number n).ne_nil
    · exact (solid_number n).head?_ne
  | blank => exact ⟨⟨'_', [], rfl, by decide⟩, .word (w := "_") (by decide)⟩
  | path h => exact h.reads
  | call hf hargs ih => exact reads_call hf.reads ih
  | paren h ih => exact reads_paren ih
  | product h ih => exact reads_foldl (fun _ _ => reads_times) ih
  | sum h ih => exact reads_foldl (fun _ _ => reads_plus) ih

end TermNet.Source
