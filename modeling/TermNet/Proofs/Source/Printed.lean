import Mathlib.Data.List.TakeWhile
import Mathlib.Data.Nat.Digits.Defs
import TermNet.Source.Token
import TermNet.Proofs.Source.Blanks
import TermNet.Proofs.Source.Lexing

namespace TermNet.Source

open TermNet.Text

/-!
# Printed tokens are read back

A list of tokens is printed with blanks between them.  It is read as these tokens if its words are
words of the language, its literals are printed numbers and strings, and only a mark that another
mark follows is joined to what follows it.  Every character of a string is printed as a piece of
its literal that is scanned as it is, whatever follows: as itself, or as an escape.

* `scanBraced?_hexadecimal` — the number of a character, in braces;
* `IsPiece`, `isPiece_escapeChar` — what is scanned as it is between quotation marks, and what a
  character is printed as;
* `lexemes?_quote` — a printed literal is one token;
* `Legible` — lists of tokens that are read back;
* `Prints` — a text is read as some tokens, wherever a blank or a closing bracket follows;
* `Legible.prints` — legible tokens are read back from their text;
* `Legible.lexemes?_append` — and so they are in front of another line.
-/

/-! ### Numbers of characters -/

/-- The value of a digit in base 16 is read off its character. -/
theorem digitValue?_digitChar : ∀ n < 16, digitValue? n.digitChar = some n := by decide

/-- The digits are not the marks between or behind them. -/
theorem digitChar_ne_mark : ∀ n < 16, n.digitChar ≠ '_' ∧ n.digitChar ≠ '\x7d' := by decide

/-- The value of digits in base 16, behind those that have been read. -/
def hexValue (value : Nat) (ds : List Nat) : Nat := ds.foldl (fun value d => value * 16 + d) value

/-- The digits of a number in base 16, the first one first. -/
theorem exists_hexDigits (n : Nat) : ∃ ds : List Nat, Nat.toDigits 16 n = ds.map Nat.digitChar ∧
    (∀ d ∈ ds, d < 16) ∧ hexValue 0 ds = n := by
  induction n using Nat.strongRecOn with
  | ind n ih =>
    by_cases hlt : n < 16
    · exact ⟨[n], Nat.toDigits_of_lt_base hlt, by simpa using hlt, by simp [hexValue]⟩
    · obtain ⟨ds, hds, hdigits, hvalue⟩ := ih (n / 16) (by omega)
      refine ⟨ds ++ [n % 16], ?_, ?_, ?_⟩
      · rw [Nat.toDigits_of_base_le (by decide) (by omega), hds]
        simp
      · simpa [or_imp, forall_and] using ⟨hdigits, Nat.mod_lt n (by decide)⟩
      · have hlast : hexValue 0 (ds ++ [n % 16]) = hexValue 0 ds * 16 + n % 16 := by
          rw [hexValue, List.foldl_append]
          rfl
        rw [hlast, hvalue]
        omega

/-- Digits in braces are scanned to the closing brace, if there are at most six of them and their
    value is that of a character. -/
theorem scanBraced?_digits {ds : List Nat} (hdigits : ∀ d ∈ ds, d < 16) (rest : List Char)
    {count value : Nat} (hcount : count + ds.length ≤ 6) (hpos : 0 < count + ds.length)
    (hvalid : (hexValue value ds).isValidChar) :
    scanBraced? count value (ds.map Nat.digitChar ++ '\x7d' :: rest) =
      some (ds.map Nat.digitChar ++ ['\x7d'], rest) := by
  induction ds generalizing count value with
  | nil =>
    rw [List.length_nil, Nat.add_zero] at hpos
    have hend : value.isValidChar := hvalid
    simp [scanBraced?, hpos, hend]
  | cons d ds ih =>
    rw [List.forall_mem_cons] at hdigits
    rw [List.length_cons] at hcount
    obtain ⟨hgap, hclosing⟩ := digitChar_ne_mark d hdigits.1
    have hmore : scanBraced? (count + 1) (value * 16 + d) (ds.map Nat.digitChar ++ '\x7d' :: rest) =
        some (ds.map Nat.digitChar ++ ['\x7d'], rest) := ih hdigits.2 (by omega) (by omega) hvalid
    rw [List.map_cons, List.cons_append, scanBraced?]
    simp [hgap, hclosing, digitValue?_digitChar d hdigits.1, show count < 6 by omega, hmore]

/-- **The number of a character, in braces,** is scanned as it is printed. -/
theorem scanBraced?_hexadecimal (c : Char) (rest : List Char) :
    scanBraced? 0 0 ((hexadecimal c.toNat).toList ++ '\x7d' :: rest) =
      some ((hexadecimal c.toNat).toList ++ ['\x7d'], rest) := by
  obtain ⟨ds, hds, hdigits, hvalue⟩ := exists_hexDigits c.toNat
  have hsmall : c.toNat < 16 ^ 6 := by
    rcases c.valid with h | h
    · exact Nat.lt_of_lt_of_le h (by decide)
    · exact Nat.lt_of_lt_of_le h.2 (by decide)
  have hlength : ds.length ≤ 6 := by
    have h := (Nat.length_toDigits_le_iff (b := 16) (by decide) (k := 6) (by decide)).mpr hsmall
    rwa [hds, List.length_map] at h
  have hpos : 0 < ds.length := by
    have h := Nat.length_toDigits_pos (b := 16) (n := c.toNat)
    rwa [hds, List.length_map] at h
  rw [hexadecimal, String.toList_ofList, hds]
  exact scanBraced?_digits hdigits rest (by omega) (by omega) (hvalue ▸ c.valid)

/-! ### Pieces of literals -/

/-- The characters are scanned as they are between quotation marks, whatever follows. -/
def IsPiece (piece : List Char) : Prop :=
  ∀ rest, scanStringRest? .text (piece ++ rest) =
    (scanStringRest? .text rest).map fun (taken, after) => (piece ++ taken, after)

/-- No characters are scanned as they are. -/
theorem isPiece_nil : IsPiece [] := fun rest => by
  simp

/-- Two pieces, one after the other. -/
theorem IsPiece.append {piece more : List Char} (h : IsPiece piece) (h' : IsPiece more) :
    IsPiece (piece ++ more) := by
  intro rest
  rw [List.append_assoc, h, h']
  cases scanStringRest? .text rest <;> simp

/-- A character that needs no escape. -/
theorem isPiece_plain {c : Char} (hquote : c ≠ '"') (hslash : c ≠ '\\') (hreturn : c ≠ '\r') :
    IsPiece [c] := by
  intro rest
  rw [List.singleton_append, scanStringRest?]
  · simp [hreturn, mayStand]
  all_goals simp_all

/-- An escape that does not stand for a line break. -/
theorem isPiece_escape {escape : List Char} (hline : ∀ c ∈ escape.head?, c ≠ '\r' ∧ c ≠ '\n')
    (hne : escape ≠ []) (h : ∀ rest, scanEscape? .text (escape ++ rest) = some (escape, rest)) :
    IsPiece ('\\' :: escape) := by
  intro rest
  have hbreak : scanLineBreak? (escape ++ rest) = none := by
    cases escape with
    | nil => exact absurd rfl hne
    | cons c escape =>
      obtain ⟨hreturn, hfeed⟩ := hline c rfl
      unfold scanLineBreak?
      split <;> simp_all
  rw [List.cons_append, scanStringRest?, hbreak, h rest]
  simp

/-- An escape of one character. -/
theorem isPiece_letter {c : Char} (h : c ∈ ['t', 'r', 'n', '\\', '"', '0']) :
    IsPiece ['\\', c] := by
  refine isPiece_escape ?_ (by simp) fun rest => ?_
  · have hall : ∀ c ∈ ['t', 'r', 'n', '\\', '"', '0'], c ≠ '\r' ∧ c ≠ '\n' :=
      List.all_iff_forall_prop.mp (by decide)
    simpa using hall c h
  · simp only [List.mem_cons, List.not_mem_nil, or_false] at h
    rcases h with rfl | rfl | rfl | rfl | rfl | rfl <;> rfl

/-- A character that is printed by its number is a piece. -/
theorem isPiece_escapeByNumber (c : Char) : IsPiece (escapeByNumber c).toList := by
  have htext : (escapeByNumber c).toList =
      '\\' :: 'u' :: '\x7b' :: ((hexadecimal c.toNat).toList ++ ['\x7d']) := by
    simp [escapeByNumber]
  rw [htext]
  refine isPiece_escape (by simp) (by simp) fun rest => ?_
  have hnumber := scanBraced?_hexadecimal c rest
  simp only [List.cons_append, List.append_assoc, List.nil_append]
  rw [scanEscape?, hnumber]
  simp

/-- **What a character is printed as.** -/
theorem isPiece_escapeChar (c : Char) : IsPiece (escapeChar c).toList := by
  unfold escapeChar
  split
  · exact isPiece_letter (c := 't') (by simp)
  rename_i htab
  split
  · exact isPiece_letter (c := 'r') (by simp)
  rename_i hreturn
  split
  · exact isPiece_letter (c := 'n') (by simp)
  split
  · exact isPiece_letter (c := '\\') (by simp)
  rename_i hslash
  split
  · exact isPiece_letter (c := '"') (by simp)
  rename_i hquote
  split
  · exact isPiece_escapeByNumber c
  · have htext : c.toString.toList = [c] := by simp
    exact htext ▸ isPiece_plain hquote hslash hreturn

/-- What the characters of a string are printed as is a piece. -/
theorem isPiece_quoteChars (cs : List Char) : IsPiece (quoteChars cs).toList := by
  induction cs with
  | nil => exact isPiece_nil
  | cons c cs ih =>
    rw [quoteChars, String.toList_append]
    refine IsPiece.append ?_ ih
    split
    · exact isPiece_escapeChar c
    split
    · have hzero : IsPiece ('\\' :: ['x', '0', '0']) :=
        isPiece_escape (by simp) (by simp) fun rest => rfl
      exact hzero
    · exact isPiece_letter (c := '0') (by simp)

/-! ### Literals -/

/-- **A printed string** is scanned as it is, from one quotation mark to the other. -/
theorem scanText?_quote (text : String) {rest : List Char} (hrest : Apart rest) :
    scanText? ((quote text).toList ++ rest) = some ((quote text).toList, rest) := by
  have htext : (quote text).toList = '"' :: ((quoteChars text.toList).toList ++ ['"']) := by
    simp [quote]
  have hscan : scanStringRest? .text ((quoteChars text.toList).toList ++ '"' :: rest) =
      some ((quoteChars text.toList).toList ++ ['"'], rest) := by
    rw [isPiece_quoteChars text.toList ('"' :: rest), scanStringRest?]
    rfl
  -- A literal may have a suffix, but what follows here does not begin an identifier.
  have hsuffix : ∀ taken, withSuffix taken rest = (taken, rest) := by
    intro taken
    cases rest with
    | nil => rfl
    | cons c rest =>
      have hstart : isIdentifierStart c = false := by
        rw [← Bool.not_eq_true]
        intro hstart
        have hend := (hrest c rfl).1
        rw [isIdentifierRest_of_start hstart] at hend
        cases hend
      simp [withSuffix, scanPlainWord?, hstart]
  rw [htext, List.cons_append, List.append_assoc, List.singleton_append]
  simp [scanText?, scanQuoted?, hscan, hsuffix]

/-- **A printed literal is one token.** -/
theorem lexemes?_quote (text : String) {rest : List Char} (hrest : Apart rest) :
    lexemes? ((quote text).toList ++ rest) =
      (lexemes? rest).map ([.token (.literal (quote text))] ++ ·) := by
  have hscan := scanText?_quote text hrest
  have htext : (quote text).toList = '"' :: ((quoteChars text.toList).toList ++ ['"']) := by
    simp [quote]
  have hsolid : IsSolid '"' := by decide
  have hback : String.ofList ('"' :: ((quoteChars text.toList).toList ++ ['"'])) = quote text := by
    rw [← htext, String.ofList_toList]
  rw [htext, List.cons_append] at hscan ⊢
  refine lexemes?_solid hsolid ?_ (by simp; omega)
  unfold next?
  rw [scanDocumentation?_solid hsolid, hscan]
  simp [scanUnreadable?_eq_none (c := '"') (by simp), bracket?, hback]

/-! ### Lists of tokens -/

/-- **Tokens that are read back when they are printed.** -/
inductive Legible : List Token → Prop
  | nil : Legible []
  | word {w : String} {ts : List Token} (h : IsWord w.toList) (rest : Legible ts) :
    Legible (.word w :: ts)
  | number (n : Nat) {ts : List Token} (rest : Legible ts) : Legible (.literal (toString n) :: ts)
  | quoted (text : String) {ts : List Token} (rest : Legible ts) :
    Legible (.literal (Text.quote text) :: ts)
  | group (delimiter : Delimiter) {inner ts : List Token} (inside : Legible inner)
    (rest : Legible ts) : Legible (.group delimiter inner :: ts)
  | mark {c : Char} {ts : List Token} (h : c ∈ plainMarks) (rest : Legible ts) :
    Legible (.mark c false :: ts)
  | joined {c d : Char} {more : Bool} {ts : List Token} (h : c ∈ plainMarks) (hd : d ∈ plainMarks)
    (rest : Legible (.mark d more :: ts)) : Legible (.mark c true :: .mark d more :: ts)
  /-- The lifetime of what is never dropped. -/
  | static {ts : List Token} (rest : Legible (.word "static" :: ts)) :
    Legible (.mark '\'' true :: .word "static" :: ts)

/-- Legible tokens, one list after the other. -/
theorem Legible.append {ts us : List Token} (h : Legible ts) (h' : Legible us) :
    Legible (ts ++ us) := by
  induction h with
  | nil => exact h'
  | word h _ ih => exact .word h ih
  | number n _ ih => exact .number n ih
  | quoted text _ ih => exact .quoted text ih
  | group delimiter inside _ _ ih => exact .group delimiter inside ih
  | mark h _ ih => exact .mark h ih
  | joined h hd _ ih => exact .joined h hd ih
  | static _ ih => exact .static ih

/-! ### Texts of tokens -/

/-- The text of a token. -/
def Token.chars (t : Token) : List Char := t.pieces.flatMap String.toList

/-- The text of tokens. -/
def charsOf (ts : List Token) : List Char := (printTokens ts).toList

/-- No tokens have no text. -/
theorem charsOf_nil : charsOf [] = [] := rfl

/-- A blank stands behind a token, if others follow and it is not joined to them. -/
theorem charsOf_cons (t : Token) (ts : List Token) :
    charsOf (t :: ts) =
      t.chars ++ ((if ts.isEmpty || t.isJoined then [] else [' ']) ++ charsOf ts) := by
  rw [charsOf, printTokens, piecesOf, String.toList_join, List.flatMap_append, List.flatMap_append,
    gap]
  simp only [charsOf, printTokens, String.toList_join, Token.chars]
  split <;> rfl

/-- Parentheses stand close around what they hold. -/
theorem chars_parens (ts : List Token) :
    (Token.group .parenthesis ts).chars = '(' :: (charsOf ts ++ [')']) := by
  simp [Token.chars, Token.pieces, charsOf, printTokens]

/-- Brackets stand close around what they hold. -/
theorem chars_brackets (ts : List Token) :
    (Token.group .bracket ts).chars = '[' :: (charsOf ts ++ [']']) := by
  simp [Token.chars, Token.pieces, charsOf, printTokens]

/-- Braces have blanks around what they hold. -/
theorem chars_braces (ts : List Token) : (Token.group .brace ts).chars =
    '\x7b' :: ' ' :: (charsOf ts ++ ((if ts.isEmpty then [] else [' ']) ++ ['\x7d'])) := by
  cases ts <;> simp [Token.chars, Token.pieces, charsOf, printTokens, piecesOf]

/-- No comment is in front of legible tokens. -/
theorem Legible.head?_ne {ts : List Token} (h : Legible ts) : (charsOf ts).head? ≠ some '/' := by
  have hspecial : '/' ∈ specials := by decide
  cases h with
  | nil => simp [charsOf_nil]
  | @word w ts h _ =>
    obtain ⟨c, more, hw, hc⟩ := h.exists_cons
    have hne : c ≠ '/' := fun heq => (isIdentifierStart_solid hc).2.1 (heq ▸ hspecial)
    simpa [charsOf_cons, Token.chars, Token.pieces, hw] using hne
  | @number n ts _ =>
    cases hdigits : Nat.toDigits 10 n with
    | nil => exact absurd hdigits Nat.toDigits_ne_nil
    | cons c more =>
      have hc : c.isDigit = true :=
        Nat.isDigit_of_mem_toDigits (b := 10) (n := n) (by decide) (by decide)
          (hdigits ▸ List.mem_cons_self)
      have hne : c ≠ '/' := fun heq => (isDigit_solid hc).2 (heq ▸ hspecial)
      simpa [charsOf_cons, Token.chars, Token.pieces, hdigits] using hne
  | quoted text => simp [charsOf_cons, Token.chars, Token.pieces, Text.quote]
  | group delimiter =>
    cases delimiter
    · simp [charsOf_cons, chars_parens]
    · simp [charsOf_cons, chars_brackets]
    · simp [charsOf_cons, chars_braces]
  | @mark c ts hc _ =>
    have hne : c ≠ '/' := fun heq => absurd (heq ▸ hc) (by decide)
    simpa [charsOf_cons, Token.chars, Token.pieces] using hne
  | @joined c d more ts hc hd _ =>
    have hne : c ≠ '/' := fun heq => absurd (heq ▸ hc) (by decide)
    simpa [charsOf_cons, Token.chars, Token.pieces] using hne
  | static => simp [charsOf_cons, Token.chars, Token.pieces]

/-! ### Reading back -/

/-- Nothing is in front, or what stands behind printed tokens: a blank, a closing bracket or the
    end of the line. -/
def Ended (rest : List Char) : Prop := ∀ c ∈ rest.head?, c ∈ [' ', ')', ']', '\n']

/-- A blank, a closing bracket or the end of the line is in front. -/
theorem ended_cons {c : Char} {rest : List Char} (h : c ∈ [' ', ')', ']', '\n']) :
    Ended (c :: rest) := by
  simpa [Ended] using h

/-- What stands behind printed tokens is a separator. -/
theorem Ended.separated {rest : List Char} (h : Ended rest) : Separated rest := by
  have hall : ∀ c ∈ [' ', ')', ']', '\n'], c ∈ separators := List.all_iff_forall_prop.mp (by decide)
  exact fun c hc => hall c (h c hc)

/-- What stands behind printed tokens is no mark that the last one could be joined to. -/
theorem Ended.startsMark {rest : List Char} (h : Ended rest) : startsMark rest = false := by
  cases rest with
  | nil => rfl
  | cons c rest =>
    have hc := h c rfl
    simp only [List.mem_cons, List.not_mem_nil, or_false] at hc
    rcases hc with rfl | rfl | rfl | rfl <;> cases rest <;> rfl

/-- The text is read as these tokens wherever something that ends a token follows. -/
def Prints (cs : List Char) (ts : List Token) : Prop :=
  ∀ rest more, Ended rest → lexemes? rest = some more →
    ∃ found, lexemes? (cs ++ rest) = some (found ++ more) ∧ Nests found ts

/-- What is read wherever a separator follows is read in printed text. -/
theorem Reads.prints {cs : List Char} {ts : List Token} (h : Reads cs ts) : Prints cs ts :=
  fun rest more hrest hmore => h rest more hrest.separated hmore

/-- A token with a blank behind it, if others follow. -/
theorem Prints.cons {t : Token} {ts : List Token} (ht : Prints t.chars [t])
    (hjoined : t.isJoined = false) (h : Prints (charsOf ts) ts) :
    Prints (charsOf (t :: ts)) (t :: ts) := by
  intro rest more hrest hmore
  rw [charsOf_cons, hjoined, Bool.or_false]
  cases ts with
  | nil => simpa [charsOf_nil] using ht rest more hrest hmore
  | cons u us =>
    obtain ⟨found, hfound, hnests⟩ := h rest more hrest hmore
    have hblank := lexemes?_blank (c := ' ') (by decide) hfound
    obtain ⟨first, hfirst, hnests'⟩ := ht _ _ (ended_cons (by decide)) hblank
    refine ⟨first ++ found, ?_, hnests'.append hnests⟩
    simpa using hfirst

/-- Brackets around a text that does not begin with a comment. -/
theorem Prints.brackets {opening closing : Char} {delimiter : Delimiter} {cs : List Char}
    {ts : List Token} (hopening : bracket? opening = some (.opening delimiter))
    (hclosing : bracket? closing = some (.closing delimiter))
    (hended : closing ∈ [' ', ')', ']', '\n'])
    (hcs : cs.head? ≠ some '/') (h : Prints cs ts) :
    Prints (opening :: (cs ++ [closing])) [.group delimiter ts] := by
  intro rest more _ hmore
  have hend : lexemes? (closing :: rest) = some (.closing delimiter :: more) := by
    have hparen : closing ≠ '(' := by
      rintro rfl
      cases hclosing
    rw [lexemes?_bracket hclosing (absurd · hparen), hmore]
    rfl
  obtain ⟨found, hfound, hnests⟩ := h (closing :: rest) _ (ended_cons hended) hend
  have hslash : (cs ++ closing :: rest).head? ≠ some '/' := by
    have hne : closing ≠ '/' := by
      rintro rfl
      cases hclosing
    cases cs <;> simp_all
  refine ⟨_, ?_, hnests.group delimiter⟩
  rw [List.cons_append, List.append_assoc, List.singleton_append,
    lexemes?_bracket hopening fun _ => hslash, hfound]
  simp

/-- Braces around a printed text, with blanks or empty. -/
theorem prints_braces {ts : List Token} (h : Prints (charsOf ts) ts) :
    Prints (Token.group .brace ts).chars [.group .brace ts] := by
  intro rest more _ hmore
  have hend : lexemes? ('\x7d' :: rest) = some (.closing .brace :: more) := by
    rw [lexemes?_bracket (show bracket? '\x7d' = some (.closing .brace) from rfl) (by simp), hmore]
    rfl
  -- a blank stands before the brace if there is anything inside
  obtain ⟨found, hfound, hnests⟩ : ∃ found, lexemes? (charsOf ts ++
      ((if ts.isEmpty then [] else [' ']) ++ '\x7d' :: rest)) =
        some (found ++ .closing .brace :: more) ∧ Nests found ts := by
    cases ts with
    | nil => exact ⟨[], by simpa [charsOf_nil] using hend, fun _ _ _ => rfl⟩
    | cons t ts => exact h _ _ (ended_cons (by decide)) (lexemes?_blank (by decide) hend)
  refine ⟨_, ?_, hnests.group .brace⟩
  have hinside := lexemes?_blank (c := ' ') (by decide) hfound
  have htext : (Token.group .brace ts).chars ++ rest = '\x7b' :: ' ' ::
      (charsOf ts ++ ((if ts.isEmpty then [] else [' ']) ++ '\x7d' :: rest)) := by
    simp [chars_braces]
  rw [htext, lexemes?_bracket (show bracket? '\x7b' = some (.opening .brace) from rfl) (by simp),
    hinside]
  simp

/-- The lifetime of what is never dropped. -/
theorem lexemes?_static {rest : List Char} (hrest : Ended rest) :
    lexemes? ('\'' :: ("static".toList ++ rest)) =
      (lexemes? ("static".toList ++ rest)).map ([.token (.mark '\'' true)] ++ ·) := by
  have hword : IsWord "static".toList := by decide
  have hscan := hword.scan_append hrest.separated.apart
  have hnumber : scanNumber? ('\'' :: ("static".toList ++ rest)) = none :=
    scanNumber?_eq_none (by decide) _
  have hends : ∀ c ∈ [' ', ')', ']', '\n'], c ≠ '\'' ∧ c ≠ '#' :=
    List.all_iff_forall_prop.mp (by decide)
  -- With a second quotation mark it would be a character.
  have hafter : rest.head? ≠ some '\'' ∧ rest.head? ≠ some '#' :=
    ⟨fun h => (hends _ (hrest _ h)).1 rfl, fun h => (hends _ (hrest _ h)).2 rfl⟩
  have hmark : scanMark? ('\'' :: ("static".toList ++ rest)) =
      some (.mark '\'' true, "static".toList ++ rest) := by
    rw [scanMark?, hscan]
    simp [hafter]
  have htext : scanText? ('\'' :: ("static".toList ++ rest)) = none := rfl
  refine lexemes?_solid (by decide) ?_ le_rfl
  unfold next?
  rw [scanDocumentation?_solid (by decide), htext, hnumber, hmark]
  simp [scanUnreadable?_eq_none (c := '\'') (by simp), bracket?]

/-- **Legible tokens are read back from their text.** -/
theorem Legible.prints {ts : List Token} (h : Legible ts) : Prints (charsOf ts) ts := by
  -- By induction on the tokens, each of which is read in front of a text that is read already.
  induction h with
  | nil => exact Reads.nil.prints
  | @word w ts hw _ ih =>
    refine Prints.cons ?_ rfl ih
    simpa [Token.chars, Token.pieces] using (Reads.word hw).prints
  | @number n ts _ ih =>
    refine Prints.cons ?_ rfl ih
    simpa [Token.chars, Token.pieces] using (Reads.number n).prints
  | @quoted text ts _ ih =>
    refine Prints.cons (fun rest more hrest hmore => ?_) rfl ih
    refine ⟨[.token (.literal (Text.quote text))], ?_, nests_token _⟩
    have hliteral := lexemes?_quote text hrest.separated.apart
    rw [hmore] at hliteral
    simpa [Token.chars, Token.pieces] using hliteral
  | @group delimiter inner ts hinside _ hinner ih =>
    refine Prints.cons ?_ rfl ih
    cases delimiter with
    | parenthesis => exact chars_parens inner ▸ hinner.brackets rfl rfl (by decide) hinside.head?_ne
    | bracket => exact chars_brackets inner ▸ hinner.brackets rfl rfl (by decide) hinside.head?_ne
    | brace => exact prints_braces hinner
  | @mark c ts hc _ ih =>
    refine Prints.cons (fun rest more hrest hmore => ?_) rfl ih
    refine ⟨[.token (.mark c false)], ?_, nests_token _⟩
    have hmark := lexemes?_mark hc rest
    rw [hmore, hrest.startsMark] at hmark
    simpa [Token.chars, Token.pieces] using hmark
  | @joined c d joined ts hc hd _ ih =>
    intro rest more hrest hmore
    obtain ⟨found, hfound, hnests⟩ := ih rest more hrest hmore
    refine ⟨.token (.mark c true) :: found, ?_, (nests_token _).append hnests⟩
    have hmark := lexemes?_mark hc (charsOf (.mark d joined :: ts) ++ rest)
    -- A mark is read as joined just if another mark follows at once, and `d` does.
    have hstarts : startsMark (charsOf (.mark d joined :: ts) ++ rest) = true := by
      have hmarks : ∀ d ∈ plainMarks, d ≠ '/' ∧ "~!@#$%^&*-=+|;:,<.>/?'".toList.contains d = true :=
        List.all_iff_forall_prop.mp (by decide)
      obtain ⟨hslash, hd⟩ := hmarks d hd
      rw [charsOf_cons]
      simp only [Token.chars, Token.pieces, List.flatMap_cons, List.flatMap_nil]
      unfold startsMark
      split <;> simp_all
    rw [hfound, hstarts] at hmark
    rw [charsOf_cons]
    simpa [Token.chars, Token.pieces, Token.isJoined] using hmark
  | @static ts _ ih =>
    intro rest more hrest hmore
    obtain ⟨found, hfound, hnests⟩ := ih rest more hrest hmore
    refine ⟨.token (.mark '\'' true) :: found, ?_, (nests_token _).append hnests⟩
    -- The quote is no character literal, since what follows the word is no other quote.
    have htail : Ended ((if ts.isEmpty then [] else [' ']) ++ (charsOf ts ++ rest)) := by
      cases ts with
      | nil => exact hrest
      | cons t ts => exact ended_cons (by decide)
    have htext : charsOf (.word "static" :: ts) ++ rest =
        "static".toList ++ ((if ts.isEmpty then [] else [' ']) ++ (charsOf ts ++ rest)) := by
      simp [charsOf_cons, Token.chars, Token.pieces, Token.isJoined]
    have hmark := lexemes?_static htail
    rw [← htext, hfound] at hmark
    rw [charsOf_cons]
    simpa [Token.chars, Token.pieces, Token.isJoined] using hmark

/-- **Legible tokens are read back in front of another line.** -/
theorem Legible.lexemes?_append {ts : List Token} {rest : List Char} {more : List Lexeme}
    (h : Legible ts) (hmore : lexemes? rest = some more) :
    ∃ found, lexemes? (charsOf ts ++ '\n' :: rest) = some (found ++ more) ∧ Nests found ts :=
  h.prints ('\n' :: rest) more (ended_cons (by decide)) (lexemes?_blank (by decide) hmore)

end TermNet.Source
