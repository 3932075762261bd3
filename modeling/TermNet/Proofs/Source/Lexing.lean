import TermNet.Proofs.Source.Digits

namespace TermNet.Source

open TermNet.Text

/-!
# Texts as tokens

The text of a term or pattern is put together from words, numbers, brackets and the signs
`+ * - , ::`, with blanks around plus signs and behind commas.

* `lexemes?_word`, `lexemes?_number`, `lexemes?_sign`, … — the first token of a text, one lemma
  for each kind;
* `Reads` — a text is read as some tokens wherever a separator follows;
* `Reads.append`, `Reads.sign`, `Reads.group`, … — such texts put together;
* `Reads.tokens?_eq` — as a whole text, it is read as these tokens.
-/

/-! ### The first token -/

/-- The characters of the signs in texts of terms and patterns. -/
def signs : List Char := [',', '+', '*', '-', ':']

/-- A character that begins neither a blank nor a comment, and is no mark of the byte order. -/
def IsSolid (c : Char) : Prop := isBlank c = false ∧ c ≠ '/' ∧ c ≠ '\ufeff'

/-- Whether a character is solid can be computed. -/
instance (c : Char) : Decidable (IsSolid c) := inferInstanceAs (Decidable (_ ∧ _))

/-- In front of a solid character there is nothing to skip. -/
theorem skipBlank_solid {c : Char} (h : IsSolid c) (rest : List Char) :
    skipBlank (c :: rest) = c :: rest := by
  have hone : skipOne? (c :: rest) = none := by
    unfold skipOne?
    split <;> simp_all [IsSolid]
  rw [skipBlank, hone]

/-- A solid character begins no comment for documentation. -/
theorem scanDocumentation?_solid {c : Char} (h : IsSolid c) (rest : List Char) :
    scanDocumentation? (c :: rest) = none := by
  unfold scanDocumentation?
  split <;> simp_all [IsSolid]

/-- The empty text has no lexemes. -/
theorem lexemes?_nil : lexemes? [] = some [] := by
  simp [lexemes?, skipBlank, skipOne?]

/-- A step of the lexer. -/
theorem lexemes?_solid {c : Char} (hc : IsSolid c) {cs rest : List Char} {found : List Lexeme}
    (h : next? (c :: cs) = some (found, rest)) (hlt : rest.length ≤ cs.length) :
    lexemes? (c :: cs) = (lexemes? rest).map (found ++ ·) := by
  rw [lexemes?]
  simp only [skipBlank_solid hc, h, List.isEmpty_cons, Bool.false_eq_true, if_false,
    List.length_cons]
  rw [if_pos (by omega)]

/-- What is skipped in front of a text makes no difference. -/
theorem lexemes?_skip {cs ds : List Char} {found : List Lexeme}
    (hskip : skipBlank cs = skipBlank ds)
    (hlen : ds.length ≤ cs.length) (h : lexemes? ds = some found) : lexemes? cs = some found := by
  rw [lexemes?] at h ⊢
  rw [hskip]
  split at h
  · rename_i hempty
    rw [if_pos hempty, h]
  · rename_i hempty
    rw [if_neg hempty]
    split at h
    · split at h
      · rename_i hlt
        rw [if_pos (lt_of_lt_of_le hlt hlen), h]
      · cases h
    · cases h

/-- A blank is skipped. -/
theorem skipBlank_blank {c : Char} (h : isBlank c = true) (rest : List Char) :
    skipBlank (c :: rest) = skipBlank rest := by
  have hslash : isBlank '/' = false := by decide
  have hone : skipOne? (c :: rest) = some rest := by
    unfold skipOne?
    split <;> simp_all
  rw [skipBlank, hone]
  simp

/-! ### Strings and characters -/

/-- A raw string begins with its mark. -/
theorem scanRaw?_eq_none {cs : List Char} (kind : QuoteKind)
    (h : ∀ start ∈ ["r\"", "r#\"", "r##"], ¬ start.toList <+: cs) : scanRaw? kind cs = none := by
  unfold scanRaw?
  split
  · rename_i rest
    dsimp only
    split
    · rename_i inside hquote
      exfalso
      have hsplit := List.takeWhile_append_dropWhile (p := (· = '#')) (l := rest)
      have hfence : ∀ c ∈ rest.takeWhile (· = '#'), c = '#' := fun c hc => by
        simpa using List.mem_takeWhile_imp hc
      rw [hquote] at hsplit
      -- however many hashes there are, one of the beginnings is in front
      match hhashes : rest.takeWhile (· = '#') with
      | [] => exact h "r\"" (by simp) ⟨inside, by rw [← hsplit, hhashes]; rfl⟩
      | [c] =>
        have hc := hfence c (by simp [hhashes])
        exact h "r#\"" (by simp) ⟨inside, by rw [← hsplit, hhashes, hc]; rfl⟩
      | c :: d :: more =>
        have hc := hfence c (by simp [hhashes])
        have hd := hfence d (by simp [hhashes])
        exact h "r##" (by simp)
          ⟨more ++ '"' :: inside, by rw [← hsplit, hhashes, hc, hd]; rfl⟩
    · rfl
  · rfl

/-- A string begins with a quotation mark, or with the mark of a raw one. -/
theorem scanQuoted?_eq_none {cs : List Char} (kind : QuoteKind)
    (h : ∀ start ∈ ["\"", "r\"", "r#\"", "r##"], ¬ start.toList <+: cs) :
    scanQuoted? kind cs = none := by
  unfold scanQuoted?
  split
  · rename_i rest
    exact absurd ⟨rest, rfl⟩ (h "\"" (by simp))
  · exact scanRaw?_eq_none kind fun start hstart => h start (List.mem_cons_of_mem _ hstart)

/-- A character begins with an apostrophe. -/
theorem scanChar?_eq_none {cs : List Char} (kind : QuoteKind) (h : cs.head? ≠ some '\'') :
    scanChar? kind cs = none := by
  unfold scanChar?
  split <;> first | rfl | exact absurd rfl h

/-- Only what begins as literals do is a string or a character. -/
theorem scanText?_eq_none {c : Char} {rest : List Char}
    (hliteral : startsLiteralText (c :: rest) = false) (hquote : c ≠ '"' ∧ c ≠ '\'') :
    scanText? (c :: rest) = none := by
  rw [← Bool.not_eq_true, startsLiteralText_eq_true_iff] at hliteral
  have hnot : ∀ start ∈ literalStarts, ¬ start.toList <+: c :: rest :=
    fun start hstart h => hliteral ⟨start, hstart, h⟩
  -- Behind a prefix `b` or `c`, what is left of such a beginning does not stand either.
  have hbehind : ∀ start ∈ literalStarts, start.toList.head? = some c →
      ¬ start.toList.tail <+: rest := by
    intro start hstart hhead h
    obtain ⟨more, hmore⟩ := List.head?_eq_some_iff.mp hhead
    rw [hmore] at h
    exact hnot start hstart (hmore ▸ (List.prefix_cons_inj c).mpr h)
  unfold scanText?
  split
  · rename_i heq
    obtain ⟨rfl, rfl⟩ := List.cons.inj heq
    have hquoted : scanQuoted? .bytes rest = none := by
      refine scanQuoted?_eq_none .bytes fun start hstart h => ?_
      simp only [List.mem_cons, List.not_mem_nil, or_false] at hstart
      rcases hstart with rfl | rfl | rfl | rfl
      · exact hbehind "b\"" (by decide) (by decide) h
      · exact hbehind "br\"" (by decide) (by decide) h
      · exact hbehind "br#" (by decide) (by decide) (.trans (by decide) h)
      · exact hbehind "br#" (by decide) (by decide) (.trans (by decide) h)
    have hchar : scanChar? .bytes rest = none := by
      refine scanChar?_eq_none .bytes fun h => ?_
      obtain ⟨more, rfl⟩ := List.head?_eq_some_iff.mp h
      exact hbehind "b'" (by decide) (by decide) ⟨more, rfl⟩
    simp [withPrefix, hquoted, hchar]
  · rename_i heq
    obtain ⟨rfl, rfl⟩ := List.cons.inj heq
    have hquoted : scanQuoted? .terminated rest = none := by
      refine scanQuoted?_eq_none .terminated fun start hstart h => ?_
      simp only [List.mem_cons, List.not_mem_nil, or_false] at hstart
      rcases hstart with rfl | rfl | rfl | rfl
      · exact hbehind "c\"" (by decide) (by decide) h
      · exact hbehind "cr\"" (by decide) (by decide) h
      · exact hbehind "cr#" (by decide) (by decide) (.trans (by decide) h)
      · exact hbehind "cr#" (by decide) (by decide) (.trans (by decide) h)
    simp [withPrefix, hquoted]
  · have hquoted : scanQuoted? .text (c :: rest) = none := by
      refine scanQuoted?_eq_none .text fun start hstart h => ?_
      rcases List.mem_cons.mp hstart with rfl | hstart
      · obtain ⟨after, h⟩ := h
        exact hquote.1 (List.cons.inj h).1.symm
      · exact hnot start (List.mem_of_mem_take (i := 3) (by simpa [literalStarts] using hstart)) h
    have hchar : scanChar? .text (c :: rest) = none :=
      scanChar?_eq_none .text (by simpa using hquote.2)
    simp [hquoted, hchar]

/-! ### The kinds of tokens -/

/-- Of the solid characters, only a parenthesis may begin what no lexer reads: one with a comment
    behind it. -/
theorem scanUnreadable?_eq_none {c : Char} {rest : List Char}
    (h : c = '(' → rest.head? ≠ some '/') : scanUnreadable? (c :: rest) = none := by
  rw [scanUnreadable?, if_neg]
  intro hstart
  obtain ⟨more, hmore⟩ := List.isPrefixOf_iff_prefix.mp hstart
  obtain ⟨hc, hrest⟩ := List.cons.inj hmore
  exact h hc.symm (by rw [← hrest]; rfl)

/-- The marks that are read as they are, whatever follows. -/
def plainMarks : List Char := "~!@#$%^&*-=+|;:,<.>?".toList

/-- **A mark** is one token; it is joined to what follows if that is a mark as well. -/
theorem lexemes?_mark {c : Char} (hc : c ∈ plainMarks) (rest : List Char) :
    lexemes? (c :: rest) = (lexemes? rest).map ([.token (.mark c (startsMark rest))] ++ ·) := by
  have hmarks : ∀ c ∈ plainMarks, IsSolid c ∧ c.isDigit = false ∧ bracket? c = none ∧ c ≠ '(' ∧
      c ∉ ['r', 'b', 'c'] ∧ (c ≠ '"' ∧ c ≠ '\'') ∧
        "~!@#$%^&*-=+|;:,<.>/?'".toList.contains c = true :=
    List.all_iff_forall_prop.mp (by decide)
  obtain ⟨hsolid, hdigit, hbracket, hopen, hliteral, hquote, hmark⟩ := hmarks c hc
  have htext : scanText? (c :: rest) = none :=
    scanText?_eq_none (startsLiteralText_eq_false hliteral rest) hquote
  have hscan : scanMark? (c :: rest) = some (.mark c (startsMark rest), rest) := by
    have hstarts : startsMark (c :: rest) = true := by
      unfold startsMark
      split <;> simp_all [IsSolid]
    unfold scanMark?
    split <;> simp_all
  refine lexemes?_solid hsolid ?_ le_rfl
  simp [next?, scanDocumentation?_solid hsolid, scanUnreadable?_eq_none (absurd · hopen),
    hbracket, htext, scanNumber?_eq_none hdigit, hscan]

/-- The signs in texts of terms and patterns are marks. -/
theorem lexemes?_sign {c : Char} (hc : c ∈ signs) (rest : List Char) :
    lexemes? (c :: rest) = (lexemes? rest).map ([.token (.mark c (startsMark rest))] ++ ·) :=
  have hsigns : ∀ c ∈ signs, c ∈ plainMarks := List.all_iff_forall_prop.mp (by decide)
  lexemes?_mark (hsigns c hc) rest

/-- A bracket; a parenthesis with a comment inside might be a token of its own. -/
theorem lexemes?_bracket {c : Char} {lexeme : Lexeme} (hc : bracket? c = some lexeme)
    {rest : List Char} (h : c = '(' → rest.head? ≠ some '/') :
    lexemes? (c :: rest) = (lexemes? rest).map ([lexeme] ++ ·) := by
  have hsolid : IsSolid c := by
    unfold bracket? at hc
    split at hc <;> first | decide | cases hc
  refine lexemes?_solid hsolid ?_ le_rfl
  simp [next?, scanDocumentation?_solid hsolid, scanUnreadable?_eq_none h, hc]

/-- An opening parenthesis, with no comment behind it. -/
theorem lexemes?_opening {rest : List Char} (h : rest.head? ≠ some '/') :
    lexemes? ('(' :: rest) = (lexemes? rest).map ([.opening .parenthesis] ++ ·) :=
  lexemes?_bracket rfl fun _ => h

/-- A closing parenthesis. -/
theorem lexemes?_closing (rest : List Char) :
    lexemes? (')' :: rest) = (lexemes? rest).map ([.closing .parenthesis] ++ ·) :=
  lexemes?_bracket rfl (by simp)

/-- The characters that begin neither a word nor a number. -/
def specials : List Char := "()[]\x7b\x7d\"~!@#$%^&*-=+|;:,<.>/?'".toList

/-- A character that is not special is no bracket. -/
theorem bracket?_eq_none {c : Char} (h : c ∉ specials) : bracket? c = none := by
  unfold bracket?
  split <;> first | rfl | exact absurd (by decide) h

/-- A character that is not special is no mark. -/
theorem startsMark_eq_false {c : Char} (h : c ∉ specials) (rest : List Char) :
    startsMark (c :: rest) = false := by
  have hmarks : ∀ c ∈ "~!@#$%^&*-=+|;:,<.>/?'".toList, c ∈ specials :=
    List.all_iff_forall_prop.mp (by decide)
  unfold startsMark
  split
  · rename_i heq
    exact absurd ((List.cons.inj heq).1 ▸ by decide) h
  · rename_i heq
    rw [← (List.cons.inj heq).1, ← Bool.not_eq_true, List.contains_iff_mem]
    exact fun hc => h (hmarks c hc)
  · rfl

/-- Digits are solid, and none of them is special. -/
theorem isDigit_solid {c : Char} (h : c.isDigit = true) : IsSolid c ∧ c ∉ specials := by
  have hspecial : ∀ c ∈ specials, c.isDigit = false := List.all_iff_forall_prop.mp (by decide)
  have hnot : c ∉ specials := fun hc => by
    rw [hspecial c hc] at h
    cases h
  refine ⟨⟨?_, fun hc => hnot (hc ▸ by decide), fun hc => absurd (hc ▸ h) (by decide)⟩, hnot⟩
  simp only [Char.isDigit, Bool.and_eq_true, decide_eq_true_eq, ge_iff_le,
    UInt32.le_iff_toNat_le] at h
  have hlow : 48 ≤ c.toNat := h.1
  have hhigh : c.toNat ≤ 57 := h.2
  have hblank : c ≠ ' ' := by
    rintro rfl
    exact absurd hlow (by decide)
  rw [isBlank, if_pos (by omega)]
  simp only [hblank, decide_false, Bool.false_or, Bool.and_eq_false_iff, decide_eq_false_iff_not]
  omega

/-- A number in front of a separator. -/
theorem lexemes?_number (n : Nat) {rest : List Char} (hrest : Separated rest) :
    lexemes? (Nat.toDigits 10 n ++ rest) =
      (lexemes? rest).map ([.token (.literal (toString n))] ++ ·) := by
  have hds : ∀ c ∈ Nat.toDigits 10 n, c.isDigit = true := fun c hc =>
    Nat.isDigit_of_mem_toDigits (by decide) (by decide) hc
  have hscan := scanNumber?_digits hds Nat.toDigits_ne_nil hrest
  have htext : String.ofList (Nat.toDigits 10 n) = toString n := rfl
  cases hdigits : Nat.toDigits 10 n with
  | nil => exact absurd hdigits Nat.toDigits_ne_nil
  | cons c ds =>
    rw [hdigits] at hds hscan htext
    obtain ⟨hsolid, hspecial⟩ := isDigit_solid (hds c List.mem_cons_self)
    have hchars : ∀ c ∈ literalChars, c.isDigit = false :=
      List.all_iff_forall_prop.mp (by decide)
    -- A digit begins neither a text nor a group, so the number is what is scanned.
    have hliteral : startsLiteralText (c :: (ds ++ rest)) = false :=
      startsLiteralText_append (w := []) (by decide) fun d hd hmem => by
        obtain rfl : c = d := by simpa using hd
        have := hds c List.mem_cons_self
        rw [hchars c hmem] at this
        cases this
    have hquote : c ≠ '"' ∧ c ≠ '\'' := by
      constructor <;> (rintro rfl; exact hspecial (by decide))
    have hopen : c ≠ '(' := by
      rintro rfl
      exact hspecial (by decide)
    rw [List.cons_append] at hscan ⊢
    refine lexemes?_solid hsolid ?_ (by simp)
    simp [next?, scanDocumentation?_solid hsolid, scanUnreadable?_eq_none (absurd · hopen),
      bracket?_eq_none hspecial, scanText?_eq_none hliteral hquote, hscan, htext]

/-- No character is both white space and the beginning of an identifier. -/
theorem whiteSpaceTable_disjoint : whiteSpaceTable.all (fun blanks =>
    identifierStartTable.all fun starts =>
      blanks.2 < starts.1 || starts.2 < blanks.1) = true := by
  decide +kernel

/-- No blank is among the characters that identifiers begin with. -/
theorem inTable_identifierStart_of_blank {c : Char} (h : isWhiteSpace c = true) :
    inTable identifierStartTable c = false := by
  obtain ⟨blanks, hblanks, hc⟩ := List.any_eq_true.mp h
  rw [← Bool.not_eq_true, inTable, List.any_eq_true]
  rintro ⟨starts, hstarts, hc'⟩
  have hapart := List.all_eq_true.mp (List.all_eq_true.mp whiteSpaceTable_disjoint blanks hblanks)
    starts hstarts
  simp only [Bool.and_eq_true, Bool.or_eq_true, decide_eq_true_eq] at hc hc' hapart
  omega

/-- What may begin an identifier stands behind the digits in the order of characters. -/
theorem le_toNat_of_isIdentifierStart {c : Char} (h : isIdentifierStart c = true) :
    65 ≤ c.toNat := by
  unfold isIdentifierStart at h
  split at h
  · have halpha : c.isAlpha = (decide (65 ≤ c.val ∧ c.val ≤ 90) ||
        decide (97 ≤ c.val) && decide (c.val ≤ 122)) := rfl
    simp only [halpha, Bool.or_eq_true, Bool.and_eq_true, decide_eq_true_eq,
      UInt32.le_iff_toNat_le] at h
    rcases h with rfl | h | h
    · decide
    · exact h.1
    · exact le_trans (by decide) h.1
  · omega

/-- What an identifier begins with is no blank, ASCII or not. -/
theorem isIdentifierStart_not_blank {c : Char} (h : isIdentifierStart c = true) :
    isBlank c = false := by
  unfold isBlank
  split
  -- Letters and the underscore are behind the ASCII blanks.
  · rename_i hascii
    have hle := le_toNat_of_isIdentifierStart h
    have hblank : c ≠ ' ' := by
      rintro rfl
      exact absurd hle (by decide)
    simp only [hblank, decide_false, Bool.false_or, Bool.and_eq_false_iff, decide_eq_false_iff_not]
    omega
  -- Other characters are in a table, without any of the blanks.
  · rename_i hascii
    rw [isIdentifierStart, if_neg hascii] at h
    have hblank : isWhiteSpace c = false := by
      rw [← Bool.not_eq_true]
      intro hblank
      rw [inTable_identifierStart_of_blank hblank] at h
      cases h
    have hmarks : ∀ d ∈ ['\u200e', '\u200f'], inTable identifierStartTable d = false :=
      List.all_iff_forall_prop.mp (by decide +kernel)
    have hmark : c ∉ ['\u200e', '\u200f'] := fun hc => by
      rw [hmarks c hc] at h
      cases h
    simpa [hblank] using hmark

/-- What an identifier begins with is solid, and neither special nor a digit. -/
theorem isIdentifierStart_solid {c : Char} (h : isIdentifierStart c = true) :
    IsSolid c ∧ c ∉ specials ∧ c.isDigit = false := by
  have hspecial : ∀ c ∈ specials, isIdentifierStart c = false :=
    List.all_iff_forall_prop.mp (by decide)
  have hnot : c ∉ specials := fun hc => by
    rw [hspecial c hc] at h
    cases h
  have horder : isIdentifierStart '\ufeff' = false := by decide +kernel
  refine ⟨⟨isIdentifierStart_not_blank h, fun hc => hnot (hc ▸ by decide), ?_⟩, hnot, ?_⟩
  · rintro rfl
    rw [horder] at h
    cases h
  have hle := le_toNat_of_isIdentifierStart h
  rw [← Bool.not_eq_true, Char.isDigit, Bool.and_eq_true, decide_eq_true_eq, decide_eq_true_eq]
  intro hdigit
  have hhigh : c.toNat ≤ 57 := UInt32.le_iff_toNat_le.mp hdigit.2
  omega

/-- A character that is not special is scanned as no mark. -/
theorem scanMark?_eq_none {c : Char} (h : c ∉ specials) (rest : List Char) :
    scanMark? (c :: rest) = none := by
  unfold scanMark?
  split
  · rename_i heq
    exact absurd ((List.cons.inj heq).1 ▸ by decide) h
  · rename_i heq
    obtain ⟨rfl, rfl⟩ := List.cons.inj heq
    rw [startsMark_eq_false h]
    rfl
  · rfl

/-- A word where it ends. -/
theorem lexemes?_word {w rest : List Char} (h : IsWord w) (hrest : Apart rest) :
    lexemes? (w ++ rest) = (lexemes? rest).map ([.token (.word (String.ofList w))] ++ ·) := by
  have hscan := h.scan_append hrest
  have hliteral := (scanWord?_eq_some_iff.mp hscan).1
  obtain ⟨c, more, rfl, hc⟩ := h.exists_cons
  obtain ⟨hsolid, hspecial, hdigit⟩ := isIdentifierStart_solid hc
  have hquote : c ≠ '"' ∧ c ≠ '\'' := by
    constructor <;> (rintro rfl; exact hspecial (by decide))
  have hopen : c ≠ '(' := by
    rintro rfl
    exact hspecial (by decide)
  rw [List.cons_append] at hscan hliteral ⊢
  refine lexemes?_solid hsolid ?_ (by simp)
  simp [next?, scanDocumentation?_solid hsolid, scanUnreadable?_eq_none (absurd · hopen),
    bracket?_eq_none hspecial, scanText?_eq_none hliteral hquote, scanNumber?_eq_none hdigit,
    scanMark?_eq_none hspecial, hscan]
/-! ### Texts in front of a separator -/

/-- The brackets of some lexemes match, and they are these tokens. -/
def Nests (found : List Lexeme) (ts : List Token) : Prop :=
  ∀ more outer current, nest? (found ++ more) outer current =
    nest? more outer (ts.reverse ++ current)

/-- Lexemes whose brackets match, one after the other. -/
theorem Nests.append {found more : List Lexeme} {ts us : List Token} (h : Nests found ts)
    (h' : Nests more us) : Nests (found ++ more) (ts ++ us) := by
  intro rest outer current
  rw [List.append_assoc, h, h', List.reverse_append, List.append_assoc]

/-- A token that is no bracket stands for itself. -/
theorem nests_token (token : Token) : Nests [.token token] [token] := fun _ _ _ => rfl

/-- Tokens without brackets stand for themselves. -/
theorem nests_map_token (ts : List Token) : Nests (ts.map .token) ts := by
  induction ts with
  | nil => exact fun _ _ _ => rfl
  | cons t ts ih => exact (nests_token t).append ih

/-- Brackets around lexemes whose brackets match are a group. -/
theorem Nests.group {found : List Lexeme} {ts : List Token} (h : Nests found ts)
    (delimiter : Delimiter) :
    Nests (.opening delimiter :: found ++ [.closing delimiter]) [.group delimiter ts] := by
  intro rest outer current
  rw [List.append_assoc, List.cons_append, nest?, h, List.singleton_append, nest?]
  simp

/-- The text is read as these tokens wherever a separator follows. -/
def Reads (cs : List Char) (ts : List Token) : Prop :=
  ∀ rest more, Separated rest → lexemes? rest = some more →
    ∃ found, lexemes? (cs ++ rest) = some (found ++ more) ∧ Nests found ts

/-- A token is in front of the text. -/
def Solid (cs : List Char) : Prop := ∃ c rest, cs = c :: rest ∧ IsSolid c

/-- What is solid stays so when more follows it. -/
theorem Solid.append {cs : List Char} (h : Solid cs) (rest : List Char) : Solid (cs ++ rest) := by
  obtain ⟨c, more, rfl, hc⟩ := h
  exact ⟨c, more ++ rest, rfl, hc⟩

/-- No comment begins where a token does. -/
theorem Solid.head?_ne {cs : List Char} (h : Solid cs) : cs.head? ≠ some '/' := by
  obtain ⟨c, more, rfl, hc⟩ := h
  simpa using hc.2.1

/-- Whether a mark is in front is seen at the first character. -/
theorem startsMark_append {cs : List Char} (hne : cs ≠ []) (hcs : cs.head? ≠ some '/')
    (rest : List Char) : startsMark (cs ++ rest) = startsMark cs := by
  match cs, hne with
  | c :: more, _ =>
    have hc : c ≠ '/' := by simpa using hcs
    unfold startsMark
    split <;> split <;> simp_all

/-- Two texts, each of which is empty or begins with a separator. -/
theorem Separated.append {cs rest : List Char} (hcs : Separated cs) (hrest : Separated rest) :
    Separated (cs ++ rest) := by
  cases cs with
  | nil => exact hrest
  | cons c cs => exact separated_cons (hcs c rfl)

namespace Reads

variable {cs ds : List Char} {ts us : List Token}

/-- The empty text is read as no tokens. -/
theorem nil : Reads [] [] :=
  fun _ _ _ h => ⟨[], h, fun _ _ _ => rfl⟩

/-- A word is read as it is. -/
theorem word {w : String} (h : IsWord w.toList) : Reads w.toList [.word w] := by
  intro rest more hrest hmore
  refine ⟨[.token (.word w)], ?_, nests_token _⟩
  rw [lexemes?_word h hrest.apart, hmore, String.ofList_toList]
  rfl

/-- A number is read as it is printed. -/
theorem number (n : Nat) : Reads (Nat.toDigits 10 n) [.literal (toString n)] := by
  intro rest more hrest hmore
  refine ⟨[.token (.literal (toString n))], ?_, nests_token _⟩
  rw [lexemes?_number n hrest, hmore]
  rfl

/-- **Two texts, one after the other,** if the second one begins with a separator or is empty. -/
theorem append (h : Reads cs ts) (hds : Separated ds) (h' : Reads ds us) :
    Reads (cs ++ ds) (ts ++ us) := by
  intro rest more hrest hmore
  obtain ⟨found, hfound, hnests⟩ := h' rest more hrest hmore
  obtain ⟨before, hbefore, hnests'⟩ := h (ds ++ rest) (found ++ more) (hds.append hrest) hfound
  refine ⟨before ++ found, ?_, hnests'.append hnests⟩
  rw [List.append_assoc, hbefore, List.append_assoc]

/-- A sign is joined to what follows it if that begins with a sign, too. -/
theorem sign {c : Char} (hc : c ∈ signs) (hne : cs ≠ []) (hcs : cs.head? ≠ some '/')
    (h : Reads cs ts) : Reads (c :: cs) (.mark c (startsMark cs) :: ts) := by
  intro rest more hrest hmore
  obtain ⟨found, hfound, hnests⟩ := h rest more hrest hmore
  refine ⟨.token (.mark c (startsMark cs)) :: found, ?_, (nests_token _).append hnests⟩
  rw [List.cons_append, lexemes?_sign hc, hfound, startsMark_append hne hcs]
  rfl

/-- A blank in front is skipped. -/
theorem blank (h : Reads cs ts) : Reads (' ' :: cs) ts := by
  intro rest more hrest hmore
  obtain ⟨found, hfound, hnests⟩ := h rest more hrest hmore
  exact ⟨found, lexemes?_skip (skipBlank_blank (by decide) _) (by simp) hfound, hnests⟩

/-- **A text in parentheses** is a group, if no comment begins behind the first one. -/
theorem group (hcs : cs.head? ≠ some '/') (h : Reads cs ts) :
    Reads ('(' :: (cs ++ [')'])) [.group .parenthesis ts] := by
  intro rest more hrest hmore
  have hclosing : lexemes? (')' :: rest) = some (.closing .parenthesis :: more) := by
    rw [lexemes?_closing, hmore]
    rfl
  obtain ⟨found, hfound, hnests⟩ := h (')' :: rest) _ (separated_cons (by decide)) hclosing
  refine ⟨_, ?_, hnests.group .parenthesis⟩
  have hslash : (cs ++ ')' :: rest).head? ≠ some '/' := by
    cases cs <;> simp_all
  rw [List.cons_append, List.append_assoc, List.singleton_append, lexemes?_opening hslash, hfound]
  simp

end Reads

/-! ### Whole texts -/

/-- A text without a mark of the byte order is left as it is. -/
theorem withoutOrderMark_eq_self {cs : List Char} (h : cs.head? ≠ some '\ufeff') :
    withoutOrderMark cs = cs := by
  unfold withoutOrderMark
  split
  · exact absurd rfl h
  · rfl

/-- **The tokens of a text,** if its lexemes and the tokens they are between brackets are known. -/
theorem Nests.tokens?_eq {text : String} {found : List Lexeme} {ts : List Token}
    (hnests : Nests found ts) (hfound : lexemes? text.toList = some found)
    (hmark : text.toList.head? ≠ some '\ufeff') : tokens? text = some ts := by
  have hnest := hnests [] [] []
  rw [tokens?, withoutOrderMark_eq_self hmark, hfound]
  simpa [nest?] using hnest

/-- **A whole text** is read as its tokens. -/
theorem Reads.tokens?_eq {text : String} {ts : List Token} (hsolid : Solid text.toList)
    (h : Reads text.toList ts) : tokens? text = some ts := by
  obtain ⟨found, hfound, hnests⟩ := h [] [] separated_nil lexemes?_nil
  rw [List.append_nil, List.append_nil] at hfound
  refine hnests.tokens?_eq hfound ?_
  obtain ⟨c, rest, htext, hc⟩ := hsolid
  rw [htext]
  exact fun hhead => hc.2.2 (Option.some.inj hhead)

end TermNet.Source
