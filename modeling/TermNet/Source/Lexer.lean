import TermNet.Source.Token
import TermNet.Text.Identifier
import TermNet.Text.Quoted

namespace TermNet.Source

open TermNet.Text

/-!
# Reading tokens

* `skipBlank` — white space and comments, other than documentation comments;
* `scanWord?`, `scanNumber?`, `scanString?`, … — one kind of token each, as the
  characters it takes and the rest of the input;
* `lexemes?` — the whole text as a list of tokens and brackets;
* `tokens?` — the same with the brackets matched.

A documentation comment stands for the attribute that holds its text.  All of
these fail on a text that is not made of tokens; why it is not is never asked.
-/

/-- A token of one kind: the characters it takes, and the rest of the input. -/
abbrev Scan := List Char → Option (List Char × List Char)

/-- Whether a text begins with the characters of `start`. -/
def startsWith (start : String) (cs : List Char) : Bool := start.toList.isPrefixOf cs

/-! ### Blanks and comments -/

/-- Whether a character separates tokens: white space, and the two marks of the
    writing direction. -/
def isBlank (c : Char) : Bool :=
  if c.toNat < 128 then c = ' ' || (9 ≤ c.toNat && c.toNat ≤ 13)
  else isWhiteSpace c || c = '\u200e' || c = '\u200f'

/-- A line without its end, and the rest from the line break on. -/
def splitLine : List Char → List Char × List Char
  | [] => ([], [])
  | '\n' :: rest => ([], '\n' :: rest)
  | '\r' :: '\n' :: rest => ([], '\n' :: rest)
  | c :: rest => let (line, after) := splitLine rest; (c :: line, after)

/-- The contents of a block comment after its opening, with nested comments, and
    what follows it; `depth` counts the comments that are open around it. -/
def splitBlock? : (depth : Nat) → Scan
  | _, [] => none
  | depth, '/' :: '*' :: rest =>
    (splitBlock? (depth + 1) rest).map fun (inside, after) => ('/' :: '*' :: inside, after)
  | 0, '*' :: '/' :: rest => some ([], rest)
  | depth + 1, '*' :: '/' :: rest =>
    (splitBlock? depth rest).map fun (inside, after) => ('*' :: '/' :: inside, after)
  | depth, c :: rest => (splitBlock? depth rest).map fun (inside, after) => (c :: inside, after)

/-- Whether a comment is part of the documentation, from what follows its opening
    (`//` or `/*`, ending in `last`). -/
def isDocumentation (last : Char) : List Char → Bool
  | '!' :: _ => true
  | c :: d :: _ => c = last && d ≠ last && (last = '/' || d ≠ '/')
  | [c] => c = last && last = '/'
  | [] => false

/-- What follows the first blank or comment, if the text begins with one. -/
def skipOne? : List Char → Option (List Char)
  | '/' :: '/' :: rest => if isDocumentation '/' rest then none else some (splitLine rest).2
  | '/' :: '*' :: rest =>
    if isDocumentation '*' rest then none else (splitBlock? 0 rest).map Prod.snd
  | c :: rest => if isBlank c then some rest else none
  | [] => none

/-- The text without the blanks and comments in front. -/
def skipBlank (cs : List Char) : List Char :=
  match skipOne? cs with
  | some rest => if rest.length < cs.length then skipBlank rest else cs
  | none => cs
termination_by cs.length

/-! ### Words -/

/-- An identifier or keyword. -/
def scanPlainWord? : Scan
  | c :: rest =>
    if isIdentifierStart c then
      some (c :: rest.takeWhile isIdentifierRest, rest.dropWhile isIdentifierRest)
    else none
  | [] => none

/-- The characters after a token that its suffix may take. -/
def withSuffix (taken rest : List Char) : List Char × List Char :=
  match scanPlainWord? rest with
  | some (suffix, after) => (taken ++ suffix, after)
  | none => (taken, rest)

/-- The beginnings of literals that look like the beginning of a word. -/
def literalStarts : List String :=
  ["r\"", "r#\"", "r##", "b\"", "b'", "br\"", "br#", "c\"", "cr\"", "cr#"]

/-- An identifier or keyword, with its mark `r#` if it has one. -/
def scanWord? (cs : List Char) : Option (List Char × List Char) :=
  if literalStarts.any (startsWith · cs) then none
  else match cs with
    | 'r' :: '#' :: rest =>
      match scanPlainWord? rest with
      | some (name, after) =>
        if neverRaw.contains (String.ofList name) then none else some ('r' :: '#' :: name, after)
      | none => none
    | _ => scanPlainWord? cs

/-! ### Numbers -/

/-- Whether a character is a digit or separates digits. -/
def isDigitOrGap (c : Char) : Bool := c.isDigit || c = '_'

/-- The exponent of a number after its `e`: one sign at most in front of the
    digits, and at least one digit. -/
def scanExponent? : (signed digits : Bool) → Scan
  | _, digits, [] => if digits then some ([], []) else none
  | signed, digits, c :: rest =>
    if c = '+' || c = '-' then
      if digits then some ([], c :: rest)
      else if signed then none
      else (scanExponent? true digits rest).map fun (taken, after) => (c :: taken, after)
    else if isDigitOrGap c then
      (scanExponent? signed (digits || c.isDigit) rest).map fun (taken, after) =>
        (c :: taken, after)
    else if digits then some ([], c :: rest) else none

/-- Add the exponent, if there is one; otherwise the number `mantissa` stands as it
    is, if it may. -/
def scanFloatTail? (mayEnd : Bool) (mantissa : List Char) : Scan
  | c :: rest =>
    let plain := if mayEnd then some (mantissa, c :: rest) else none
    if c = 'e' || c = 'E' then
      match scanExponent? false false rest with
      | some (exponent, after) => some (mantissa ++ c :: exponent, after)
      | none => plain
    else plain
  | [] => if mayEnd then some (mantissa, []) else none

/-- The digits of a number with a point or an exponent. -/
def scanFloatDigits? : Scan
  | c :: rest =>
    if c.isDigit then
      let whole := c :: rest.takeWhile isDigitOrGap
      match rest.dropWhile isDigitOrGap with
      | '.' :: after =>
        if after.head?.any (fun d => d = '.' || isIdentifierStart d) then none
        else scanFloatTail? true (whole ++ '.' :: after.takeWhile isDigitOrGap)
          (after.dropWhile isDigitOrGap)
      | after => scanFloatTail? false whole after
    else none
  | [] => none

/-- The value of a digit in bases up to 16. -/
def digitValue? (c : Char) : Option Nat :=
  if '0' ≤ c && c ≤ '9' then some (c.toNat - '0'.toNat)
  else if 'a' ≤ c && c ≤ 'f' then some (c.toNat - 'a'.toNat + 10)
  else if 'A' ≤ c && c ≤ 'F' then some (c.toNat - 'A'.toNat + 10)
  else none

/-- The base that the beginning of a number announces, and what follows it. -/
def numberBase : List Char → Nat × List Char × List Char
  | '0' :: 'x' :: rest => (16, ['0', 'x'], rest)
  | '0' :: 'o' :: rest => (8, ['0', 'o'], rest)
  | '0' :: 'b' :: rest => (2, ['0', 'b'], rest)
  | cs => (10, [], cs)

/-- The digits of a whole number.  A letter that is no digit of the base ends it, a
    decimal digit that is none is an error. -/
def scanDigits? (base : Nat) : (empty : Bool) → Scan
  | empty, [] => if empty then none else some ([], [])
  | empty, c :: rest =>
    let more := fun empty =>
      (scanDigits? base empty rest).map fun (taken, after) => (c :: taken, after)
    let stop := if empty then none else some ([], c :: rest)
    if c = '_' then if empty && base = 10 then none else more empty
    else match digitValue? c with
      | some value => if value < base then more false else if c.isDigit then none else stop
      | none => stop

/-- A whole number. -/
def scanWholeDigits? (cs : List Char) : Option (List Char × List Char) :=
  let (base, mark, rest) := numberBase cs
  (scanDigits? base true rest).map fun (taken, after) => (mark ++ taken, after)

/-- A number with its suffix; it must not run into a word. -/
def scanNumberWith? (digits? : Scan) (cs : List Char) : Option (List Char × List Char) :=
  match digits? cs with
  | some (taken, rest) =>
    let (taken, after) := withSuffix taken rest
    if after.head?.any isIdentifierRest then none else some (taken, after)
  | none => none

/-- A number. -/
def scanNumber? (cs : List Char) : Option (List Char × List Char) :=
  (scanNumberWith? scanFloatDigits? cs).or (scanNumberWith? scanWholeDigits? cs)

/-! ### Characters and strings -/

/-- The kinds of literals whose escapes differ. -/
inductive QuoteKind where
  | text
  | bytes
  | terminated
deriving DecidableEq, Repr

/-- Whether a character is a hexadecimal digit. -/
def isHexDigit (c : Char) : Bool := (digitValue? c).isSome

/-- A character given by number between braces: one to six digits, which may be
    separated, of a valid character. -/
def scanBraced? : (count value : Nat) → Scan
  | _, _, [] => none
  | count, value, c :: rest =>
    let more := fun count value =>
      (scanBraced? count value rest).map fun (taken, after) => (c :: taken, after)
    if c = '_' then if 0 < count then more count value else none
    else if c = '\x7d' then
      if 0 < count && value.isValidChar then some ([c], rest) else none
    else match digitValue? c with
      | some digit => if count < 6 then more (count + 1) (value * 16 + digit) else none
      | none => none

/-- Whether a number between braces is that of NUL. -/
def isNul (digits : List Char) : Bool := digits.all fun c => c = '0' || c = '_' || c = '\x7d'

/-- An escape after its backslash. -/
def scanEscape? (kind : QuoteKind) : Scan
  | 'x' :: a :: b :: rest =>
    if isHexDigit a && isHexDigit b && (kind ≠ .text || a < '8')
        && !(kind = .terminated && a = '0' && b = '0') then some (['x', a, b], rest) else none
  | 'u' :: '\x7b' :: rest =>
    match scanBraced? 0 0 rest with
    | some (taken, after) =>
      if kind = .bytes || (kind = .terminated && isNul taken) then none
      else some ('u' :: '\x7b' :: taken, after)
    | none => none
  | c :: rest =>
    if c = 'n' || c = 'r' || c = 't' || c = '\\' || c = '\'' || c = '"'
        || (c = '0' && kind ≠ .terminated) then some ([c], rest)
    else none
  | [] => none

/-- Whether a character may stand in a literal as it is. -/
def mayStand (kind : QuoteKind) (c : Char) : Bool :=
  match kind with
  | .text => true
  | .bytes => c.toNat < 128
  | .terminated => c ≠ '\x00'

/-- The blanks that follow a backslash at the end of a line. -/
def scanLineBreak? : Scan
  | '\r' :: '\n' :: rest =>
    let (blanks, after) := (rest.takeWhile isLineBlank, rest.dropWhile isLineBlank)
    if after.isEmpty then none else some ('\r' :: '\n' :: blanks, after)
  | '\n' :: rest =>
    let (blanks, after) := (rest.takeWhile isLineBlank, rest.dropWhile isLineBlank)
    if after.isEmpty then none else some ('\n' :: blanks, after)
  | _ => none
where
  /-- The blanks that are dropped. -/
  isLineBlank (c : Char) : Bool := c = ' ' || c = '\t' || c = '\n' || c = '\r'

/-- The contents of a string up to and with its closing quotation mark. -/
def scanStringRest? (kind : QuoteKind) : Scan
  | [] => none
  | '"' :: rest => some (['"'], rest)
  | '\\' :: rest =>
    match (scanLineBreak? rest).or (scanEscape? kind rest) with
    | some (escape, after) =>
      if after.length ≤ rest.length then
        (scanStringRest? kind after).map fun (taken, after) => ('\\' :: (escape ++ taken), after)
      else none
    | none => none
  | '\r' :: '\n' :: rest =>
    (scanStringRest? kind rest).map fun (taken, after) => ('\r' :: '\n' :: taken, after)
  | c :: rest =>
    if c ≠ '\r' && mayStand kind c then
      (scanStringRest? kind rest).map fun (taken, after) => (c :: taken, after)
    else none
termination_by cs => cs.length
decreasing_by all_goals (simp only [List.length_cons]; omega)

/-- The contents of a raw string up to and with its closing mark, which is a
    quotation mark and the hashes `fence`. -/
def scanRawRest? (kind : QuoteKind) (fence : List Char) : Scan
  | [] => none
  | c :: rest =>
    if c = '"' && fence.isPrefixOf rest then some ('"' :: fence, rest.drop fence.length)
    else if c = '\r' && rest.head? ≠ some '\n' then none
    else if mayStand kind c then
      (scanRawRest? kind fence rest).map fun (taken, after) => (c :: taken, after)
    else none

/-- A raw string from its `r` on. -/
def scanRaw? (kind : QuoteKind) : Scan
  | 'r' :: rest =>
    let fence := rest.takeWhile (· = '#')
    match rest.dropWhile (· = '#') with
    | '"' :: inside =>
      if fence.length < 256 then
        (scanRawRest? kind fence inside).map fun (taken, after) =>
          ('r' :: (fence ++ '"' :: taken), after)
      else none
    | _ => none
  | _ => none

/-- A string or raw string of a kind. -/
def scanQuoted? (kind : QuoteKind) : Scan
  | '"' :: rest => (scanStringRest? kind rest).map fun (taken, after) => ('"' :: taken, after)
  | cs => scanRaw? kind cs

/-- A character between single quotation marks. -/
def scanChar? (kind : QuoteKind) : Scan
  | '\'' :: '\\' :: rest =>
    match scanEscape? kind rest with
    | some (escape, '\'' :: after) => some ('\'' :: '\\' :: (escape ++ ['\'']), after)
    | _ => none
  | '\'' :: c :: '\'' :: rest =>
    if mayStand kind c then some (['\'', c, '\''], rest) else none
  | _ => none

/-- Put a prefix in front of a scanned literal. -/
def withPrefix (c : Char) (scan : Scan) (rest : List Char) : Option (List Char × List Char) :=
  (scan rest).map fun (taken, after) => (c :: taken, after)

/-- A string or character with its suffix. -/
def scanText? (cs : List Char) : Option (List Char × List Char) :=
  let found := match cs with
    | 'b' :: rest =>
      (withPrefix 'b' (scanQuoted? .bytes) rest).or (withPrefix 'b' (scanChar? .bytes) rest)
    | 'c' :: rest => withPrefix 'c' (scanQuoted? .terminated) rest
    | _ => (scanQuoted? .text cs).or (scanChar? .text cs)
  found.map fun (taken, rest) => withSuffix taken rest

/-! ### Marks -/

/-- Whether a text begins with a punctuation mark; the slash of a comment is none. -/
def startsMark : List Char → Bool
  | '/' :: c :: _ => c ≠ '/' && c ≠ '*'
  | c :: _ => "~!@#$%^&*-=+|;:,<.>/?'".toList.contains c
  | [] => false

/-- A punctuation mark.  It is joined to the next character if that is one, too; a
    single quotation mark has to name a lifetime. -/
def scanMark? : List Char → Option (Token × List Char)
  | '\'' :: rest =>
    match scanWord? rest with
    | some (_, after) =>
      if after.head? = some '\'' || (after.head? = some '#' && !startsWith "r#" rest) then none
      else some (.mark '\'' true, rest)
    | none => none
  | c :: rest => if startsMark (c :: rest) then some (.mark c (startsMark rest), rest) else none
  | [] => none

/-! ### Whole texts -/

/-- A token, or a bracket that opens or closes a group. -/
inductive Lexeme where
  | token (token : Token)
  | opening (delimiter : Delimiter)
  | closing (delimiter : Delimiter)
deriving Repr

/-- The bracket that a character is. -/
def bracket? : Char → Option Lexeme
  | '(' => some (.opening .parenthesis)
  | ')' => some (.closing .parenthesis)
  | '[' => some (.opening .bracket)
  | ']' => some (.closing .bracket)
  | '\x7b' => some (.opening .brace)
  | '\x7d' => some (.closing .brace)
  | _ => none

/-- Whether every carriage return of a text stands before a line feed. -/
def returnsEndLines : List Char → Bool
  | '\r' :: rest => rest.head? = some '\n' && returnsEndLines rest
  | _ :: rest => returnsEndLines rest
  | [] => true

/-- The attribute that a documentation comment stands for. -/
def documentation? (inner : Bool) (comment : List Char) : Option (List Lexeme) :=
  if returnsEndLines comment then
    some ((.token (.mark '#' false) :: if inner then [.token (.mark '!' false)] else []) ++
      [.token (.group .bracket
        (.word "doc" :: .mark '=' false :: [.literal (quote (String.ofList comment))]))])
  else none

/-- A documentation comment; other comments are blanks. -/
def scanDocumentation? : List Char → Option (List Lexeme × List Char)
  | '/' :: '/' :: c :: rest =>
    if c = '!' || isDocumentation '/' (c :: rest) then
      let (line, after) := splitLine rest
      (documentation? (c = '!') line).map fun found => (found, after)
    else none
  | '/' :: '*' :: c :: rest =>
    if c = '!' || isDocumentation '*' (c :: rest) then
      match splitBlock? 0 rest with
      | some (comment, after) => (documentation? (c = '!') comment).map fun found => (found, after)
      | none => none
    else none
  | _ => none

/-- The mark that stands for a token that could not be read; it is a literal. -/
def unreadable : String := "(/*ERROR*/)"

/-- The mark of a token that could not be read. -/
def scanUnreadable? : Scan := fun cs =>
  if startsWith unreadable cs then some (unreadable.toList, cs.drop unreadable.length) else none

/-- The next token or bracket, or the tokens of a documentation comment, of a text
    that does not begin with a blank. -/
def next? (cs : List Char) : Option (List Lexeme × List Char) :=
  match scanDocumentation? cs with
  | some found => some found
  | none =>
    match cs with
    | [] => none
    | c :: rest =>
      match scanUnreadable? cs, bracket? c with
      | some (taken, after), _ => some ([.token (.literal (String.ofList taken))], after)
      | none, some lexeme => some ([lexeme], rest)
      | none, none =>
        match (scanText? cs).or (scanNumber? cs) with
        | some (taken, after) => some ([.token (.literal (String.ofList taken))], after)
        | none =>
          match scanMark? cs with
          | some (token, after) => some ([.token token], after)
          | none => (scanWord? cs).map fun (taken, after) =>
              ([.token (.word (String.ofList taken))], after)

/-- The tokens and brackets of a text. -/
def lexemes? (cs : List Char) : Option (List Lexeme) :=
  let cs' := skipBlank cs
  if cs'.isEmpty then some []
  else match next? cs' with
    | some (found, rest) =>
      if rest.length < cs.length then (lexemes? rest).map (found ++ ·) else none
    | none => none
termination_by cs.length

/-- Match the brackets; `outer` holds the groups that are open, with the tokens in
    front of them, and `current` the tokens since then, the last one first. -/
def nest? : List Lexeme → (outer : List (Delimiter × List Token)) → (current : List Token) →
    Option (List Token)
  | [], [], current => some current.reverse
  | [], _ :: _, _ => none
  | .token token :: rest, outer, current => nest? rest outer (token :: current)
  | .opening delimiter :: rest, outer, current => nest? rest ((delimiter, current) :: outer) []
  | .closing _ :: _, [], _ => none
  | .closing delimiter :: rest, (opened, before) :: outer, current =>
    if opened = delimiter then nest? rest outer (.group delimiter current.reverse :: before)
    else none

/-- A text without the mark of its byte order. -/
def withoutOrderMark : List Char → List Char
  | '\ufeff' :: rest => rest
  | cs => cs

/-- **The tokens of a text,** with its brackets matched; a mark of the byte order may stand in
    front. -/
def tokens? (text : String) : Option (List Token) :=
  match lexemes? (withoutOrderMark text.toList) with
  | some found => nest? found [] []
  | none => none

end TermNet.Source
