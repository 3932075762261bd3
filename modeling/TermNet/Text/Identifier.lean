import TermNet.Text.IdentifierTable

namespace TermNet.Text

/-!
# Identifiers

* `isIdentifierStart`, `isIdentifierRest` — the characters of an identifier;
* `keywords`, `isKeyword` — the words that are no identifiers;
* `withoutRawMark` — a name without the prefix `r#`, which makes an identifier of a
  keyword.
-/

/-- Whether a character may begin an identifier: an underscore or a letter. -/
def isIdentifierStart (c : Char) : Bool :=
  if c.toNat < 128 then c = '_' || c.isAlpha else inTable identifierStartTable c

/-- Whether a character may follow in an identifier: digits and marks as well. -/
def isIdentifierRest (c : Char) : Bool :=
  if c.toNat < 128 then c = '_' || c.isAlphanum
  else inTable identifierStartTable c || inTable identifierRestTable c

/-- What may begin an identifier may also follow in it. -/
theorem isIdentifierRest_of_start {c : Char} (h : isIdentifierStart c = true) :
    isIdentifierRest c = true := by
  unfold isIdentifierStart at h
  unfold isIdentifierRest
  split
  · simp_all only [if_true, Char.isAlphanum, Bool.or_eq_true]
    exact h.imp_right .inl
  · simp_all

/-- The words that cannot stand for an identifier; the underscore is one of them. -/
def keywords : List String := [
  "_", "abstract", "as", "async", "await", "become", "box", "break", "const", "continue",
  "crate", "do", "dyn", "else", "enum", "extern", "false", "final", "fn", "for", "if", "impl",
  "in", "let", "loop", "macro", "match", "mod", "move", "mut", "override", "priv", "pub", "ref",
  "return", "Self", "self", "static", "struct", "super", "trait", "true", "try", "type",
  "typeof", "unsafe", "unsized", "use", "virtual", "where", "while", "yield"]

/-- Whether a word cannot stand for an identifier. -/
def isKeyword (word : String) : Bool := keywords.contains word

/-- The words that stay keywords even after `r#`. -/
def neverRaw : List String := ["_", "super", "self", "Self", "crate"]

/-- A name without the prefix `r#`. -/
def withoutRawMark (name : String) : String :=
  match name.toList with
  | 'r' :: '#' :: rest => String.ofList rest
  | _ => name

end TermNet.Text
