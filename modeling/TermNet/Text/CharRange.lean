namespace TermNet.Text

/-!
# Ranges of characters

Properties of characters are given by tables of code point ranges.

* `CharRange` — the first and the last code point of a range;
* `inTable` — whether a character lies in one of the ranges of a table.
-/

/-- The first and the last code point of a range. -/
abbrev CharRange := Nat × Nat

/-- Whether a character lies in one of the ranges of a table. -/
def inTable (table : List CharRange) (c : Char) : Bool :=
  table.any fun (first, last) => first ≤ c.toNat && c.toNat ≤ last

/-- The characters that separate words, `White_Space` in the standard. -/
def whiteSpaceTable : List CharRange := [
  (0x9, 0xd), (0x20, 0x20), (0x85, 0x85), (0xa0, 0xa0), (0x1680, 0x1680), (0x2000, 0x200a),
  (0x2028, 0x2029), (0x202f, 0x202f), (0x205f, 0x205f), (0x3000, 0x3000)]

/-- Whether a character is white space. -/
def isWhiteSpace (c : Char) : Bool := inTable whiteSpaceTable c

end TermNet.Text
