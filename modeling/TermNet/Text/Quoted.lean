import TermNet.Text.PrintableTable

namespace TermNet.Text

/-!
# Quoted text

* `quote` — a text as a string literal of source code;
* `display` — a text in quotation marks within a message.

Both escape the quotation mark, the backslash and whatever is not printed as it
is.  They differ in NUL only, which a literal writes with two digits where an
octal digit follows.
-/

/-- The digits of a number in base 16. -/
def hexadecimal (n : Nat) : String := String.ofList (Nat.toDigits 16 n)

/-- A character by its number. -/
def escapeByNumber (c : Char) : String := "\\u\x7b" ++ hexadecimal c.toNat ++ "\x7d"

/-- A character other than NUL as it stands between quotation marks. -/
def escapeChar (c : Char) : String :=
  if c = '\t' then "\\t"
  else if c = '\r' then "\\r"
  else if c = '\n' then "\\n"
  else if c = '\\' then "\\\\"
  else if c = '"' then "\\\""
  else if inTable combiningTable c || inTable unprintableTable c then escapeByNumber c
  else c.toString

/-- Whether a text continues with an octal digit. -/
def startsOctal : List Char → Bool
  | c :: _ => '0' ≤ c && c ≤ '7'
  | [] => false

/-- The characters of a literal between its quotation marks. -/
def quoteChars : List Char → String
  | [] => ""
  | c :: rest =>
    (if c ≠ '\x00' then escapeChar c else if startsOctal rest then "\\x00" else "\\0")
      ++ quoteChars rest

/-- A text as a string literal. -/
def quote (text : String) : String := "\"" ++ quoteChars text.toList ++ "\""

/-- A text in quotation marks within a message. -/
def display (text : String) : String :=
  "\"" ++ String.join (text.toList.map fun c => if c = '\x00' then "\\0" else escapeChar c) ++ "\""

end TermNet.Text
