import TermNet.Sorting

namespace TermNet

/-!
# JSON values and their texts

Values as they are written: numbers keep their digits and objects their fields in
order, repeated ones included.

* `Json` — the values;
* `text?`, `natural?`, `listOf?`, `fieldsOf?` — what a value is, if it is of that kind;
* `Json.Record` — the fields of a structure, which may also be written as a list;
* `Json.quoted` — a string with its escapes;
* `Json.pretty` — the text of a value; lists and objects that are not empty have a line per item,
  indented by two spaces.
-/

/-- Values as they are written. -/
inductive Json where
  | null
  | bool (value : Bool)
  | number (literal : String)
  | string (value : String)
  /-- A string whose escapes name halves of characters. -/
  | brokenString
  | list (items : List Json)
  /-- Fields in order; a name whose escapes name halves of characters is missing. -/
  | object (fields : List (Option String × Json))
deriving Repr, Inhabited

namespace Json

/-- The text of a string. -/
def text? : Json → Option String
  | string value => some value
  | _ => none

/-- The limit of the numbers that count things. -/
def naturalLimit : Nat := 18446744073709551616

/-- The value of decimal digits. -/
def digitsValue (digits : List Char) : Nat :=
  digits.foldl (fun value c => value * 10 + (c.toNat - '0'.toNat)) 0

/-- The natural number below the limit that is written without a sign, a point or an
    exponent. -/
def natural? : Json → Option Nat
  | number literal =>
    let digits := literal.toList
    if digits.all Char.isDigit && digitsValue digits < naturalLimit then some (digitsValue digits)
    else none
  | _ => none

/-- The items of a list. -/
def listOf? {α : Type} (item? : Json → Option α) : Json → Option (List α)
  | list items => items.mapM item?
  | _ => none

/-- The fields of an object, all of which need a name. -/
def fieldsOf? {α : Type} (value? : Json → Option α) : Json → Option (List (String × α))
  | object fields => fields.mapM fun (name, value) =>
    match name, value? value with
    | some name, some value => some (name, value)
    | _, _ => none
  | _ => none

/-- The value of an optional item. -/
def optionOf? {α : Type} (value? : Json → Option α) : Json → Option (Option α)
  | null => some none
  | value => (value? value).map some

/-- The fields of a structure. -/
structure Record where
  /-- Whether the structure is written as a list of its fields. -/
  isList : Bool
  /-- The known fields that are there. -/
  fields : List (String × Json)

/-- **The fields of a structure** with these field names.  An object may have other
    fields, but none of these twice; a list holds the first ones in order. -/
def record? (names : List String) : Json → Option Record
  | object fields =>
    if fields.all (·.1.isSome) then
      let known := fields.filterMap fun (name, value) =>
        name.bind fun name => if names.contains name then some (name, value) else none
      if (known.map Prod.fst).Nodup then some ⟨false, known⟩ else none
    else none
  | list items => if items.length ≤ names.length then some ⟨true, names.zip items⟩ else none
  | _ => none

namespace Record

/-- A field that has to be there. -/
def required? {α : Type} (record : Record) (name : String) (value? : Json → Option α) : Option α :=
  (record.fields.lookup name).bind value?

/-- A field that has a default. -/
def field? {α : Type} (record : Record) (name : String) (value? : Json → Option α) (default : α) :
    Option α :=
  match record.fields.lookup name with
  | some value => value? value
  | none => some default

/-- A field that may be null.  In an object it may be missing too. -/
def nullable? {α : Type} (record : Record) (name : String) (value? : Json → Option α) :
    Option (Option α) :=
  match record.fields.lookup name with
  | some value => optionOf? value? value
  | none => if record.isList then none else some none

end Record

/-! ### Texts -/

/-- The last two digits of a number in base 16. -/
def twoDigits (n : Nat) : String :=
  String.ofList [Nat.digitChar (n / 16 % 16), Nat.digitChar (n % 16)]

/-- A character within a string. -/
def escapeChar (c : Char) : String :=
  if c = '"' then "\\\""
  else if c = '\\' then "\\\\"
  else if c = '\x08' then "\\b"
  else if c = '\x0c' then "\\f"
  else if c = '\n' then "\\n"
  else if c = '\r' then "\\r"
  else if c = '\t' then "\\t"
  else if c.toNat < 0x20 then "\\u00" ++ twoDigits c.toNat
  else c.toString

/-- A string with its escapes. -/
def quoted (text : String) : String :=
  "\"" ++ String.join (text.toList.map escapeChar) ++ "\""

/-- A string that has no text. -/
def broken : String := quoted "\ufffd"

/-- Lines between brackets, the closing one on a line of its own. -/
def bracketed (opening closing indent : String) (lines : List String) : String :=
  if lines.isEmpty then opening ++ closing
  else opening ++ "\n" ++ joinWith ",\n" lines ++ "\n" ++ indent ++ closing

mutual

/-- **The text of a value** whose lines are indented by `indent`. -/
def pretty (indent : String) : Json → String
  | .null => "null"
  | .bool value => if value then "true" else "false"
  | .number literal => literal
  | .string value => quoted value
  | .brokenString => broken
  | .list items => bracketed "[" "]" indent (prettyItems (indent ++ "  ") items)
  | .object fields => bracketed "\x7b" "\x7d" indent (prettyFields (indent ++ "  ") fields)
termination_by structural value => value

/-- The lines of items. -/
def prettyItems (indent : String) : List Json → List String
  | [] => []
  | item :: rest => (indent ++ pretty indent item) :: prettyItems indent rest
termination_by structural items => items

/-- The lines of fields. -/
def prettyFields (indent : String) : List (Option String × Json) → List String
  | [] => []
  | field :: rest => prettyField indent field :: prettyFields indent rest
termination_by structural fields => fields

/-- The line of a field. -/
def prettyField (indent : String) : Option String × Json → String
  | (name, value) =>
    indent ++ (match name with
      | some name => quoted name
      | none => broken) ++ ": " ++ pretty indent value
termination_by structural field => field

end

end Json

end TermNet
