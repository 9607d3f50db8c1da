import ContractScript.Json.Basic

/-!
# JSON text

- `Json.compact`: a value without blanks.
- `Json.pretty`: a field or an item a line, two blanks to a level; empty containers stay closed.

In strings only the quote, the backslash and control characters are escaped. What stands for nothing
is written as null.
-/

namespace ContractScript.Json

/-- A character of a string. -/
def escapeChar (c : Char) : String :=
  let n := c.toNat
  if n = 34 then "\\\""
  else if n = 92 then "\\\\"
  else if n = 8 then "\\b"
  else if n = 9 then "\\t"
  else if n = 10 then "\\n"
  else if n = 12 then "\\f"
  else if n = 13 then "\\r"
  else if n < 16 then "\\u000" ++ String.ofList (Nat.toDigits 16 n)
  else if n < 32 then "\\u00" ++ String.ofList (Nat.toDigits 16 n)
  else String.singleton c

/-- A string in quotes, after a text. -/
def writeString (acc s : String) : String :=
  (s.foldl (fun acc c => acc ++ escapeChar c) (acc ++ "\"")) ++ "\""

/-- A `Json` that is neither array nor object, after a text. -/
def writeScalar (acc : String) : Json → String
  | .null => acc ++ "null"
  | .bool true => acc ++ "true"
  | .bool false => acc ++ "false"
  | .int value => acc ++ Text.decimal value
  | .double isNegative x => (if isNegative then acc ++ "-" else acc) ++ x.text
  | .string s => writeString acc s
  | .array _ => acc
  | .object _ => acc
  | .unreadable => acc ++ "null"

/-! ## Without blanks -/

mutual

/-- A `Json` after a text. -/
def writeCompact (acc : String) (v : Json) : String :=
  match v with
  | .array items => writeCompactItems (acc ++ "[") true items
  | .object fields => writeCompactFields (acc ++ "\x7b") true fields
  | v => writeScalar acc v
termination_by structural v

/-- The items of an array and its end; the first has no comma before it. -/
def writeCompactItems (acc : String) (isFirst : Bool) (items : List Json) : String :=
  match items with
  | [] => acc ++ "]"
  | item :: rest =>
    let acc := if isFirst then acc else acc ++ ","
    writeCompactItems (writeCompact acc item) false rest
termination_by structural items

/-- The fields of an object and its end; the first has no comma before it. -/
def writeCompactFields (acc : String) (isFirst : Bool) (fields : List (String × Json)) : String :=
  match fields with
  | [] => acc ++ "\x7d"
  | (name, value) :: rest =>
    let acc := if isFirst then acc else acc ++ ","
    writeCompactFields (writeCompact (writeString acc name ++ ":") value) false rest
termination_by structural fields

end

/-- The text of a `Json` without blanks. -/
def compact (v : Json) : String :=
  writeCompact "" v

/-! ## Indented -/

/-- A new line at a level. -/
def newLine (acc : String) (level : Nat) : String :=
  acc ++ "\n" ++ String.ofList (List.replicate (2 * level) ' ')

mutual

/-- A `Json` at a level, after a text. -/
def writePretty (level : Nat) (acc : String) (v : Json) : String :=
  match v with
  | .array [] => acc ++ "[]"
  | .array items => writePrettyItems level (acc ++ "[") true items
  | .object [] => acc ++ "\x7b\x7d"
  | .object fields => writePrettyFields level (acc ++ "\x7b") true fields
  | v => writeScalar acc v
termination_by structural v

/-- The items of an array at a level, each on a line of its own, and its end. -/
def writePrettyItems (level : Nat) (acc : String) (isFirst : Bool) (items : List Json) : String :=
  match items with
  | [] => newLine acc level ++ "]"
  | item :: rest =>
    let acc := newLine (if isFirst then acc else acc ++ ",") (level + 1)
    writePrettyItems level (writePretty (level + 1) acc item) false rest
termination_by structural items

/-- The fields of an object at a level, each on a line of its own, and its end. -/
def writePrettyFields (level : Nat) (acc : String) (isFirst : Bool)
    (fields : List (String × Json)) : String :=
  match fields with
  | [] => newLine acc level ++ "\x7d"
  | (name, value) :: rest =>
    let acc := newLine (if isFirst then acc else acc ++ ",") (level + 1)
    writePrettyFields level (writePretty (level + 1) (writeString acc name ++ ": ") value) false
      rest
termination_by structural fields

end

/-- The text of a `Json` with a field or an item a line. -/
def pretty (v : Json) : String :=
  writePretty 0 "" v

end ContractScript.Json
