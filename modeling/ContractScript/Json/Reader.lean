import ContractScript.Json.Basic

/-!
# Reading JSON

A text is read in two passes, each a fold: characters to tokens, tokens to a value. The open
arrays and objects are kept on a stack, so that nesting has no limit of its own.

- `Json.Token`, `Json.tokens?`: the tokens of a text.
- `Json.ofTokens?`: the value that tokens write.
- `Json.parse?`: the value of a text; blanks may stand around every token.

Strings and numbers that are well written and stand for nothing are kept as `Json.unreadable`:
whether that matters is for the reader of the value to say.
-/

namespace ContractScript.Json

/-- A token of a JSON text. -/
inductive Token where
  | openArray | closeArray | openObject | closeObject | comma | colon
  /-- A string, if it stands for a text. -/
  | text (s : Option String)
  /-- A number or one of the three words. -/
  | scalar (v : Json)

/-! ## Scalars -/

/-- The digits at the start of a text, at least one, and what follows. -/
def digits? (cs : List Char) : Option (List Char × List Char) :=
  match cs.span Char.isDigit with
  | ([], _) => none
  | (ds, rest) => some (ds, rest)

/-- The digits after a point at the start of a text, none if there is no point, and what follows. -/
def fraction? : List Char → Option (List Char × List Char)
  | '.' :: rest => digits? rest
  | rest => some ([], rest)

/-- The exponent that a text writes, if it is not empty. -/
def exponent? : List Char → Option (Option Int)
  | [] => some none
  | mark :: rest =>
    let (isNegative, unsigned) :=
      match rest with
      | '-' :: ds => (true, ds)
      | '+' :: ds => (false, ds)
      | ds => (false, ds)
    match digits? unsigned with
    | some (ds, []) =>
      if mark = 'e' ∨ mark = 'E' then
        (Text.readDigits 10 0 ds).map fun n => some (if isNegative then -(n : Int) else n)
      else none
    | _ => none

/-- The number that digits write after those read so far, and the digits that are left when the next
one would exceed 64 bits. -/
def leading : Nat → List Char → Nat × List Char
  | n, [] => (n, [])
  | n, c :: cs =>
    match Text.digitValue? 10 c with
    | some d => if 10 * n + d < 18446744073709551616 then leading (10 * n + d) cs else (n, c :: cs)
    | none => (n, c :: cs)

/-- The value of a number. An integer of 64 bits is exact, except for a zero with a sign. Of any
other number the digits count that fit into 64 bits; those left before the point scale it up. -/
def numberValue (isNegative : Bool) (whole fraction : List Char) (exponent : Option Int) : Json :=
  let (n, left) := leading 0 whole
  let isExact := left.isEmpty && fraction.isEmpty && exponent.isNone
  if isExact && !isNegative then .int n
  else if isExact && 0 < n && n ≤ 9223372036854775808 then .int (-(n : Int))
  else
    let (significand, unused) := leading n fraction
    let places : Int := left.length - (fraction.length - unused.length : Nat)
    match Double.ofScientific? significand (places + exponent.getD 0) with
    | some x => .double isNegative x
    | none => .unreadable

/-- A number: no zero stands before other digits. -/
def number? (cs : List Char) : Option Json := do
  let (isNegative, unsigned) :=
    match cs with
    | '-' :: rest => (true, rest)
    | cs => (false, cs)
  let (whole, rest) ← digits? unsigned
  if whole.head? = some '0' ∧ whole ≠ ['0'] then none
  else
    let (fraction, rest) ← fraction? rest
    let exponent ← exponent? rest
    return numberValue isNegative whole fraction exponent

/-- A number or one of the three words. -/
def scalar? (cs : List Char) : Option Json :=
  if cs = "null".toList then some .null
  else if cs = "true".toList then some (.bool true)
  else if cs = "false".toList then some (.bool false)
  else number? cs

/-! ## Tokens -/

/-- What is being read. Characters of the current token are kept last first; those of a string are
missing once half of a surrogate pair stood alone in it. -/
inductive Lexing where
  /-- Between tokens. -/
  | idle
  /-- In a number or a word. -/
  | scalar (seen : List Char)
  /-- In a string. -/
  | text (seen : Option (List Char))
  /-- After the backslash of an escape. -/
  | escape (seen : Option (List Char))
  /-- In the four digits of an escape; `high` is the first half of a pair. -/
  | code (seen : Option (List Char)) (high : Option Nat) (value count : Nat)
  /-- After the first half of a pair. -/
  | pair (seen : Option (List Char)) (high : Nat)
  /-- After the backslash that may start the second half of a pair. -/
  | pairEscape (seen : Option (List Char)) (high : Nat)

/-- The blanks between tokens. -/
def isSpace (c : Char) : Bool :=
  c == ' ' || c == '\t' || c == '\n' || c == '\r'

/-- The `Token` of a character that stands alone. -/
def punctuation? (c : Char) : Option Token :=
  if c = '[' then some .openArray
  else if c = ']' then some .closeArray
  else if c = '\x7b' then some .openObject
  else if c = '\x7d' then some .closeObject
  else if c = ',' then some .comma
  else if c = ':' then some .colon
  else none

/-- The character that a short escape stands for. -/
def escaped? (c : Char) : Option Char :=
  if c = '\x22' ∨ c = '\\' ∨ c = '/' then some c
  else if c = 'b' then some '\x08'
  else if c = 'f' then some '\x0c'
  else if c = 'n' then some '\n'
  else if c = 'r' then some '\r'
  else if c = 't' then some '\t'
  else none

/-- Go on after the four digits of an escape. A number of the surrogate range is half of a pair,
and a half that stands alone is no character. -/
def afterCode (seen : Option (List Char)) (high : Option Nat) (value : Nat) : Lexing :=
  let isHigh := 0xd800 ≤ value ∧ value < 0xdc00
  let isLow := 0xdc00 ≤ value ∧ value < 0xe000
  match high with
  | none =>
    if isHigh then .pair seen value
    else if isLow then .text none
    else .text (seen.map (Char.ofNat value :: ·))
  | some h =>
    if isLow then
      .text (seen.map (Char.ofNat (0x10000 + (h - 0xd800) * 0x400 + (value - 0xdc00)) :: ·))
    else .text none

/-- Read a character of a string; the quote ends it. -/
def textStep (seen : Option (List Char)) (found : List Token) (c : Char) :
    Option (Lexing × List Token) :=
  if c = '\x22' then some (.idle, .text (seen.map fun cs => String.ofList cs.reverse) :: found)
  else if c = '\\' then some (.escape seen, found)
  else if c.toNat < 32 then none
  else some (.text (seen.map (c :: ·)), found)

/-- Read the character after the backslash of an escape. -/
def escapeStep (seen : Option (List Char)) (found : List Token) (c : Char) :
    Option (Lexing × List Token) :=
  if c = 'u' then some (.code seen none 0 0, found)
  else (escaped? c).map fun e => (.text (seen.map (e :: ·)), found)

/-- Read a character between `Token`s. The tokens are kept last first. -/
def startToken (found : List Token) (c : Char) : Option (Lexing × List Token) :=
  if isSpace c then some (.idle, found)
  else if c = '\x22' then some (.text (some []), found)
  else
    match punctuation? c with
    | some t => some (.idle, t :: found)
    | none => some (.scalar [c], found)

/-- Read a character. -/
def lexStep (s : Lexing × List Token) (c : Char) : Option (Lexing × List Token) :=
  let (state, found) := s
  match state with
  | .idle => startToken found c
  | .scalar seen =>
    if isSpace c || c == '\x22' || (punctuation? c).isSome then
      (scalar? seen.reverse).bind fun v => startToken (.scalar v :: found) c
    else some (.scalar (c :: seen), found)
  | .text seen => textStep seen found c
  | .escape seen => escapeStep seen found c
  | .code seen high value count =>
    (Text.digitValue? 16 c).map fun d =>
      if count = 3 then (afterCode seen high (16 * value + d), found)
      else (.code seen high (16 * value + d) (count + 1), found)
  | .pair seen high =>
    if c = '\\' then some (.pairEscape seen high, found) else textStep none found c
  | .pairEscape seen high =>
    if c = 'u' then some (.code seen (some high) 0 0, found) else escapeStep none found c

/-- The `Token`s of a text, unless it ends inside of one. -/
def tokens? (text : String) : Option (List Token) :=
  match text.toList.foldlM lexStep (.idle, []) with
  | some (.idle, found) => some found.reverse
  | some (.scalar seen, found) => (scalar? seen.reverse).map fun v => (.scalar v :: found).reverse
  | _ => none

/-! ## Values -/

/-- An array or an object that is still open; what it holds is kept last first. The fields of an
object are missing once a name in it is no text. -/
inductive Opened where
  | array (items : List Json)
  | object (fields : Option (List (String × Json)))
  /-- An object whose last field has its name, and waits for its value. -/
  | field (fields : Option (List (String × Json))) (name : Option String)

/-- What may come next. -/
inductive Expected where
  | value
  /-- A value, or the end of the array that was just opened. -/
  | valueOrClose
  /-- The name of a field. -/
  | name
  /-- The name of a field, or the end of the object that was just opened. -/
  | nameOrClose
  /-- The colon after a name. -/
  | colon (name : Option String)
  /-- A comma, or the end of the innermost array or object. -/
  | commaOrClose
  /-- Nothing: the value is complete. -/
  | nothing (v : Json)

/-- Put a complete `Json` into what encloses it. -/
def putValue (v : Json) : List Opened → Option (List Opened × Expected)
  | [] => some ([], .nothing v)
  | .array items :: outer => some (.array (v :: items) :: outer, .commaOrClose)
  | .field (some fields) (some name) :: outer =>
    some (.object (some ((name, v) :: fields)) :: outer, .commaOrClose)
  | .field _ _ :: outer => some (.object none :: outer, .commaOrClose)
  | .object _ :: _ => none

/-- Close the innermost array or object. -/
def close (isArray : Bool) : List Opened → Option (List Opened × Expected)
  | .array items :: outer => if isArray then putValue (.array items.reverse) outer else none
  | .object (some fields) :: outer =>
    if isArray then none else putValue (.object fields.reverse) outer
  | .object none :: outer => if isArray then none else putValue .unreadable outer
  | _ => none

/-- Read a `Token` where a value stands. -/
def startValue (stack : List Opened) : Token → Option (List Opened × Expected)
  | .openArray => some (.array [] :: stack, .valueOrClose)
  | .openObject => some (.object (some []) :: stack, .nameOrClose)
  | .text (some s) => putValue (.string s) stack
  | .text none => putValue .unreadable stack
  | .scalar v => putValue v stack
  | _ => none

/-- Read a `Token`. -/
def parseStep (s : List Opened × Expected) (t : Token) : Option (List Opened × Expected) :=
  let (stack, expected) := s
  match expected, t with
  | .value, t => startValue stack t
  | .valueOrClose, .closeArray => close true stack
  | .valueOrClose, t => startValue stack t
  | .name, .text name => some (stack, .colon name)
  | .nameOrClose, .text name => some (stack, .colon name)
  | .nameOrClose, .closeObject => close false stack
  | .colon name, .colon =>
    match stack with
    | .object fields :: outer => some (.field fields name :: outer, .value)
    | _ => none
  | .commaOrClose, .closeArray => close true stack
  | .commaOrClose, .closeObject => close false stack
  | .commaOrClose, .comma =>
    match stack with
    | .array _ :: _ => some (stack, .value)
    | .object _ :: _ => some (stack, .name)
    | _ => none
  | _, _ => none

/-- The `Json` that tokens write. -/
def ofTokens? (tokens : List Token) : Option Json :=
  match tokens.foldlM parseStep ([], .value) with
  | some (_, .nothing v) => some v
  | _ => none

/-- The `Json` of a text. -/
def parse? (text : String) : Option Json :=
  (tokens? text).bind ofTokens?

end ContractScript.Json
