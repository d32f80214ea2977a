import DataRace.Json.Basic

/-!
# Reading JSON

The text is cut into tokens one at a time (`token?`), and a machine with a stack of open
containers (`step?`) builds the value.  `readFirst?` answers the first value of a text and what
follows it, `read?` the value of a text that holds nothing else but blanks.

Nothing beyond the grammar is accepted: no byte order mark, no comment, no trailing comma, no
leading zero, no raw control character in a string.
-/

namespace DataRace

namespace Json

/-! ### Strings -/

/-- One character of a string literal, or one sixteen bit unit written by a `\u` escape. -/
inductive Unit16 where
  | char (c : Char)
  | unit (code : Nat)

/-- The number written by four hexadecimal digits. -/
def hex4? (a b c d : Char) : Option Nat := Numeral.ofDigits? 16 [a, b, c, d]

/-- The character that a one letter escape stands for. -/
def unescape? : Char → Option Char
  | '"' => some '"'
  | '\\' => some '\\'
  | '/' => some '/'
  | 'b' => some '\x08'
  | 'f' => some '\x0c'
  | 'n' => some '\n'
  | 'r' => some '\r'
  | 't' => some '\t'
  | _ => none

/-- The inside of a string literal up to its closing quote, and what follows the quote. -/
def literal? : List Char → Option (List Unit16 × List Char)
  | [] => none
  | '"' :: cs => some ([], cs)
  | '\\' :: 'u' :: a :: b :: c :: d :: cs => do
    let code ← hex4? a b c d
    let (units, rest) ← literal? cs
    some (.unit code :: units, rest)
  | '\\' :: e :: cs => do
    let c ← unescape? e
    let (units, rest) ← literal? cs
    some (.char c :: units, rest)
  | c :: cs =>
    if c = '\\' ∨ c.toNat < 0x20 then none
    else do
      let (units, rest) ← literal? cs
      some (.char c :: units, rest)

/-- The text of a literal: a high and a low surrogate in a row make one character, and neither may
stand alone. -/
def textOf? : List Unit16 → Option (List Char)
  | [] => some []
  | .char c :: us => (textOf? us).map (c :: ·)
  | .unit high :: .unit low :: us =>
    if 0xD800 ≤ high ∧ high < 0xDC00 then
      if 0xDC00 ≤ low ∧ low < 0xE000 then
        (textOf? us).map
          (Char.ofNat (0x10000 + (high - 0xD800) * 0x400 + (low - 0xDC00)) :: ·)
      else none
    else if 0xDC00 ≤ high ∧ high < 0xE000 then none
    else (textOf? (.unit low :: us)).map (Char.ofNat high :: ·)
  | .unit code :: us =>
    if 0xD800 ≤ code ∧ code < 0xE000 then none
    else (textOf? us).map (Char.ofNat code :: ·)

/-! ### Numbers -/

/-- A number at the front of a text and what follows it. -/
def number? (cs : List Char) : Option (Json × List Char) :=
  let (negative, cs) :=
    match cs with
    | '-' :: r => (true, r)
    | r => (false, r)
  match Decimal.digits cs with
  | ([], _) => none
  | ('0' :: _ :: _, _) => none
  | (whole, rest) =>
    let fraction? : Option (Option (List Char) × List Char) :=
      match rest with
      | '.' :: r =>
        match Decimal.digits r with
        | ([], _) => none
        | (ds, r) => some (some ds, r)
      | r => some (none, r)
    do
      let (fraction, rest) ← fraction?
      let (exponent, rest) ← Decimal.exponentPart? rest
      let value := Decimal.ofParts negative whole (fraction.getD []) (exponent.getD 0)
      if fraction.isNone && exponent.isNone && !(negative && value.mantissa == 0) then
        some (.int (if negative then -(value.mantissa : Int) else value.mantissa), rest)
      else some (.real value, rest)

/-! ### Tokens -/

/-- A token of a JSON text. -/
inductive Token where
  | openArray
  | closeArray
  | openObject
  | closeObject
  | comma
  | colon
  /-- A string, without a text if it names half of a surrogate pair. -/
  | text (s : Option String)
  | scalar (v : Json)

/-- Whether a character is skipped between tokens. -/
def isBlank (c : Char) : Bool := c == ' ' || c == '\t' || c == '\n' || c == '\r'

/-- What follows a word at the front of a text. -/
def word? : List Char → List Char → Option (List Char)
  | [], rest => some rest
  | w :: ws, c :: cs => if w = c then word? ws cs else none
  | _ :: _, [] => none

/-- The token at the front of a text without leading blanks, and what follows it. -/
def token? : List Char → Option (Token × List Char)
  | '[' :: cs => some (.openArray, cs)
  | ']' :: cs => some (.closeArray, cs)
  | '\x7b' :: cs => some (.openObject, cs)
  | '\x7d' :: cs => some (.closeObject, cs)
  | ',' :: cs => some (.comma, cs)
  | ':' :: cs => some (.colon, cs)
  | '"' :: cs =>
    (literal? cs).map fun (units, rest) => (.text ((textOf? units).map String.ofList), rest)
  | 'n' :: cs => (word? "ull".toList cs).map (.scalar .null, ·)
  | 't' :: cs => (word? "rue".toList cs).map (.scalar (.bool true), ·)
  | 'f' :: cs => (word? "alse".toList cs).map (.scalar (.bool false), ·)
  | cs => (number? cs).map fun (v, rest) => (.scalar v, rest)

/-! ### The machine -/

/-- A container that is still open, with what it holds so far in reverse.  A `member` waits for the
value of its key. -/
inductive Container where
  | array (items : List Json)
  | object (members : List (Option String × Json))
  | member (members : List (Option String × Json)) (key : Option String)

/-- What may come next. -/
inductive Expect where
  | value
  | valueOrEnd
  | key
  | keyOrEnd
  | colon
  | commaOrEnd

/-- A run of the machine: finished with a value, or inside containers. -/
inductive State where
  | done (v : Json)
  | inside (opened : List Container) (expect : Expect)

/-- The value of an object, which needs a text for each key. -/
def object (members : List (Option String × Json)) : Json :=
  match members.mapM fun m => m.1.map (·, m.2) with
  | some ms => .obj ms
  | none => .lone

/-- The state after a value has been read. -/
def complete (v : Json) : List Container → Option State
  | [] => some (.done v)
  | .array items :: outer => some (.inside (.array (v :: items) :: outer) .commaOrEnd)
  | .member members key :: outer =>
    some (.inside (.object ((key, v) :: members) :: outer) .commaOrEnd)
  | .object _ :: _ => none

/-- The state after a token. -/
def step? (opened : List Container) : Expect → Token → Option State
  | .value, t | .valueOrEnd, t =>
    match t with
    | .openArray => some (.inside (.array [] :: opened) .valueOrEnd)
    | .openObject => some (.inside (.object [] :: opened) .keyOrEnd)
    | .text (some s) => complete (.str s) opened
    | .text none => complete .lone opened
    | .scalar v => complete v opened
    | _ => none
  | .key, .text k | .keyOrEnd, .text k =>
    match opened with
    | .object members :: outer => some (.inside (.member members k :: outer) .colon)
    | _ => none
  | .colon, .colon => some (.inside opened .value)
  | .commaOrEnd, .comma =>
    match opened with
    | .array _ :: _ => some (.inside opened .value)
    | .object _ :: _ => some (.inside opened .key)
    | _ => none
  | .keyOrEnd, .closeObject | .commaOrEnd, .closeObject =>
    match opened with
    | .object members :: outer => complete (object members.reverse) outer
    | _ => none
  | .commaOrEnd, .closeArray =>
    match opened with
    | .array items :: outer => complete (.arr items.reverse) outer
    | _ => none
  | _, _ => none

/-- One token more, with the end of an empty array let through where a first element may stand. -/
def advance? (opened : List Container) (expect : Expect) (t : Token) : Option State :=
  match expect, t with
  | .valueOrEnd, .closeArray => step? opened .commaOrEnd .closeArray
  | _, _ => step? opened expect t

/-- The machine run on a text.  Every token takes at least one character; the first argument bounds
their number. -/
def run? : Nat → List Container → Expect → List Char → Option (Json × List Char)
  | 0, _, _, _ => none
  | n + 1, opened, expect, cs => do
    let (t, rest) ← token? (cs.dropWhile isBlank)
    match ← advance? opened expect t with
    | .done v => some (v, rest)
    | .inside opened expect => run? n opened expect rest

/-- The first value of a text, and what follows it. -/
def readFirst? (cs : List Char) : Option (Json × List Char) :=
  run? (cs.length + 1) [] .value cs

/-- Whether only blanks are left. -/
def isFinished (rest : List Char) : Bool := rest.all isBlank

/-- The value of a text that holds one value. -/
def read? (s : String) : Option Json := do
  let (v, rest) ← readFirst? s.toList
  if isFinished rest then some v else none

end Json

end DataRace
