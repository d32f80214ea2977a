import DataRace.Json.Basic

/-!
# Writing JSON

`Json.compact` writes a value without blanks, `Json.pretty` one member a line with two spaces a
level.  Both leave characters outside ASCII as they are and escape quotes, backslashes and control
characters only.
-/

namespace DataRace

namespace Json

/-- A character of a string literal. -/
def escape (c : Char) : List Char :=
  match c with
  | '"' => ['\\', '"']
  | '\\' => ['\\', '\\']
  | '\n' => ['\\', 'n']
  | '\t' => ['\\', 't']
  | '\r' => ['\\', 'r']
  | '\x08' => ['\\', 'b']
  | '\x0c' => ['\\', 'f']
  | c => if c.toNat < 0x20 then '\\' :: 'u' :: Numeral.hex 4 c.toNat else [c]

/-- A text between quotes. -/
def quote (s : String) : List Char := '"' :: s.toList.flatMap escape ++ ['"']

/-- An integer in decimal. -/
def writeInt (i : Int) : List Char :=
  match i with
  | .ofNat n => Numeral.decimal n
  | .negSucc n => '-' :: Numeral.decimal (n + 1)

/-- A decimal literal, always with an exponent, so that it is never taken for an integer. -/
def writeDecimal (d : Decimal) : List Char :=
  (if d.negative then ['-'] else []) ++ Numeral.decimal d.mantissa ++ 'e' :: writeInt d.exponent

/-- A value that holds no other value. -/
def writeScalar : Json → List Char
  | .null => "null".toList
  | .bool true => "true".toList
  | .bool false => "false".toList
  | .int i => writeInt i
  | .real d => writeDecimal d
  | .str s => quote s
  | .lone => "\"\\ud800\"".toList
  | .arr _ => ['[', ']']
  | .obj _ => ['\x7b', '\x7d']

/-- A value without blanks. -/
def writeCompact : Json → List Char
  | .arr [] => ['[', ']']
  | .arr (v :: vs) => '[' :: writeCompact v ++ moreItems vs ++ [']']
  | .obj [] => ['\x7b', '\x7d']
  | .obj ((k, v) :: ms) =>
    '\x7b' :: quote k ++ ':' :: writeCompact v ++ moreMembers ms ++ ['\x7d']
  | v => writeScalar v
where
  /-- The elements after the first, each behind a comma. -/
  moreItems : List Json → List Char
    | [] => []
    | v :: vs => ',' :: writeCompact v ++ moreItems vs
  /-- The members after the first, each behind a comma. -/
  moreMembers : List (String × Json) → List Char
    | [] => []
    | (k, v) :: ms => ',' :: quote k ++ ':' :: writeCompact v ++ moreMembers ms

/-- A new line at a level of indentation. -/
def newLine (level : Nat) : List Char := '\n' :: List.replicate (2 * level) ' '

/-- A value whose inner lines stand at a level of indentation. -/
def writePretty (level : Nat) : Json → List Char
  | .arr [] => ['[', ']']
  | .arr (v :: vs) =>
    '[' :: newLine (level + 1) ++ writePretty (level + 1) v ++ moreItems (level + 1) vs
      ++ newLine level ++ [']']
  | .obj [] => ['\x7b', '\x7d']
  | .obj ((k, v) :: ms) =>
    '\x7b' :: newLine (level + 1) ++ quote k ++ ':' :: ' ' :: writePretty (level + 1) v
      ++ moreMembers (level + 1) ms ++ newLine level ++ ['\x7d']
  | v => writeScalar v
where
  /-- The elements after the first, each behind a comma and on its own line. -/
  moreItems (level : Nat) : List Json → List Char
    | [] => []
    | v :: vs => ',' :: newLine level ++ writePretty level v ++ moreItems level vs
  /-- The members after the first, each behind a comma and on its own line. -/
  moreMembers (level : Nat) : List (String × Json) → List Char
    | [] => []
    | (k, v) :: ms =>
      ',' :: newLine level ++ quote k ++ ':' :: ' ' :: writePretty level v ++ moreMembers level ms

/-- The text of a value without blanks. -/
def compact (v : Json) : String := String.ofList (writeCompact v)

/-- The text of a value, indented by two spaces a level. -/
def pretty (v : Json) : String := String.ofList (writePretty 0 v)

end Json

end DataRace
