/-!
# Places in a YAML text

The classes of characters that a YAML text is cut by, and `Cursor`, a place in a text: what is left
of it, and where that begins.

A text has one kind of line break in three spellings: `normalize` turns the pairs and single
characters that end lines on other systems into line feeds.  The line and paragraph separators also
break lines and are kept as they are.
-/

namespace DataRace

namespace Yaml

/-- Whether a character breaks a line of a normalized text. -/
def isBreak (c : Char) : Bool := c == '\n' || c == '\u2028' || c == '\u2029'

/-- Whether a character is a blank within a line. -/
def isBlank (c : Char) : Bool := c == ' ' || c == '\t'

/-- Whether a character separates words. -/
def isGap (c : Char) : Bool := isBlank c || isBreak c

/-- Whether a word ends here: at a gap or at the end of the text. -/
def atGap (rest : List Char) : Bool := rest.head?.all isGap

/-- Whether a line ends here: at a break or at the end of the text. -/
def atLineEnd (rest : List Char) : Bool := rest.head?.all isBreak

/-- The characters of names. -/
def isWordChar (c : Char) : Bool := c.isAlphanum || c == '_' || c == '-'

/-- The characters that delimit collections in flow style. -/
def isFlowIndicator (c : Char) : Bool :=
  c == ',' || c == '[' || c == ']' || c == '\x7b' || c == '\x7d'

/-- The characters that a YAML text may hold.  Besides tab, line ends and what prints this takes in
the byte order mark. -/
def isAllowed (c : Char) : Bool :=
  let n := c.toNat
  n == 0x09 || n == 0x0A || n == 0x0D || (0x20 ≤ n && n ≤ 0x7E) || n == 0x85
    || (0xA0 ≤ n && n ≤ 0xD7FF) || (0xE000 ≤ n && n ≤ 0xFFFD) || 0x10000 ≤ n

/-- The text with a line feed at the end of each line. -/
def normalize : List Char → List Char
  | '\r' :: '\n' :: cs => '\n' :: normalize cs
  | c :: cs => (if c == '\r' || c == '\u0085' then '\n' else c) :: normalize cs
  | [] => []

/-- Whether a line that starts here marks the start or the end of a document: three times the
character, then a gap. -/
def isMarker (c : Char) : List Char → Bool
  | x :: y :: z :: rest => x == c && y == c && z == c && atGap rest
  | _ => false

/-- Whether a line that starts here is a boundary of documents. -/
def isBoundary (rest : List Char) : Bool := isMarker '-' rest || isMarker '.' rest

/-- A place in a text. -/
structure Cursor where
  /-- What is left of the text. -/
  rest : List Char
  line : Nat
  column : Nat
  /-- The number of characters before this place. -/
  index : Nat
  deriving Repr

namespace Cursor

/-- The beginning of a text. -/
def start (text : List Char) : Cursor := ⟨text, 0, 0, 0⟩

/-- The place behind one character. -/
def next (c : Cursor) : Cursor :=
  match c.rest with
  | [] => c
  | x :: rest =>
    if isBreak x then ⟨rest, c.line + 1, 0, c.index + 1⟩
    else ⟨rest, c.line, c.column + 1, c.index + 1⟩

/-- The place behind a number of characters. -/
def drop : Nat → Cursor → Cursor
  | 0, c => c
  | n + 1, c => drop n c.next

/-- The later place where a given rest of the text is left. -/
def advanceTo (rest : List Char) (c : Cursor) : Cursor :=
  c.drop (c.rest.length - rest.length)

/-- Whether a document boundary is here. -/
def isBoundary (c : Cursor) : Bool := c.column == 0 && Yaml.isBoundary c.rest

end Cursor

end Yaml

end DataRace
