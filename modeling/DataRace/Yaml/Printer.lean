import DataRace.Text.Numeral
import DataRace.Yaml.Cursor
import DataRace.Yaml.Scalar

/-!
# Writing YAML mappings

`Outline` is a mapping of names to texts, numbers, truth values and further outlines, and
`Outline.render` writes it in block style, two columns for each level.

A text is written without quotes where that reads back as the same text, else between single quotes
if it stays on a line and prints, or between double quotes with escapes.  A text of several lines is
written line by line.
-/

namespace DataRace

namespace Yaml

/-! ### Texts -/

/-- The breaks of a text that is to be written, whose lines may end in several ways. -/
def breaksLine (c : Char) : Bool := isBreak c || c == '\r' || c == '\u0085'

/-- Whether a character is written as itself. -/
def isWritable (c : Char) : Bool :=
  let n := c.toNat
  n == 0x0A || (0x20 ≤ n && n ≤ 0x7E) || (0xA0 ≤ n && n ≤ 0xD7FF)
    || (0xE000 ≤ n && n ≤ 0xFFFD && n != 0xFEFF) || 0x10000 ≤ n

/-- How a text may be written. -/
inductive TextStyle where
  | plain
  | single
  | double
  | literal
  deriving DecidableEq

/-- Whether two characters that pass two tests stand side by side. -/
def hasPair (p q : Char → Bool) : List Char → Bool
  | x :: y :: cs => (p x && q y) || hasPair p q (y :: cs)
  | _ => false

/-- Whether a text is on a single line and holds nothing but what is written as itself. -/
def isSimple (cs : List Char) : Bool := cs.all fun c => isWritable c && !breaksLine c

/-- Whether the first character of a text says something else than text. -/
def startsIndicator : List Char → Bool
  | [] => true
  | c :: cs =>
    c ∈ "#,[]&*!|>'\"%@\x60\x7b\x7d".toList || (c ∈ ['?', ':', '-'] && cs.head?.all isSpaced)
where
  /-- Whether a character ends a word. -/
  isSpaced (c : Char) : Bool := c == ' ' || c == '\t' || breaksLine c

/-- Whether a colon at the end of a word or a number sign at the start of one would end a text
without quotes. -/
def hasIndicator (cs : List Char) : Bool :=
  hasPair (· == ':') startsIndicator.isSpaced cs || cs.getLast? == some ':'
    || hasPair startsIndicator.isSpaced (· == '#') cs

/-- Whether a text can stand without quotes. -/
def allowsPlain (cs : List Char) : Bool :=
  isSimple cs && !startsIndicator cs && !hasIndicator cs
    && !("---".toList.isPrefixOf cs) && !("...".toList.isPrefixOf cs)
    && cs.head? != some ' ' && cs.getLast? != some ' '

/-- Whether a blank meets a break, which would be lost between single quotes. -/
def hasBrokenBlank (cs : List Char) : Bool :=
  hasPair (· == ' ') breaksLine cs || hasPair breaksLine (· == ' ') cs

/-- Whether a text can stand between single quotes. -/
def allowsSingle (cs : List Char) : Bool := cs.all isWritable && !hasBrokenBlank cs

/-- Whether a text can be written line by line. -/
def allowsLiteral (cs : List Char) : Bool :=
  cs.all isWritable && !hasPair (· == ' ') breaksLine cs && cs.getLast? != some ' '

/-- Whether a text without quotes would not be read as text, or looks like a number all the same. -/
def isMistakable (cs : List Char) : Bool :=
  match plain cs with
  | .value _ | .tooWide => true
  | .text => isZeroLed cs

/-- The style that a text is written in. -/
def TextStyle.of (cs : List Char) : TextStyle :=
  if cs.contains '\n' then if allowsLiteral cs then .literal else .double
  else if allowsPlain cs && !isMistakable cs then .plain
  else if allowsSingle cs then .single
  else .double

/-- The escape of a character between double quotes. -/
def escapeText (c : Char) : List Char :=
  match c with
  | '\x00' => ['\\', '0']
  | '\x07' => ['\\', 'a']
  | '\x08' => ['\\', 'b']
  | '\t' => ['\\', 't']
  | '\n' => ['\\', 'n']
  | '\x0b' => ['\\', 'v']
  | '\x0c' => ['\\', 'f']
  | '\r' => ['\\', 'r']
  | '\x1b' => ['\\', 'e']
  | '"' => ['\\', '"']
  | '\\' => ['\\', '\\']
  | '\u0085' => ['\\', 'N']
  | '\u2028' => ['\\', 'L']
  | '\u2029' => ['\\', 'P']
  | c =>
    if isWritable c then [c]
    else if c.toNat ≤ 0xFF then '\\' :: 'x' :: digits 2 c
    else if c.toNat ≤ 0xFFFF then '\\' :: 'u' :: digits 4 c
    else '\\' :: 'U' :: digits 8 c
where
  /-- The number of a character with a number of digits. -/
  digits (width : Nat) (c : Char) : List Char := (Numeral.hex width c.toNat).map Char.toUpper

/-- A text between double quotes. -/
def doubleText (cs : List Char) : List Char := '"' :: cs.flatMap escapeText ++ ['"']

/-- A text between single quotes.  Behind a break the text or the closing quote is indented; the
first line feed of several breaks is written twice, since reading drops one. -/
def singleText (indent : Nat) (cs : List Char) : List Char :=
  '\'' :: body false cs ++ ['\'']
where
  /-- The inside of the quotes.  The first argument tells whether a break came before. -/
  body : Bool → List Char → List Char
    | afterBreak, [] => if afterBreak then List.replicate indent ' ' else []
    | afterBreak, c :: cs =>
      if breaksLine c then
        (if !afterBreak && c == '\n' then ['\n'] else []) ++ c :: body true cs
      else
        (if afterBreak then List.replicate indent ' ' else [])
          ++ (if c == '\'' then ['\'', '\''] else [c]) ++ body false cs

/-- The first line of a text written line by line, which tells its indentation where the text
starts with a gap, and what becomes of the breaks at its end. -/
def literalHeader (cs : List Char) : List Char :=
  let marked := if cs.head?.any fun c => c == ' ' || breaksLine c then ['|', '2'] else ['|']
  let ending := cs.reverse.takeWhile breaksLine
  if ending.isEmpty then marked ++ ['-']
  else if 2 ≤ ending.length || ending.length = cs.length then marked ++ ['+']
  else marked

/-- The lines of a text written line by line.  The first argument tells whether a line starts. -/
def literalLines (indent : Nat) : Bool → List Char → List Char
  | _, [] => []
  | lineStart, c :: cs =>
    if breaksLine c then c :: literalLines indent true cs
    else
      (if lineStart then List.replicate indent ' ' else []) ++ c :: literalLines indent false cs

/-- A text, and the line feed that ends it.  Its further lines are indented. -/
def writeText (indent : Nat) (cs : List Char) : List Char :=
  match TextStyle.of cs with
  | .plain => cs ++ ['\n']
  | .single => singleText indent cs ++ ['\n']
  | .double => doubleText cs ++ ['\n']
  | .literal =>
    let lines := literalLines indent true cs
    literalHeader cs ++ '\n' :: lines
      ++ if cs.getLast?.any breaksLine then [] else ['\n']

/-! ### Outlines -/

/-- A value in an outline. -/
inductive Outline where
  | text (value : String)
  | nat (value : Nat)
  | bool (value : Bool)
  /-- Names with their values.  The names are words that need no quotes. -/
  | group (entries : List (String × Outline))
  deriving Repr

namespace Outline

/-- The value that an outline writes. -/
def toYaml : Outline → Yaml
  | .text s => .str s
  | .nat n => .int n
  | .bool b => .bool b
  | .group entries => .map (entriesToYaml entries)
where
  /-- The entries that an outline writes. -/
  entriesToYaml : List (String × Outline) → List (Yaml × Yaml)
    | [] => []
    | (name, value) :: rest => (.str name, toYaml value) :: entriesToYaml rest

/-- What follows the colon behind a name, where the lines of the value are indented by a number of
columns. -/
def write (indent : Nat) : Outline → List Char
  | .text s => ' ' :: writeText indent s.toList
  | .nat n => ' ' :: Numeral.decimal n ++ ['\n']
  | .bool b => ' ' :: (if b then "true" else "false").toList ++ ['\n']
  | .group [] => " \x7b\x7d\n".toList
  | .group (e :: entries) => '\n' :: writeEntries indent (e :: entries)
where
  /-- Entries on lines of their own. -/
  writeEntries (indent : Nat) : List (String × Outline) → List Char
    | [] => []
    | (name, value) :: rest =>
      List.replicate indent ' ' ++ name.toList ++ ':' :: write (indent + 2) value
        ++ writeEntries indent rest

/-- The text of a mapping. -/
def render (entries : List (String × Outline)) : String :=
  String.ofList (write.writeEntries 0 entries)

end Outline

end Yaml

end DataRace
