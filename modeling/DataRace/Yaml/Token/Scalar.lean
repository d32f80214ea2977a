import DataRace.Text.Numeral
import DataRace.Yaml.Cursor

/-!
# The text of scalars

A scalar may run over several lines.  `Gap` is what stands between two words: a single line break
in it becomes a blank, of several breaks the first is dropped, blanks beside a break never count.

* `plain?` reads a scalar without quotes,
* `singleQuoted?` and `doubleQuoted?` read the inside of quotes,
* `block?` reads the lines of a literal or folded scalar.
-/

namespace DataRace

namespace Yaml

/-! ### Gaps -/

/-- What stands between two words of a scalar. -/
inductive Gap where
  /-- Blanks within a line. -/
  | blanks (run : List Char)
  /-- A line break and those that follow it. -/
  | broken (first : Char) (more : List Char)
  /-- The breaks that follow an escaped line break. -/
  | joined (more : List Char)

namespace Gap

/-- No gap at all. -/
def none : Gap := .blanks []

/-- A gap with one more character. -/
def push : Gap → Char → Gap
  | .blanks run, c => if isBreak c then .broken c [] else .blanks (run ++ [c])
  | .broken first more, c => .broken first (if isBreak c then more ++ [c] else more)
  | .joined more, c => .joined (if isBreak c then more ++ [c] else more)

/-- The text that a gap stands for. -/
def text : Gap → List Char
  | .blanks run => run
  | .broken '\n' [] => [' ']
  | .broken '\n' more => more
  | .broken first more => first :: more
  | .joined more => more

/-- The gap of a run of blanks and breaks. -/
def ofRun (run : List Char) : Gap := run.foldl push none

end Gap

/-! ### Plain scalars -/

/-- The word at the front of a text.  It ends at a gap, at a colon before a gap, and in flow style
at the delimiters of collections, which may not follow a colon within a word. -/
def word? (isFlow : Bool) : List Char → Option (List Char)
  | [] => some []
  | c :: cs =>
    if isGap c then some []
    else if isFlow && c == ':' && cs.head?.any (fun d => isFlowIndicator d || d == '?') then none
    else if c == ':' && atGap cs || isFlow && isFlowIndicator c then some []
    else (word? isFlow cs).map (c :: ·)

/-- Whether a run of blanks and breaks has a tab within the indentation of a line.  The first
argument counts the columns of indentation that are still to come in the line. -/
def hasTabIndent (indent : Nat) : Nat → List Char → Bool
  | _, [] => false
  | left, c :: cs =>
    if isBreak c then hasTabIndent indent indent cs
    else (c == '\t' && left != 0) || hasTabIndent indent (left - 1) cs

/-- A plain scalar that has been read. -/
structure PlainScalar where
  text : List Char
  /-- The place behind the scalar and the gap that follows it. -/
  next : Cursor
  /-- Whether that gap breaks the line. -/
  isBroken : Bool

/-- The words behind the first one, each with the gap before it, up to a document boundary, a
comment or a line that is indented less.  The first argument bounds their number. -/
def words? (isFlow : Bool) (indent : Nat) : Nat → Cursor → Option PlainScalar
  | 0, _ => none
  | n + 1, c => do
    let run := c.rest.takeWhile isGap
    if hasTabIndent indent 0 run then none
    else
      let next := c.drop run.length
      let ended : PlainScalar := ⟨[], next, run.any isBreak⟩
      if run.isEmpty || (!isFlow && next.column < indent) || next.isBoundary
          || next.rest.head? == some '#' then
        some ended
      else
        match ← word? isFlow next.rest with
        | [] => some ended
        | word =>
          let more ← words? isFlow indent n (next.drop word.length)
          some { more with text := (Gap.ofRun run).text ++ word ++ more.text }

/-- The plain scalar at a place.  `indent` is the least column of its lines but the first. -/
def plain? (isFlow : Bool) (indent : Nat) (c : Cursor) : Option PlainScalar := do
  let word ← word? isFlow c.rest
  let more ← words? isFlow indent (c.rest.length + 1) (c.drop word.length)
  some { more with text := word ++ more.text }

/-! ### Quoted scalars -/

/-- A part of a quoted scalar. -/
inductive Piece where
  | char (c : Char)
  /-- A blank or a break, to be folded with its neighbours. -/
  | gap (c : Char)
  | escapedBreak

/-- A character that was not escaped. -/
def Piece.ofChar (c : Char) : Piece := if isGap c then .gap c else .char c

/-- The text of a quoted scalar behind a gap. -/
def foldPieces : Gap → List Piece → List Char
  | g, [] => g.text
  | g, .char c :: ps => g.text ++ c :: foldPieces .none ps
  | g, .gap c :: ps => foldPieces (g.push c) ps
  | g, .escapedBreak :: ps => g.text ++ foldPieces (.joined []) ps

/-- Whether a document boundary is at the start of a line.  The first argument tells whether a line
starts here. -/
def hasBoundary : Bool → List Char → Bool
  | _, [] => false
  | lineStart, c :: cs => (lineStart && isBoundary (c :: cs)) || hasBoundary (isBreak c) cs

/-- The pieces of a scalar up to its closing quote, and what follows.  A quote written twice is part
of the text. -/
def singlePieces? : List Char → Option (List Piece × List Char)
  | '\'' :: '\'' :: cs => (singlePieces? cs).map fun (ps, rest) => (.char '\'' :: ps, rest)
  | '\'' :: cs => some ([], cs)
  | c :: cs => (singlePieces? cs).map fun (ps, rest) => (.ofChar c :: ps, rest)
  | [] => none

/-- The character that a one letter escape stands for. -/
def unescape? : Char → Option Char
  | '0' => some '\x00'
  | 'a' => some '\x07'
  | 'b' => some '\x08'
  | 't' | '\t' => some '\t'
  | 'n' => some '\n'
  | 'v' => some '\x0b'
  | 'f' => some '\x0c'
  | 'r' => some '\r'
  | 'e' => some '\x1b'
  | ' ' => some ' '
  | '"' => some '"'
  | '/' => some '/'
  | '\\' => some '\\'
  | 'N' => some '\u0085'
  | '_' => some '\u00a0'
  | 'L' => some '\u2028'
  | 'P' => some '\u2029'
  | _ => none

/-- The number of digits behind a letter that starts an escape by number. -/
def escapeWidth? : Char → Option Nat
  | 'x' => some 2
  | 'u' => some 4
  | 'U' => some 8
  | _ => none

/-- The character of a code point. -/
def charOf? (code : Nat) : Option Char :=
  if code.isValidChar then some (Char.ofNat code) else none

/-- The pieces of a scalar up to its closing quote, and what follows.  The first arguments are the
digits that an escape by number still wants and its value so far. -/
def doublePieces? : Nat → Nat → List Char → Option (List Piece × List Char)
  | _, _, [] => none
  | wanted + 1, code, c :: cs => do
    let code := code * 16 + (← Numeral.digit? 16 c)
    let (ps, rest) ← doublePieces? wanted (if wanted = 0 then 0 else code) cs
    if wanted = 0 then some (.char (← charOf? code) :: ps, rest) else some (ps, rest)
  | 0, _, '"' :: cs => some ([], cs)
  | 0, _, '\\' :: e :: cs =>
    if isBreak e then (doublePieces? 0 0 cs).map fun (ps, rest) => (.escapedBreak :: ps, rest)
    else
      match escapeWidth? e with
      | some width => doublePieces? width 0 cs
      | none => do
        let c ← unescape? e
        let (ps, rest) ← doublePieces? 0 0 cs
        some (.char c :: ps, rest)
  | 0, _, c :: cs =>
    if c == '\\' then none
    else (doublePieces? 0 0 cs).map fun (ps, rest) => (.ofChar c :: ps, rest)

/-- A quoted scalar whose pieces are read by a function, from behind its opening quote, and what
follows it.  No document boundary may be inside. -/
def quoted? (pieces? : List Char → Option (List Piece × List Char)) (cs : List Char) :
    Option (List Char × List Char) := do
  let (ps, rest) ← pieces? cs
  if hasBoundary false (cs.take (cs.length - rest.length)) then none
  else some (foldPieces .none ps, rest)

/-- The inside of single quotes and what follows them. -/
def singleQuoted? : List Char → Option (List Char × List Char) := quoted? singlePieces?

/-- The inside of double quotes and what follows them. -/
def doubleQuoted? : List Char → Option (List Char × List Char) := quoted? (doublePieces? 0 0)

/-! ### Block scalars -/

/-- Which of the line breaks at its end a block scalar keeps. -/
inductive Chomp where
  | strip
  | clip
  | keep
  deriving DecidableEq

/-- The style that a block scalar announces in its first line. -/
structure BlockStyle where
  isFolded : Bool
  chomp : Chomp
  /-- The indentation beyond the one around the scalar, unless it is taken from the first line. -/
  indent : Option Nat

/-- The chomping that a character asks for. -/
def Chomp.ofChar? : Char → Option Chomp
  | '-' => some .strip
  | '+' => some .keep
  | _ => none

/-- The indentation that a character asks for. -/
def indentOf? (c : Char) : Option Nat := (Numeral.digit? 10 c).filter (· ≠ 0)

/-- The first line of a block scalar from behind its indicator, and the lines that follow. -/
def blockStyle? (isFolded : Bool) (cs : List Char) : Option (BlockStyle × List Char) := do
  let (chomp, cs) :=
    match cs.head?.bind Chomp.ofChar? with
    | some chomp => (some chomp, cs.tail)
    | none => (none, cs)
  let (indent, cs) :=
    match cs.head?.bind indentOf? with
    | some indent => (some indent, cs.tail)
    | none => (none, cs)
  let (chomp, cs) :=
    match chomp, indent, cs.head?.bind Chomp.ofChar? with
    | none, some _, some chomp => (some chomp, cs.tail)
    | chomp, _, _ => (chomp, cs)
  let cs := cs.dropWhile isBlank
  let cs := if cs.head? == some '#' then cs.dropWhile (!isBreak ·) else cs
  if atLineEnd cs then some (⟨isFolded, chomp.getD .clip, indent⟩, cs.tail) else none

/-- Where the empty lines before a line of content end. -/
structure Margin where
  /-- The breaks of the empty lines. -/
  breaks : List Char
  /-- The greatest column that was reached. -/
  widest : Nat
  column : Nat
  rest : List Char

/-- The empty lines at the front of a text whose first line has been read up to a column.  Blanks
within the indentation are skipped, all blanks if the indentation is not known yet; a tab among them
is refused. -/
def margin? (indent : Option Nat) : Nat → Nat → List Char → Option Margin
  | column, widest, [] => some ⟨[], max column widest, column, []⟩
  | column, widest, c :: cs =>
    if indent.all (column < ·) && c == ' ' then margin? indent (column + 1) widest cs
    else if indent.all (column < ·) && c == '\t' then none
    else if isBreak c then
      (margin? indent 0 (max column widest) cs).map fun m => { m with breaks := c :: m.breaks }
    else some ⟨[], max column widest, column, c :: cs⟩

/-- A line of content, its own line break, and the breaks of the empty lines behind it. -/
structure BlockLine where
  text : List Char
  ending : List Char
  breaks : List Char

/-- The lines of content of a block scalar, and what follows them.  The first argument bounds their
number. -/
def blockLines? (indent : Nat) : Nat → Nat → List Char → Option (List BlockLine × List Char)
  | 0, _, _ => none
  | n + 1, column, cs => do
    if column ≠ indent ∨ cs.isEmpty then some ([], cs)
    else
      let (text, cs) := cs.span (!isBreak ·)
      let m ← margin? (some indent) 0 0 cs.tail
      let (lines, rest) ← blockLines? indent n m.column m.rest
      some (⟨text, cs.take 1, m.breaks⟩ :: lines, rest)

/-- Lines of content put together behind a line ending and the breaks of empty lines.  In folded
style a line feed between two lines that do not start with a blank turns into a blank, or is dropped
before empty lines. -/
def joinLines (style : BlockStyle) : Bool → List Char → List Char → List BlockLine → List Char
  | _, ending, breaks, [] =>
    (if style.chomp = .strip then [] else ending) ++ if style.chomp = .keep then breaks else []
  | afterBlank, ending, breaks, l :: ls =>
    let startsBlank := l.text.head?.any isBlank
    let between :=
      if style.isFolded && ending == ['\n'] && !afterBlank && !startsBlank then
        if breaks.isEmpty then [' '] else breaks
      else ending ++ breaks
    between ++ l.text ++ joinLines style startsBlank l.ending l.breaks ls

/-- A block scalar from behind its indicator, and what follows it.  `around` is the least column of
content in the collection around it. -/
def block? (isFolded : Bool) (around : Nat) (cs : List Char) :
    Option (List Char × List Char) := do
  let (style, cs) ← blockStyle? isFolded cs
  let indent := style.indent.map (around - 1 + ·)
  let m ← margin? indent 0 0 cs
  let indent := indent.getD (max (max m.widest around) 1)
  let (lines, rest) ← blockLines? indent (m.rest.length + 1) m.column m.rest
  some (joinLines style false [] m.breaks lines, rest)

end Yaml

end DataRace
