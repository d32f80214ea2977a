import DataRace.Yaml.Token.Name
import DataRace.Yaml.Token.Scalar

/-!
# Reading YAML tokens

`Token.scan?` cuts a text into tokens.  Two things make that more than a walk along the text.

* A block collection starts where a line is indented more than the collections around it, and ends
  where one is indented less; `Lexer.indents` holds the columns of those that are open.
* A key is recognized by the colon behind it.  `Lexer.candidate` is the node that will turn out as a
  key if a colon follows on its line; the tokens that announce a key are inserted before it then.
-/

namespace DataRace

namespace Yaml

/-- A node that is a key if a colon follows it. -/
structure Candidate where
  /-- The number of tokens before the node. -/
  position : Nat
  /-- Where the node begins. -/
  line : Nat
  column : Nat
  index : Nat
  /-- Whether the node stands where only a key may stand. -/
  isRequired : Bool

/-- A text that has been cut into tokens up to a place. -/
structure Lexer where
  cursor : Cursor
  tokens : Array Token
  /-- The columns of the open block collections, innermost first. -/
  indents : List Nat
  candidate : Option Candidate
  /-- The candidates around the open flow collections, innermost first. -/
  outer : List (Option Candidate)
  /-- Whether a key may start at the next token. -/
  keyAllowed : Bool

namespace Lexer

/-- The beginning of a text. -/
def start (text : List Char) : Lexer :=
  { cursor := .start text, tokens := #[], indents := [], candidate := none, outer := [],
    keyAllowed := true }

/-- Whether the place is inside a collection in flow style. -/
def isFlow (l : Lexer) : Bool := !l.outer.isEmpty

/-- The least column of content in the open block collection. -/
def margin (l : Lexer) : Nat :=
  match l.indents with
  | [] => 0
  | column :: _ => column + 1

/-! ### Candidates -/

/-- The lexer without a candidate; fails if one is required. -/
def dropCandidate? (l : Lexer) : Option Lexer :=
  if l.candidate.any (·.isRequired) then none else some { l with candidate := none }

/-- A candidate may be this many characters long. -/
def candidateLimit : Nat := 1024

/-- Whether the text has moved too far for a node to be a key. -/
def isStale (l : Lexer) (k : Candidate) : Bool :=
  k.line < l.cursor.line || k.index + candidateLimit < l.cursor.index

/-- The lexer without stale candidates; fails if one is required. -/
def expire? (l : Lexer) : Option Lexer :=
  let isGone (k? : Option Candidate) : Bool := k?.any l.isStale
  let keep (k? : Option Candidate) : Option Candidate := k?.filter (!l.isStale ·)
  if (l.candidate :: l.outer).any fun k? => isGone k? && k?.any (·.isRequired) then none
  else some { l with candidate := keep l.candidate, outer := l.outer.map keep }

/-- The lexer with the next token as a candidate, where a key is allowed. -/
def propose? (l : Lexer) : Option Lexer :=
  if l.keyAllowed then
    let candidate : Candidate :=
      { position := l.tokens.size, line := l.cursor.line, column := l.cursor.column,
        index := l.cursor.index,
        isRequired := !l.isFlow && l.indents.head? == some l.cursor.column }
    l.dropCandidate?.map fun l => { l with candidate := some candidate }
  else some l

/-! ### Block collections -/

/-- The lexer with the block collections closed that are indented more than a bound. -/
def closeBlocks (isWithin : Nat → Bool) (l : Lexer) : Lexer :=
  if l.isFlow then l
  else
    let closed := l.indents.takeWhile (!isWithin ·)
    { l with
      tokens := l.tokens ++ closed.map fun _ => Token.blockEnd
      indents := l.indents.drop closed.length }

/-- The lexer with a block collection opened at a column, if it is indented more than the one
around it.  Its first token goes to a position among the tokens. -/
def openBlock (first : Token) (position column : Nat) (l : Lexer) : Lexer :=
  if !l.isFlow && l.margin ≤ column then
    { l with
      tokens := l.tokens.insertIdxIfInBounds position first
      indents := column :: l.indents }
  else l

/-! ### Moving on -/

/-- The lexer behind a token that ends where a given rest of the text is left. -/
def push (token : Token) (rest : List Char) (l : Lexer) : Lexer :=
  { l with tokens := l.tokens.push token, cursor := l.cursor.advanceTo rest }

/-- The lexer behind a token of one character. -/
def push1 (token : Token) (l : Lexer) : Lexer := l.push token l.cursor.rest.tail

/-- The lexer with a key allowed or not. -/
def allowKey (allowed : Bool) (l : Lexer) : Lexer := { l with keyAllowed := allowed }

/-- What follows the blanks, comments and line breaks at the front of a text, and whether a key may
start there.  Outside flow style a new line may start with a key; a tab is no blank where a key may
start.  A byte order mark is skipped at the start of a line. -/
def skip (isFlow : Bool) : (isComment keyAllowed lineStart : Bool) → List Char → Bool × List Char
  | _, keyAllowed, _, [] => (keyAllowed, [])
  | isComment, keyAllowed, lineStart, c :: cs =>
    if isBreak c then skip isFlow false (keyAllowed || !isFlow) true cs
    else if isComment || c == '#' then skip isFlow true keyAllowed false cs
    else if c == ' ' || c == '\t' && (isFlow || !keyAllowed) || c == '\ufeff' && lineStart then
      skip isFlow false keyAllowed false cs
    else (keyAllowed, c :: cs)

/-- The lexer in front of the next token. -/
def skipGap (l : Lexer) : Lexer :=
  let (keyAllowed, rest) :=
    skip l.isFlow false l.keyAllowed (l.cursor.column == 0) l.cursor.rest
  { l with keyAllowed := keyAllowed, cursor := l.cursor.advanceTo rest }

/-! ### Tokens -/

/-- The lexer with all block collections closed and no key to come. -/
def close? (l : Lexer) : Option Lexer :=
  (l.closeBlocks fun _ => false).dropCandidate?.map (allowKey false)

/-- The lexer behind the start of a collection in flow style. -/
def openFlow? (token : Token) (l : Lexer) : Option Lexer := do
  let l ← l.propose?
  some (allowKey true { l with candidate := none, outer := l.candidate :: l.outer }
    |>.push1 token)

/-- The lexer behind the end of a collection in flow style. -/
def closeFlow? (token : Token) (l : Lexer) : Option Lexer := do
  let l ← l.dropCandidate?
  let l :=
    match l.outer with
    | candidate :: outer => { l with candidate := candidate, outer := outer }
    | [] => l
  some (l.allowKey false |>.push1 token)

/-- The lexer behind an indicator that starts an entry of a block collection. -/
def blockIndicator? (first token : Token) (l : Lexer) : Option Lexer := do
  if !l.isFlow && !l.keyAllowed then none
  else
    let l ← (l.openBlock first l.tokens.size l.cursor.column).dropCandidate?
    some (l.push1 token)

/-- The lexer behind the indicator of a value.  If there is a candidate it is a key. -/
def value? (l : Lexer) : Option Lexer :=
  match l.candidate with
  | some k =>
    let l := { l with
      tokens := l.tokens.insertIdxIfInBounds k.position .key
      candidate := none }
    some (l.openBlock .blockMapStart k.position k.column |>.allowKey false |>.push1 .value)
  | none =>
    if !l.isFlow && !l.keyAllowed then none
    else
      some (l.openBlock .blockMapStart l.tokens.size l.cursor.column
        |>.allowKey (!l.isFlow)
        |>.push1 .value)

/-- The lexer behind a node that may be a key, read by a function from behind its indicator. -/
def node? (read? : List Char → Option (Token × List Char)) (l : Lexer) : Option Lexer := do
  let l ← l.propose?
  let (token, rest) ← read? l.cursor.rest.tail
  some (l.allowKey false |>.push token rest)

/-- The lexer behind a scalar in block style. -/
def blockScalar? (isFolded : Bool) (l : Lexer) : Option Lexer := do
  let l ← l.dropCandidate?
  let (text, rest) ← block? isFolded l.margin l.cursor.rest.tail
  some (l.allowKey true |>.push (.scalar (String.ofList text) false) rest)

/-- The lexer behind a plain scalar. -/
def plainScalar? (l : Lexer) : Option Lexer := do
  let l ← l.propose?
  let s ← plain? l.isFlow l.margin l.cursor
  some { l with
    tokens := l.tokens.push (.scalar (String.ofList s.text) true)
    cursor := s.next
    keyAllowed := s.isBroken }

/-- Whether a plain scalar starts here.  An indicator may start one where it does not stand
alone. -/
def startsPlain (isFlow : Bool) : List Char → Bool
  | [] => false
  | c :: cs =>
    if c == '-' then !cs.head?.any isBlank
    else if c == '?' || c == ':' then !isFlow && !atGap cs
    else !(isGap c || isFlowIndicator c || c ∈ "#&*!|>'\"%@\x60".toList)

/-- The lexer behind the next token. -/
def token? (l : Lexer) : Option Lexer :=
  let c := l.cursor
  let text (result : List Char × List Char) : Token × List Char :=
    (.scalar (String.ofList result.1) false, result.2)
  if c.column == 0 && c.rest.head? == some '%' then do
    let l ← l.close?
    let (token, rest) ← directive? c.rest.tail
    some (l.push token rest)
  else if c.isBoundary then do
    let token := if isMarker '-' c.rest then Token.documentStart else .documentEnd
    some ((← l.close?).push token (c.rest.drop 3))
  else
    match c.rest with
    | [] => none
    | i :: rest =>
      let standsAlone := atGap rest
      match i with
      | '[' => l.openFlow? .flowSeqStart
      | '\x7b' => l.openFlow? .flowMapStart
      | ']' => l.closeFlow? .flowSeqEnd
      | '\x7d' => l.closeFlow? .flowMapEnd
      | ',' => do some ((← l.dropCandidate?).allowKey true |>.push1 .flowEntry)
      | '*' => l.node? fun cs => (anchorName? cs).map fun (name, rest) => (.alias name, rest)
      | '&' => l.node? fun cs => (anchorName? cs).map fun (name, rest) => (.anchor name, rest)
      | '!' => l.node? (tag? l.isFlow)
      | '\'' => l.node? fun cs => (singleQuoted? cs).map text
      | '"' => l.node? fun cs => (doubleQuoted? cs).map text
      | _ =>
        if i == '-' && standsAlone then
          (l.blockIndicator? .blockSeqStart .blockEntry).map (allowKey true)
        else if i == '?' && (l.isFlow || standsAlone) then
          (l.blockIndicator? .blockMapStart .key).map (allowKey !l.isFlow)
        else if i == ':' && (l.isFlow || standsAlone) then l.value?
        else if i == '|' && !l.isFlow then l.blockScalar? false
        else if i == '>' && !l.isFlow then l.blockScalar? true
        else if startsPlain l.isFlow c.rest then l.plainScalar?
        else none

/-- The tokens from a place to the end of the text.  Each token but those that come from
indentation takes a character; the first argument bounds their number. -/
def run? : Nat → Lexer → Option (List Token)
  | 0, _ => none
  | n + 1, l => do
    let l ← l.skipGap.expire?
    let l := l.closeBlocks (· ≤ l.cursor.column)
    if l.cursor.rest.isEmpty then
      let l ← l.close?
      some l.tokens.toList
    else run? n (← l.token?)

end Lexer

/-- The tokens of a text. -/
def Token.scan? (text : String) : Option (List Token) :=
  let cs := text.toList
  if cs.all isAllowed then
    let cs := normalize cs
    Lexer.run? (cs.length + 1) (.start cs)
  else none

end Yaml

end DataRace
