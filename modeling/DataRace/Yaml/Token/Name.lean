import DataRace.Text.Numeral
import DataRace.Yaml.Cursor
import DataRace.Yaml.Token.Basic

/-!
# Anchors, tags and directives

The tokens that name things: anchors and aliases, tags, and the directives before a document.  Each
reader takes the text behind the indicator and answers the token and what follows it.
-/

namespace DataRace

namespace Yaml

/-! ### Anchors -/

/-- Whether an anchor may end here. -/
def atAnchorEnd (rest : List Char) : Bool :=
  rest.head?.all fun c => isGap c || c ∈ ['?', ':', ',', ']', '\x7d', '%', '@', '\x60']

/-- The name of an anchor or alias. -/
def anchorName? (cs : List Char) : Option (String × List Char) :=
  match cs.span isWordChar with
  | ([], _) => none
  | (name, rest) => if atAnchorEnd rest then some (String.ofList name, rest) else none

/-! ### Tags -/

/-- The characters of a tag.  Commas and brackets belong to it only between angle brackets. -/
def isTagChar (isEnclosed : Bool) (c : Char) : Bool :=
  isWordChar c || c ∈ ";/?:@&=+$.%!~*'()".toList || isEnclosed && c ∈ [',', '[', ']']

/-- The number of octets that follow an octet in the encoding of a character, and the bits of the
code point that it holds. -/
def leadOctet? (octet : Nat) : Option (Nat × Nat) :=
  if octet < 0x80 then some (0, octet)
  else if octet / 0x20 = 0b110 then some (1, octet % 0x20)
  else if octet / 0x10 = 0b1110 then some (2, octet % 0x10)
  else if octet / 0x08 = 0b11110 then some (3, octet % 0x08)
  else none

/-- The text of a tag with its percent escapes undone.  The first arguments are the octets that are
still wanted for a character, and the code point so far. -/
def decodeTag? : Nat → Nat → List Char → Option (List Char)
  | 0, _, [] => some []
  | wanted, code, '%' :: a :: b :: cs => do
    let octet ← Numeral.ofDigits? 16 [a, b]
    let (wanted, code) ←
      match wanted with
      | 0 => leadOctet? octet
      | n + 1 => if octet / 0x40 = 0b10 then some (n, code * 0x40 + octet % 0x40) else none
    let rest ← decodeTag? wanted code cs
    if wanted ≠ 0 then some rest
    else if code.isValidChar then some (Char.ofNat code :: rest)
    else none
  | 0, _, c :: cs => if c == '%' then none else (decodeTag? 0 0 cs).map (c :: ·)
  | _ + 1, _, _ => none

/-- The characters of a tag at the front of a text, and what follows them. -/
def tagText? (isEnclosed : Bool) (cs : List Char) : Option (List Char × List Char) := do
  let (raw, rest) := cs.span (isTagChar isEnclosed)
  some (← decodeTag? 0 0 raw, rest)

/-- Whether a tag may end here. -/
def atTagEnd (isFlow : Bool) (rest : List Char) : Bool :=
  atGap rest || isFlow && rest.head? == some ','

/-- A tag from behind its exclamation mark.  It is written in full between angle brackets, or
abbreviated by a handle: a word between two exclamation marks, or a single mark. -/
def tag? (isFlow : Bool) (cs : List Char) : Option (Token × List Char) := do
  let (handle, suffix, rest) ←
    match cs with
    | '<' :: cs => do
      let (text, rest) ← tagText? true cs
      if text.isEmpty || rest.head? != some '>' then none else some ([], text, rest.tail)
    | cs => do
      let (name, rest) := cs.span isWordChar
      match rest with
      | '!' :: rest => do
        let (suffix, rest) ← tagText? false rest
        if suffix.isEmpty then none else some ('!' :: name ++ ['!'], suffix, rest)
      | _ => do
        let (suffix, rest) ← tagText? false cs
        some (if suffix.isEmpty then ([], ['!'], rest) else (['!'], suffix, rest))
  if atTagEnd isFlow rest then some (.tag (String.ofList handle) (String.ofList suffix), rest)
  else none

/-! ### Directives -/

/-- What a number of at most nine digits writes, and what follows it. -/
def versionNumber? (cs : List Char) : Option (Nat × List Char) :=
  let (digits, rest) := cs.span Numeral.isDigit
  if digits.length ≤ 9 then (Numeral.ofDigits? 10 digits).map (·, rest) else none

/-- The version directive from behind its name. -/
def version? (cs : List Char) : Option (Token × List Char) := do
  let (major, rest) ← versionNumber? (cs.dropWhile isBlank)
  if rest.head? != some '.' then none
  else
    let (minor, rest) ← versionNumber? rest.tail
    some (.version major minor, rest)

/-- A handle of tags: a word between exclamation marks, or a single mark. -/
def handle? : List Char → Option (List Char × List Char)
  | '!' :: cs =>
    match cs.span isWordChar with
    | (name, '!' :: rest) => some ('!' :: name ++ ['!'], rest)
    | ([], rest) => some (['!'], rest)
    | _ => none
  | _ => none

/-- The directive for a handle of tags from behind its name. -/
def tagHandle? (cs : List Char) : Option (Token × List Char) := do
  let (handle, rest) ← handle? (cs.dropWhile isBlank)
  if !rest.head?.any isBlank then none
  else
    let (text, rest) ← tagText? true (rest.dropWhile isBlank)
    if text.isEmpty || !atGap rest then none
    else some (.tagHandle (String.ofList handle) (String.ofList text), rest)

/-- A directive from behind its percent sign up to the end of its line. -/
def directive? (cs : List Char) : Option (Token × List Char) := do
  let (name, rest) := cs.span isWordChar
  if !atGap rest then none
  else
    let (token, rest) ←
      if name = "YAML".toList then version? rest
      else if name = "TAG".toList then tagHandle? rest
      else none
    let rest := rest.dropWhile isBlank
    let rest := if rest.head? == some '#' then rest.dropWhile (!isBreak ·) else rest
    if atLineEnd rest then some (token, rest.tail) else none

end Yaml

end DataRace
