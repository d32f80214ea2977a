import DataRace.Yaml.Token.Basic
import DataRace.Yaml.Tree.Basic

/-!
# Reading YAML nodes

`Tree.ofTokens?` builds the node of the only document of a text from its tokens.  Each function on
nodes takes a bound on the depth of calls first; a call takes a token at the latest in the call
below it, so that the bound is met by every list of tokens.
-/

namespace DataRace

namespace Yaml

/-- The tokens that are left, and the names known so far. -/
structure Reading where
  tokens : List Token
  /-- What the handles of tags stand for. -/
  handles : List (String × String)
  /-- The numbers of anchors by their names, each name once. -/
  anchors : List (String × Nat)

/-- A step of reading, which may fail. -/
abbrev ReadM := StateT Reading Option

namespace ReadM

/-- The next token. -/
def peek : ReadM (Option Token) := do return (← get).tokens.head?

/-- Moves behind the next token. -/
def skip : ReadM Unit := modify fun s => { s with tokens := s.tokens.tail }

/-- Moves behind a token, which must come next. -/
def expect (token : Token) : ReadM Unit := do
  if (← peek) = some token then skip else failure

/-- Moves behind a token if it comes next, and tells whether it did. -/
def accept (token : Token) : ReadM Bool := do
  if (← peek) = some token then
    skip
    return true
  else return false

/-- A node, or nothing before some tokens. -/
def orEmpty (stops : List Token) (node : ReadM Tree) : ReadM Tree := do
  match ← peek with
  | some t => if t ∈ stops then return .empty Tree.bare else node
  | none => node

/-- The node behind a value indicator, if that comes next, or nothing. -/
def valueOrEmpty (stops : List Token) (node : ReadM Tree) : ReadM Tree := do
  if ← accept .value then orEmpty stops node else return .empty Tree.bare

/-- The tag that a handle and a suffix stand for. -/
def resolveTag (handle suffix : String) : ReadM String := do
  if handle.isEmpty then return suffix
  else
    match (← get).handles.lookup handle with
    | some text => return text ++ suffix
    | none => failure

/-- The number of a new anchor. -/
def nameAnchor (name : String) : ReadM Nat := do
  let known := (← get).anchors
  let number := known.length
  let anchors :=
    if (known.lookup name).isSome then
      known.map fun (other, n) => (other, if other = name then number else n)
    else known ++ [(name, number)]
  modify fun s => { s with anchors := anchors }
  return number

/-- An anchor, if one comes next. -/
def anchor : ReadM (Option Nat) := do
  match ← peek with
  | some (.anchor name) =>
    skip
    return some (← nameAnchor name)
  | _ => return none

/-- A tag, if one comes next. -/
def tag : ReadM (Option String) := do
  match ← peek with
  | some (.tag handle suffix) =>
    skip
    return some (← resolveTag handle suffix)
  | _ => return none

/-- An anchor and a tag in any order. -/
def properties : ReadM Properties := do
  match ← anchor with
  | some number => return ⟨← tag, some number⟩
  | none =>
    let tag ← tag
    return ⟨tag, ← anchor⟩

/-- The properties of a scalar: a tag that is only its indicator is none. -/
def scalarProperties (p : Properties) : Properties :=
  if p.tag = some "!" then { p with tag := none } else p

end ReadM

open ReadM

/-- Where a node stands. -/
inductive Place where
  /-- In a collection in flow style. -/
  | flow
  | block
  /-- In a mapping in block style, where the entries of a sequence may do without indentation. -/
  | inMapping
  deriving DecidableEq

namespace Tree

/-- The tokens that cannot follow the indicator of a key or value in a mapping in block style. -/
def blockStops : List Token := [.key, .value, .blockEnd]

mutual

/-- A node. -/
def read : Nat → Place → ReadM Tree
  | 0, _ => failure
  | n + 1, place => do
    match ← peek with
    | some (.alias name) =>
      skip
      match (← get).anchors.lookup name with
      | some number => return .alias number
      | none => failure
    | _ =>
      let p ← properties
      match ← peek, place with
      | some .blockEntry, .inMapping => return .seq p (← looseItems n)
      | some (.scalar text isPlain), _ =>
        skip
        return .scalar (scalarProperties p) text isPlain
      | some .flowSeqStart, _ =>
        skip
        return .seq p (← flowItems n true)
      | some .flowMapStart, _ =>
        skip
        return .map p (← flowEntries n true)
      | some .blockSeqStart, .block | some .blockSeqStart, .inMapping =>
        skip
        return .seq p (← blockItems n)
      | some .blockMapStart, .block | some .blockMapStart, .inMapping =>
        skip
        return .map p (← blockEntries n)
      | _, _ => if p = bare then failure else return .empty p

/-- The items of a sequence in block style up to its end. -/
def blockItems : Nat → ReadM (List Tree)
  | 0 => failure
  | n + 1 => do
    if ← accept .blockEntry then
      let item ← orEmpty [.blockEntry, .blockEnd] (read n .block)
      return item :: (← blockItems n)
    else
      expect .blockEnd
      return []

/-- The items of a sequence in block style without indentation of its own. -/
def looseItems : Nat → ReadM (List Tree)
  | 0 => failure
  | n + 1 => do
    if ← accept .blockEntry then
      let item ← orEmpty (.blockEntry :: blockStops) (read n .block)
      return item :: (← looseItems n)
    else return []

/-- The entries of a mapping in block style up to its end. -/
def blockEntries : Nat → ReadM (List (Tree × Tree))
  | 0 => failure
  | n + 1 => do
    if ← accept .key then
      let key ← orEmpty blockStops (read n .inMapping)
      let value ← valueOrEmpty blockStops (read n .inMapping)
      return (key, value) :: (← blockEntries n)
    else
      expect .blockEnd
      return []

/-- The items of a sequence in flow style up to its end.  The second argument tells whether none
has been read. -/
def flowItems : Nat → Bool → ReadM (List Tree)
  | 0, _ => failure
  | n + 1, isFirst => do
    if ← accept .flowSeqEnd then return []
    else
      if !isFirst then expect .flowEntry
      if ← accept .flowSeqEnd then return []
      else
        let item ← if ← accept .key then flowPair n else read n .flow
        return item :: (← flowItems n false)

/-- A mapping of a single entry among the items of a sequence in flow style.  The token that stands
in the place of a key is lost. -/
def flowPair : Nat → ReadM Tree
  | 0 => failure
  | n + 1 => do
    let stops := [.flowEntry, .flowSeqEnd]
    let key ←
      match ← peek with
      | some t =>
        if t ∈ .value :: stops then
          skip
          pure (.empty bare)
        else read n .flow
      | none => failure
    let value ← valueOrEmpty stops (read n .flow)
    return .map bare [(key, value)]

/-- The entries of a mapping in flow style up to its end.  The second argument tells whether none
has been read. -/
def flowEntries : Nat → Bool → ReadM (List (Tree × Tree))
  | 0, _ => failure
  | n + 1, isFirst => do
    if ← accept .flowMapEnd then return []
    else
      if !isFirst then expect .flowEntry
      if ← accept .flowMapEnd then return []
      else
        let stops := [.flowEntry, .flowMapEnd]
        let entry ←
          if ← accept .key then
            let key ← orEmpty (.value :: stops) (read n .flow)
            let value ← valueOrEmpty stops (read n .flow)
            pure (key, value)
          else
            let key ← read n .flow
            pure (key, .empty bare)
        return entry :: (← flowEntries n false)

end

/-! ### Documents -/

/-- The versions that are read. -/
def isKnownVersion (major minor : Nat) : Bool := major == 1 && (minor == 1 || minor == 2)

/-- The handles that need no directive. -/
def commonHandles : List (String × String) := [("!", "!"), ("!!", "tag:yaml.org,2002:")]

/-- The directives of a document: at most one version, and each handle at most once.  The first
argument bounds their number, the second tells whether a version has been read. -/
def readDirectives : Nat → Bool → ReadM Unit
  | 0, _ => failure
  | n + 1, hasVersion => do
    match ← peek with
    | some (.version major minor) =>
      if hasVersion || !isKnownVersion major minor then failure
      skip
      readDirectives n true
    | some (.tagHandle handle text) =>
      let handles := (← get).handles
      if (handles.lookup handle).isSome then failure
      skip
      modify fun s => { s with handles := handles ++ [(handle, text)] }
      readDirectives n hasVersion
    | _ => return ()

/-- Whether a token starts a document that is marked as one. -/
def startsMarked : Token → Bool
  | .version _ _ | .tagHandle _ _ | .documentStart => true
  | _ => false

/-- The only document of a text.  A text without one holds the empty node. -/
def readDocument (n : Nat) : ReadM Tree := do
  match ← peek with
  | none => return .empty bare
  | some t =>
    if startsMarked t then
      readDirectives n false
      expect .documentStart
      modify fun s => { s with handles := s.handles ++ commonHandles }
      match ← peek with
      | none => return .empty bare
      | some t =>
        if startsMarked t || t = .documentEnd then return .empty bare else read n .block
    else
      modify fun s => { s with handles := commonHandles }
      read n .block

/-- The node of the only document that a list of tokens holds. -/
def ofTokens? (tokens : List Token) : Option Tree := do
  let n := 2 * tokens.length + 2
  let (tree, s) ← (readDocument n).run { tokens, handles := [], anchors := [] }
  if s.tokens.all (· = .documentEnd) then some tree else none

end Tree

end Yaml

end DataRace
