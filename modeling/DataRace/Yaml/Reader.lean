import DataRace.Yaml.Scalar
import DataRace.Yaml.Token.Lexer
import DataRace.Yaml.Tree.Reader

/-!
# Reading YAML mappings

`Yaml.readMapping?` reads a text that holds a single document, which is a mapping or nothing.  There
is no merging of keys, and a key may not be repeated.

An alias stands for the node that was last given its number.  Nodes may be nested only so deep, and
aliases may be followed only so often in proportion to the text, so that a node that holds an alias
of itself is refused like one that grows out of proportion.
-/

namespace DataRace

namespace Yaml

/-! ### Scalars -/

/-- The value of a scalar without quotes, which is not an integer of too many bits. -/
def Plain.value? (text : String) : Plain → Option Yaml
  | .value v => some v
  | .tooWide => none
  | .text => some (.str text)

/-- The value of a scalar whose tag does not count. -/
def untaggedScalar? (text : String) (isPlain : Bool) : Option Yaml :=
  if isPlain then (plain text.toList).value? text else some (.str text)

/-- The tags of the core schema. -/
inductive CoreTag where
  | null
  | bool
  | int
  | float

/-- The core tag of a name. -/
def CoreTag.ofName? : String → Option CoreTag
  | "tag:yaml.org,2002:null" => some .null
  | "tag:yaml.org,2002:bool" => some .bool
  | "tag:yaml.org,2002:int" => some .int
  | "tag:yaml.org,2002:float" => some .float
  | _ => none

/-- The value of a scalar with a core tag, which it must fit. -/
def CoreTag.value? (tag : CoreTag) (s : List Char) : Option Yaml :=
  match tag with
  | .null => if isNull s then some .null else none
  | .bool => (truth? s).map .bool
  | .int => taggedInt? s
  | .float => float? s

/-- The value of a scalar with or without a tag. -/
def scalar? (tag : Option String) (text : String) (isPlain : Bool) : Option Yaml :=
  match tag with
  | none => untaggedScalar? text isPlain
  | some name =>
    match CoreTag.ofName? name with
    | some tag => tag.value? text.toList
    | none => some (.str text)

/-! ### Nodes -/

/-- The name of a tag that stays with its value: what follows its exclamation marks, of which the
first is always there and the second one if it is written in full. -/
def localTag? (tag : String) : Option String :=
  match tag.toList with
  | '!' :: '!' :: name => some (String.ofList name)
  | '!' :: name => some (String.ofList name)
  | _ => none

/-- A document whose nodes can be looked up by the numbers of their anchors. -/
structure Anchored where
  /-- The numbered nodes in the order of the document. -/
  nodes : List (Nat × Tree)

namespace Anchored

/-- The anchored nodes of a document. -/
def ofTree (t : Tree) : Anchored :=
  ⟨t.nodes.filterMap fun node => node.anchor?.map (·, node)⟩

/-- The last node of a number. -/
def get? (a : Anchored) (number : Nat) : Option Tree := a.nodes.reverse.lookup number

end Anchored

/-- A step that may fail and follows no more than a number of aliases. -/
abbrev ValueM := StateT Nat Option

/-- The node itself, or the one that an alias stands for. -/
def follow (a : Anchored) : Tree → ValueM Tree
  | .alias number => do
    match ← get, a.get? number with
    | left + 1, some t =>
      set left
      return t
    | _, _ => failure
  | t => return t

/-- Entries of which no two have the same key. -/
def distinct? : List (Yaml × Yaml) → Option (List (Yaml × Yaml))
  | [] => some []
  | e :: es => if es.any (·.1 == e.1) then none else (distinct? es).map (e :: ·)

/-- The value of a collection, where a function gives the values of the nodes in it. -/
def collection (inner : Tree → ValueM Yaml) : Tree → ValueM Yaml
  | .seq _ items => return .seq (← items.mapM inner)
  | .map _ entries => do
    let entries ← entries.mapM fun (key, value) => return (← inner key, ← inner value)
    return .map (← StateT.lift (distinct? entries))
  | _ => failure

/-- The value of a node, where a function gives the values of the nodes in it.  Without one the
node may not be a collection. -/
def nodeValue (a : Anchored) (inner : Option (Tree → ValueM Yaml)) (t : Tree) : ValueM Yaml := do
  let t ← follow a t
  let inside : ValueM Yaml :=
    match inner with
    | some inner => collection inner t
    | none => failure
  match t with
  | .alias _ => failure
  | .scalar p text isPlain =>
    match p.tag.bind localTag? with
    | some "" => failure
    | some name => return .tagged name (← StateT.lift (untaggedScalar? text isPlain))
    | none => StateT.lift (scalar? p.tag text isPlain)
  | .seq p _ | .map p _ =>
    match p.tag.bind localTag? with
    | some "" => failure
    | some name => return .tagged name (← inside)
    | none => inside

/-- The value of a node in which collections are nested no deeper than a bound. -/
def valueWithin (a : Anchored) : Nat → Tree → ValueM Yaml
  | 0 => nodeValue a none
  | depth + 1 => nodeValue a (some (valueWithin a depth))

/-- Collections are nested no deeper than this. -/
def nestingLimit : Nat := 128

/-- The number of aliases that may be followed for each part of the extent of a document. -/
def aliasesPerNode : Nat := 100

/-- The entries of the mapping that a document holds.  Its tag does not count, and a document
without a value holds the empty mapping. -/
def mappingOf? (t : Tree) : Option (List (Yaml × Yaml)) :=
  match t with
  | .map _ _ => do
    let inner := valueWithin (.ofTree t) (nestingLimit - 1)
    match ← (collection inner t).run' (aliasesPerNode * t.extent) with
    | .map entries => some entries
    | _ => none
  | .scalar _ "" true => some []
  | _ => none

/-- The entries of the mapping that a text holds. -/
def readMapping? (text : String) : Option (List (Yaml × Yaml)) :=
  (Token.scan? text).bind Tree.ofTokens? |>.bind mappingOf?

end Yaml

end DataRace
