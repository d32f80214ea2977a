/-!
# YAML tokens

The tokens of a YAML text.  Collections in block style are bracketed by tokens too: their starts and
ends have no characters of their own and come from indentation.
-/

namespace DataRace

namespace Yaml

/-- A token of a YAML text. -/
inductive Token where
  /-- The version that a text is written in. -/
  | version (major minor : Nat)
  /-- What a handle of tags stands for. -/
  | tagHandle (handle text : String)
  | documentStart
  | documentEnd
  | blockSeqStart
  | blockMapStart
  | blockEnd
  | flowSeqStart
  | flowSeqEnd
  | flowMapStart
  | flowMapEnd
  | blockEntry
  | flowEntry
  | key
  | value
  | alias (name : String)
  | anchor (name : String)
  /-- A tag, by the handle it is abbreviated with.  A tag in full has the empty handle. -/
  | tag (handle suffix : String)
  /-- A scalar, and whether it stands without quotes. -/
  | scalar (text : String) (isPlain : Bool)
  deriving DecidableEq, Repr

end Yaml

end DataRace
