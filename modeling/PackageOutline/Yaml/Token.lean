/-! # Tokens

The marks, properties and scalars that a YAML text consists of, once indentation has been made
explicit: blocks have starts and ends like the collections in brackets. -/

namespace PackageOutline

namespace Yaml

/-- A token of a YAML text. -/
inductive Token where
  /-- A directive with the version of the language. -/
  | version
  /-- A directive with the prefix that a tag handle stands for. -/
  | handle (handle value : String)
  | documentStart
  | documentEnd
  | sequenceStart
  | mappingStart
  | blockEnd
  | entry
  | flowSequenceStart
  | flowSequenceEnd
  | flowMappingStart
  | flowMappingEnd
  | flowEntry
  | key
  | value
  | anchor (name : String)
  | alias (name : String)
  | tag (handle suffix : String)
  | scalar (isPlain : Bool) (text : String)
deriving DecidableEq, Repr

/-- Whether a token is an anchor or a tag. -/
def Token.isProperty : Token → Bool
  | .anchor _ | .tag .. => true
  | _ => false

end Yaml

end PackageOutline
