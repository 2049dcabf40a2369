/-!
# YAML tokens

The words of a stream. Blocks, which indentation alone delimits, begin and end with tokens of their own.
-/

namespace CssTheming.Yaml

/-- A tag as it is written: a handle, which stands for the beginning of the tag, and the rest. A verbatim tag has the
empty handle. -/
structure TagName where
  handle : String
  suffix : String
  deriving DecidableEq, Repr

inductive Token where
  | version (major minor : Nat)
  | tagHandle (handle start : String)
  | documentStart
  | documentEnd
  | blockSequenceStart
  | blockMappingStart
  | blockEnd
  | flowSequenceStart
  | flowSequenceEnd
  | flowMappingStart
  | flowMappingEnd
  | blockEntry
  | flowEntry
  | key
  | value
  | alias (name : String)
  | anchor (name : String)
  | tag (name : TagName)
  | scalar (text : String) (plain : Bool)
  | streamEnd
  deriving DecidableEq, Repr

end CssTheming.Yaml
