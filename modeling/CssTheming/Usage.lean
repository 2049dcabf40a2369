import CssTheming.Path

/-!
# Usages

Where a compiled stylesheet refers to which key.
-/

namespace CssTheming

structure Usage where
  selectors : List String
  property : String
  /-- The value of the declaration as its author wrote it. -/
  originalValue : String
  key : String
  path : String
  deriving DecidableEq, Repr

/-- The usages of one stylesheet, as they are written next to it. -/
structure UsageFile where
  path : String
  usages : List Usage
  deriving DecidableEq, Repr

/-- Where the usages of a stylesheet are written that is compiled to `path`. -/
def UsageFile.location (path : String) : String := Path.withExtension path "makeup.json"

end CssTheming
