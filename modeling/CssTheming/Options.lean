/-!
# Options

The names that authors, compiled stylesheets and theme stylesheets have to agree on.
-/

namespace CssTheming

structure Options where
  /-- Begins the name of every generated custom property. -/
  propertyPrefix : String := "makeup-"
  /-- Begins the name of every class that marks a context. -/
  contextClassPrefix : String := "makeup/context/"
  /-- The function that refers to a key. -/
  configKeyword : String := "cfg"
  componentKeyword : String := "component"
  contextKeyword : String := "context"
  debug : Bool := false
  deriving DecidableEq, Repr, Inhabited

end CssTheming
