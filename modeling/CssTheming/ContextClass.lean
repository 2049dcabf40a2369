import CssTheming.Identifier
import CssTheming.Text.Part
import CssTheming.Text.Whitespace

/-!
# Classes of contexts

An element is in a context when it or an ancestor carries the class that marks the context.
-/

namespace CssTheming.ContextClass

def name (start context : String) : String := start ++ context

/-- The class as a selector. -/
def selector (start context : String) : String := "." ++ Identifier.encode (name start context)

/-- The context that a class selector marks. -/
def context? (start selector : String) : Option String :=
  (Text.stripStart? "." (String.ofList (Text.trim selector.toList))).bind fun written =>
    (Identifier.decode? written).bind (Text.stripStart? start)

end CssTheming.ContextClass
