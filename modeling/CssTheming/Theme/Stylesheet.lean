import CssTheming.ContextClass
import CssTheming.CustomProperty
import CssTheming.Sheet.Basic
import CssTheming.Theme.Basic

/-!
# Theme stylesheets

A theme as custom properties: those for all contexts on the root element, and a rule for the class of each context.
-/

namespace CssTheming.Theme

/-- Adds a rule with one custom property for each key of a table. -/
def appendTable (propertyPrefix selector : String) (table : Table Literal) (s : Sheet) : Sheet :=
  table.entries.foldl
    (fun sheet (key, value) => sheet.appendDeclaration s.size (CustomProperty.name propertyPrefix key) value.css)
    (s.appendRule Sheet.root selector)

def toSheet (t : Theme) (propertyPrefix contextClassPrefix : String) : Sheet :=
  t.contextual.entries.foldl
    (fun sheet (context, table) =>
      appendTable propertyPrefix (ContextClass.selector contextClassPrefix context) table sheet)
    (appendTable propertyPrefix ":root" t.contextless (.empty "theme.css"))

def css (t : Theme) (propertyPrefix contextClassPrefix : String) : String :=
  (t.toSheet propertyPrefix contextClassPrefix).css

end CssTheming.Theme
