import CssTheming.Identifier
import CssTheming.Options
import CssTheming.Sheet.Parser
import CssTheming.Sheet.Selectors
import CssTheming.Table
import CssTheming.Text.Part

/-!
# Declared custom properties

What the rules at the top of a stylesheet declare: the custom properties of the root element and those of single
classes, by their unescaped names. Later declarations take the place of earlier ones.
-/

namespace CssTheming

structure CustomProperties where
  root : Table String
  classes : Table (Table String)
  deriving DecidableEq

namespace CustomProperties

def empty : CustomProperties := ⟨.empty, .empty⟩

/-- The custom property that a node declares. -/
def declared? (s : Sheet) (id : Nat) : Option (String × String) :=
  match s.kind? id with
  | some (.declaration property value _) =>
    if Text.startsWith property "--" then
      (Identifier.decode? property).map fun name => (name, String.ofList (Text.trim value.toList))
    else none
  | _ => none

/-- Adds declarations under a selector; selectors other than the root and single classes do not count. -/
def addSelector (declarations : List (String × String)) (p : CustomProperties) (selector : String) : CustomProperties :=
  if selector = ":root" then { p with root := p.root.insertAll declarations }
  else
    match (Text.stripStart? "." selector).bind Identifier.decode? with
    | some name =>
      { p with classes := p.classes.insert name (((p.classes.get? name).getD .empty).insertAll declarations) }
    | none => p

def addRule (s : Sheet) (p : CustomProperties) (id : Nat) : CustomProperties :=
  (s.selectors id).foldl (addSelector ((s.children id).filterMap (declared? s))) p

def ofSheet (s : Sheet) : CustomProperties := ((s.children Sheet.root).filter s.isRule).foldl (addRule s) empty

def read (css path : String) : Except Error CustomProperties := (Sheet.parse css path).map ofSheet

end CustomProperties

/-- The values of a theme stylesheet by key. -/
structure ThemeTables where
  contextless : Table String
  contextual : Table (Table String)
  deriving DecidableEq

namespace ThemeTables

/-- The keys whose custom properties a table has. -/
def keysOf (propertyPrefix : String) (t : Table String) : Table String :=
  .ofList (t.entries.filterMap fun (name, value) =>
    (Text.stripStart? ("--" ++ propertyPrefix) name).map fun key => (key, value))

def ofProperties (options : Options) (p : CustomProperties) : ThemeTables :=
  ⟨keysOf options.propertyPrefix p.root,
    .ofList (p.classes.entries.filterMap fun (name, table) =>
      (Text.stripStart? options.contextClassPrefix name).map fun context =>
        (context, keysOf options.propertyPrefix table))⟩

def read (css : String) (options : Options) : Except Error ThemeTables :=
  (CustomProperties.read css "theme.css").map (ofProperties options)

end ThemeTables

end CssTheming
