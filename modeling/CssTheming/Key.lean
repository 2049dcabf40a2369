import CssTheming.Text.Part

/-!
# Config keys

A key names a themeable value by a dotted path such as `button.primary.background`. Inside a component keys are
relative to the component's own key; a *rooted* key, written with a leading slash, is not. In theme files a key that
starts with `$` names a context.
-/

namespace CssTheming.Key

def isKeyChar (c : Char) : Bool :=
  ('A' ≤ c && c ≤ 'Z') || ('a' ≤ c && c ≤ 'z') || ('0' ≤ c && c ≤ '9') || c = '_' || c = '.' || c = '-'

/-- The grammar of keys once they are resolved: letters, digits, `_`, `.` and `-`, at least one of them. -/
def isResolved (key : String) : Bool := !key.toList.isEmpty && key.toList.all isKeyChar

def isRooted (key : String) : Bool :=
  match key.toList with
  | '/' :: r => !r.isEmpty && r.all isKeyChar
  | _ => false

/-- What an author may write. -/
def isValid (key : String) : Bool := isResolved key || isRooted key

def hasQuote (key : String) : Bool := key.toList.any fun c => c = '"' || c = '\'' || c = '\x60'

/-- A key without its leading slash. -/
def unrooted (key : String) : String := (Text.stripStart? "/" key).getD key

/-- The key that `key` stands for inside a component. -/
def within (component key : String) : String :=
  if isRooted key then unrooted key else if component = "" then key else component ++ "." ++ key

/-- The key of an `@context` that names none. -/
def defaultContext : String := "context"

def isContext (key : String) : Bool := Text.startsWith key "$"

/-- The context that a theme file's key names. -/
def contextName (key : String) : String := (Text.stripStart? "$" key).getD key

end CssTheming.Key
