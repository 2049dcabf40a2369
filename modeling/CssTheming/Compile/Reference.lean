import CssTheming.Compile.Argument
import CssTheming.CustomProperty
import CssTheming.Sheet.Selectors
import CssTheming.Usage
import CssTheming.Value.Parser

/-!
# References

A config call refers to the value of a key. `refer` turns every call into a reference to the key's custom property and
records the usages in the order of the text.
-/

namespace CssTheming.Compile

def referenceFunction : String := "var"

/-- The reference to the custom property of a key. -/
def reference (options : Options) (key : String) : Value.Node :=
  .call referenceFunction "" "" [.word (CustomProperty.name options.propertyPrefix key)] none

/-- Turns a config call into a reference and records its key. -/
def referCall (options : Options) (location : Location) (property : String) :
    Value.Node → StateT (List String) (Except Error) (Option Value.Node)
  | .call name before after args key => do
    if name = options.configKeyword then
      let argument ← keyArgument location (.call name before after args key)
      checkKey location (argument.getD property)
      let resolved := Key.unrooted (argument.getD property)
      modify (· ++ [resolved])
      return some (reference options resolved)
    else return none
  | _ => return none

/-- The value with references, and their keys. -/
def referValue (options : Options) (location : Location) (property value : String) :
    Except Error (String × List String) := do
  let (nodes, keys) ← (Value.walk (referCall options location property) (Value.parse value)).run []
  return (Value.text nodes, keys)

/-- The rule that a declaration stands directly in. -/
def enclosingRule? (s : Sheet) (id : Nat) : Option Nat := (s.parent? id).filter s.isRule

def referAt (options : Options) (s : Sheet) (id : Nat) : Except Error (Sheet × List Usage) :=
  match s.kind? id with
  | some (.declaration property value _) =>
    if Text.contains value (callMarker options) then
      match enclosingRule? s id with
      | none => .error (.source (s.location id) (.outsideRule options.configKeyword))
      | some rule =>
        (referValue options (s.location id) property value).map fun (rewritten, keys) =>
          (s.setValue id rewritten, keys.map fun key => ⟨s.selectors rule, property, value, key, s.path⟩)
    else .ok (s, [])
  | _ => .ok (s, [])

def referAll (options : Options) (usages : List Usage) : List Nat → Sheet → Sheet × Except Error (List Usage)
  | [], s => (s, .ok usages)
  | id :: ids, s =>
    match referAt options s id with
    | .ok (s', new) => referAll options (usages ++ new) ids s'
    | .error e => (s, .error e)

/-- Rewrites all declarations and answers the usages in document order. -/
def refer (options : Options) (s : Sheet) : Sheet × Except Error (List Usage) :=
  referAll options [] (s.declarations Sheet.root) s

end CssTheming.Compile
