import CssTheming.CustomProperty
import CssTheming.Sheet.Parser
import CssTheming.Sheet.Selectors
import CssTheming.Value.Parser
import CssTheming.Value.Walk

/-!
# Usage schemas

What a compiled stylesheet says about its own use of keys: every declaration that refers to the custom property of a
key, with its value taken apart and the references marked.
-/

namespace CssTheming

structure SchemaUsage where
  selectors : List String
  property : String
  value : String
  tokens : List Value.Node

structure Schema where
  path : String
  usages : List SchemaUsage

def SchemaUsage.keys (u : SchemaUsage) : List String := Value.keys u.tokens

namespace Schema

/-- A call that refers to the custom property of a key, its key set: a `var` with one word and nothing else in it. -/
def marked? (propertyPrefix : String) : Value.Node → Option Value.Node
  | .call name before after args _ =>
    if name = "var" then
      match args.filter fun n => !n.isTrivia with
      | [.word argument] => some (.call name before after args (CustomProperty.key? propertyPrefix argument))
      | _ => none
    else none
  | _ => none

/-- A value with all references to custom properties of keys marked. -/
def markReferences (propertyPrefix value : String) : List Value.Node :=
  Id.run (Value.walk (fun n => (pure (marked? propertyPrefix n) : Id _)) (Value.parse value))

/-- The usage that a declaration is, if it refers to a key. Such a declaration has to stand directly in a rule. -/
def usageAt (propertyPrefix : String) (s : Sheet) (id : Nat) : Except Error (Option SchemaUsage) :=
  match s.kind? id with
  | some (.declaration property value _) =>
    let tokens := markReferences propertyPrefix value
    if Text.contains value "var(" && !(Value.keys tokens).isEmpty then
      match (s.parent? id).filter s.isRule with
      | some rule => .ok (some ⟨s.selectors rule, property, value, tokens⟩)
      | none => .error (.source (s.location id) (.outsideRule "var"))
    else .ok none
  | _ => .ok none

def ofSheet (propertyPrefix : String) (s : Sheet) : Except Error Schema := do
  return ⟨s.path, (← (s.declarations Sheet.root).mapM (usageAt propertyPrefix s)).filterMap id⟩

/-- Reads the schema off a compiled stylesheet. -/
def extract (css path propertyPrefix : String) : Except Error Schema := do ofSheet propertyPrefix (← Sheet.parse css path)

end Schema

end CssTheming
