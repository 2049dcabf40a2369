import CssTheming.Compile.Argument
import CssTheming.Value.Parser

/-!
# Components

An `@component` at-rule puts the keys of the block it stands in, and of everything below, under its own key. `expand`
writes the full keys into the config calls and `@context` at-rules and takes the `@component` at-rules out. Components
nest; a rooted component key starts afresh.
-/

namespace CssTheming.Compile

/-- The key of each block with an `@component` at-rule, in document order. -/
abbrev Components := List (Nat × String)

/-- Reads the component at-rules `ids`, given those already read. -/
def collectComponents (s : Sheet) (keyword : String) (found : Components) : List Nat → Except Error Components
  | [] => .ok found
  | id :: ids =>
    match s.kind? id, s.parent? id with
    | some (.atRule _ key _), some block =>
      match checkKey (s.location id) key with
      | .error e => .error e
      | .ok () =>
        if found.any (·.1 = block) then .error (.source (s.location id) (.duplicateComponent keyword))
        else collectComponents s keyword (found ++ [(block, key)]) ids
    | _, _ => collectComponents s keyword found ids

/-- Declarations with a config call and `@context` at-rules. -/
def isSite (options : Options) : Sheet.Kind → Bool
  | .declaration _ value _ => Text.contains value (callMarker options)
  | .atRule name _ _ => name = options.contextKeyword
  | _ => false

def sites (options : Options) (s : Sheet) (scope : Nat) : List Nat :=
  (s.descendants scope).filter fun id => (s.kind? id).any (isSite options)

/-- The component keys along a chain of ancestors, innermost first, up to a rooted one. -/
def componentPath (components : Components) : List Nat → List String
  | [] => []
  | a :: as =>
    match components.lookup a with
    | none => componentPath components as
    | some key => if Key.isRooted key then [Key.unrooted key] else key :: componentPath components as

/-- The key that the keys at a node are relative to; empty outside of all components. -/
def componentOf (components : Components) (s : Sheet) (id : Nat) : String :=
  ".".intercalate (componentPath components (s.ancestors id)).reverse

/-- The sites whose keys have to be written out, each with its component. Outside of all components only the at-rules
are, as they may leave their key to the default. -/
def componentSites (options : Options) (components : Components) (s : Sheet) : List (Nat × String) :=
  match components with
  | [] => []
  | [(block, key)] => (sites options s block).map fun id => (id, Key.unrooted key)
  | _ =>
    ((sites options s Sheet.root).map fun id => (id, componentOf components s id)).filter fun (id, component) =>
      component ≠ "" || !(s.kind? id).any Sheet.Kind.isDeclaration

/-- The full key of a checked key. -/
def fullKey (location : Location) (component key : String) : Except Error String := do
  checkKey location key
  let full := Key.within component key
  checkKey location full
  return full

/-- A key that stands for the first argument of a call, as a word or in quotes as that one was. -/
def keyNode (args : List Value.Node) (key : String) : Value.Node :=
  match args.find? fun n => !n.isTrivia with
  | some (.word _) => .word key
  | some (.string _ quote) => .string key quote
  | _ => .string key '\''

/-- Writes the full key into a config call; the key of an empty call is the property's name. -/
def expandCall (options : Options) (location : Location) (component property : String) :
    Value.Node → Except Error (Option Value.Node)
  | .call name before after args key => do
    if name = options.configKeyword then
      let argument ← keyArgument location (.call name before after args key)
      let full ← fullKey location component (argument.getD property)
      return some (.call name before after [keyNode args full] key)
    else return none
  | _ => return none

def expandValue (options : Options) (location : Location) (component property value : String) : Except Error String := do
  return Value.text (← Value.walk (expandCall options location component property) (Value.parse value))

/-- The key that the parameters of a `@context` at-rule name. -/
def contextKey (params : String) : String := if params = "" then Key.defaultContext else params

def expandSite (options : Options) (s : Sheet) (id : Nat) (component : String) : Except Error Sheet :=
  match s.kind? id with
  | some (.declaration property value _) =>
    (expandValue options (s.location id) component property value).map (s.setValue id)
  | some (.atRule _ params _) => (fullKey (s.location id) component (contextKey params)).map (s.setParams id)
  | _ => .ok s

/-- Goes over the sites until one fails; the stylesheet comes back with the changes made up to there. -/
def expandSites (options : Options) : List (Nat × String) → Sheet → Sheet × Except Error Unit
  | [], s => (s, .ok ())
  | (id, component) :: rest, s =>
    match expandSite options s id component with
    | .ok s' => expandSites options rest s'
    | .error e => (s, .error e)

/-- Writes all component keys out. A failure leaves the stylesheet as far changed as it came. -/
def expand (options : Options) (s : Sheet) : Sheet × Except Error Unit :=
  let atRules := s.atRulesNamed Sheet.root options.componentKeyword
  match rejectColon s options.componentKeyword with
  | .error e => (s, .error e)
  | .ok () =>
    match collectComponents s options.componentKeyword [] atRules with
    | .error e => (s, .error e)
    | .ok components =>
      let s' := atRules.foldl Sheet.remove s
      expandSites options (componentSites options components s') s'

end CssTheming.Compile
