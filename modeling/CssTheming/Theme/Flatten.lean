import CssTheming.Key
import CssTheming.Theme.Interpolation
import CssTheming.Theme.Source

/-!
# Flattening

The leaves of a theme source's trees are the values of the theme, each under the dotted path that leads to it. A mapping
whose keys all name contexts is one key with a value for each of them. `leaves` lists them in the order of the document;
of two with the same key and context the theme has the later one.
-/

namespace CssTheming.Theme

/-- What a tree may hold: tokens have no contexts and name no other tokens. -/
structure Grammar where
  contexts : Bool
  tokens : Option (Table Literal)

structure Leaf where
  key : String
  context : Option String
  value : Literal
  deriving DecidableEq

def dotted (path : List String) : String := ".".intercalate path

/-- A literal of a document, with tokens put in. Tags do not count. -/
def literal (g : Grammar) (path : List String) : Document → Except Error Literal
  | .text value =>
    match g.tokens with
    | none => .ok (.text value)
    | some tokens =>
      match interpolate tokens value with
      | .ok text => .ok (.text text)
      | .error token => .error (.theme (dotted path) (.unknownToken token))
  | .number value => .ok (.number value)
  | .tagged _ value => literal g path value
  | other => .error (.theme (dotted path) (.unsupportedValue other.kind))

/-- The part of a path that a mapping's key is. -/
def pathElement (path : List String) : Document → Except Error String
  | .text value => .ok value
  | .number value => .ok value.text
  | .bool value => .ok (if value then "true" else "false")
  | other => .error (.theme (dotted path) (.unsupportedKey other.kind))

def isContextEntry : Document × Document → Bool
  | (.text key, _) => Key.isContext key
  | _ => false

/-- The leaves of a mapping from contexts to literals. -/
def contextLeaves (g : Grammar) (path : List String) : List (Document × Document) → Except Error (List Leaf)
  | [] => .ok []
  | (key, value) :: rest => do
    let context := match key with
      | .text key => Key.contextName key
      | _ => ""
    match value with
    | .mapping _ | .list _ => .error (.theme (dotted path) .nestedContextValue)
    | value => do
      let value ← literal g path value
      return ⟨dotted path, some context, value⟩ :: (← contextLeaves g path rest)

mutual
def leavesAt (g : Grammar) (path : List String) : Document → Except Error (List Leaf)
  | .tagged _ value => leavesAt g path value
  | .mapping entries =>
    let contexts := entries.countP isContextEntry
    if entries.isEmpty then .error (.theme (dotted path) .emptyMapping)
    else if contexts = 0 then leaves g path entries
    else if contexts ≠ entries.length then .error (.theme (dotted path) .mixedKeys)
    else if !g.contexts then .error (.theme (dotted path) .contextNotAllowed)
    else contextLeaves g path entries
  | value => do return [⟨dotted path, none, ← literal g path value⟩]

def leaves (g : Grammar) (path : List String) : List (Document × Document) → Except Error (List Leaf)
  | [] => .ok []
  | (key, value) :: rest => do
    let element ← pathElement path key
    let first ← leavesAt g (path ++ [element]) value
    return first ++ (← leaves g path rest)
end

def ofLeaves (ls : List Leaf) : Theme := ls.foldl (fun t l => t.insert l.key l.context l.value) empty

/-- The table of a source's tokens. -/
def tokenTable (source : ThemeSource) : Except Error (Table Literal) :=
  match source.tokens with
  | none => .ok .empty
  | some tokens => (leaves ⟨false, none⟩ [] tokens).map fun ls => (ofLeaves ls).contextless

/-- The theme of a source. -/
def ofSource (source : ThemeSource) : Except Error Theme := do
  let tokens ← tokenTable source
  return ofLeaves (← leaves ⟨true, some tokens⟩ [] source.components)

end CssTheming.Theme
