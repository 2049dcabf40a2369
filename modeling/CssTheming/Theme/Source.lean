import CssTheming.Error

/-!
# Theme sources

A theme is written as a mapping with the trees `components` and, if texts name tokens, `tokens`.
-/

namespace CssTheming

structure ThemeSource where
  components : List (Document × Document)
  tokens : Option (List (Document × Document))

namespace ThemeSource

def componentsKey : String := "components"

def tokensKey : String := "tokens"

/-- Whether a document is meant to be a theme source. -/
def isSource (d : Document) : Bool :=
  match d.get? componentsKey with
  | some (.mapping _) => true
  | _ => false

/-- The trees of a document, components first. -/
def ofDocument (d : Document) : Except Error ThemeSource :=
  match d with
  | .mapping _ =>
    match d.get? componentsKey with
    | some (.mapping components) =>
      match d.get? tokensKey with
      | some (.mapping tokens) => .ok ⟨components, some tokens⟩
      | none => .ok ⟨components, none⟩
      | some .null => .ok ⟨components, none⟩
      | some other => .error (.theme tokensKey (.notAMapping other.kind))
    | some other => .error (.theme componentsKey (.notAMapping other.kind))
    | none => .error (.theme componentsKey .missingComponents)
  | other => .error (.theme "" (.notAMapping other.kind))

end ThemeSource

end CssTheming
