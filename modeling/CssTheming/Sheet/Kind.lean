/-!
# Kinds of stylesheet nodes

Selectors, the parameters of at-rules and declaration values are kept as text.
-/

namespace CssTheming.Sheet

inductive Kind where
  | root
  | rule (selector : String)
  | atRule (name params : String) (hasBlock : Bool)
  | declaration (property value : String) (important : Bool)
  | comment (text : String)
  deriving DecidableEq, Repr, Inhabited

namespace Kind

def isRule : Kind → Bool
  | .rule _ => true
  | _ => false

def isDeclaration : Kind → Bool
  | .declaration .. => true
  | _ => false

def isAtRuleNamed (name : String) : Kind → Bool
  | .atRule n _ _ => n = name
  | _ => false

end Kind

end CssTheming.Sheet
