/-!
# The program

What it is called and what it can do.
-/

namespace CssTheming

structure Program where
  name : String
  version : String
  description : String
  features : List String
  deriving DecidableEq, Repr

def Program.supports (p : Program) (feature : String) : Bool := p.features.contains feature

def program : Program where
  name := "makeup"
  version := "0.1.0"
  description :=
    "Makeup themeable CSS compiler - compile cfg() stylesheets to custom properties, usage schemas and fallback CSS"
  features := ["components", "contexts", "tokens", "usages", "compat"]

end CssTheming
