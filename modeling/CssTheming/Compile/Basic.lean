import CssTheming.Compile.Context
import CssTheming.Compile.Reference
import CssTheming.Sheet.Parser

/-!
# Compiling stylesheets

From a stylesheet that names keys to one that refers to custom properties: components are written out, contexts composed
and config calls turned into references, in that order.
-/

namespace CssTheming

structure Compiled where
  path : String
  css : String
  usages : List Usage
  deriving DecidableEq, Repr

structure CompileStats where
  sourceSize : Nat
  outputSize : Nat
  ruleCount : Nat
  usageCount : Nat
  contextCount : Nat
  deriving DecidableEq, Repr

def Compiled.usageFile (c : Compiled) : UsageFile := ⟨c.path, c.usages⟩

namespace Compile

/-- The three rewritings in their order: the stylesheet, its usages and the number of composed contexts. -/
def rewrite (options : Options) (s : Sheet) : Except Error (Sheet × List Usage × Nat) := do
  let (s, expanded) := expand options s
  expanded
  let (s, composed) := compose options s
  let contexts ← composed
  let (s, referred) := refer options s
  let usages ← referred
  return (s, usages, contexts)

/-- Sizes count the bytes of the texts. -/
def compileWithStats (source path : String) (options : Options) : Except Error (Compiled × CompileStats) := do
  let parsed ← Sheet.parse source path
  let (s, usages, contexts) ← rewrite options parsed
  let css := s.css
  return (⟨path, css, usages⟩, ⟨source.utf8ByteSize, css.utf8ByteSize, s.ruleCount, usages.length, contexts⟩)

def compile (source path : String) (options : Options) : Except Error Compiled :=
  (compileWithStats source path options).map (·.1)

end Compile

end CssTheming
