import CssTheming.Compile.Basic
import CssTheming.Json.Printer
import CssTheming.Json.Usage
import CssTheming.Storage.Basic

/-!
# Compiling files

The compiled stylesheet goes into a directory of its own, with the usages next to it.
-/

namespace CssTheming.Compile

variable {m : Type → Type} [Monad m] [Storage m]

/-- Compiles the file `input` into the directory `output`. Nothing is written if the stylesheet does not compile. -/
def compileFile (input output : String) (options : Options) : ExceptT Error m CompileStats := do
  let source ← Storage.orError (fun fault => .unreadable input (some fault)) (Storage.read input)
  let (compiled, stats) ← compileWithStats source input options
  match Path.stem? input with
  | none => throw (.format (.noFileName input))
  | some stem =>
    Storage.orError .file (Storage.makeDirectories output)
    let path := Path.join output (stem ++ ".css")
    Storage.save path compiled.css
    Storage.save (UsageFile.location path) compiled.usageFile.toJson.print
    return stats

end CssTheming.Compile
