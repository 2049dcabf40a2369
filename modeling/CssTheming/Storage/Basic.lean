import CssTheming.Error
import CssTheming.Path
import CssTheming.Storage.Outline

/-!
# Storage

What commands need of the files around them. They are written against `Storage`, so that they run both on the files of
a machine and on a `FileSystem`, which is a value.
-/

namespace CssTheming

class Storage (m : Type → Type) where
  /-- The text of a file. -/
  read : String → m (Except FileFault String)
  /-- What is at a path, and everything below it. -/
  outline : String → m (Except FileFault Outline)
  /-- Makes a directory in one that is there. -/
  makeDirectory : String → m (Except FileFault Unit)
  /-- Puts a text into a file of a directory that is there, in place of what the file holds. -/
  write : String → String → m (Except FileFault Unit)

/-- Time in milliseconds from some moment on. -/
class Clock (m : Type → Type) where
  now : m Nat

namespace Storage

variable {m : Type → Type} [Monad m] [Storage m]

def isDirectory (path : String) : m Bool := do
  match ← Storage.outline path with
  | .ok o => return o.isDirectory
  | .error _ => return false

/-- Makes the directories of a list of paths, each inside the next, as far as they are missing. -/
def makeMissing : List String → m (Except FileFault Unit)
  | [] => return .ok ()
  | path :: around => do
    if path.isEmpty then return .ok ()
    match ← Storage.makeDirectory path with
    | .ok () => return .ok ()
    | .error .notFound =>
      match ← makeMissing around with
      | .error fault => return .error fault
      | .ok () =>
        match ← Storage.makeDirectory path with
        | .ok () => return .ok ()
        | .error fault => return if ← isDirectory path then .ok () else .error fault
    | .error fault => return if ← isDirectory path then .ok () else .error fault

/-- Makes a directory and those around it that are missing. -/
def makeDirectories (path : String) : m (Except FileFault Unit) := makeMissing (Path.ancestors path)

/-- Takes a refusal as the error that it is for the caller. -/
def orError {α : Type} (error : FileFault → Error) (x : m (Except FileFault α)) : ExceptT Error m α :=
  ExceptT.mk ((·.mapError error) <$> x)

def save (path text : String) : ExceptT Error m Unit := orError .file (Storage.write path text)

end Storage

end CssTheming
