import CssTheming.CommandLine.Run

/-!
# The program on a machine

Commands work on the files below the current directory and speak on the terminal.
-/

namespace CssTheming.Main

/-- What the operating system refused. -/
def faultOf (e : IO.Error) : FileFault :=
  match e with
  | .noFileOrDirectory .. => .notFound
  | .alreadyExists .. => .alreadyExists
  | .inappropriateType _ 20 _ => .notADirectory
  | .inappropriateType _ 21 _ => .isADirectory
  | .noSuchThing _ 20 _ => .notADirectory
  | e => .other (toString e)

def attempt {α : Type} (x : IO α) : IO (Except FileFault α) := do
  try return .ok (← x)
  catch e => return .error (faultOf e)

def readText (path : String) : IO (Except FileFault String) := do
  match ← attempt (IO.FS.readBinFile path) with
  | .error fault => return .error fault
  | .ok bytes =>
    match String.fromUTF8? bytes with
    | some text => return .ok text
    | none => return .error .notText

/-- What is at a path, with everything below it. -/
partial def outlineOf (path : String) : IO Outline := do
  let place ← IO.FS.realPath path
  if ← place.isDir then
    let entries ← place.readDir
    let inner ← entries.toList.mapM fun e => do return (e.fileName, ← outlineOf (Path.join path e.fileName))
    return .directory inner
  else do
    let _ ← place.metadata
    return .file

instance : Storage IO where
  read := readText
  outline path := attempt (outlineOf path)
  makeDirectory path := attempt (IO.FS.createDir path)
  write path text := attempt (IO.FS.writeFile path text)

instance : Console IO where
  say text := IO.print text
  complain text := IO.eprint text

instance : Clock IO where
  now := IO.monoMsNow

end CssTheming.Main

def main (arguments : List String) : IO UInt32 := do
  let code ← (CssTheming.CommandLine.run arguments : IO Nat)
  return code.toUInt32
