import CssTheming.Text.Part

/-!
# Paths

A path is a text of names with slashes between them. Repeated slashes, and a single dot behind a slash, do not count.
-/

namespace CssTheming.Path

/-- A reversed path without the slashes and single dots at its end. -/
def trimReversed : List Char → List Char
  | '/' :: r => trimReversed r
  | '.' :: '/' :: r => trimReversed r
  | s => s

/-- The last name of a reversed path, and what is in front of it. -/
def splitReversed (s : List Char) : List Char × List Char :=
  let s := trimReversed s
  ((s.takeWhile (· ≠ '/')).reverse, s.dropWhile (· ≠ '/'))

/-- The last name of a path, unless it stands for a directory by dots. -/
def fileName? (path : String) : Option String :=
  let name := String.ofList (splitReversed path.toList.reverse).1
  if ["", ".", ".."].contains name then none else some name

/-- The name in front of the last dot and the extension behind it. A dot at the start begins no extension. -/
def splitName (name : String) : String × Option String :=
  let reversed := name.toList.reverse
  match reversed.dropWhile (· ≠ '.') with
  | _ :: d :: r => (String.ofList (d :: r).reverse, some (String.ofList (reversed.takeWhile (· ≠ '.')).reverse))
  | _ => (name, none)

def stem? (path : String) : Option String := (fileName? path).map fun name => (splitName name).1

def extension? (path : String) : Option String := (fileName? path).bind fun name => (splitName name).2

/-- The path of the directory that holds the last name. -/
def parent? (path : String) : Option String :=
  let trimmed := trimReversed path.toList.reverse
  if trimmed.isEmpty then none
  else
    match trimmed.dropWhile (· ≠ '/') with
    | [] => some ""
    | r => if (trimReversed r).isEmpty then some "/" else some (String.ofList (trimReversed r).reverse)

/-- A path and the paths of the directories around it, innermost first, as far as `depth` of them. -/
def ancestorsUpTo (depth : Nat) (path : String) : List String :=
  match depth with
  | 0 => []
  | depth + 1 =>
    match parent? path with
    | some p => path :: ancestorsUpTo depth p
    | none => [path]

/-- A path has fewer directories around it than characters. -/
def ancestors (path : String) : List String := ancestorsUpTo (path.length + 1) path

/-- The path of `name` in a directory; an absolute one stands for itself. -/
def join (directory name : String) : String :=
  if Text.startsWith name "/" || directory.isEmpty then name
  else if Text.endsWith directory "/" then directory ++ name
  else directory ++ "/" ++ name

/-- Replaces the extension of the last name, or gives it one; an empty one takes it away. Of a name like `..css`, in
which only a dot is left in front of the extension, just the extension is taken away, if nothing follows the name. -/
def withExtension (path ext : String) : String :=
  match fileName? path with
  | none => path
  | some name =>
    let (stem, old) := splitName name
    if stem = "." && Text.endsWith path name then String.ofList (path.toList.take (path.length - (old.getD "").length))
    else
      let before := (splitReversed path.toList.reverse).2.reverse
      String.ofList before ++ stem ++ (if ext.isEmpty then "" else "." ++ ext)

end CssTheming.Path
