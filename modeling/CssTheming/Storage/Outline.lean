/-!
# Outlines of directories

What is at a path, without the contents of files. A walk lists the files below, each by the names that lead to it, in an
order of the entries of each directory.
-/

namespace CssTheming

inductive Outline where
  | file
  | directory (entries : List (String × Outline))
  deriving Inhabited

namespace Outline

def isDirectory : Outline → Bool
  | .file => false
  | .directory _ => true

/-- An entry of a directory, with the walk below it. -/
structure Branch where
  name : String
  isDirectory : Bool
  walk : List (List String)

/-- Entries by name. -/
def byName (a b : Branch) : Bool := a.name ≤ b.name

/-- Files by name, then directories by name. -/
def filesFirst (a b : Branch) : Bool := if a.isDirectory = b.isDirectory then a.name ≤ b.name else b.isDirectory

mutual
/-- The files below, each by its names, with the entries of each directory in the order `before`. -/
def walk (before : Branch → Branch → Bool) : Outline → List (List String)
  | .file => [[]]
  | .directory entries =>
    ((branches before entries).mergeSort before).flatMap fun b => b.walk.map (b.name :: ·)

def branches (before : Branch → Branch → Bool) : List (String × Outline) → List Branch
  | [] => []
  | (name, o) :: rest => ⟨name, o.isDirectory, walk before o⟩ :: branches before rest
end

end Outline

end CssTheming
