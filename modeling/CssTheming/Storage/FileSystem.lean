import CssTheming.Storage.Basic

/-!
# File systems

A tree of directories with texts at its leaves, and the directory that relative paths start from. Every operation
answers with the next file system.
-/

namespace CssTheming

inductive FileTree where
  | file (text : String)
  | directory (entries : List (String × FileTree))
  deriving Inhabited

namespace FileTree

def empty : FileTree := .directory []

/-- The tree at a path of names. -/
def get? : FileTree → List String → Option FileTree
  | tree, [] => some tree
  | .file _, _ :: _ => none
  | .directory entries, name :: rest => (entries.lookup name).bind (get? · rest)

def setEntry (name : String) (tree : FileTree) : List (String × FileTree) → List (String × FileTree)
  | [] => [(name, tree)]
  | e :: es => if e.1 = name then (name, tree) :: es else e :: setEntry name tree es

/-- Puts a tree at a path of names. Nothing changes where a directory is missing on the way. -/
def put (new : FileTree) : FileTree → List String → FileTree
  | _, [] => new
  | .file text, _ :: _ => .file text
  | .directory entries, [name] => .directory (setEntry name new entries)
  | .directory entries, name :: rest =>
    match entries.lookup name with
    | some inner => .directory (setEntry name (put new inner rest) entries)
    | none => .directory entries

mutual
def outline : FileTree → Outline
  | .file _ => .file
  | .directory entries => .directory (outlines entries)

def outlines : List (String × FileTree) → List (String × Outline)
  | [] => []
  | (name, tree) :: rest => (name, outline tree) :: outlines rest
end

mutual
/-- The texts of a tree, each with the names that lead to it. -/
def texts : FileTree → List (List String × String)
  | .file text => [([], text)]
  | .directory entries => textsOf entries

def textsOf : List (String × FileTree) → List (List String × String)
  | [] => []
  | (name, tree) :: rest => (texts tree).map (fun (names, text) => (name :: names, text)) ++ textsOf rest
end

end FileTree

structure FileSystem where
  root : FileTree
  /-- The names that lead to the directory that relative paths start from. -/
  working : List String

namespace FileSystem

/-- Goes on from the directory at `place` by the parts of a path, where two dots lead to the directory around. -/
def follow (root : FileTree) (place : List String) : List String → Except FileFault (List String)
  | [] => .ok place
  | part :: rest =>
    match root.get? place with
    | some (.directory entries) =>
      if part = "." then follow root place rest
      else if part = ".." then follow root place.dropLast rest
      else if (entries.lookup part).isSome then follow root (place ++ [part]) rest
      else .error .notFound
    | some (.file _) => .error .notADirectory
    | none => .error .notFound

def parts (path : String) : List String := (path.splitOn "/").filter (· ≠ "")

def start (s : FileSystem) (path : String) : List String := if Text.startsWith path "/" then [] else s.working

/-- The place that a path leads to. Only a directory can have a slash behind it. -/
def locate (s : FileSystem) (path : String) : Except FileFault (List String) :=
  if path.isEmpty then .error .notFound
  else follow s.root (s.start path) (parts path ++ if Text.endsWith path "/" then ["."] else [])

/-- The directory that a path puts its last part into, and that part. -/
def locateNew (s : FileSystem) (path : String) : Except FileFault (List String × String) :=
  if path.isEmpty then .error .notFound
  else do
    let place ← follow s.root (s.start path) (parts path).dropLast
    match s.root.get? place with
    | some (.directory _) => return (place, (parts path).getLastD ".")
    | _ => throw .notADirectory

def read (s : FileSystem) (path : String) : Except FileFault String := do
  let place ← s.locate path
  match s.root.get? place with
  | some (.file text) => return text
  | some (.directory _) => throw .isADirectory
  | none => throw .notFound

def outline (s : FileSystem) (path : String) : Except FileFault Outline := do
  let place ← s.locate path
  match s.root.get? place with
  | some tree => return tree.outline
  | none => throw .notFound

def makeDirectory (s : FileSystem) (path : String) : Except FileFault FileSystem := do
  let (place, name) ← s.locateNew path
  if [".", ".."].contains name || (s.root.get? (place ++ [name])).isSome then throw .alreadyExists
  return { s with root := FileTree.put .empty s.root (place ++ [name]) }

/-- A path that ends in a slash or in dots names a directory, which takes no text. -/
def write (s : FileSystem) (path text : String) : Except FileFault FileSystem := do
  let (place, name) ← s.locateNew path
  if [".", ".."].contains name || Text.endsWith path "/" then throw .isADirectory
  match s.root.get? (place ++ [name]) with
  | some (.directory _) => throw .isADirectory
  | _ => return { s with root := FileTree.put (.file text) s.root (place ++ [name]) }

/-- Goes on with the next file system, if there is one. -/
def advance (s : FileSystem) : Except FileFault FileSystem → Except FileFault Unit × FileSystem
  | .ok next => (.ok (), next)
  | .error fault => (.error fault, s)

instance : Storage (StateM FileSystem) where
  read path := fun s => (s.read path, s)
  outline path := fun s => (s.outline path, s)
  makeDirectory path := fun s => s.advance (s.makeDirectory path)
  write path text := fun s => s.advance (s.write path text)

/-- In a file system no time passes. -/
instance : Clock (StateM FileSystem) where
  now := pure 0

/-- The texts below the working directory, by their paths from there. -/
def texts (s : FileSystem) : List (String × String) :=
  match s.root.get? s.working with
  | some tree => tree.texts.map fun (names, text) => ("/".intercalate names, text)
  | none => []

/-- A file system in which nothing is but the way to its working directory. -/
def empty (working : List String) : FileSystem :=
  ⟨(List.range (working.length + 1)).foldl (fun root n => FileTree.put .empty root (working.take n)) .empty, working⟩

end FileSystem

end CssTheming
