import CssTheming.Json.Document
import CssTheming.Storage.Basic
import CssTheming.Theme.Flatten
import CssTheming.Theme.Merge
import CssTheming.Yaml.Document

/-!
# Loading themes

A theme source is a file in YAML or JSON, or a directory of such files. Each file of a directory holds the document at
the path of keys that its own path gives: `components/button.yaml` holds `components.button`.
-/

namespace CssTheming

namespace ThemeSource

variable {m : Type → Type} [Monad m] [Storage m]

/-- The document that a text in the format of a file's extension writes. -/
def parseDocument (path text : String) : Except Error Document :=
  match Path.extension? path with
  | some "json" => Json.readDocument text
  | some "yaml" | some "yml" => Yaml.readDocument text
  | _ => .error (.format (.themeExtension path))

def loadDocument (path : String) : ExceptT Error m Document := do
  let text ← Storage.orError (fun _ => .unreadable path none) (Storage.read path)
  parseDocument path text

/-- Files that look like documents and hold no part of a theme. -/
def ignoredNames : List String := ["package.json"]

def isDocumentName (path : String) : Bool :=
  !ignoredNames.contains ((Path.fileName? path).getD "") &&
    ["yaml", "yml", "json"].contains ((Path.extension? path).getD "")

/-- The path of keys of a file, by the names that lead to it. -/
def keyPath : List String → List String
  | [] => []
  | [name] => [Path.withExtension name ""]
  | name :: rest => name :: keyPath rest

/-- Puts the documents of files below a directory at their places, in turn. -/
def mergeFiles (directory : String) (entries : List (Document × Document)) :
    List (List String) → ExceptT Error m (List (Document × Document))
  | [] => return entries
  | names :: rest => do
    let path := names.foldl Path.join directory
    if isDocumentName path then
      let document ← loadDocument path
      let (placed, entries) := Document.place [] (keyPath names) document entries
      placed
      mergeFiles directory entries rest
    else mergeFiles directory entries rest

/-- One document of all files below a directory. The files of a directory come before the directories in it. -/
def mergeDirectory (directory : String) : ExceptT Error m Document := do
  let outline ← Storage.orError (.traversal directory) (Storage.outline directory)
  return .mapping (← mergeFiles directory [] (outline.walk Outline.filesFirst))

def loadDirectory (directory : String) : ExceptT Error m ThemeSource := do
  ofDocument (← mergeDirectory directory)

/-- Loads a source from a file or a directory. -/
def load (path : String) : ExceptT Error m ThemeSource := do
  if ← (Storage.isDirectory path : m Bool) then loadDirectory path else ofDocument (← loadDocument path)

end ThemeSource

/-- Loads the theme of a source. -/
def Theme.load {m : Type → Type} [Monad m] [Storage m] (path : String) : ExceptT Error m Theme := do
  Theme.ofSource (← ThemeSource.load path)

end CssTheming
