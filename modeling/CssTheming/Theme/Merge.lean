import CssTheming.Error

/-!
# Merging documents

Several documents become one by putting each at a path of keys. No two may claim the same place.
-/

namespace CssTheming.Document

/-- The value at a key of a mapping. -/
def valueAt? (key : String) (entries : List (Document × Document)) : Option Document :=
  (entries.find? fun e => e.1.same (.text key)).map (·.2)

/-- Puts a value in place of the one at a key, or behind the others. -/
def setEntry (key : String) (value : Document) : List (Document × Document) → List (Document × Document)
  | [] => [(.text key, value)]
  | e :: es => if e.1.same (.text key) then (e.1, value) :: es else e :: setEntry key value es

/-- Puts a document at the path `path` below `above`. The entries are changed in place, also where that fails: on the
way down a mapping is made wherever there is nothing. An empty path leaves everything as it is. -/
def place (above : List String) (path : List String) (value : Document) (entries : List (Document × Document)) :
    Except Error Unit × List (Document × Document) :=
  match path with
  | [] => (.ok (), entries)
  | [leaf] =>
    match valueAt? leaf entries with
    | some _ => (.error (.theme (".".intercalate (above ++ [leaf])) .duplicateSource), entries)
    | none => (.ok (), setEntry leaf value entries)
  | key :: rest =>
    match (valueAt? key entries).getD (.mapping []) with
    | .mapping inner =>
      let (result, inner) := place (above ++ [key]) rest value inner
      (result, setEntry key (.mapping inner) entries)
    | _ => (.error (.theme (".".intercalate (above ++ [key])) .duplicateSource), entries)

end CssTheming.Document
