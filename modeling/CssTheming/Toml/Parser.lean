import CssTheming.Toml.Scalar

/-!
# Reading TOML

A document is read line by line into one table.
-/

namespace CssTheming.Toml

/-- How many arrays and tables in braces may be nested, and one more than the parts that a dotted key may have. -/
def maxDepth : Nat := 80

/-! ## Keys -/

def isKeyChar (c : Char) : Bool := c.isAlphanum || c = '_' || c = '-'

/-- A key without dots, and the rest. Quoted keys are on one line. -/
def readSimpleKey (s : List Char) : Option (String × List Char) :=
  match s with
  | '"' :: r => (readLine '"' true r (s.length + 1)).map fun (t, rest) => (String.ofList t, rest)
  | '\'' :: r => (readLine '\'' false r (s.length + 1)).map fun (t, rest) => (String.ofList t, rest)
  | s =>
    let name := s.takeWhile isKeyChar
    if name.isEmpty then none else some (String.ofList name, s.dropWhile isKeyChar)

/-- A dotted key of at most `parts` parts, with the blanks around them, and the rest. -/
def readKey (s : List Char) (parts : Nat) : Option (List String × List Char) :=
  match parts with
  | 0 => none
  | parts + 1 => do
    let (name, r) ← readSimpleKey (skipBlank s)
    match skipBlank r with
    | '.' :: t => (readKey t parts).map fun (names, rest) => (name :: names, rest)
    | t => some ([name], t)

/-! ## Values -/

def skipComment : List Char → List Char
  | '#' :: r => r.dropWhile isPlain
  | r => r

/-- Skips blanks, comments and line breaks between the items of an array. -/
def skipGaps (s : List Char) (fuel : Nat) : List Char :=
  match fuel with
  | 0 => s
  | fuel + 1 =>
    let t := skipBlank s
    match newline? (skipComment t) with
    | some r => skipGaps r fuel
    | none => t

mutual
/-- A value with so many levels of nesting left, and the rest. -/
def readValue (levels : Nat) (s : List Char) (fuel : Nat) : Option (Toml × List Char) :=
  match fuel with
  | 0 => none
  | fuel + 1 =>
    match s with
    | '[' :: r =>
      if levels ≤ 1 then none else (readItems (levels - 1) r fuel).map fun (items, rest) => (.array items, rest)
    | '{' :: r =>
      if levels ≤ 1 then none
      else
        match skipBlank r with
        | '}' :: t => some (.inline [], t)
        | t => (readEntries (levels - 1) [] t fuel).map fun (entries, rest) => (.inline entries, rest)
    | s => readScalar s
termination_by structural fuel

/-- The items of an array behind its opening bracket or a comma, through the closing bracket, and the rest. -/
def readItems (levels : Nat) (s : List Char) (fuel : Nat) : Option (List Toml × List Char) :=
  match fuel with
  | 0 => none
  | fuel + 1 =>
    match skipGaps s s.length with
    | ']' :: r => some ([], r)
    | t =>
      match readValue levels t fuel with
      | none => none
      | some (value, r) =>
        match skipGaps r r.length with
        | ']' :: u => some ([value], u)
        | ',' :: u => (readItems levels u fuel).map fun (items, rest) => (value :: items, rest)
        | _ => none
termination_by structural fuel

/-- The entries of a table in braces behind `entries`, through the closing brace, and the rest. -/
def readEntries (levels : Nat) (entries : Entries) (s : List Char) (fuel : Nat) : Option (Entries × List Char) :=
  match fuel with
  | 0 => none
  | fuel + 1 =>
    match readKey s (maxDepth - 1) with
    | some (key, '=' :: r) =>
      match readValue levels (skipBlank r) fuel with
      | none => none
      | some (value, t) =>
        match insert true entries value key with
        | none => none
        | some entries =>
          match skipBlank t with
          | '}' :: u => some (entries, u)
          | ',' :: u => readEntries levels entries u fuel
          | _ => none
    | _ => none
termination_by structural fuel
end

/-! ## Documents -/

/-- What follows the end of a line, behind which only blanks and a comment may stand. -/
def finishLine (s : List Char) : Option (List Char) :=
  match skipComment (skipBlank s) with
  | [] => some []
  | r => newline? r

/-- What follows a closing bracket. -/
def closeHeader (double : Bool) : List Char → Option (List Char)
  | ']' :: r => if double then skipChar ']' r else some r
  | _ => none

/-- A header: whether it is in double brackets, its path, and what follows its line. -/
def readHeader (s : List Char) : Option (Bool × List String × List Char) :=
  let (double, s) := match s with
    | '[' :: r => (true, r)
    | r => (false, r)
  do
    let (path, r) ← readKey s (maxDepth - 1)
    return (double, path, ← finishLine (← closeHeader double r))

/-- A line with a key and its value, and what follows it. -/
def readEntry (s : List Char) : Option (List String × Toml × List Char) := do
  let (key, r) ← readKey s (maxDepth - 1)
  let (value, t) ← readValue maxDepth (skipBlank (← skipChar '=' r)) (2 * s.length + 2)
  return (key, value, ← finishLine t)

/-- Adds a value at a key to the table with a path, which is the root if the path is empty. -/
def addTo (root : Entries) (path key : List String) (value : Toml) : Option Entries :=
  match path with
  | [] => insert true root value key
  | path => descend (addLine key value) root path

/-- Reads the lines behind those that have made `root`; `path` is the path of the table that is open. -/
def readDocumentLines (root : Entries) (path : List String) (s : List Char) (fuel : Nat) : Option Entries :=
  match fuel with
  | 0 => none
  | fuel + 1 =>
    match skipBlank s with
    | [] => some root
    | '[' :: r => do
      let (double, path, rest) ← readHeader r
      let root ← descend (if double then openItem else openTable) root path
      readDocumentLines root path rest fuel
    | c :: r =>
      if c = '#' ∨ c = '\n' ∨ c = '\r' then (finishLine (c :: r)).bind fun rest => readDocumentLines root path rest fuel
      else do
        let (key, value, rest) ← readEntry (c :: r)
        readDocumentLines (← addTo root path key value) path rest fuel

/-- The entries of a document. A byte order mark may begin it. -/
def parse? (text : String) : Option Entries :=
  let s := match text.toList with
    | '\ufeff' :: r => r
    | r => r
  readDocumentLines [] [] s (s.length + 1)

end CssTheming.Toml
