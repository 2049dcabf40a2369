/-!
# TOML

The values of a TOML document, and the tables that its lines put together. A table remembers how it came about, because
that decides what may be added to it: a header opens each table once, and dotted keys only go on with tables that dotted
keys began.
-/

namespace CssTheming

/-- How a table came about. -/
inductive Toml.Origin where
  /-- It has a header of its own. -/
  | header
  /-- The header of a table inside it names it. -/
  | implied
  /-- A dotted key names it. -/
  | dotted
  deriving DecidableEq, Repr

inductive Toml where
  | string (text : String)
  | bool (value : Bool)
  | integer (value : Int)
  | float (value : Float)
  | time (text : String)
  | array (items : List Toml)
  /-- A table in braces, to which nothing is added. -/
  | inline (entries : List (String × Toml))
  | table (origin : Toml.Origin) (entries : List (String × Toml))
  /-- The tables of headers in double brackets. -/
  | tables (items : List (List (String × Toml)))
  deriving Inhabited

namespace Toml

abbrev Entries := List (String × Toml)

/-- Puts a value in place of the one at a key, or at the end. -/
def put (key : String) (value : Toml) : Entries → Entries
  | [] => [(key, value)]
  | e :: es => if e.1 = key then (key, value) :: es else e :: put key value es

/-- Changes the last of a list, if there is one. -/
def changeLast (f : Entries → Option Entries) : List Entries → Option (List Entries)
  | [] => none
  | [last] => (f last).map ([·])
  | e :: es => (changeLast f es).map (e :: ·)

/-- Adds a value at a dotted key. `own` says whether the table that the entries belong to may be added to by a key of
this length. -/
def insert (own : Bool) (entries : Entries) (value : Toml) : List String → Option Entries
  | [] => none
  | [key] => if own && (entries.lookup key).isNone then some (put key value entries) else none
  | key :: rest =>
    match entries.lookup key with
    | none => (insert true [] value rest).map fun inner => put key (.table .dotted inner) entries
    | some (.table .header _) => none
    | some (.table origin inner) =>
      (insert (origin = .dotted) inner value rest).map fun inner => put key (.table origin inner) entries
    | some (.tables items) =>
      (changeLast (fun inner => insert false inner value rest) items).map fun items => put key (.tables items) entries
    | some _ => none

/-- Changes the table that a header's path leads to, with implied tables on the way. `last` changes the value at the
last key. -/
def descend (last : Option Toml → Option Toml) (entries : Entries) : List String → Option Entries
  | [] => none
  | [key] => (last (entries.lookup key)).map fun value => put key value entries
  | key :: rest =>
    match entries.lookup key with
    | none => (descend last [] rest).map fun inner => put key (.table .implied inner) entries
    | some (.table origin inner) => (descend last inner rest).map fun inner => put key (.table origin inner) entries
    | some (.tables items) =>
      (changeLast (fun inner => descend last inner rest) items).map fun items => put key (.tables items) entries
    | some _ => none

/-- Opens a table by its header. -/
def openTable : Option Toml → Option Toml
  | none => some (.table .header [])
  | some (.table .implied entries) => some (.table .header entries)
  | some _ => none

/-- Opens one more table by a header in double brackets. -/
def openItem : Option Toml → Option Toml
  | none => some (.tables [[]])
  | some (.tables items) => some (.tables (items ++ [[]]))
  | some _ => none

/-- Adds a value at a dotted key to the table that is open. -/
def addLine (key : List String) (value : Toml) : Option Toml → Option Toml
  | some (.table origin entries) => (insert true entries value key).map (.table origin)
  | some (.tables items) => (changeLast (fun entries => insert true entries value key) items).map .tables
  | _ => none

end Toml

end CssTheming
