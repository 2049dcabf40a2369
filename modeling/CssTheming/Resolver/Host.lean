import CssTheming.Resolver.Properties

/-!
# Hosts

A document that stylesheets are attached to, without a screen. Its sources are in memory, by address. A stylesheet
counts once it has been loaded: its root properties for every element, and those of a class for elements of that class.
-/

namespace CssTheming

/-- What an address serves. -/
inductive Host.Source where
  | css (text : String)
  | failing (message : String)
  deriving DecidableEq, Repr

/-- Names a stylesheet that was inserted. -/
structure Host.Handle where
  id : Nat
  url : String
  deriving DecidableEq, Repr

structure Host.Attached where
  id : Nat
  url : String
  /-- What it declares, once it has loaded. -/
  properties : Option CustomProperties
  deriving DecidableEq

structure Host where
  sources : Table Host.Source
  attached : List Host.Attached
  nextId : Nat

namespace Host

def empty : Host := ⟨.empty, [], 0⟩

def register (h : Host) (url : String) (source : Source) : Host := { h with sources := h.sources.insert url source }

def attachedUrls (h : Host) : List String := h.attached.map (·.url)

/-- The handle that the next stylesheet gets. -/
def nextHandle (h : Host) (url : String) : Handle := ⟨h.nextId, url⟩

/-- Attaches a stylesheet, not loaded yet, behind the others. -/
def insert (h : Host) (url : String) : Host :=
  { h with attached := h.attached ++ [⟨h.nextId, url, none⟩], nextId := h.nextId + 1 }

def remove (h : Host) (handle : Handle) : Host := { h with attached := h.attached.filter (·.id ≠ handle.id) }

/-- What the source of an address declares, or why it does not load. -/
def fetch (h : Host) (url : String) : Except String CustomProperties :=
  match h.sources.get? url with
  | some (.css text) =>
    match CustomProperties.read text url with
    | .ok properties => .ok properties
    | .error e => .error e.message
  | some (.failing message) => .error message
  | none => .error ("'" ++ url ++ "' not found")

/-- Loads an attached stylesheet from its source, or tells why that fails. -/
def load (h : Host) (handle : Handle) : Except String Host := do
  let properties ← h.fetch handle.url
  if h.attached.any (·.id = handle.id) then
    return { h with attached := h.attached.map fun a =>
      if a.id = handle.id then { a with properties := some properties } else a }
  else throw "stylesheet is not attached"

def loaded (h : Host) : List CustomProperties := h.attached.filterMap (·.properties)

/-- The custom properties of an element without classes. -/
def rootStyle (h : Host) : Table String := h.loaded.foldl (fun style p => style.insertAll p.root.entries) .empty

/-- The custom properties of an element with one class. -/
def probeStyle (h : Host) (name : String) : Table String :=
  (h.loaded.filterMap fun p => p.classes.get? name).foldl (fun style t => style.insertAll t.entries) h.rootStyle

/-- The root style, or the style of an element with the given class. -/
def style (h : Host) : Option String → Table String
  | none => h.rootStyle
  | some name => h.probeStyle name

end Host

end CssTheming
