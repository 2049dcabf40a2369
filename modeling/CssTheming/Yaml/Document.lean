import CssTheming.Error
import CssTheming.Text.Part
import CssTheming.Yaml.Event
import CssTheming.Yaml.Resolution
import CssTheming.Yaml.Tokens

/-!
# Documents in YAML

An alias stands for the node at its anchor, wherever that node is. Collections are nested at most 128 deep, no key of a
mapping is repeated, and aliases are followed at most a hundred times as often as there are events.
-/

namespace CssTheming.Yaml

/-- An event whose alias is resolved to the number of an anchor. -/
inductive Item where
  | alias (anchor : Nat)
  | scalar (tag : Option String) (text : String) (plain : Bool)
  | sequenceStart (tag : Option String)
  | sequenceEnd
  | mappingStart (tag : Option String)
  | mappingEnd

/-- Anchors by name, and the places of the events that they stand at by number. -/
structure Anchors where
  names : List (String × Nat)
  places : List (Nat × Nat)

namespace Anchors

def count (a : Anchors) : Nat := (a.names.map (·.1)).eraseDups.length

/-- An anchor gets the number of names known before. The last place that is given to a number counts. -/
def add (a : Anchors) (place : Nat) : Option String → Anchors
  | none => a
  | some name => ⟨(name, a.count) :: a.names, (a.count, place) :: a.places⟩

end Anchors

/-- Resolves the aliases of events, the first of which stands at `place`. -/
def resolve (anchors : Anchors) (place : Nat) : List Event → Option (Anchors × List Item)
  | [] => some (anchors, [])
  | e :: es => do
    let (anchors, item) ← match e with
      | .alias name => (anchors.names.lookup name).map fun n => (anchors, .alias n)
      | .scalar p text plain => some (anchors.add place p.anchor, .scalar p.tag text plain)
      | .sequenceStart p => some (anchors.add place p.anchor, .sequenceStart p.tag)
      | .mappingStart p => some (anchors.add place p.anchor, .mappingStart p.tag)
      | .sequenceEnd => some (anchors, .sequenceEnd)
      | .mappingEnd => some (anchors, .mappingEnd)
    let (anchors, items) ← resolve anchors (place + 1) es
    return (anchors, item :: items)

/-- A tag without its exclamation mark, unless it is nothing else. -/
def unmark (tag : String) : String :=
  match Text.stripStart? "!" tag with
  | some "" => tag
  | some rest => rest
  | none => tag

/-- Puts a local tag on a document. Other tags of collections say nothing. -/
def addTag (tag : Option String) (d : Document) : Document :=
  match tag with
  | some t => if Text.startsWith t "!" then .tagged (unmark (unmark t)) d else d
  | none => d

/-- What a scalar means. -/
def scalar? (tag : Option String) (text : String) (plain : Bool) : Option Document :=
  match tag.filter (!Text.startsWith · "!") with
  | some t => typed? t text
  | none => (if plain then plain? text else some (.text text)).map (addTag tag)

/-- How deep collections may be nested. -/
def maxDepth : Nat := 128

/-- The events of a document, with the places of anchors. -/
structure Items where
  items : Array Item
  places : List (Nat × Nat)

/-- How many aliases may be followed. -/
def Items.maxJumps (s : Items) : Nat := 100 * s.items.size

/-- A part of a document, the place behind it and the number of aliases followed so far. -/
structure Part (α : Type) where
  value : α
  next : Nat
  jumps : Nat

mutual
/-- The node at a place, with so many levels of nesting left. -/
def nodeAt (s : Items) (place jumps levels fuel : Nat) : Option (Part Document) :=
  match fuel with
  | 0 => none
  | fuel + 1 =>
    match s.items[place]? with
    | some (.alias anchor) => do
      let target ← s.places.lookup anchor
      if jumps ≥ s.maxJumps then none
      let part ← nodeAt s target (jumps + 1) levels fuel
      return ⟨part.value, place + 1, part.jumps⟩
    | some (.scalar tag text plain) => (scalar? tag text plain).map fun d => ⟨d, place + 1, jumps⟩
    | some (.sequenceStart tag) =>
      match levels with
      | 0 => none
      | levels + 1 =>
        (itemsAt s (place + 1) jumps levels fuel).map fun part => ⟨addTag tag (.list part.value), part.next, part.jumps⟩
    | some (.mappingStart tag) =>
      match levels with
      | 0 => none
      | levels + 1 =>
        (entriesAt s [] (place + 1) jumps levels fuel).map fun part =>
          ⟨addTag tag (.mapping part.value), part.next, part.jumps⟩
    | _ => none
termination_by structural fuel

/-- The items of a sequence from a place on. -/
def itemsAt (s : Items) (place jumps levels fuel : Nat) : Option (Part (List Document)) :=
  match fuel with
  | 0 => none
  | fuel + 1 =>
    match s.items[place]? with
    | some .sequenceEnd => some ⟨[], place + 1, jumps⟩
    | _ => do
      let first ← nodeAt s place jumps levels fuel
      let rest ← itemsAt s first.next first.jumps levels fuel
      return ⟨first.value :: rest.value, rest.next, rest.jumps⟩
termination_by structural fuel

/-- The entries of a mapping from a place on, behind those with the keys `keys`. -/
def entriesAt (s : Items) (keys : List Document) (place jumps levels fuel : Nat) :
    Option (Part (List (Document × Document))) :=
  match fuel with
  | 0 => none
  | fuel + 1 =>
    match s.items[place]? with
    | some .mappingEnd => some ⟨[], place + 1, jumps⟩
    | _ => do
      let key ← nodeAt s place jumps levels fuel
      if keys.any (key.value.same ·) then none
      let value ← nodeAt s key.next key.jumps levels fuel
      let rest ← entriesAt s (key.value :: keys) value.next value.jumps levels fuel
      return ⟨(key.value, value.value) :: rest.value, rest.next, rest.jumps⟩
termination_by structural fuel
end

/-- The document of a stream. A level of nesting takes at most a step for each event and two more. -/
def document? (text : String) : Option Document := do
  let events ← events? (← tokens? text)
  if events.isEmpty then return .null
  let (anchors, items) ← resolve ⟨[], []⟩ 0 events
  let part ← nodeAt ⟨items.toArray, anchors.places⟩ 0 0 maxDepth ((maxDepth + 2) * (items.length + 3))
  return part.value

/-- Reads a document. -/
def readDocument (text : String) : Except Error Document :=
  match document? text with
  | some d => .ok d
  | none => .error (.format .yaml)

end CssTheming.Yaml
