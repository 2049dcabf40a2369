import CssTheming.Yaml.Token

/-!
# From tokens to events

The nodes of a document in preorder, collections between a start and an end. A node that is not written is an empty
plain scalar.
-/

namespace CssTheming.Yaml

/-- What is written in front of a node. -/
structure Properties where
  anchor : Option String
  tag : Option String
  deriving DecidableEq, Repr

def Properties.absent : Properties := ⟨none, none⟩

inductive Event where
  | alias (name : String)
  | scalar (properties : Properties) (text : String) (plain : Bool)
  | sequenceStart (properties : Properties)
  | sequenceEnd
  | mappingStart (properties : Properties)
  | mappingEnd
  deriving DecidableEq, Repr

def Event.empty (properties : Properties) : Event := .scalar properties "" true

/-- What may come next in the innermost open collections. -/
inductive Place where
  | blockItem
  /-- An item of a sequence that is no deeper than the mapping it is a value of. -/
  | plainItem
  | blockKey
  | blockValue
  | flowItem (first : Bool)
  /-- A mapping of one entry that is an item of a flow sequence. -/
  | pairKey
  | pairValue
  | pairEnd
  | flowKey (first : Bool)
  | flowValue
  | missingFlowValue
  deriving DecidableEq, Repr

/-- The text that each tag handle stands for. -/
abbrev Handles := List (String × String)

def Handles.default : Handles := [("!", "!"), ("!!", "tag:yaml.org,2002:")]

def tagText (handles : Handles) (name : TagName) : Option String :=
  if name.handle.isEmpty then some name.suffix
  else ((handles ++ Handles.default).lookup name.handle).map (· ++ name.suffix)

/-- The anchor and the tag of a node, in either order, and the tokens behind them. -/
def readProperties (handles : Handles) : List Token → Option (Properties × List Token)
  | .anchor a :: .tag t :: r => do return (⟨some a, some (← tagText handles t)⟩, r)
  | .tag t :: .anchor a :: r => do return (⟨some a, some (← tagText handles t)⟩, r)
  | .anchor a :: r => some (⟨some a, none⟩, r)
  | .tag t :: r => do return (⟨none, some (← tagText handles t)⟩, r)
  | r => some (.absent, r)

/-- A scalar whose tag says no more than that it is one has no tag. -/
def Properties.ofScalar (p : Properties) : Properties := if p.tag = some "!" then ⟨p.anchor, none⟩ else p

/-- An event, what may come next and the tokens that are left. -/
structure Step where
  event : Event
  places : List Place
  rest : List Token

/-- Begins a node, behind which `places` come next. Blocks are not allowed everywhere. -/
def beginNode (handles : Handles) (block plainItems : Bool) (tokens : List Token) (places : List Place) : Option Step :=
  match tokens with
  | .alias name :: r => some ⟨.alias name, places, r⟩
  | tokens =>
    match readProperties handles tokens with
    | none => none
    | some (p, .scalar text plain :: r) => some ⟨.scalar p.ofScalar text plain, places, r⟩
    | some (p, .flowSequenceStart :: r) => some ⟨.sequenceStart p, .flowItem true :: places, r⟩
    | some (p, .flowMappingStart :: r) => some ⟨.mappingStart p, .flowKey true :: places, r⟩
    | some (p, r) =>
      match r, block, plainItems with
      | .blockEntry :: _, _, true => some ⟨.sequenceStart p, .plainItem :: places, r⟩
      | .blockSequenceStart :: t, true, _ => some ⟨.sequenceStart p, .blockItem :: places, t⟩
      | .blockMappingStart :: t, true, _ => some ⟨.mappingStart p, .blockKey :: places, t⟩
      | _, _, _ => if p = .absent then none else some ⟨.empty p, places, r⟩

/-- Begins a node, unless one of the tokens that cannot begin it comes next. -/
def beginOptional (handles : Handles) (block plainItems : Bool) (stops tokens : List Token) (places : List Place) :
    Option Step :=
  match tokens with
  | [] => none
  | t :: _ =>
    if stops.contains t then some ⟨.empty .absent, places, tokens⟩
    else beginNode handles block plainItems tokens places

/-- Behind the comma between two items of a flow collection. -/
def skipComma (first : Bool) (tokens : List Token) : Option (List Token) :=
  if first then some tokens
  else match tokens with
    | .flowEntry :: r => some r
    | _ => none

/-- The next event at a place. -/
def Place.step (handles : Handles) (places : List Place) : Place → List Token → Option Step
  | .blockItem, .blockEntry :: r =>
    beginOptional handles true false [.blockEntry, .blockEnd] r (.blockItem :: places)
  | .blockItem, .blockEnd :: r => some ⟨.sequenceEnd, places, r⟩
  | .blockItem, _ => none
  | .plainItem, .blockEntry :: r =>
    beginOptional handles true false [.blockEntry, .key, .value, .blockEnd] r (.plainItem :: places)
  | .plainItem, r => some ⟨.sequenceEnd, places, r⟩
  | .blockKey, .key :: r => beginOptional handles true true [.key, .value, .blockEnd] r (.blockValue :: places)
  | .blockKey, .blockEnd :: r => some ⟨.mappingEnd, places, r⟩
  | .blockKey, _ => none
  | .blockValue, .value :: r => beginOptional handles true true [.key, .value, .blockEnd] r (.blockKey :: places)
  | .blockValue, r => some ⟨.empty .absent, .blockKey :: places, r⟩
  | .flowItem _, .flowSequenceEnd :: r => some ⟨.sequenceEnd, places, r⟩
  | .flowItem first, tokens =>
    match skipComma first tokens with
    | none => none
    | some (.key :: r) => some ⟨.mappingStart .absent, .pairKey :: places, r⟩
    | some (.flowSequenceEnd :: r) => some ⟨.sequenceEnd, places, r⟩
    | some r => beginNode handles false false r (.flowItem false :: places)
  -- Where the key of a pair is missing, the token in its place is passed over, so that a value is missing as well.
  | .pairKey, .value :: r => some ⟨.empty .absent, .pairValue :: places, r⟩
  | .pairKey, .flowEntry :: r => some ⟨.empty .absent, .pairValue :: places, r⟩
  | .pairKey, .flowSequenceEnd :: r => some ⟨.empty .absent, .pairValue :: places, r⟩
  | .pairKey, r => beginNode handles false false r (.pairValue :: places)
  | .pairValue, .value :: r => beginOptional handles false false [.flowEntry, .flowSequenceEnd] r (.pairEnd :: places)
  | .pairValue, r => some ⟨.empty .absent, .pairEnd :: places, r⟩
  | .pairEnd, r => some ⟨.mappingEnd, .flowItem false :: places, r⟩
  | .flowKey _, .flowMappingEnd :: r => some ⟨.mappingEnd, places, r⟩
  | .flowKey first, tokens =>
    match skipComma first tokens with
    | none => none
    | some (.key :: r) =>
      beginOptional handles false false [.value, .flowEntry, .flowMappingEnd] r (.flowValue :: places)
    | some (.flowMappingEnd :: r) => some ⟨.mappingEnd, places, r⟩
    | some r => beginNode handles false false r (.missingFlowValue :: places)
  | .flowValue, .value :: r =>
    beginOptional handles false false [.flowEntry, .flowMappingEnd] r (.flowKey false :: places)
  | .flowValue, r => some ⟨.empty .absent, .flowKey false :: places, r⟩
  | .missingFlowValue, r => some ⟨.empty .absent, .flowKey false :: places, r⟩

/-- The events of a node that has begun, and the tokens behind it. -/
def finishNode (handles : Handles) (places : List Place) (tokens : List Token) (fuel : Nat) :
    Option (List Event × List Token) :=
  match fuel, places with
  | _, [] => some ([], tokens)
  | 0, _ => none
  | fuel + 1, p :: ps => do
    let s ← p.step handles ps tokens
    let (events, rest) ← finishNode handles s.places s.rest fuel
    return (s.event :: events, rest)

/-- The events of a node. No token is followed by more than three events that take none. -/
def readNode (handles : Handles) (tokens : List Token) : Option (List Event × List Token) := do
  let s ← beginNode handles true false tokens []
  let (events, rest) ← finishNode handles s.places s.rest (4 * tokens.length + 4)
  return (s.event :: events, rest)

/-! ## Documents -/

/-- Reads directives through the mark that begins a document. There is at most one version, which has to be 1.1 or 1.2,
and one meaning for a handle. -/
def readDirectives (versioned : Bool) (handles : Handles) : List Token → Option (Handles × List Token)
  | .version major minor :: r =>
    if versioned || major ≠ 1 || (minor ≠ 1 && minor ≠ 2) then none else readDirectives true handles r
  | .tagHandle handle start :: r =>
    if (handles.lookup handle).isSome then none else readDirectives versioned ((handle, start) :: handles) r
  | .documentStart :: r => some (handles, r)
  | _ => none

def isDocumentBoundary : Token → Bool
  | .version _ _ | .tagHandle _ _ | .documentStart | .documentEnd | .streamEnd => true
  | _ => false

/-- The events of the first document, none if there is no document, and the tokens behind it. -/
def readDocumentEvents : List Token → Option (List Event × List Token)
  | [] => none
  | .streamEnd :: r => some ([], .streamEnd :: r)
  | t :: r =>
    if isDocumentBoundary t && t ≠ .documentEnd then
      match readDirectives false [] (t :: r) with
      | none => none
      | some (handles, tokens) =>
        if tokens.head?.any isDocumentBoundary then some ([.empty .absent], tokens) else readNode handles tokens
    else readNode [] (t :: r)

/-- The events of a stream that holds at most one document. -/
def events? (tokens : List Token) : Option (List Event) := do
  let (events, rest) ← readDocumentEvents tokens
  if rest.dropWhile (· = .documentEnd) = [.streamEnd] then some events else none

end CssTheming.Yaml
