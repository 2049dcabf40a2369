import CssTheming.Yaml.Block
import CssTheming.Yaml.Name
import CssTheming.Yaml.Plain
import CssTheming.Yaml.Quoted

/-!
# From text to tokens

A `Lexer` goes over a stream token by token. That a scalar or a collection was a key shows only at the colon behind it;
so the place of each possible key is kept, and its tokens are put in there once the colon has come.
-/

namespace CssTheming.Yaml

/-- A token that may turn out to begin a key: its place among the tokens and in the text, and whether a colon has to
follow. -/
structure PendingKey where
  number : Nat
  mark : Mark
  required : Bool
  deriving DecidableEq, Repr

/-- How many characters a key may be away from its colon. -/
def maxKeyDistance : Nat := 1024

structure Lexer where
  cursor : Cursor
  tokens : Array Token
  /-- The column of the innermost block, or -1. -/
  indent : Int
  outerIndents : List Int
  /-- Whether a key may begin here without a `?`. -/
  keyAllowed : Bool
  pending : Option PendingKey
  /-- The possible keys of the flow collections around the innermost one, and of the block around them. -/
  outerPending : List (Option PendingKey)

namespace Lexer

def ofText (s : List Char) : Lexer := ⟨⟨s, ⟨0, 0, 0⟩⟩, #[], -1, [], true, none, []⟩

def inFlow (l : Lexer) : Bool := !l.outerPending.isEmpty

def push (l : Lexer) (t : Token) : Lexer := { l with tokens := l.tokens.push t }

/-- Takes a token of so many characters. -/
def take (l : Lexer) (t : Token) (length : Nat) : Lexer := { l.push t with cursor := l.cursor.advance length }

def setKeyAllowed (l : Lexer) (allowed : Bool) : Lexer := { l with keyAllowed := allowed }

/-! ## Indentation -/

/-- Opens a block at a column, if it is deeper than the innermost one, by a token at the place `number`. -/
def openBlock (l : Lexer) (column number : Nat) (start : Token) : Lexer :=
  if !l.inFlow && l.indent < column then
    { l with
      indent := column
      outerIndents := l.indent :: l.outerIndents
      tokens := l.tokens.insertIdxIfInBounds number start }
  else l

/-- Closes blocks until the innermost one is no deeper than `column`. -/
def closeBlocks (l : Lexer) (column : Int) : List Int → Lexer
  | [] => l
  | outer :: rest =>
    if l.indent > column then closeBlocks { l.push .blockEnd with indent := outer, outerIndents := rest } column rest
    else l

/-- The indentation tells nothing inside a flow collection. -/
def dedent (l : Lexer) (column : Int) : Lexer := if l.inFlow then l else l.closeBlocks column l.outerIndents

/-! ## Possible keys -/

/-- Gives up a possible key, unless it had to be one. -/
def dropPending (l : Lexer) : Option Lexer :=
  if l.pending.any (·.required) then none else some { l with pending := none }

/-- Notes that the token that comes next may be a key. -/
def notePending (l : Lexer) : Option Lexer :=
  if l.keyAllowed then
    let required : Bool := !l.inFlow && l.indent == l.cursor.column
    l.dropPending.map fun l => { l with pending := some ⟨l.tokens.size, l.cursor.mark, required⟩ }
  else some l

/-- A key is on the line of its colon and not far away from it. -/
def isStale (m : Mark) (k : PendingKey) : Bool := k.mark.line < m.line || k.mark.index + maxKeyDistance < m.index

def dropStale (m : Mark) (pending : Option PendingKey) : Option (Option PendingKey) :=
  match pending with
  | some k => if isStale m k then (if k.required then none else some none) else some (some k)
  | none => some none

def dropAllStale (l : Lexer) : Option Lexer := do
  let pending ← dropStale l.cursor.mark l.pending
  let outer ← l.outerPending.mapM (dropStale l.cursor.mark)
  return { l with pending := pending, outerPending := outer }

/-! ## Tokens -/

def takeEnd (l : Lexer) : Option Lexer :=
  ((l.dedent (-1)).dropPending).map fun l => (l.setKeyAllowed false).push .streamEnd

def takeDirective (l : Lexer) : Option Lexer := do
  let l ← (l.dedent (-1)).dropPending
  let (token, cursor) ← readDirective (l.cursor.advance 1)
  return { (l.setKeyAllowed false).push token with cursor := cursor }

def takeDocumentMark (l : Lexer) (token : Token) : Option Lexer :=
  ((l.dedent (-1)).dropPending).map fun l => (l.setKeyAllowed false).take token 3

def takeFlowStart (l : Lexer) (token : Token) : Option Lexer :=
  l.notePending.map fun l =>
    ({ l with outerPending := l.pending :: l.outerPending, pending := none }.setKeyAllowed true).take token 1

def takeFlowEnd (l : Lexer) (token : Token) : Option Lexer :=
  l.dropPending.map fun l =>
    let l := match l.outerPending with
      | outer :: rest => { l with pending := outer, outerPending := rest }
      | [] => l
    (l.setKeyAllowed false).take token 1

def takeFlowEntry (l : Lexer) : Option Lexer := l.dropPending.map fun l => (l.setKeyAllowed true).take .flowEntry 1

/-- Opens a block at the cursor if the next token may begin one. -/
def beginBlock (l : Lexer) (start : Token) : Option Lexer :=
  if l.inFlow then some l
  else if l.keyAllowed then some (l.openBlock l.cursor.column l.tokens.size start)
  else none

def takeBlockEntry (l : Lexer) : Option Lexer := do
  let l ← (← l.beginBlock .blockSequenceStart).dropPending
  return (l.setKeyAllowed true).take .blockEntry 1

def takeKey (l : Lexer) : Option Lexer := do
  let l ← (← l.beginBlock .blockMappingStart).dropPending
  return (l.setKeyAllowed (!l.inFlow)).take .key 1

/-- A colon makes the possible key a key. -/
def takeValue (l : Lexer) : Option Lexer :=
  match l.pending with
  | some k =>
    let l := { l with tokens := l.tokens.insertIdxIfInBounds k.number .key, pending := none }
    some (((l.openBlock k.mark.column k.number .blockMappingStart).setKeyAllowed false).take .value 1)
  | none => do
    let l ← l.beginBlock .blockMappingStart
    return (l.setKeyAllowed (!l.inFlow)).take .value 1

/-- Takes a token that may begin a key, read by `read` from the cursor on. -/
def takeContent (l : Lexer) (read : Cursor → Option (Token × Cursor)) : Option Lexer := do
  let l ← l.notePending
  let (token, cursor) ← read l.cursor
  return { (l.setKeyAllowed false).push token with cursor := cursor }

def takeBlockScalar (l : Lexer) (folded : Bool) : Option Lexer := do
  let l ← l.dropPending
  let (text, cursor) ← readBlock folded l.indent (l.cursor.advance 1)
  return { (l.setKeyAllowed true).push (.scalar (String.ofList text) false) with cursor := cursor }

def takeQuoted (l : Lexer) (read : List Char → Mark → Option (List Char × Cursor)) : Option Lexer :=
  l.takeContent fun c =>
    (read (c.rest.drop 1) (c.mark.advance 1)).map fun (text, next) => (.scalar (String.ofList text) false, next)

/-- Behind a line break that ended a plain scalar, a key may begin. -/
def takePlain (l : Lexer) : Option Lexer := do
  let l ← l.notePending
  let scalar ← readPlain l.inFlow (l.indent + 1) [] .empty l.cursor.rest l.cursor.mark
  return { (l.setKeyAllowed scalar.broken).push (.scalar (String.ofList scalar.text) true) with cursor := scalar.next }

/-- Characters that begin no plain scalar, save before certain others. -/
def isIndicator (c : Char) : Bool :=
  isBlank c || isBreak c ||
    ['-', '?', ':', ',', '[', ']', '\x7b', '\x7d', '#', '&', '*', '!', '|', '>', '\'', '"', '%', '@', '\u0060'].contains c

def beginsPlain (flow : Bool) (c : Char) (r : List Char) : Bool :=
  !isIndicator c || (c = '-' && !r.head?.any isBlank) || (!flow && (c = '?' || c = ':') && !atGap r)

/-- Takes the token that begins at the cursor. -/
def takeToken (l : Lexer) : Option Lexer :=
  match l.cursor.rest with
  | [] => l.takeEnd
  | c :: r =>
    if c = '%' && l.cursor.column = 0 then l.takeDirective
    else if atDocumentMark (c :: r) l.cursor.mark then
      l.takeDocumentMark (if c = '-' then .documentStart else .documentEnd)
    else if c = '[' then l.takeFlowStart .flowSequenceStart
    else if c = '\x7b' then l.takeFlowStart .flowMappingStart
    else if c = ']' then l.takeFlowEnd .flowSequenceEnd
    else if c = '\x7d' then l.takeFlowEnd .flowMappingEnd
    else if c = ',' then l.takeFlowEntry
    else if c = '-' && atGap r then l.takeBlockEntry
    else if c = '?' && (l.inFlow || atGap r) then l.takeKey
    else if c = ':' && (l.inFlow || atGap r) then l.takeValue
    else if c = '*' then
      l.takeContent fun c => (readAnchorName (c.advance 1)).map fun (name, next) => (.alias name, next)
    else if c = '&' then
      l.takeContent fun c => (readAnchorName (c.advance 1)).map fun (name, next) => (.anchor name, next)
    else if c = '!' then
      l.takeContent fun c => (readTag l.inFlow (c.advance 1)).map fun (name, next) => (.tag name, next)
    else if c = '|' && !l.inFlow then l.takeBlockScalar false
    else if c = '>' && !l.inFlow then l.takeBlockScalar true
    else if c = '\'' then l.takeQuoted (readSingleQuoted [] .empty)
    else if c = '"' then l.takeQuoted (readDoubleQuoted [] .empty)
    else if beginsPlain l.inFlow c r then l.takePlain
    else none

/-- Goes to the next token and takes it. -/
def step (l : Lexer) : Option Lexer := do
  let (keyAllowed, cursor) := skipToToken l.inFlow l.keyAllowed false l.cursor.rest l.cursor.mark
  let l ← { l with keyAllowed := keyAllowed, cursor := cursor }.dropAllStale
  (l.dedent cursor.column).takeToken

/-- Takes tokens through the end of the stream. Every token but the last takes at least one character. -/
def run (l : Lexer) (fuel : Nat) : Option (Array Token) :=
  match fuel with
  | 0 => none
  | fuel + 1 => do
    let l ← l.step
    if l.tokens.back? = some .streamEnd then some l.tokens else l.run fuel

end Lexer

/-- The text behind a byte order mark, which takes up a column. -/
def skipByteOrderMark (c : Cursor) : Cursor :=
  if c.rest.head?.any (·.toNat == 0xFEFF) then c.advance 1 else c

/-- The tokens of a stream, the last one being `streamEnd`. -/
def tokens? (text : String) : Option (List Token) :=
  let l := Lexer.ofText text.toList
  let cursor := skipByteOrderMark l.cursor
  if cursor.rest.all isAllowed then (Lexer.run { l with cursor := cursor } (text.length + 1)).map Array.toList else none

end CssTheming.Yaml
