import CssTheming.Yaml.Cursor

/-!
# Block scalars

Literal scalars keep their line breaks and folded ones turn a line break between two lines that are not blank at the
start into a space. The first line that is not empty sets the indentation, unless the header does.
-/

namespace CssTheming.Yaml

/-- What becomes of the line breaks at the end. -/
inductive Chomping where
  | strip | clip | keep
  deriving DecidableEq, Repr

def Chomping.ofSign? : List Char → Option Chomping
  | '+' :: _ => some .keep
  | '-' :: _ => some .strip
  | _ => none

def Chomping.apply (lastBreak emptyLines : List Char) : Chomping → List Char
  | .strip => []
  | .clip => lastBreak
  | .keep => lastBreak ++ emptyLines

/-- A digit that says how far a scalar is indented. -/
def indentDigit? : List Char → Option Nat
  | c :: _ => if c.isDigit then some (c.toNat - '0'.toNat) else none
  | [] => none

/-- What a header says about chomping and indentation, in either order, and how many characters it takes. -/
structure BlockHeader where
  chomping : Chomping
  indent : Option Nat
  length : Nat

def readHeader (s : List Char) : Option BlockHeader :=
  let header : BlockHeader := match Chomping.ofSign? s with
    | some chomping =>
      match indentDigit? (s.drop 1) with
      | some n => ⟨chomping, some n, 2⟩
      | none => ⟨chomping, none, 1⟩
    | none =>
      match indentDigit? s with
      | some n =>
        match Chomping.ofSign? (s.drop 1) with
        | some chomping => ⟨chomping, some n, 2⟩
        | none => ⟨.clip, some n, 1⟩
      | none => ⟨.clip, none, 0⟩
  if header.indent = some 0 then none else some header

/-- The line breaks of empty lines, the widest column before a line break or the end, and what follows. -/
structure EmptyLines where
  widest : Nat
  breaks : List Char
  next : Cursor

/-- Reads empty lines and the indentation of the line behind them. No tab may stand in the indentation. -/
def readEmptyLines (indent : Option Nat) (widest : Nat) (breaks : List Char) : List Char → Mark → Option EmptyLines
  | [], m => some ⟨max widest m.column, breaks, ⟨[], m⟩⟩
  | '\r' :: '\n' :: r, m => readEmptyLines indent (max widest m.column) (breaks ++ ['\n']) r (m.nextLine 2)
  | c :: r, m =>
    let indenting := indent.all (m.column < ·)
    if indenting && c = ' ' then readEmptyLines indent widest breaks r (m.advance 1)
    else if indenting && c = '\t' then none
    else if isBreak c then readEmptyLines indent (max widest m.column) (breaks ++ [breakContent c]) r (m.nextLine 1)
    else some ⟨max widest m.column, breaks, ⟨c :: r, m⟩⟩

/-- The lines read so far: their text, last character first, the line break of the last of them, the empty lines behind
it, and whether it began with a blank. -/
structure BlockLines where
  text : List Char
  lastBreak : List Char
  emptyLines : List Char
  blank : Bool

/-- Reads on as long as lines are indented by `indent`. Each line holds at least one character. -/
def readLines (folded : Bool) (indent : Nat) (lines : BlockLines) (c : Cursor) (fuel : Nat) :
    Option (BlockLines × Cursor) :=
  match fuel with
  | 0 => none
  | fuel + 1 =>
    if c.atEnd || c.column ≠ indent then some (lines, c)
    else
      let blank := atGap c.rest
      let fold := folded && lines.lastBreak = ['\n'] && !lines.blank && !blank
      let between := if fold then (if lines.emptyLines.isEmpty then [' '] else []) else lines.lastBreak
      let (line, c) := c.span (!isBreak ·)
      let (lastBreak, c) := c.readBreak
      match readEmptyLines (some indent) 0 [] c.rest c.mark with
      | some e =>
        let text := line.reverse ++ (lines.emptyLines.reverse ++ (between.reverse ++ lines.text))
        readLines folded indent ⟨text, lastBreak, e.breaks, blank⟩ e.next fuel
      | none => none

/-- A block scalar behind its indicator, in a block indented by `above`. -/
def readBlock (folded : Bool) (above : Int) (c : Cursor) : Option (List Char × Cursor) := do
  let header ← readHeader c.rest
  let c ← ((c.advance header.length).skipWhile isBlank).finishLine?
  let given := header.indent.map (above.toNat + ·)
  let first ← readEmptyLines given 0 [] c.rest c.mark
  let indent := given.getD (max first.widest (max (above + 1).toNat 1))
  let (lines, c) ← readLines folded indent ⟨[], [], first.breaks, false⟩ first.next (first.next.rest.length + 1)
  return (lines.text.reverse ++ header.chomping.apply lines.lastBreak lines.emptyLines, c)

end CssTheming.Yaml
