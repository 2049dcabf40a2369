import CssTheming.Yaml.Gap

/-!
# Plain scalars
-/

namespace CssTheming.Yaml

/-- A plain scalar, whether it ended behind a line break, and what follows. -/
structure PlainScalar where
  text : List Char
  broken : Bool
  next : Cursor

/-- What begins a value may not stand right behind a colon in a flow collection. -/
def isColonClash (flow : Bool) (c : Char) (r : List Char) : Bool :=
  flow && c = ':' &&
    match r with
    | d :: _ => isFlowIndicator d || d = '?'
    | [] => false

def endsPlain (flow : Bool) (c : Char) (r : List Char) : Bool := (c = ':' && atGap r) || (flow && isFlowIndicator c)

/-- Reads on in a plain scalar whose lines in block context are indented by at least `indent`; `text` has been read, last
character first, and `gap` behind it. -/
def readPlain (flow : Bool) (indent : Int) (text : List Char) (gap : Gap) : List Char → Mark → Option PlainScalar
  | [], m => some ⟨text.reverse, gap.isBroken, ⟨[], m⟩⟩
  | '\r' :: '\n' :: r, m => readPlain flow indent text (gap.addBreak '\n') r (m.nextLine 2)
  | c :: r, m =>
    if isBlank c then
      if gap.isBroken && c = '\t' && m.column < indent then none
      else readPlain flow indent text (gap.addBlank c) r (m.advance 1)
    else if isBreak c then readPlain flow indent text (gap.addBreak c) r (m.nextLine 1)
    else if !gap.isEmpty && ((!flow && m.column < indent) || atDocumentMark (c :: r) m || c = '#') then
      some ⟨text.reverse, gap.isBroken, ⟨c :: r, m⟩⟩
    else if isColonClash flow c r then none
    else if endsPlain flow c r then some ⟨text.reverse, gap.isBroken, ⟨c :: r, m⟩⟩
    else readPlain flow indent (c :: gap.content.reverse ++ text) .empty r (m.advance 1)

end CssTheming.Yaml
