/-!
# Characters and places of a YAML stream

Indentation is what YAML's structure rests on, so a `Cursor` knows the column of the text that is still to be read.
Lines, columns and indices count characters from zero.
-/

namespace CssTheming.Yaml

/-- Characters that may stand in a stream. -/
def isAllowed (c : Char) : Bool :=
  let n := c.toNat
  n == 0x09 || n == 0x0A || n == 0x0D || (0x20 ≤ n && n ≤ 0x7E) || n == 0x85 || (0xA0 ≤ n && n ≤ 0xD7FF) ||
    (0xE000 ≤ n && n ≤ 0xFFFD) || (0x10000 ≤ n && n ≤ 0x10FFFF)

def isBlank (c : Char) : Bool := c = ' ' || c = '\t'

def isBreak (c : Char) : Bool :=
  let n := c.toNat
  n == 0x0A || n == 0x0D || n == 0x85 || n == 0x2028 || n == 0x2029

/-- Letters, digits, underscores and hyphens. -/
def isWord (c : Char) : Bool := c.isAlphanum || c = '_' || c = '-'

/-- Brackets and commas, which structure flow collections. -/
def isFlowIndicator (c : Char) : Bool := c = ',' || c = '[' || c = ']' || c = '\x7b' || c = '\x7d'

/-- Whether a blank, a line break or nothing comes next. -/
def atGap : List Char → Bool
  | [] => true
  | c :: _ => isBlank c || isBreak c

/-- Whether a line break or nothing comes next. -/
def atLineEnd : List Char → Bool
  | [] => true
  | c :: _ => isBreak c

/-- What a line break counts as in a scalar: the separators of Unicode are kept. -/
def breakContent (c : Char) : Char := if c.toNat = 0x2028 ∨ c.toNat = 0x2029 then c else '\n'

structure Mark where
  index : Nat
  line : Nat
  column : Nat
  deriving DecidableEq, Repr, Inhabited

namespace Mark

/-- Behind so many more characters of the line. -/
def advance (m : Mark) (count : Nat) : Mark := ⟨m.index + count, m.line, m.column + count⟩

/-- Behind a line break of so many characters. -/
def nextLine (m : Mark) (count : Nat) : Mark := ⟨m.index + count, m.line + 1, 0⟩

end Mark

structure Cursor where
  rest : List Char
  mark : Mark
  deriving Inhabited

namespace Cursor

def column (c : Cursor) : Nat := c.mark.column

def atEnd (c : Cursor) : Bool := c.rest.isEmpty

/-- Behind so many more characters of the line. -/
def advance (c : Cursor) (count : Nat) : Cursor := ⟨c.rest.drop count, c.mark.advance count⟩

/-- The characters up to the first that fails a test, which all have to be on one line. -/
def span (p : Char → Bool) (c : Cursor) : List Char × Cursor :=
  let taken := c.rest.takeWhile p
  (taken, c.advance taken.length)

def skipWhile (p : Char → Bool) (c : Cursor) : Cursor := (c.span p).2

/-- Reads a line break, with a carriage return and the line feed behind it as one; nothing if none comes next. -/
def readBreak (c : Cursor) : List Char × Cursor :=
  match c.rest with
  | '\r' :: '\n' :: r => (['\n'], ⟨r, c.mark.nextLine 2⟩)
  | b :: r => if isBreak b then ([breakContent b], ⟨r, c.mark.nextLine 1⟩) else ([], c)
  | [] => ([], c)

/-- Skips a comment, if one comes next, and then the line break, which has to. -/
def finishLine? (c : Cursor) : Option Cursor :=
  let c := match c.rest with
    | '#' :: _ => c.skipWhile (!isBreak ·)
    | _ => c
  if atLineEnd c.rest then some c.readBreak.2 else none

end Cursor

/-- Whether `---` or `...` comes next at the start of a line. -/
def atDocumentMark (rest : List Char) (m : Mark) : Bool :=
  m.column == 0 &&
    match rest with
    | '-' :: '-' :: '-' :: r => atGap r
    | '.' :: '.' :: '.' :: r => atGap r
    | _ => false

/-- Skips spaces, comments and line breaks up to the next token. In block context a line break allows a key to begin
without a `?`. Tabs are skipped only where no such key can begin. -/
def skipToToken (flow keyAllowed inComment : Bool) : List Char → Mark → Bool × Cursor
  | [], m => (keyAllowed, ⟨[], m⟩)
  | '\r' :: '\n' :: r, m => skipToToken flow (keyAllowed || !flow) false r (m.nextLine 2)
  | c :: r, m =>
    if isBreak c then skipToToken flow (keyAllowed || !flow) false r (m.nextLine 1)
    else if inComment || c = ' ' || (c = '\t' && (flow || !keyAllowed)) then
      skipToToken flow keyAllowed inComment r (m.advance 1)
    else if c = '#' then skipToToken flow keyAllowed true r (m.advance 1)
    else (keyAllowed, ⟨c :: r, m⟩)

end CssTheming.Yaml
