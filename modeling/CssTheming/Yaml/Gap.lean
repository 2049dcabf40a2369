import CssTheming.Yaml.Cursor

/-!
# Folding

Blanks between the words of a scalar are kept. A line break between them becomes a space, and of several line breaks
all but the first are kept.
-/

namespace CssTheming.Yaml

/-- What has been read since the last character that is neither a blank nor a line break. -/
inductive Gap where
  | blanks (text : List Char)
  | lines (first more : List Char)
  deriving DecidableEq, Repr

namespace Gap

def empty : Gap := .blanks []

/-- The gap behind an escaped line break, which itself is not kept. -/
def joined : Gap := .lines [] []

def isEmpty : Gap → Bool
  | .blanks text => text.isEmpty
  | .lines _ _ => false

def isBroken : Gap → Bool
  | .blanks _ => false
  | .lines _ _ => true

def addBlank (c : Char) : Gap → Gap
  | .blanks text => .blanks (text ++ [c])
  | g => g

def addBreak (c : Char) : Gap → Gap
  | .blanks _ => .lines [breakContent c] []
  | .lines first more => .lines first (more ++ [breakContent c])

def content : Gap → List Char
  | .blanks text => text
  | .lines first more => if first = ['\n'] then (if more.isEmpty then [' '] else more) else first ++ more

@[simp] theorem content_empty : empty.content = [] := rfl

end Gap

end CssTheming.Yaml
