/-!
# Positions in a text

Lines and columns count characters from one, and only a newline starts a line.
-/

namespace CssTheming.Text

structure Position where
  line : Nat
  column : Nat
  deriving Repr, DecidableEq, Inhabited

namespace Position

def start : Position := ⟨1, 1⟩

/-- The position behind one more character. -/
def next (p : Position) (c : Char) : Position :=
  if c = '\n' then ⟨p.line + 1, 1⟩ else ⟨p.line, p.column + 1⟩

/-- The position behind a stretch of text. -/
def after (p : Position) (cs : List Char) : Position := cs.foldl next p

@[simp] theorem after_nil (p : Position) : p.after [] = p := rfl

@[simp] theorem after_cons (p : Position) (c : Char) (cs : List Char) : p.after (c :: cs) = (p.next c).after cs := rfl

@[simp] theorem after_append (p : Position) (cs ds : List Char) : p.after (cs ++ ds) = (p.after cs).after ds :=
  List.foldl_append

end Position

end CssTheming.Text
