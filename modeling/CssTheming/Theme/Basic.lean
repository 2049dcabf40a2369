import CssTheming.Document.Basic
import CssTheming.Table

/-!
# Themes

The values of a theme by key: one table for all contexts and one for each context that has values of its own.
-/

namespace CssTheming

/-- A value that can stand in a stylesheet. -/
inductive Theme.Literal where
  | text (value : String)
  | number (value : Number)
  deriving DecidableEq

def Theme.Literal.css : Theme.Literal → String
  | .text value => value
  | .number value => value.text

structure Theme where
  contextless : Table Theme.Literal
  contextual : Table (Table Theme.Literal)

namespace Theme

def empty : Theme := ⟨.empty, .empty⟩

instance : Inhabited Theme := ⟨empty⟩

def contexts (t : Theme) : List String := t.contextual.keys

/-- The value of a key in the table of a context, or in the table for all contexts. -/
def get? (t : Theme) (key : String) : Option String → Option Literal
  | some context => (t.contextual.get? context).bind (·.get? key)
  | none => t.contextless.get? key

def keyCount (t : Theme) : Nat :=
  t.contextless.size + t.contextual.entries.foldr (fun e n => e.2.size + n) 0

/-- Puts a value at a key, in the table of a context if one is given. -/
def insert (t : Theme) (key : String) (context : Option String) (value : Literal) : Theme :=
  match context with
  | none => { t with contextless := t.contextless.insert key value }
  | some c =>
    { t with contextual := t.contextual.insert c (((t.contextual.get? c).getD .empty).insert key value) }

end Theme

end CssTheming
