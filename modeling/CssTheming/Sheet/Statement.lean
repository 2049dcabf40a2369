import CssTheming.Sheet.Kind
import CssTheming.Text.Position

/-!
# Statements

A stylesheet as a tree of statements, each with the position where it begins, and its text. Statements inside a block
are indented by two spaces a level; a blank line stands between those at the top.
-/

namespace CssTheming.Sheet

inductive Statement where
  | mk (kind : Kind) (position : Text.Position) (body : List Statement)

namespace Statement

def kind : Statement → Kind
  | .mk kind _ _ => kind

def position : Statement → Text.Position
  | .mk _ position _ => position

def body : Statement → List Statement
  | .mk _ _ body => body

def indent (depth : Nat) : String := String.ofList (List.replicate (2 * depth) ' ')

def headText : Kind → String
  | .root => ""
  | .rule selector => selector
  | .atRule name params _ => "@" ++ name ++ (if params = "" then "" else " " ++ params)
  | .declaration property value important => property ++ ": " ++ value ++ (if important then " !important" else "")
  | .comment text => "/*" ++ text ++ "*/"

mutual
/-- Only the root, rules and at-rules with a block show what is inside them. -/
def text (depth : Nat) : Statement → String
  | .mk kind _ body =>
    match kind with
    | .root => bodyText depth body
    | .rule _ | .atRule _ _ true =>
      indent depth ++ headText kind ++ " \x7b\n" ++ bodyText (depth + 1) body ++ indent depth ++ "\x7d\n"
    | .atRule _ _ false | .declaration .. => indent depth ++ headText kind ++ ";\n"
    | .comment _ => indent depth ++ headText kind ++ "\n"

def bodyText (depth : Nat) : List Statement → String
  | [] => ""
  | s :: ss => s.text depth ++ bodyText depth ss
end

/-- The text of a whole stylesheet. -/
def sheetText (top : List Statement) : String := "\n".intercalate (top.map (text 0))

end Statement

end CssTheming.Sheet
