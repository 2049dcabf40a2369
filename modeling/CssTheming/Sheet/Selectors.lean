import CssTheming.Sheet.Basic
import CssTheming.Sheet.Lexical
import CssTheming.Text.Whitespace

/-!
# Selector lists

The selectors of a rule, split at the commas outside strings, parentheses and brackets.
-/

namespace CssTheming

namespace Selectors

/-- Splits a list with the depth of parentheses, the open quote and the current selector, last character first. What is
left at the end counts only if it is not blank. -/
def splitFrom (depth : Nat) (quote : Option Char) (current : List Char) : List Char → List (List Char)
  | [] =>
    let last := Text.trim current.reverse
    if last.isEmpty then [] else [last]
  | '\\' :: d :: r => splitFrom depth quote (d :: '\\' :: current) r
  | c :: r =>
    match quote with
    | some q => splitFrom depth (if c = q then none else some q) (c :: current) r
    | none =>
      if Sheet.isQuote c then splitFrom depth (some c) (c :: current) r
      else if c = ',' ∧ depth = 0 then Text.trim current.reverse :: splitFrom depth none [] r
      else splitFrom (Sheet.depthAfter depth c) none (c :: current) r

def split (selector : String) : List String := (splitFrom 0 none [] selector.toList).map String.ofList

/-- Selectors as one list. -/
def join (selectors : List String) : String := ", ".intercalate selectors

end Selectors

/-- The selectors of a rule; other nodes have none. -/
def Sheet.selectors (s : Sheet) (id : Nat) : List String :=
  match s.kind? id with
  | some (.rule selector) => Selectors.split selector
  | _ => []

end CssTheming
