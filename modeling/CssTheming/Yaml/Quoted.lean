import CssTheming.Text.Hex
import CssTheming.Yaml.Gap

/-!
# Quoted scalars
-/

namespace CssTheming.Yaml

/-- A quoted scalar may not hold `---` or `...` at the start of a line. `text` has been read, last character first, and
`gap` behind it; two quotes are one. -/
def readSingleQuoted (text : List Char) (gap : Gap) : List Char → Mark → Option (List Char × Cursor)
  | [], _ => none
  | '\r' :: '\n' :: r, m => readSingleQuoted text (gap.addBreak '\n') r (m.nextLine 2)
  | '\'' :: '\'' :: r, m => readSingleQuoted ('\'' :: gap.content.reverse ++ text) .empty r (m.advance 2)
  | c :: r, m =>
    if isBlank c then readSingleQuoted text (gap.addBlank c) r (m.advance 1)
    else if isBreak c then readSingleQuoted text (gap.addBreak c) r (m.nextLine 1)
    else if atDocumentMark (c :: r) m then none
    else if c = '\'' then some ((gap.content.reverse ++ text).reverse, ⟨r, m.advance 1⟩)
    else readSingleQuoted (c :: gap.content.reverse ++ text) .empty r (m.advance 1)

/-- The character that a backslash and one letter write. -/
def letterEscape? : Char → Option Char
  | '0' => some '\x00'
  | 'a' => some '\x07'
  | 'b' => some '\x08'
  | 't' => some '\t'
  | '\t' => some '\t'
  | 'n' => some '\n'
  | 'v' => some '\x0b'
  | 'f' => some '\x0c'
  | 'r' => some '\r'
  | 'e' => some '\x1b'
  | ' ' => some ' '
  | '"' => some '"'
  | '/' => some '/'
  | '\\' => some '\\'
  | 'N' => some '\u0085'
  | '_' => some '\u00a0'
  | 'L' => some '\u2028'
  | 'P' => some '\u2029'
  | _ => none

/-- How many hexadecimal digits follow a letter that writes a code point. -/
def codeWidth? : Char → Option Nat
  | 'x' => some 2
  | 'u' => some 4
  | 'U' => some 8
  | _ => none

/-- The character that an escape writes, by what follows the backslash, and how many characters that is. -/
def readEscape (s : List Char) : Option (Char × Nat) :=
  match s with
  | [] => none
  | e :: r =>
    match codeWidth? e with
    | none => (letterEscape? e).map fun c => (c, 1)
    | some width =>
      if r.length < width then none
      else ((Text.hexNumber? (r.take width)).bind Text.charOfCode?).map fun c => (c, width + 1)

/-- A line break behind a backslash is not kept, and blanks before the backslash are. -/
def readDoubleQuoted (text : List Char) (gap : Gap) (s : List Char) (m : Mark) : Option (List Char × Cursor) :=
  match s with
  | [] => none
  | '\\' :: '\r' :: '\n' :: r => readDoubleQuoted (gap.content.reverse ++ text) .joined r ((m.advance 1).nextLine 2)
  | '\r' :: '\n' :: r => readDoubleQuoted text (gap.addBreak '\n') r (m.nextLine 2)
  | c :: r =>
    if isBlank c then readDoubleQuoted text (gap.addBlank c) r (m.advance 1)
    else if isBreak c then readDoubleQuoted text (gap.addBreak c) r (m.nextLine 1)
    else if atDocumentMark (c :: r) m then none
    else if c = '"' then some ((gap.content.reverse ++ text).reverse, ⟨r, m.advance 1⟩)
    else if c = '\\' then
      match r with
      | b :: r' =>
        if isBreak b then readDoubleQuoted (gap.content.reverse ++ text) .joined r' ((m.advance 1).nextLine 1)
        else
          match readEscape (b :: r') with
          | some (e, count) =>
            readDoubleQuoted (e :: gap.content.reverse ++ text) .empty ((b :: r').drop count) (m.advance (count + 1))
          | none => none
      | [] => none
    else readDoubleQuoted (c :: gap.content.reverse ++ text) .empty r (m.advance 1)
termination_by s.length
decreasing_by all_goals simp +arith

end CssTheming.Yaml
