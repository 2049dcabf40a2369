import CssTheming.Sheet.Basic
import CssTheming.Sheet.Lexical
import CssTheming.Text.Whitespace

/-!
# Reading stylesheets

`parse` goes over the text once, statement by statement, with the blocks that are open on a stack.
-/

namespace CssTheming.Sheet

/-- Characters, besides white space, that end the name of an at-rule. -/
def endsAtName (c : Char) : Bool :=
  Text.isWhitespace c || c ∈ [';', '{', '}', '(', ')', '\'', '"', '\\', '/', '[', ']', '#', ',']

def isNameChar (c : Char) : Bool := !endsAtName c

/-- What ends selectors and parameters. -/
def headStops : List Char := ['{', ';', '}']

def propertyStops : List Char := [':', ';', '{', '}']

def valueStops : List Char := [';', '}']

/-- Takes `!important` off the end of a trimmed value. -/
def splitImportant (value : List Char) : List Char × Bool :=
  let mark := "important".toList
  let head := Text.trimEnd (value.take (value.length - mark.length))
  if mark.isSuffixOf (value.map Char.toLower) && head.getLast? == some '!' then (Text.trimEnd head.dropLast, true)
  else (value, false)

/-- A block whose closing brace has not been read: the statement that it belongs to and the statements in front of that
one in the enclosing block, last first. -/
structure OpenBlock where
  kind : Kind
  position : Text.Position
  outer : List Statement

/-- The statements of the enclosing block, last first, once a block is closed. -/
def OpenBlock.close (b : OpenBlock) (inner : List Statement) : List Statement :=
  .mk b.kind b.position inner.reverse :: b.outer

def atRule (name text : List Char) (hasBlock : Bool) : Kind :=
  .atRule (String.ofList name) (String.ofList (Text.trim text)) hasBlock

def rule (text : List Char) : Kind := .rule (String.ofList (Text.collapse text))

def declaration (property value : List Char) : Kind :=
  let (value, important) := splitImportant (Text.trim value)
  .declaration (String.ofList (Text.trim property)) (String.ofList value) important

/-- Text that is only trimmed in a message. -/
def shown (text : List Char) : String := String.ofList (Text.trim text)

/-- Reads on at a position, with the statements `inner` of the innermost open block, last first, and the open blocks
around it. A fault comes with its line. -/
def run (s : List Char) (pos : Text.Position) (inner : List Statement) (blocks : List OpenBlock) :
    Except (Nat × SheetFault) (List Statement) :=
  match s with
  | [] =>
    match blocks with
    | [] => .ok inner.reverse
    | b :: _ => .error (b.position.line, .unclosedBlock)
  | c :: r =>
    if Text.isWhitespace c ∨ c = ';' then run r (pos.next c) inner blocks
    else if c = '}' then
      match blocks with
      | [] => .error (pos.line, .unexpectedBrace)
      | b :: bs => run r (pos.next c) (b.close inner) bs
    else if c = '/' ∧ r.head? = some '*' then
      match _h : Text.comment? r.tail with
      | none => .error (pos.line, .unclosedComment)
      | some (text, rest) =>
        run rest (pos.after ('/' :: '*' :: text ++ ['*', '/'])) (.mk (.comment (String.ofList text)) pos [] :: inner) blocks
    else if c = '@' then
      let name := r.takeWhile isNameChar
      if name.isEmpty then .error (pos.line, .namelessAtRule)
      else
        match _h : readUntil headStops 0 (r.dropWhile isNameChar) with
        | (text, '{' :: t) =>
          run t (pos.after (c :: name ++ text ++ ['{'])) [] (⟨atRule name text true, pos, inner⟩ :: blocks)
        | (text, ';' :: t) =>
          run t (pos.after (c :: name ++ text ++ [';'])) (.mk (atRule name text false) pos [] :: inner) blocks
        -- The last statement of a block may lack its semicolon.
        | (text, t) => run t (pos.after (c :: name ++ text)) (.mk (atRule name text false) pos [] :: inner) blocks
    else if blocks.isEmpty || opensBlock 0 (c :: r) then
      match _h : readUntil headStops 0 (c :: r) with
      | (text, '{' :: t) => run t (pos.after (text ++ ['{'])) [] (⟨rule text, pos, inner⟩ :: blocks)
      | (text, _) => .error (pos.line, .selectorWithoutBlock (shown text))
    else
      match _h : readUntil propertyStops 0 (c :: r) with
      | (property, ':' :: t) =>
        if (Text.trim property).isEmpty then .error (pos.line, .namelessDeclaration)
        else
          match _h' : readUntil valueStops 0 t with
          | (value, ';' :: u) =>
            run u (pos.after (property ++ ':' :: value ++ [';'])) (.mk (declaration property value) pos [] :: inner) blocks
          | (value, u) =>
            run u (pos.after (property ++ ':' :: value)) (.mk (declaration property value) pos [] :: inner) blocks
      | (property, _) => .error (pos.line, .notADeclaration (shown property))
termination_by s.length
decreasing_by
  · simp
  · simp
  · have := congrArg List.length (Text.comment?_eq_some _h); simp at this ⊢; omega
  · have := length_of_readUntil _h; have := Text.length_dropWhile_le isNameChar r; simp at *; omega
  · have := length_of_readUntil _h; have := Text.length_dropWhile_le isNameChar r; simp at *; omega
  · have := length_of_readUntil _h; have := Text.length_dropWhile_le isNameChar r; simp at *; omega
  · have := length_of_readUntil _h; simp at *; omega
  · have := length_of_readUntil _h; have := length_of_readUntil _h'; simp at *; omega
  · have := length_of_readUntil _h; have := length_of_readUntil _h'; simp at *; omega

/-- The statements of a source, or the line and cause of the first fault. -/
def statements (source : String) : Except (Nat × SheetFault) (List Statement) := run source.toList .start [] []

/-- The stylesheet of a source; the path is the one that faults and locations name. -/
def parse (source path : String) : Except Error Sheet :=
  match statements source with
  | .ok top => .ok (.ofStatements path top)
  | .error (line, fault) => .error (.sheet path line fault)

end CssTheming.Sheet
