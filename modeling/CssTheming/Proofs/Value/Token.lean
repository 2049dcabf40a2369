import CssTheming.Proofs.Text.Lexeme
import CssTheming.Value.Parser

/-!
# Tokens of values

What is read of a value at a time, and what it does to the nodes and calls that are open. `lex`
reads one token and knows of the open calls only whether there are any; `run` is `lex` and
`Token.apply` in turn.
-/

namespace CssTheming.Value

inductive Token where
  /-- A node that is read as a whole. -/
  | node (n : Node)
  | divider (mark : Char) (after : List Char)
  | opening (name before : List Char)
  | closing

namespace Token

/-- The text of a token; the white space in front of a divider is a token of its own. -/
def text : Token → List Char
  | .node n => n.text.toList
  | .divider mark after => mark :: after
  | .opening name before => name ++ '(' :: before
  | .closing => [')']

/-- The open nodes behind a token. -/
def inner : Token → List Node → List OpenCall → List Node
  | .node n, inner, _ => n :: inner
  | .divider mark after, inner, _ =>
    .divider mark.toString (splitSpace inner).1 (String.ofList after) :: (splitSpace inner).2
  | .opening _ _, _, _ => []
  | .closing, inner, f :: _ => f.close inner
  | .closing, inner, [] => inner

/-- The open calls behind a token. -/
def calls : Token → List Node → List OpenCall → List OpenCall
  | .opening name before, inner, calls => ⟨String.ofList name, String.ofList before, inner⟩ :: calls
  | .closing, _, calls => calls.tail
  | _, _, calls => calls

end Token

/-- What a word, and the text behind it, begins: a call if a parenthesis follows. -/
def wordToken (w : List Char) : List Char → Token × List Char
  | '(' :: t =>
    if isBareUrl w t then (.node (readUrl w t).1, (readUrl w t).2)
    else (.opening w (t.takeWhile Text.isWhitespace), t.dropWhile Text.isWhitespace)
  | rest => (.node (.word (String.ofList w)), rest)

theorem wordToken_of_ne {s : List Char} (h : s.head? ≠ some '(') (w : List Char) :
    wordToken w s = (.node (.word (String.ofList w)), s) := by
  rw [wordToken]
  rintro t rfl
  exact h rfl

/-- The first token of a text and the rest. Only inside of calls a parenthesis closes. -/
def lex (nested : Bool) (c : Char) (r : List Char) : Token × List Char :=
  if Text.isWhitespace c then
    (.node (.space (String.ofList (c :: r.takeWhile Text.isWhitespace))),
      r.dropWhile Text.isWhitespace)
  else if c = '"' ∨ c = '\'' then
    (.node (.string (String.ofList (Text.readQuoted c r).1) c), (Text.readQuoted c r).2)
  else if c = '/' ∧ r.head? = some '*' then
    (.node (.comment (String.ofList (Text.readComment r.tail).1)), (Text.readComment r.tail).2)
  else if c = ',' ∨ c = '/' ∨ c = ':' then
    (.divider c (r.takeWhile Text.isWhitespace), r.dropWhile Text.isWhitespace)
  else if c = '(' then (.opening [] (r.takeWhile Text.isWhitespace), r.dropWhile Text.isWhitespace)
  else if c = ')' ∧ nested then (.closing, r)
  else wordToken (firstWord c r).1 (firstWord c r).2

theorem run_nil (inner : List Node) (calls : List OpenCall) :
    run [] inner calls = closeAll inner calls := by
  rw [run.eq_def]

theorem run_cons (c : Char) (r : List Char) (inner : List Node) (calls : List OpenCall) :
    run (c :: r) inner calls =
      run (lex (!calls.isEmpty) c r).2 ((lex (!calls.isEmpty) c r).1.inner inner calls)
        ((lex (!calls.isEmpty) c r).1.calls inner calls) := by
  rw [run.eq_def, lex]
  dsimp only
  split
  · rfl
  split
  · rfl
  split
  · rfl
  split
  · rfl
  split
  · rfl
  split
  · rename_i f fs hc
    rw [if_pos ⟨by simpa using hc, rfl⟩]
    rfl
  · rename_i calls _ _ hnot
    rw [if_neg]
    · split <;> rename_i hq
      · rw [hq, wordToken]
        split <;> rfl
      · rw [wordToken_of_ne]
        · rfl
        · intro h
          obtain ⟨t, ht⟩ := List.head?_eq_some_iff.1 h
          exact hq t ht
    · rintro ⟨hc, hcalls⟩
      cases calls with
      | nil => simp at hcalls
      | cons f fs => exact hnot f fs rfl (by simpa using hc)

end CssTheming.Value
