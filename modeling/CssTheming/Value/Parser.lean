import CssTheming.Text.Lexeme
import CssTheming.Text.Whitespace
import CssTheming.Value.Node

/-!
# Reading values

`parse` takes any text apart into nodes; there is no text it refuses. It goes over the text once, with the calls that
are open on a stack, and closes at the end of the text whatever is still open.
-/

namespace CssTheming.Value

/-! ## Lexemes -/

/-- Characters that end a word. -/
def endsWord (c : Char) : Bool :=
  Text.isWhitespace c || c = '(' || c = ')' || c = ',' || c = '/' || c = ':' || c = '"' || c = '\''

/-- The word at the head of a text and the rest. A backslash takes the next character into the word. -/
def readWord : List Char → List Char × List Char
  | [] => ([], [])
  | '\\' :: d :: r =>
    let (w, rest) := readWord r
    ('\\' :: d :: w, rest)
  | c :: r =>
    if endsWord c then ([], c :: r)
    else
      let (w, rest) := readWord r
      (c :: w, rest)

/-- The word that starts with a character, given the text behind it. A parenthesis that closes nothing is a word of its
own. -/
def firstWord (c : Char) (s : List Char) : List Char × List Char :=
  if c = ')' then ([c], s)
  else
    match c, s with
    | '\\', d :: r => ('\\' :: d :: (readWord r).1, (readWord r).2)
    | c, r => (c :: (readWord r).1, (readWord r).2)

theorem length_readWord_le (cs : List Char) : (readWord cs).2.length ≤ cs.length := by
  fun_induction readWord cs <;> simp_all <;> omega

theorem length_firstWord_le (c : Char) (s : List Char) : (firstWord c s).2.length ≤ s.length := by
  unfold firstWord
  split
  · simp
  · split
    · exact Nat.le_succ_of_le (length_readWord_le _)
    · exact length_readWord_le _

/-! ## Nodes -/

/-- A call whose closing parenthesis has not been read: its name, the white space behind its opening parenthesis and the
nodes in front of it, last first. -/
structure OpenCall where
  name : String
  before : String
  outer : List Node

/-- White space at the end of the nodes read so far, last first, and the nodes without it. -/
def splitSpace : List Node → String × List Node
  | .space value :: ns => (value, ns)
  | ns => ("", ns)

/-- The nodes of the enclosing call, last first, once a call is closed. -/
def OpenCall.close (f : OpenCall) (inner : List Node) : List Node :=
  .call f.name f.before (splitSpace inner).1 (splitSpace inner).2.reverse none :: f.outer

/-- Closes all open calls. -/
def closeAll (inner : List Node) : List OpenCall → List Node
  | [] => inner.reverse
  | f :: fs => closeAll (f.close inner) fs

/-- A `url` whose argument is not quoted holds one word of any characters. -/
def isBareUrl (name : List Char) (rest : List Char) : Bool :=
  name.map Char.toLower == ['u', 'r', 'l'] &&
    match rest.dropWhile Text.isWhitespace with
    | c :: _ => c ≠ '"' && c ≠ '\''
    | [] => true

/-- The call of a bare `url`, given the text behind its opening parenthesis, and the rest behind its closing one. -/
def readUrl (name : List Char) (s : List Char) : Node × List Char :=
  let (contents, rest) := Text.readQuoted ')' (s.dropWhile Text.isWhitespace)
  let word := Text.trimEnd contents
  (.call (String.ofList name) (String.ofList (s.takeWhile Text.isWhitespace)) (String.ofList (Text.trailing contents))
    (if word.isEmpty then [] else [.word (String.ofList word)]) none, rest)

theorem length_readUrl_le (name s : List Char) : (readUrl name s).2.length ≤ s.length :=
  Nat.le_trans (Text.length_readQuoted_le ')' _) (Text.length_dropWhile_le Text.isWhitespace s)

/-- Reads on with the nodes `inner` of the innermost open call, last first, and the open calls around it. -/
def run (s : List Char) (inner : List Node) (calls : List OpenCall) : List Node :=
  match s with
  | [] => closeAll inner calls
  | c :: r =>
    if Text.isWhitespace c then
      run (r.dropWhile Text.isWhitespace) (.space (String.ofList (c :: r.takeWhile Text.isWhitespace)) :: inner) calls
    else if c = '"' ∨ c = '\'' then
      run (Text.readQuoted c r).2 (.string (String.ofList (Text.readQuoted c r).1) c :: inner) calls
    else if c = '/' ∧ r.head? = some '*' then
      run (Text.readComment r.tail).2 (.comment (String.ofList (Text.readComment r.tail).1) :: inner) calls
    else if c = ',' ∨ c = '/' ∨ c = ':' then
      run (r.dropWhile Text.isWhitespace)
        (.divider c.toString (splitSpace inner).1 (String.ofList (r.takeWhile Text.isWhitespace)) :: (splitSpace inner).2)
        calls
    else if c = '(' then
      run (r.dropWhile Text.isWhitespace) [] (⟨"", String.ofList (r.takeWhile Text.isWhitespace), inner⟩ :: calls)
    else
      match calls, decide (c = ')') with
      | f :: fs, true => run r (f.close inner) fs
      | calls, _ =>
        match _h : (firstWord c r).2 with
        | '(' :: t =>
          if isBareUrl (firstWord c r).1 t then
            run (readUrl (firstWord c r).1 t).2 ((readUrl (firstWord c r).1 t).1 :: inner) calls
          else
            run (t.dropWhile Text.isWhitespace) []
              (⟨String.ofList (firstWord c r).1, String.ofList (t.takeWhile Text.isWhitespace), inner⟩ :: calls)
        | rest => run rest (.word (String.ofList (firstWord c r).1) :: inner) calls
termination_by s.length
decreasing_by
  · exact Nat.lt_succ_of_le (Text.length_dropWhile_le Text.isWhitespace r)
  · exact Nat.lt_succ_of_le (Text.length_readQuoted_le c r)
  · have := Text.length_readComment_le r.tail; simp at this ⊢; omega
  · exact Nat.lt_succ_of_le (Text.length_dropWhile_le Text.isWhitespace r)
  · exact Nat.lt_succ_of_le (Text.length_dropWhile_le Text.isWhitespace r)
  · simp
  · have hWord := length_firstWord_le c r
    have hUrl := length_readUrl_le (firstWord c r).1 t
    rw [_h, List.length_cons] at hWord
    rw [List.length_cons]; omega
  · have hWord := length_firstWord_le c r
    have hSpace := Text.length_dropWhile_le Text.isWhitespace t
    rw [_h, List.length_cons] at hWord
    rw [List.length_cons]; omega
  · exact Nat.lt_succ_of_le (_h ▸ length_firstWord_le c r)

def parse (value : String) : List Node := run value.toList [] []

end CssTheming.Value
