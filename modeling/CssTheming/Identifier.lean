import CssTheming.Text.Hex

/-!
# Written identifiers

A name as it stands in CSS text: characters that a name cannot hold are written with a backslash. `encode` writes a
whole identifier and `encodeName` one whose start is already written; `decode?` reads back a text that holds one
identifier, white space and comments around it allowed.
-/

namespace CssTheming.Identifier

/-- The replacement character, written where an escape names no character. -/
def replacement : Char := '\uFFFD'

/-- The white space of CSS, which is ASCII only. -/
def isBlank (c : Char) : Bool := c = ' ' || c = '\t' || c = '\n' || c = '\x0c' || c = '\r'

def isNewline (c : Char) : Bool := c = '\n' || c = '\x0c' || c = '\r'

def isAsciiLetter (c : Char) : Bool := ('a' ≤ c && c ≤ 'z') || ('A' ≤ c && c ≤ 'Z')

def isAsciiDigit (c : Char) : Bool := '0' ≤ c && c ≤ '9'

/-- Characters that start a name unescaped. -/
def startsName (c : Char) : Bool := isAsciiLetter c || c = '_' || c.toNat ≥ 0x80

/-- Characters that go on with a name unescaped. -/
def continuesName (c : Char) : Bool := startsName c || isAsciiDigit c || c = '-'

/-! ## Writing -/

/-- A backslash, the code point in lower case hexadecimal digits and a space that ends them. -/
def hexEscape (c : Char) : List Char := '\\' :: Nat.toDigits 16 c.toNat ++ [' ']

def encodeChar (c : Char) : List Char :=
  if continuesName c then [c]
  else if c = '\x00' then [replacement]
  else if c.toNat < 0x20 || c = '\x7f' then hexEscape c
  else ['\\', c]

/-- The characters of a name behind its start. -/
def encodeNameChars (cs : List Char) : List Char := cs.flatMap encodeChar

/-- A digit cannot start an identifier, so the first one is written by its code point. -/
def encodeAfterHyphen : List Char → List Char
  | [] => []
  | c :: r => if isAsciiDigit c then hexEscape c ++ encodeNameChars r else encodeNameChars (c :: r)

def encodeChars : List Char → List Char
  | '-' :: '-' :: r => '-' :: '-' :: encodeNameChars r
  | ['-'] => ['\\', '-']
  | '-' :: r => '-' :: encodeAfterHyphen r
  | cs => encodeAfterHyphen cs

def encodeName (name : String) : String := String.ofList (encodeNameChars name.toList)

def encode (name : String) : String := String.ofList (encodeChars name.toList)

/-! ## Reading -/

/-- What follows a comment's end; nothing, if the comment is not closed. -/
def afterComment : List Char → List Char
  | '*' :: '/' :: r => r
  | _ :: r => afterComment r
  | [] => []

theorem length_afterComment_le (cs : List Char) : (afterComment cs).length ≤ cs.length := by
  fun_induction afterComment cs <;> simp <;> omega

/-- Drops white space and comments. -/
def dropFiller (cs : List Char) : List Char :=
  match cs with
  | [] => []
  | '/' :: '*' :: r => dropFiller (afterComment r)
  | c :: r => if isBlank c then dropFiller r else c :: r
termination_by cs.length
decreasing_by
  · have := length_afterComment_le r; simp; omega
  · simp

/-- The digits at the head of a text, at most `limit` of them, as a number, and the rest. -/
def readHex : Nat → List Char → Nat → Nat × List Char
  | 0, cs, n => (n, cs)
  | _ + 1, [], n => (n, [])
  | limit + 1, c :: r, n =>
    match Text.hexValue? c with
    | some d => readHex limit r (16 * n + d)
    | none => (n, c :: r)

/-- One character of white space may end the digits of an escape. -/
def dropBlank : List Char → List Char
  | '\r' :: '\n' :: r => r
  | c :: r => if isBlank c then r else c :: r
  | [] => []

/-- The character that an escape of this code point stands for. -/
def ofCodePoint (n : Nat) : Char := if n = 0 then replacement else if h : n.isValidChar then Char.ofNatAux n h else replacement

/-- The character that an escape stands for, given the text behind its backslash. -/
def readEscape : List Char → Char × List Char
  | [] => (replacement, [])
  | c :: r =>
    match Text.hexValue? c with
    | some d =>
      let (n, rest) := readHex 5 r d
      (ofCodePoint n, dropBlank rest)
    | none => (if c = '\x00' then replacement else c, r)

theorem length_readHex_le (limit : Nat) (cs : List Char) (n : Nat) : (readHex limit cs n).2.length ≤ cs.length := by
  fun_induction readHex limit cs n <;> simp
  omega

theorem length_dropBlank_le (cs : List Char) : (dropBlank cs).length ≤ cs.length := by
  unfold dropBlank
  split <;> (try split) <;> simp
  omega

theorem length_readEscape_le (cs : List Char) : (readEscape cs).2.length ≤ cs.length := by
  unfold readEscape
  split
  · simp
  · rename_i c r
    split
    · rename_i d _
      have h₁ := length_readHex_le 5 r d
      have h₂ := length_dropBlank_le (readHex 5 r d).2
      simp; omega
    · simp

/-- A backslash does not escape a newline. -/
def newlineNext : List Char → Bool
  | c :: _ => isNewline c
  | [] => false

/-- The longest name at the head of a text, its escapes read, and the rest. -/
def readName (cs : List Char) : List Char × List Char :=
  match cs with
  | [] => ([], [])
  | c :: r =>
    if c = '\\' then
      if newlineNext r then ([], c :: r)
      else
        let (n, rest) := readName (readEscape r).2
        ((readEscape r).1 :: n, rest)
    else if continuesName c || c = '\x00' then
      let (n, rest) := readName r
      ((if c = '\x00' then replacement else c) :: n, rest)
    else ([], c :: r)
termination_by cs.length
decreasing_by
  · have := length_readEscape_le r; simp; omega
  · simp

/-- An identifier does not start with a digit, nor with a hyphen and a digit, and `-->` is a token of its own. Behind a
hyphen a backslash always starts an identifier, which may then end at once. -/
def startsIdentifier : List Char → Bool
  | '-' :: '-' :: '>' :: _ => false
  | '-' :: c :: _ => startsName c || c = '-' || c = '\x00' || c = '\\'
  | '\\' :: r => !newlineNext r
  | c :: _ => startsName c || c = '\x00'
  | [] => false

/-- The name that a text holds, unless it holds anything else. A name before a parenthesis is a function's. -/
def decodeChars? (cs : List Char) : Option (List Char) :=
  let cs := dropFiller cs
  if startsIdentifier cs then
    let (name, rest) := readName cs
    if rest.head? ≠ some '(' && (dropFiller rest).isEmpty then some name else none
  else none

def decode? (text : String) : Option String := (decodeChars? text.toList).map String.ofList

end CssTheming.Identifier
