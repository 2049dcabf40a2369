import CssTheming.Text.Hex
import CssTheming.Yaml.Cursor
import CssTheming.Yaml.Token

/-!
# Anchors, tags and directives
-/

namespace CssTheming.Yaml

/-- The name of an anchor or an alias. -/
def readAnchorName (c : Cursor) : Option (String × Cursor) :=
  let (name, c) := c.span isWord
  let ended := atGap c.rest || ['?', ':', ',', ']', '\x7d', '%', '@', '\u0060'].contains (c.rest.head?.getD ' ')
  if name.isEmpty || !ended then none else some (String.ofList name, c)

/-! ## Tags -/

def isUriChar (verbatim : Bool) (c : Char) : Bool :=
  isWord c || [';', '/', '?', ':', '@', '&', '=', '+', '$', '.', '!', '~', '*', '\'', '(', ')'].contains c ||
    (verbatim && [',', '[', ']'].contains c)

/-- An octet that is written with a percent sign, and what follows. -/
def readOctet : List Char → Option (Nat × List Char)
  | '%' :: a :: b :: r => do return (16 * (← Text.hexValue? a) + (← Text.hexValue? b), r)
  | _ => none

/-- How many octets follow the first one of a character, and the bits that it gives. -/
def leadingOctet? (n : Nat) : Option (Nat × Nat) :=
  if n < 0x80 then some (0, n)
  else if 0xC0 ≤ n ∧ n < 0xE0 then some (1, n % 0x20)
  else if 0xE0 ≤ n ∧ n < 0xF0 then some (2, n % 0x10)
  else if 0xF0 ≤ n ∧ n < 0xF8 then some (3, n % 8)
  else none

/-- Takes the bits of so many further octets. -/
def readOctets (bits : Nat) (s : List Char) : Nat → Option (Nat × List Char)
  | 0 => some (bits, s)
  | count + 1 => do
    let (n, r) ← readOctet s
    if 0x80 ≤ n ∧ n < 0xC0 then readOctets (0x40 * bits + n % 0x40) r count else none

/-- A character whose octets are written with percent signs, and what follows. -/
def readEncodedChar (s : List Char) : Option (Char × List Char) := do
  let (n, r) ← readOctet s
  let (count, bits) ← leadingOctet? n
  let (code, rest) ← readOctets bits r count
  let c ← Text.charOfCode? code
  if c.utf8Size = count + 1 then some (c, rest) else none

theorem length_readOctet_lt {s r : List Char} {n : Nat} (h : readOctet s = some (n, r)) : r.length < s.length := by
  unfold readOctet at h
  split at h
  · rename_i a b t
    cases ha : Text.hexValue? a <;> cases hb : Text.hexValue? b <;> simp_all
    omega
  · simp at h

theorem length_readOctets_le {bits code count : Nat} {s r : List Char} (h : readOctets bits s count = some (code, r)) :
    r.length ≤ s.length := by
  induction count generalizing bits s with
  | zero => simp_all [readOctets]
  | succ count ih =>
    unfold readOctets at h
    cases ho : readOctet s with
    | none => simp [ho] at h
    | some p =>
      obtain ⟨n, t⟩ := p
      simp only [ho, bind, Option.bind] at h
      split at h
      · have := ih h
        have := length_readOctet_lt ho
        omega
      · simp at h

theorem length_readEncodedChar_lt {s r : List Char} {c : Char} (h : readEncodedChar s = some (c, r)) :
    r.length < s.length := by
  unfold readEncodedChar at h
  simp only [bind, Option.bind_eq_some_iff, Prod.exists] at h
  obtain ⟨n, t, ho, count, bits, -, code, rest, hs, d, -, h⟩ := h
  split at h
  · have := length_readOctet_lt ho
    have := length_readOctets_le hs
    grind
  · simp at h

/-- The longest text of a tag, and what follows; none if a percent sign stands in it that writes no character. -/
def readUri (verbatim : Bool) (s : List Char) : Option (List Char × List Char) :=
  match s with
  | [] => some ([], [])
  | c :: r =>
    if c = '%' then
      match _h : readEncodedChar (c :: r) with
      | some (d, r') => (readUri verbatim r').map fun (t, rest) => (d :: t, rest)
      | none => none
    else if isUriChar verbatim c then (readUri verbatim r).map fun (t, rest) => (c :: t, rest)
    else some ([], c :: r)
termination_by s.length
decreasing_by
  · exact length_readEncodedChar_lt _h
  · simp

/-- Behind the text of a tag. -/
def Cursor.readUri (verbatim : Bool) (c : Cursor) : Option (List Char × Cursor) :=
  (Yaml.readUri verbatim c.rest).map fun (t, rest) => (t, ⟨rest, c.mark.advance (c.rest.length - rest.length)⟩)

/-- A tag behind its exclamation mark. -/
def readTagName (c : Cursor) : Option (TagName × Cursor) :=
  match c.rest with
  | '<' :: _ => do
    let (uri, c) ← (c.advance 1).readUri true
    if uri.isEmpty || c.rest.head? ≠ some '>' then none else some (⟨"", String.ofList uri⟩, c.advance 1)
  | _ => do
    let (word, c) := c.span isWord
    if c.rest.head? = some '!' then
      let (uri, c) ← (c.advance 1).readUri false
      if uri.isEmpty then none else some (⟨"!" ++ String.ofList word ++ "!", String.ofList uri⟩, c)
    else
      let (uri, c) ← c.readUri false
      let suffix := String.ofList (word ++ uri)
      if suffix.isEmpty then some (⟨"", "!"⟩, c) else some (⟨"!", suffix⟩, c)

/-- A tag has to be followed by white space, or in a flow collection by a comma. -/
def readTag (flow : Bool) (c : Cursor) : Option (TagName × Cursor) := do
  let (name, c) ← readTagName c
  if atGap c.rest || (flow && c.rest.head? = some ',') then some (name, c) else none

/-! ## Directives -/

/-- A number of at most nine digits. -/
def readVersionNumber (c : Cursor) : Option (Nat × Cursor) :=
  let (digits, c) := c.span Char.isDigit
  if digits.isEmpty || digits.length > 9 then none
  else some (digits.foldl (fun n d => 10 * n + (d.toNat - '0'.toNat)) 0, c)

def readVersion (c : Cursor) : Option (Token × Cursor) := do
  let (major, c) ← readVersionNumber (c.skipWhile isBlank)
  if c.rest.head? ≠ some '.' then none
  let (minor, c) ← readVersionNumber (c.advance 1)
  return (.version major minor, c)

/-- A handle other than `!` ends in an exclamation mark. -/
def readHandle (c : Cursor) : Option (String × Cursor) :=
  if c.rest.head? ≠ some '!' then none
  else
    let (word, c) := (c.advance 1).span isWord
    if c.rest.head? = some '!' then some ("!" ++ String.ofList word ++ "!", c.advance 1)
    else if word.isEmpty then some ("!", c)
    else none

def readTagHandle (c : Cursor) : Option (Token × Cursor) := do
  let (handle, c) ← readHandle (c.skipWhile isBlank)
  if !atGap c.rest || atLineEnd c.rest then none
  let (start, c) ← (c.skipWhile isBlank).readUri true
  if start.isEmpty || !atGap c.rest then none
  return (.tagHandle handle (String.ofList start), c)

/-- A directive behind its percent sign, through its line. -/
def readDirective (c : Cursor) : Option (Token × Cursor) := do
  let (name, c) := c.span isWord
  if !atGap c.rest then none
  let (token, c) ← match String.ofList name with
    | "YAML" => readVersion c
    | "TAG" => readTagHandle c
    | _ => none
  return (token, ← (c.skipWhile isBlank).finishLine?)

end CssTheming.Yaml
