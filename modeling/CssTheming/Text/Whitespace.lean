/-!
# White space

The Unicode property `White_Space` and the operations on text that rest on it: trimming, splitting into
words and collapsing runs. Every reader of this library that speaks of white space means this property.
-/

namespace CssTheming.Text

/-- The 25 code points with the Unicode property `White_Space`. -/
def isWhitespace (c : Char) : Bool :=
  let n := c.toNat
  (9 ≤ n && n ≤ 13) || n == 0x20 || n == 0x85 || n == 0xA0 || n == 0x1680 || (0x2000 ≤ n && n ≤ 0x200A) ||
    n == 0x2028 || n == 0x2029 || n == 0x202F || n == 0x205F || n == 0x3000

def trimStart (cs : List Char) : List Char := cs.dropWhile isWhitespace

def trimEnd (cs : List Char) : List Char := (cs.reverse.dropWhile isWhitespace).reverse

def trim (cs : List Char) : List Char := trimEnd (trimStart cs)

/-- The white space that `trimEnd` takes off. -/
def trailing (cs : List Char) : List Char := (cs.reverse.takeWhile isWhitespace).reverse

/-- The maximal runs of characters other than white space. -/
def words : List Char → List (List Char)
  | [] => []
  | c :: r =>
    if isWhitespace c then words r
    else match r with
      | [] => [[c]]
      | d :: _ => if isWhitespace d then [c] :: words r else
        match words r with
        | [] => [[c]]
        | w :: ws => (c :: w) :: ws

/-- Every run of white space becomes one space, and none is left at the ends. -/
def collapse (cs : List Char) : List Char := [' '].intercalate (words cs)

theorem trimEnd_append_trailing (cs : List Char) : trimEnd cs ++ trailing cs = cs := by
  rw [trimEnd, trailing, ← List.reverse_append, List.takeWhile_append_dropWhile, List.reverse_reverse]

theorem isWhitespace_of_mem_trailing {cs : List Char} {c : Char} (h : c ∈ trailing cs) : isWhitespace c = true := by
  rw [trailing, List.mem_reverse] at h
  exact List.all_eq_true.1 List.all_takeWhile c h

theorem length_trimStart_le (cs : List Char) : (trimStart cs).length ≤ cs.length :=
  (List.dropWhile_suffix isWhitespace).length_le

end CssTheming.Text
