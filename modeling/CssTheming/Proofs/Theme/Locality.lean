import CssTheming.Proofs.Text.Lexeme
import CssTheming.Proofs.Theme.Interpolation

/-!
# Interpolation in parts

A text is interpolated piece by piece: its characters stand for themselves and its placeholders for
the values of tokens, which are put in as they are. What stands behind white space is interpolated
by itself, as long as no brace in it can close one that was opened in front of the white space.
-/

namespace CssTheming.Theme

variable {tokens tokens' : Table Literal} {r s name rest tail : List Char}

/-! ## Placeholders in front of white space -/

/-- A text that cannot take part in a placeholder that begins in front of it. -/
structure SetsOff (tail : List Char) : Prop where
  head : ∃ c t, tail = c :: t ∧ Text.isWhitespace c = true
  brace : '}' ∉ tail

theorem SetsOff.startsOff (h : SetsOff tail) : Text.StartsOff isNameChar tail := by
  obtain ⟨c, t, rfl, hc⟩ := h.head
  intro d hd
  obtain rfl : c = d := by simpa using hd
  simp [isNameChar, hc]

theorem takeWhile_append_setsOff (h : SetsOff tail) (s : List Char) :
    (s ++ tail).takeWhile isNameChar = s.takeWhile isNameChar ∧
      (s ++ tail).dropWhile isNameChar = s.dropWhile isNameChar ++ tail := by
  induction s with
  | nil => simpa using Text.takeWhile_append_of (s := []) (by simp) h.startsOff
  | cons c s ih =>
    by_cases hc : isNameChar c = true
    · simp [hc, ih]
    · simp [hc]

theorem bareName?_append (h : SetsOff tail) (s : List Char) :
    bareName? (s ++ tail) = (bareName? s).map fun p => (p.1, p.2 ++ tail) := by
  obtain ⟨htake, hdrop⟩ := takeWhile_append_setsOff h s
  unfold bareName?
  rw [htake, hdrop]
  split <;> rfl

/-- Braces that are closed and hold something give the name. -/
theorem placeholder?_braced (hne : name ≠ []) (hname : '}' ∉ name) (rest : List Char) :
    placeholder? ('{' :: (name ++ '}' :: rest)) = some (name, rest) := by
  have hall : ∀ c ∈ name, (fun c => decide (c ≠ '}')) c = true := by
    intro c hc
    apply decide_eq_true
    rintro rfl
    exact hname hc
  obtain ⟨htake, hdrop⟩ := Text.takeWhile_append_of (t := '}' :: rest) hall
    (by simp [Text.StartsOff])
  obtain ⟨c, name, rfl⟩ := List.exists_cons_of_ne_nil hne
  simp only [placeholder?, htake, hdrop]

/-- Other braces belong to a name that runs to the next white space. -/
theorem placeholder?_unbraced (h : '}' ∈ r → r.head? = some '}') :
    placeholder? ('{' :: r) = bareName? ('{' :: r) := by
  simp only [placeholder?]
  split
  · rename_i c name rest htake hdrop
    have hbrace : '}' ∈ r := (List.dropWhile_suffix _).subset (hdrop ▸ List.mem_cons_self)
    obtain ⟨t, rfl⟩ := List.head?_eq_some_iff.1 (h hbrace)
    simp at htake
  · rfl

theorem placeholder?_of_head (h : s.head? ≠ some '{') : placeholder? s = bareName? s := by
  unfold placeholder?
  split
  · simp at h
  · rfl

theorem braced_or_unbraced (r : List Char) :
    (∃ name rest, name ≠ [] ∧ '}' ∉ name ∧ r = name ++ '}' :: rest) ∨
      ('}' ∈ r → r.head? = some '}') := by
  by_cases hr : '}' ∈ r
  · obtain ⟨name, rest, rfl, hname⟩ := List.eq_append_cons_of_mem hr
    cases name with
    | nil => exact .inr fun _ => rfl
    | cons c name => exact .inl ⟨c :: name, rest, by simp, hname, rfl⟩
  · exact .inr fun h => absurd h hr

theorem placeholder?_append (h : SetsOff tail) (s : List Char) :
    placeholder? (s ++ tail) = (placeholder? s).map fun p => (p.1, p.2 ++ tail) := by
  by_cases hs : s.head? = some '{'
  · obtain ⟨r, rfl⟩ := List.head?_eq_some_iff.1 hs
    rcases braced_or_unbraced r with ⟨name, rest, hne, hname, rfl⟩ | hr
    · rw [placeholder?_braced hne hname, List.cons_append, List.append_assoc, List.cons_append,
        placeholder?_braced hne hname]
      rfl
    · have hr' : '}' ∈ r ++ tail → (r ++ tail).head? = some '}' := by
        intro hmem
        have hmem := (List.mem_append.1 hmem).resolve_right h.brace
        rw [List.head?_append, hr hmem]
        rfl
      rw [placeholder?_unbraced hr, List.cons_append, placeholder?_unbraced hr',
        ← bareName?_append h]
      rfl
  · have hs' : (s ++ tail).head? ≠ some '{' := by
      cases s with
      | cons c s => simpa using hs
      | nil =>
        obtain ⟨c, t, rfl, hc⟩ := h.head
        rintro ⟨⟩
        exact absurd hc (by decide)
    rw [placeholder?_of_head hs, placeholder?_of_head hs', bareName?_append h]

/-! ## Pieces -/

/-- What stands for the name of a token. -/
def tokenText (tokens : Table Literal) (name : List Char) : Except String (List Char) :=
  match (tokens.get? (String.ofList name)).map Literal.css with
  | some value => .ok value.toList
  | none => .error (String.ofList name)

@[simp] theorem interpolateChars_nil (tokens : Table Literal) :
    interpolateChars tokens [] = .ok [] := by
  rw [interpolateChars]

theorem interpolateChars_placeholder (tokens : Table Literal)
    (h : placeholder? r = some (name, rest)) :
    interpolateChars tokens ('$' :: r) = (do
      let value ← tokenText tokens name
      let after ← interpolateChars tokens rest
      return value ++ after) := by
  rw [interpolateChars, if_pos rfl, tokenText]
  split
  · rename_i name' rest' h'
    obtain ⟨rfl, rfl⟩ : name' = name ∧ rest' = rest := by simpa [h'] using h
    cases tokens.get? (String.ofList name') with
    | none => rfl
    | some value => cases interpolateChars tokens rest' <;> rfl
  · simp_all

/-- Every other character stands for itself. -/
theorem interpolateChars_cons (tokens : Table Literal) {c : Char}
    (h : c = '$' → placeholder? r = none) :
    interpolateChars tokens (c :: r) = (do
      let after ← interpolateChars tokens r
      return c :: after) := by
  have hmap : interpolateChars tokens (c :: r) = (interpolateChars tokens r).map (c :: ·) := by
    rw [interpolateChars]
    split
    · rename_i hc
      split
      · simp_all
      · rfl
    · rfl
  rw [hmap]
  cases interpolateChars tokens r <;> rfl

/-- In front of what sets it off a text is interpolated by itself. -/
theorem interpolateChars_append (h : SetsOff tail) (tokens : Table Literal) (s : List Char) :
    interpolateChars tokens (s ++ tail) = (do
      let first ← interpolateChars tokens s
      let last ← interpolateChars tokens tail
      return first ++ last) := by
  fun_induction placeholderNames s with
  | case1 =>
    rw [List.nil_append, interpolateChars_nil]
    exact (bind_pure (interpolateChars tokens tail)).symm
  | case2 r name rest hname ih =>
    have hname' : placeholder? (r ++ tail) = some (name, rest ++ tail) := by
      rw [placeholder?_append h, hname]
      rfl
    rw [List.cons_append, interpolateChars_placeholder tokens hname',
      interpolateChars_placeholder tokens hname, ih]
    simp only [bind_assoc, pure_bind, List.append_assoc]
  | case3 r hname ih =>
    have hname' : placeholder? (r ++ tail) = none := by
      rw [placeholder?_append h, hname]
      rfl
    rw [List.cons_append, interpolateChars_cons tokens fun _ => hname',
      interpolateChars_cons tokens fun _ => hname, ih]
    simp only [bind_assoc, pure_bind, List.cons_append]
  | case4 c r hc ih =>
    rw [List.cons_append, interpolateChars_cons tokens fun h => absurd h hc,
      interpolateChars_cons tokens fun h => absurd h hc, ih]
    simp only [bind_assoc, pure_bind, List.cons_append]

theorem interpolateChars_plain_append (tokens : Table Literal) (h : '$' ∉ s) (t : List Char) :
    interpolateChars tokens (s ++ t) = (do
      let after ← interpolateChars tokens t
      return s ++ after) := by
  induction s with
  | nil => exact (bind_pure (interpolateChars tokens t)).symm
  | cons c s ih =>
    rw [List.mem_cons, not_or] at h
    rw [List.cons_append, interpolateChars_cons tokens fun hc => absurd hc.symm h.1, ih h.2]
    simp only [bind_assoc, pure_bind, List.cons_append]

/-- A piece of a text: a character that stands for itself, or the name of a token, in braces or
not. -/
inductive Piece where
  | plain (c : Char)
  | placeholder (name : List Char) (braces : Bool)

namespace Piece

def written : Piece → List Char
  | .plain c => [c]
  | .placeholder name braces => '$' :: if braces then '{' :: name ++ ['}'] else name

def name? : Piece → Option String
  | .plain _ => none
  | .placeholder name _ => some (String.ofList name)

/-- What stands in the place of a piece. -/
def value (tokens : Table Literal) : Piece → Except String (List Char)
  | .plain c => return [c]
  | .placeholder name _ => tokenText tokens name

end Piece

theorem exists_written_of_placeholder? (h : placeholder? s = some (name, rest)) :
    ∃ braces, '$' :: s = (Piece.placeholder name braces).written ++ rest := by
  have hbare : bareName? s = some (name, rest) → s = name ++ rest := by
    intro h
    unfold bareName? at h
    split at h
    · simp at h
    · obtain ⟨rfl, rfl⟩ : s.takeWhile isNameChar = name ∧ s.dropWhile isNameChar = rest := by
        simpa using h
      exact List.takeWhile_append_dropWhile.symm
  by_cases hs : s.head? = some '{'
  · obtain ⟨r, rfl⟩ := List.head?_eq_some_iff.1 hs
    rcases braced_or_unbraced r with ⟨name', rest', hne, hname, rfl⟩ | hr
    · rw [placeholder?_braced hne hname] at h
      obtain ⟨rfl, rfl⟩ : name' = name ∧ rest' = rest := by simpa using h
      exact ⟨true, by simp [Piece.written]⟩
    · rw [placeholder?_unbraced hr] at h
      exact ⟨false, by simp [Piece.written, hbare h]⟩
  · rw [placeholder?_of_head hs] at h
    exact ⟨false, by simp [Piece.written, hbare h]⟩

/-- A text is divided before the values of tokens are known. -/
theorem exists_pieces (s : List Char) :
    ∃ pieces : List Piece, pieces.flatMap Piece.written = s ∧
      pieces.filterMap Piece.name? = placeholderNames s ∧
      ∀ tokens, interpolateChars tokens s =
        (do return (← pieces.mapM (Piece.value tokens)).flatten) := by
  fun_induction placeholderNames s with
  | case1 => exact ⟨[], rfl, rfl, fun tokens => interpolateChars_nil tokens⟩
  | case2 r name rest hname ih =>
    obtain ⟨pieces, hwritten, hnames, hvalue⟩ := ih
    obtain ⟨braces, hpiece⟩ := exists_written_of_placeholder? hname
    refine ⟨.placeholder name braces :: pieces, ?_, ?_, fun tokens => ?_⟩
    · rw [List.flatMap_cons, hwritten, hpiece]
    · simp [Piece.name?, hnames]
    · rw [interpolateChars_placeholder tokens hname, hvalue]
      simp [List.mapM_cons, Piece.value]
  | case3 r hname ih =>
    obtain ⟨pieces, hwritten, hnames, hvalue⟩ := ih
    refine ⟨.plain '$' :: pieces, ?_, ?_, fun tokens => ?_⟩
    · simp [Piece.written, hwritten]
    · exact (List.filterMap_cons_none rfl).trans hnames
    · rw [interpolateChars_cons tokens fun _ => hname, hvalue]
      simp [List.mapM_cons, Piece.value]
  | case4 c r hc ih =>
    obtain ⟨pieces, hwritten, hnames, hvalue⟩ := ih
    refine ⟨.plain c :: pieces, ?_, ?_, fun tokens => ?_⟩
    · simp [Piece.written, hwritten]
    · exact (List.filterMap_cons_none rfl).trans hnames
    · rw [interpolateChars_cons tokens fun h => absurd h hc, hvalue]
      simp [List.mapM_cons, Piece.value]

/-- Only the values of the names in a text count. -/
theorem interpolateChars_congr (h : ∀ name ∈ placeholderNames s,
      (tokens'.get? name).map Literal.css = (tokens.get? name).map Literal.css) :
    interpolateChars tokens' s = interpolateChars tokens s := by
  fun_induction placeholderNames s with
  | case1 => rw [interpolateChars_nil, interpolateChars_nil]
  | case2 r name rest hname ih =>
    obtain ⟨hvalue, hrest⟩ := List.forall_mem_cons.1 h
    have htext : tokenText tokens' name = tokenText tokens name := by
      rw [tokenText, tokenText, hvalue]
    rw [interpolateChars_placeholder tokens' hname, interpolateChars_placeholder tokens hname,
      htext, ih hrest]
  | case3 r hname ih =>
    rw [interpolateChars_cons tokens' fun _ => hname, interpolateChars_cons tokens fun _ => hname,
      ih h]
  | case4 c r hc ih =>
    rw [interpolateChars_cons tokens' fun h => absurd h hc,
      interpolateChars_cons tokens fun h => absurd h hc, ih h]

/-! ## Texts -/

theorem setsOff_append {w b : List Char} (hne : w ≠ [])
    (hw : ∀ c ∈ w, Text.isWhitespace c = true) (hb : '}' ∉ b) : SetsOff (w ++ b) where
  head := by
    obtain ⟨c, w, rfl⟩ := List.exists_cons_of_ne_nil hne
    exact ⟨c, w ++ b, rfl, hw c List.mem_cons_self⟩
  brace := by
    rw [List.mem_append, not_or]
    exact ⟨fun h => absurd (hw _ h) (by decide), hb⟩

theorem interpolate_eq (tokens : Table Literal) (text : String) :
    interpolate tokens text = (do
      let s ← interpolateChars tokens text.toList
      return String.ofList s) := by
  rw [interpolate]
  cases interpolateChars tokens text.toList <;> rfl

/-- A text is interpolated in front of white space and behind it as if each part stood alone, the
part in front first, unless a brace behind could close one in front. Without dollar signs nothing
happens. The division of a text into characters and placeholders is fixed before any value is put
in, so that values are not looked at again, and the result depends on the tokens through the values
of the names in the text alone. -/
theorem interpolate_local (tokens : Table Literal) :
    (∀ a w b : String, w ≠ "" → (∀ c ∈ w.toList, Text.isWhitespace c = true) → '}' ∉ b.toList →
      interpolate tokens (a ++ w ++ b) = (do
        let first ← interpolate tokens a
        let last ← interpolate tokens b
        return first ++ w ++ last)) ∧
    ∀ text : String,
      ('$' ∉ text.toList → interpolate tokens text = .ok text) ∧
      (∃ pieces : List Piece, pieces.flatMap Piece.written = text.toList ∧
        pieces.filterMap Piece.name? = placeholderNames text.toList ∧
        ∀ tokens', interpolate tokens' text =
          (do return String.ofList (← pieces.mapM (Piece.value tokens')).flatten)) ∧
      ∀ tokens' : Table Literal, (∀ name ∈ placeholderNames text.toList,
          (tokens'.get? name).map Literal.css = (tokens.get? name).map Literal.css) →
        interpolate tokens' text = interpolate tokens text := by
  refine ⟨fun a w b hw hspace hb => ?_, fun text => ⟨fun h => ?_, ?_, fun tokens' h => ?_⟩⟩
  · have hoff : SetsOff (w.toList ++ b.toList) := setsOff_append (by simpa using hw) hspace hb
    have hplain : '$' ∉ w.toList := fun h => absurd (hspace _ h) (by decide)
    rw [interpolate_eq, interpolate_eq, interpolate_eq, String.toList_append, String.toList_append,
      List.append_assoc, interpolateChars_append hoff, interpolateChars_plain_append tokens hplain]
    simp only [bind_assoc, pure_bind, String.ofList_append, String.ofList_toList,
      String.append_assoc]
  · have hplain := interpolateChars_plain_append tokens h []
    rw [List.append_nil, interpolateChars_nil] at hplain
    rw [interpolate_eq, hplain]
    exact congrArg Except.ok (by simp)
  · obtain ⟨pieces, hwritten, hnames, hvalue⟩ := exists_pieces text.toList
    refine ⟨pieces, hwritten, hnames, fun tokens' => ?_⟩
    rw [interpolate_eq, hvalue]
    simp only [bind_assoc, pure_bind]
  · rw [interpolate, interpolate, interpolateChars_congr h]

/-- Tokens whose values look like names of tokens. -/
def palette : Table Literal :=
  .ofList [("dark blue", .text "$gap"), ("gap", .text "4px")]

theorem interpolate_local_values :
    " \t" ≠ "" ∧ (∀ c ∈ " \t".toList, Text.isWhitespace c = true) ∧ '}' ∉ "$gap $\x7bred".toList ∧
      '$' ∉ "4px".toList ∧
      interpolate palette ("1px $\x7bdark blue\x7d" ++ " \t" ++ "$gap $\x7bred") =
        .error "\x7bred" ∧
      interpolate palette ("1px $\x7bdark blue\x7d" ++ " \t" ++ "$gap") = .ok "1px $gap \t4px" ∧
      interpolate palette "4px" = .ok "4px" ∧
      interpolate (palette.insert "red" (.text "#f00")) "$gap" = interpolate palette "$gap" := by
  obtain ⟨happend, htext⟩ := interpolate_local palette
  have hspace : ∀ c ∈ " \t".toList, Text.isWhitespace c = true :=
    List.all_eq_true.1 (by decide +kernel)
  have hred : '}' ∉ "$gap $\x7bred".toList := by simp
  have hgap : '}' ∉ "$gap".toList := by simp
  have hplain : '$' ∉ "4px".toList := by simp
  refine ⟨by decide, hspace, hred, hplain, ?_, ?_, (htext "4px").1 hplain, ?_⟩
  · rw [happend _ _ _ (by decide) hspace hred]
    decide +kernel
  · rw [happend _ _ _ (by decide) hspace hgap]
    decide +kernel
  · refine (htext "$gap").2.2 _ fun name hname => ?_
    have hnames : placeholderNames "$gap".toList = ["gap"] := by decide +kernel
    rw [hnames, List.mem_singleton] at hname
    subst hname
    decide +kernel

end CssTheming.Theme
