import CssTheming.Proofs.CustomProperty
import CssTheming.Proofs.Text.Whitespace

/-!
# Written identifiers read back

Each character of a name is written as itself, behind a backslash or by its code point, and the
written name is read as these characters, one after the other. The space that ends a code point may
be missing at the end of the text, so a name that was trimmed is still a written name. A name is
read to its end whatever follows, with the replacement character for U+0000.
-/

namespace CssTheming.Identifier

variable {c : Char} {w cs r : List Char}

/-- Characters that stand behind a backslash for themselves. -/
def isEscapable (c : Char) : Bool :=
  0x20 ≤ c.toNat && c.toNat < 0x7f && (Text.hexValue? c).isNone

/-- What is written for the characters of a name. -/
inductive Written : List Char → List Char → Prop
  | nil : Written [] []
  | plain {c : Char} {w cs : List Char} (hc : continuesName c = true) (h : Written w cs) :
    Written (c :: w) (c :: cs)
  | escaped {c : Char} {w cs : List Char} (hc : isEscapable c = true) (h : Written w cs) :
    Written ('\\' :: c :: w) (c :: cs)
  | code {c : Char} {w cs : List Char} (hne : c ≠ '\x00') (hc : c.toNat < 128)
    (h : Written w cs) : Written (hexEscape c ++ w) (c :: cs)
  | lastCode {c : Char} (hne : c ≠ '\x00') (hc : c.toNat < 128) :
    Written ('\\' :: Nat.toDigits 16 c.toNat) [c]

/-! ## Writing -/

/-- A character stands for itself, also behind a backslash, or is written by its code point. -/
theorem encodeChar_cases (hne : c ≠ '\x00') :
    (encodeChar c = [c] ∧ continuesName c = true) ∨
      (encodeChar c = ['\\', c] ∧ isEscapable c = true) ∨
      encodeChar c = hexEscape c ∧ c.toNat < 128 := by
  rw [encodeChar, if_neg hne]
  split
  · rename_i hc
    exact .inl ⟨rfl, hc⟩
  · rename_i hc
    have hascii := toNat_lt_of_not_continuesName (by simpa using hc)
    split
    · exact .inr (.inr ⟨rfl, hascii⟩)
    · rename_i hcontrol
      refine .inr (.inl ⟨rfl, ?_⟩)
      have hdel : c.toNat ≠ 0x7f := fun h => hcontrol <| by
        rw [← Char.ofNat_toNat c, h]
        decide
      rw [isEscapable, hexValue?_of_not_continuesName (by simpa using hc)]
      simp only [Bool.or_eq_true, decide_eq_true_eq, not_or] at hcontrol
      simp only [Option.isNone_none, Bool.and_true, Bool.and_eq_true, decide_eq_true_eq]
      omega

theorem written_encodeNameChars (h : ∀ c ∈ cs, c ≠ '\x00') : Written (encodeNameChars cs) cs := by
  induction cs with
  | nil => exact .nil
  | cons c cs ih =>
    obtain ⟨hne, hcs⟩ := List.forall_mem_cons.1 h
    have hrest := ih hcs
    rw [encodeNameChars, List.flatMap_cons, ← encodeNameChars]
    rcases encodeChar_cases hne with ⟨hwritten, hc⟩ | ⟨hwritten, hc⟩ | ⟨hwritten, hc⟩ <;>
      rw [hwritten]
    · exact .plain hc hrest
    · exact .escaped hc hrest
    · exact .code hne hc hrest

theorem ne_zero_of_isAsciiDigit (h : isAsciiDigit c = true) : c ≠ '\x00' ∧ c.toNat < 128 := by
  rw [isAsciiDigit, Bool.and_eq_true, decide_eq_true_eq, decide_eq_true_eq] at h
  have hle : c.toNat ≤ '9'.toNat := h.2
  refine ⟨?_, Nat.lt_of_le_of_lt hle (by decide)⟩
  rintro rfl
  exact absurd h.1 (by decide)

theorem written_encodeAfterHyphen (h : ∀ c ∈ cs, c ≠ '\x00') : Written (encodeAfterHyphen cs) cs := by
  unfold encodeAfterHyphen
  split
  · exact .nil
  · rename_i c r
    split
    · rename_i hc
      obtain ⟨hne, hascii⟩ := ne_zero_of_isAsciiDigit hc
      exact .code hne hascii (written_encodeNameChars (List.forall_mem_cons.1 h).2)
    · exact written_encodeNameChars h

theorem written_encodeChars (h : ∀ c ∈ cs, c ≠ '\x00') : Written (encodeChars cs) cs := by
  unfold encodeChars
  split
  · rename_i r
    have hr := (List.forall_mem_cons.1 (List.forall_mem_cons.1 h).2).2
    exact .plain rfl (.plain rfl (written_encodeNameChars hr))
  · exact .escaped (by decide) .nil
  · rename_i r _
    exact .plain rfl (written_encodeAfterHyphen (List.forall_mem_cons.1 h).2)
  · exact written_encodeAfterHyphen h

/-! ## Code points -/

theorem hexValue?_digitChar {n : Nat} (h : n < 16) : Text.hexValue? n.digitChar = some n := by
  revert n
  decide

/-- The code point of an ASCII character has one digit or two. -/
theorem toDigits_ascii {n : Nat} (h : n < 128) :
    Nat.toDigits 16 n = [n.digitChar] ∧ n < 16 ∨
      Nat.toDigits 16 n = [(n / 16).digitChar, (n % 16).digitChar] ∧ n / 16 < 16 := by
  by_cases hn : n < 16
  · exact .inl ⟨Nat.toDigits_of_lt_base hn, hn⟩
  · have hdiv : n / 16 < 16 := by omega
    refine .inr ⟨?_, hdiv⟩
    rw [Nat.toDigits_of_base_le (by decide) (Nat.not_lt.1 hn), Nat.toDigits_of_lt_base hdiv]
    rfl

theorem ofCodePoint_toNat (hne : c ≠ '\x00') : ofCodePoint c.toNat = c := by
  have hzero : c.toNat ≠ 0 := fun h => hne <| by
    rw [← Char.ofNat_toNat c, h]
  have hvalid : c.toNat.isValidChar := c.valid
  rw [ofCodePoint, if_neg hzero, dif_pos hvalid]
  rfl

/-- What follows the digits does not go on with them. -/
theorem readEscape_toDigits (hne : c ≠ '\x00') (hc : c.toNat < 128)
    (hr : ∀ d ∈ r.head?, Text.hexValue? d = none) :
    readEscape (Nat.toDigits 16 c.toNat ++ r) = (c, dropBlank r) := by
  have hends : ∀ limit n, readHex (limit + 1) r n = (n, r) := by
    intro limit n
    cases r with
    | nil => rfl
    | cons d r => rw [readHex, hr d rfl]
  rcases toDigits_ascii hc with ⟨hdigits, hlt⟩ | ⟨hdigits, hlt⟩
  · rw [hdigits, List.singleton_append, readEscape, hexValue?_digitChar hlt]
    dsimp only
    rw [hends, ofCodePoint_toNat hne]
  · rw [hdigits, List.cons_append, List.singleton_append, readEscape, hexValue?_digitChar hlt]
    dsimp only
    rw [readHex, hexValue?_digitChar (Nat.mod_lt _ (by decide))]
    dsimp only
    rw [hends, Nat.div_add_mod, ofCodePoint_toNat hne]

theorem isDigit_of_mem_toDigits {n : Nat} (hn : n < 128) {d : Char}
    (hd : d ∈ Nat.toDigits 16 n) : Text.isWhitespace d = false ∧ isNewline d = false := by
  have hdigit : ∀ m < 16, Text.isWhitespace m.digitChar = false ∧ isNewline m.digitChar = false := by
    decide
  rcases toDigits_ascii hn with ⟨hdigits, hlt⟩ | ⟨hdigits, hlt⟩
  · rw [hdigits, List.mem_singleton] at hd
    exact hd ▸ hdigit n hlt
  · rw [hdigits, List.mem_pair] at hd
    rcases hd with rfl | rfl
    · exact hdigit _ hlt
    · exact hdigit _ (Nat.mod_lt _ (by decide))

theorem newlineNext_toDigits {n : Nat} (hn : n < 128) (r : List Char) :
    newlineNext (Nat.toDigits 16 n ++ r) = false := by
  have hdigit := fun d => isDigit_of_mem_toDigits (d := d) hn
  rcases toDigits_ascii hn with ⟨hdigits, -⟩ | ⟨hdigits, -⟩
  · rw [hdigits] at hdigit ⊢
    exact (hdigit _ List.mem_cons_self).2
  · rw [hdigits] at hdigit ⊢
    exact (hdigit _ List.mem_cons_self).2

theorem readName_toDigits (hne : c ≠ '\x00') (hc : c.toNat < 128)
    (hr : ∀ d ∈ r.head?, Text.hexValue? d = none) :
    readName ('\\' :: (Nat.toDigits 16 c.toNat ++ r)) =
      (c :: (readName (dropBlank r)).1, (readName (dropBlank r)).2) := by
  rw [readName_escape _ (newlineNext_toDigits hc r), readEscape_toDigits hne hc hr]

/-! ## Reading -/

theorem ne_of_continuesName (h : continuesName c = true) : c ≠ '\\' ∧ c ≠ '\x00' := by
  constructor <;>
  · rintro rfl
    exact absurd h (by decide)

theorem escapable_spec (h : isEscapable c = true) :
    isNewline c = false ∧ c ≠ '\x00' ∧ Text.hexValue? c = none := by
  rw [isEscapable, Bool.and_eq_true, Bool.and_eq_true, decide_eq_true_eq, decide_eq_true_eq,
    Option.isNone_iff_eq_none] at h
  have hne : ∀ d : Char, d.toNat < 0x20 → c ≠ d := by
    rintro d hd rfl
    omega
  refine ⟨?_, hne _ (by decide), h.2⟩
  simp [isNewline, hne '\n' (by decide), hne '\x0c' (by decide), hne '\r' (by decide)]

theorem readName_escapable (h : isEscapable c = true) (r : List Char) :
    readName ('\\' :: c :: r) = (c :: (readName r).1, (readName r).2) := by
  obtain ⟨hnewline, hzero, hhex⟩ := escapable_spec h
  have hread : readEscape (c :: r) = (c, r) := by
    rw [readEscape, hhex]
    dsimp only
    rw [if_neg hzero]
  rw [readName_escape (c :: r) hnewline, hread]

theorem readName_plain (h : continuesName c = true) (r : List Char) :
    readName (c :: r) = (c :: (readName r).1, (readName r).2) := by
  obtain ⟨hescape, hzero⟩ := ne_of_continuesName h
  rw [readName_continue (by simp [h]) hescape, if_neg hzero]

theorem readName_hexEscape (hne : c ≠ '\x00') (hc : c.toNat < 128) (r : List Char) :
    readName (hexEscape c ++ r) = (c :: (readName r).1, (readName r).2) := by
  have hread := readName_toDigits (r := ' ' :: r) hne hc (by simp [Text.hexValue?])
  have hdrop : dropBlank (' ' :: r) = r := by simp [dropBlank, isBlank]
  rw [hdrop] at hread
  simpa [hexEscape] using hread

theorem readName_nil : readName [] = ([], []) := by rw [readName]

theorem Written.readName_eq (h : Written w cs) : readName w = (cs, []) := by
  induction h with
  | nil => exact readName_nil
  | plain hc _ ih => rw [readName_plain hc, ih]
  | escaped hc _ ih => rw [readName_escapable hc, ih]
  | code hne hc _ ih => rw [readName_hexEscape hne hc, ih]
  | lastCode hne hc =>
    have hread := readName_toDigits (r := []) hne hc (by simp)
    rwa [List.append_nil, show dropBlank [] = [] from rfl, readName_nil] at hread

/-! ## Without the last space -/

/-- No character of a name is white space. -/
def IsSolid (cs : List Char) : Prop := ∀ c ∈ cs, Text.isWhitespace c = false

theorem isSolid_cons {c : Char} {cs : List Char} :
    IsSolid (c :: cs) ↔ Text.isWhitespace c = false ∧ IsSolid cs :=
  List.forall_mem_cons

theorem Written.not_isWhitespace_head (h : Written w cs) (hcs : IsSolid cs) :
    ∀ d ∈ w.head?, Text.isWhitespace d = false := by
  intro d hd
  cases h with
  | nil => cases hd
  | plain hc _ =>
    obtain rfl := Option.some.inj hd
    exact (isSolid_cons.1 hcs).1
  | escaped hc _ =>
    obtain rfl := Option.some.inj hd
    rfl
  | code hne hc _ =>
    obtain rfl := Option.some.inj hd
    rfl
  | lastCode hne hc =>
    obtain rfl := Option.some.inj hd
    rfl

theorem isSolid_toDigits {n : Nat} (hn : n < 128) : IsSolid ('\\' :: Nat.toDigits 16 n) :=
  isSolid_cons.2 ⟨rfl, fun _ hd => (isDigit_of_mem_toDigits hn hd).1⟩

/-- White space stands in a written name only behind code points. -/
theorem Written.spaced (h : Written w cs) (hcs : IsSolid cs) : Text.Spaced w := by
  induction h with
  | nil => trivial
  | plain hc _ ih =>
    obtain ⟨hc', hcs⟩ := isSolid_cons.1 hcs
    exact Text.spaced_cons_of_not hc' (ih hcs)
  | escaped hc _ ih =>
    obtain ⟨hc', hcs⟩ := isSolid_cons.1 hcs
    exact Text.spaced_cons_of_not rfl (Text.spaced_cons_of_not hc' (ih hcs))
  | @code c w cs hne hc h ih =>
    obtain ⟨-, hcs⟩ := isSolid_cons.1 hcs
    rw [hexEscape, List.append_assoc]
    exact Text.spaced_append_of_not (isSolid_toDigits hc)
      ⟨fun _ => ⟨rfl, h.not_isWhitespace_head hcs⟩, ih hcs⟩
  | lastCode hne hc =>
    have hspaced := Text.spaced_append_of_not (isSolid_toDigits hc) (s := []) trivial
    rwa [List.append_nil] at hspaced

/-- What is left of a written name when the space behind its last code point is cut off. -/
structure Trims (w cs : List Char) : Prop where
  written : Written (Text.trimEnd w) cs
  space : w = Text.trimEnd w ∨ w = Text.trimEnd w ++ [' ']

theorem Written.eq_nil (h : Written w []) : w = [] := by
  cases h
  rfl

theorem Written.ne_nil (h : Written w cs) (hcs : cs ≠ []) : w ≠ [] := by
  cases h with
  | nil => exact absurd rfl hcs
  | _ => simp [hexEscape]

/-- Only the end of a name is trimmed, so what is written in front of it stays. -/
theorem Trims.append {p : List Char} (h : Trims w cs) (hcs : cs ≠ [])
    (hp : ∀ w', Written w' cs → Written (p ++ w') (c :: cs)) : Trims (p ++ w) (c :: cs) := by
  have htrim := Text.trimEnd_append_of_ne_nil (h.written.ne_nil hcs) p
  refine ⟨?_, ?_⟩
  · rw [htrim]
    exact hp _ h.written
  · rw [htrim, List.append_assoc]
    exact h.space.imp (congrArg (p ++ ·)) (congrArg (p ++ ·))

theorem trims_of_trimEnd (h : Written w cs) (htrim : Text.trimEnd w = w) : Trims w cs :=
  ⟨htrim.symm ▸ h, .inl htrim.symm⟩

theorem trimEnd_toDigits (hc : c.toNat < 128) :
    Text.trimEnd ('\\' :: Nat.toDigits 16 c.toNat) = '\\' :: Nat.toDigits 16 c.toNat := by
  have htrim := Text.trimEnd_append_of_not (isSolid_toDigits hc) []
  rwa [show Text.trimEnd [] = [] from rfl, List.append_nil] at htrim

/-- A written name of which the last character is no white space can be trimmed. -/
theorem Written.trims (h : Written w cs)
    (hlast : ∀ c ∈ cs.getLast?, Text.isWhitespace c = false) : Trims w cs := by
  induction h with
  | nil => exact ⟨.nil, .inl rfl⟩
  | @plain c w cs hc h ih =>
    by_cases hcs : cs = []
    · subst hcs
      obtain rfl := h.eq_nil
      exact trims_of_trimEnd (.plain hc .nil) (Text.trimEnd_concat_of_not (hlast c rfl) [])
    · rw [List.getLast?_cons_of_ne_nil hcs] at hlast
      exact (ih hlast).append (p := [c]) hcs fun _ => .plain hc
  | @escaped c w cs hc h ih =>
    by_cases hcs : cs = []
    · subst hcs
      obtain rfl := h.eq_nil
      exact trims_of_trimEnd (.escaped hc .nil) (Text.trimEnd_concat_of_not (hlast c rfl) ['\\'])
    · rw [List.getLast?_cons_of_ne_nil hcs] at hlast
      exact (ih hlast).append (p := ['\\', c]) hcs fun _ => .escaped hc
  | @code c w cs hne hc h ih =>
    by_cases hcs : cs = []
    · subst hcs
      obtain rfl := h.eq_nil
      have htrim : Text.trimEnd (hexEscape c) = '\\' :: Nat.toDigits 16 c.toNat :=
        (Text.trimEnd_append_space rfl _).trans (trimEnd_toDigits hc)
      rw [List.append_nil]
      exact ⟨htrim.symm ▸ .lastCode hne hc, .inr (htrim.symm ▸ rfl)⟩
    · rw [List.getLast?_cons_of_ne_nil hcs] at hlast
      exact (ih hlast).append hcs fun _ => .code hne hc
  | lastCode hne hc => exact trims_of_trimEnd (.lastCode hne hc) (trimEnd_toDigits hc)

theorem Written.trimEnd (h : Written w cs) (hcs : IsSolid cs) : Written (Text.trimEnd w) cs :=
  (h.trims fun c hc => hcs c (List.mem_of_getLast? hc)).written

/-! ## Whole identifiers -/

theorem Written.head (h : Written w cs) : ∀ d ∈ w.head?, d = '\\' ∨ continuesName d = true := by
  intro d hd
  cases h with
  | nil => cases hd
  | plain hc _ =>
    obtain rfl := Option.some.inj hd
    exact .inr hc
  | escaped hc _ => exact .inl (Option.some.inj hd).symm
  | code hne hc _ => exact .inl (Option.some.inj hd).symm
  | lastCode hne hc => exact .inl (Option.some.inj hd).symm

theorem startsIdentifier_hyphens (h : Written w cs) : startsIdentifier ('-' :: '-' :: w) = true := by
  have hne : w.head? ≠ some '>' := by
    intro hw
    rcases h.head '>' hw with h | h <;> exact absurd h (by decide)
  rw [startsIdentifier_hyphen]
  simp [hne]

theorem Written.start (h : Written w (c :: cs)) :
    (∃ t, w = c :: t ∧ continuesName c = true) ∨ ∃ t, w = '\\' :: t ∧ newlineNext t = false := by
  cases h with
  | plain hc _ => exact .inl ⟨_, rfl, hc⟩
  | escaped hc _ => exact .inr ⟨_, rfl, (escapable_spec hc).1⟩
  | code hne hc _ =>
    refine .inr ⟨_, rfl, ?_⟩
    rw [List.append_eq, List.append_eq, List.append_assoc]
    exact newlineNext_toDigits hc _
  | lastCode hne hc =>
    have hnext := newlineNext_toDigits hc []
    rw [List.append_nil] at hnext
    exact .inr ⟨_, rfl, hnext⟩

/-- What is written for the start of a name, behind a hyphen or not, starts an identifier. -/
theorem start_encodeAfterHyphen (hc : c ≠ '-') (h : ∀ d ∈ c :: r, d ≠ '\x00') :
    (∃ t, encodeAfterHyphen (c :: r) = c :: t ∧ startsName c = true) ∨
      ∃ t, encodeAfterHyphen (c :: r) = '\\' :: t ∧ newlineNext t = false := by
  refine (written_encodeAfterHyphen h).start.imp_left ?_
  rintro ⟨t, ht, hcontinue⟩
  have hdigit : isAsciiDigit c = false := by
    cases hd : isAsciiDigit c with
    | false => rfl
    | true =>
      rw [encodeAfterHyphen, if_pos hd] at ht
      obtain rfl : '\\' = c := (List.cons.inj ht).1
      exact absurd hd (by decide)
  refine ⟨t, ht, ?_⟩
  simpa [continuesName, hdigit, hc] using hcontinue

theorem startsIdentifier_encodeChars (hne : cs ≠ []) (h : ∀ c ∈ cs, c ≠ '\x00') :
    startsIdentifier (encodeChars cs) = true := by
  unfold encodeChars
  split
  · rename_i r
    have hr := (List.forall_mem_cons.1 (List.forall_mem_cons.1 h).2).2
    exact startsIdentifier_hyphens (written_encodeNameChars hr)
  · rfl
  · rename_i r hhyphen hr
    obtain ⟨c, r, rfl⟩ := List.exists_cons_of_ne_nil hr
    have hc : c ≠ '-' := by
      rintro rfl
      exact hhyphen r rfl
    rcases start_encodeAfterHyphen hc (List.forall_mem_cons.1 h).2 with ⟨t, ht, hs⟩ | ⟨t, ht, -⟩
    · rw [ht, startsIdentifier_hyphen]
      simp [hs, hc]
    · rw [ht, startsIdentifier_hyphen]
      simp
  · rename_i hhyphen
    obtain ⟨c, r, rfl⟩ := List.exists_cons_of_ne_nil hne
    have hc : c ≠ '-' := by
      rintro rfl
      exact hhyphen r rfl
    rcases start_encodeAfterHyphen hc h with ⟨t, ht, hs⟩ | ⟨t, ht, hn⟩
    · have hescape : c ≠ '\\' := by
        rintro rfl
        exact absurd hs (by decide)
      rw [ht, startsIdentifier_other hc hescape, hs, Bool.true_or]
    · rw [ht, show startsIdentifier ('\\' :: t) = !newlineNext t from rfl, hn]
      rfl

theorem startsIdentifier_concat_space (hne : w ≠ []) :
    startsIdentifier (w ++ [' ']) = startsIdentifier w := by
  obtain ⟨c, r, rfl⟩ := List.exists_cons_of_ne_nil hne
  rw [List.cons_append]
  by_cases hhyphen : c = '-'
  · subst hhyphen
    cases r with
    | nil => rfl
    | cons d r =>
      rw [List.cons_append, startsIdentifier_hyphen, startsIdentifier_hyphen]
      cases r <;> rfl
  by_cases hescape : c = '\\'
  · subst hescape
    cases r <;> rfl
  · rw [startsIdentifier_other hhyphen hescape, startsIdentifier_other hhyphen hescape]

theorem dropFiller_of_startsIdentifier (h : startsIdentifier w = true) : dropFiller w = w := by
  cases w with
  | nil => exact absurd h (by decide)
  | cons c r =>
    have hne : ∀ d : Char, d ≠ '-' → d ≠ '\\' → (startsName d || d = '\x00') = false → c ≠ d := by
      rintro d hhyphen hescape hstart rfl
      rw [startsIdentifier_other hhyphen hescape, hstart] at h
      exact absurd h (by decide)
    have hblank : isBlank c = false := by
      simp [isBlank, hne ' ' (by decide) (by decide) (by decide),
        hne '\t' (by decide) (by decide) (by decide), hne '\n' (by decide) (by decide) (by decide),
        hne '\x0c' (by decide) (by decide) (by decide),
        hne '\r' (by decide) (by decide) (by decide)]
    have hslash := hne '/' (by decide) (by decide) (by decide)
    rw [dropFiller, if_neg (by simp [hblank])]
    exact fun _ hc => absurd hc hslash

/-- A written identifier is read back. -/
theorem Written.decodeChars? (h : Written w cs) (hstart : startsIdentifier w = true) :
    decodeChars? w = some cs := by
  rw [Identifier.decodeChars?, dropFiller_of_startsIdentifier hstart]
  dsimp only
  rw [if_pos hstart, h.readName_eq, if_pos (by simp [dropFiller])]

theorem startsIdentifier_trimEnd (h : w = Text.trimEnd w ∨ w = Text.trimEnd w ++ [' '])
    (hstart : startsIdentifier w = true) : startsIdentifier (Text.trimEnd w) = true := by
  rcases h with hw | hw
  · rwa [← hw]
  · rw [hw] at hstart
    cases hnil : Text.trimEnd w with
    | nil =>
      rw [hnil] at hstart
      exact absurd hstart (by decide)
    | cons c r =>
      rw [hnil, startsIdentifier_concat_space (by simp)] at hstart
      exact hstart

/-! ## In front of other text -/

/-- What is left of a character in a written name. -/
def legible (c : Char) : Char := if c = '\x00' then replacement else c

theorem readName_encodeChar (c : Char) (r : List Char) :
    readName (encodeChar c ++ r) = (legible c :: (readName r).1, (readName r).2) := by
  by_cases hc : c = '\x00'
  · subst hc
    exact readName_plain (by decide) r
  · rw [legible, if_neg hc]
    rcases encodeChar_cases hc with ⟨hwritten, h⟩ | ⟨hwritten, h⟩ | ⟨hwritten, h⟩ <;> rw [hwritten]
    · exact readName_plain h r
    · exact readName_escapable h r
    · exact readName_hexEscape hc h r

/-- A written name is read to its end, whatever follows. -/
theorem readName_encodeNameChars (cs r : List Char) :
    readName (encodeNameChars cs ++ r) = (cs.map legible ++ (readName r).1, (readName r).2) := by
  induction cs with
  | nil => rfl
  | cons c cs ih =>
    rw [encodeNameChars, List.flatMap_cons, ← encodeNameChars, List.append_assoc,
      readName_encodeChar, ih]
    rfl

theorem legible_of_isAsciiDigit (h : isAsciiDigit c = true) : legible c = c :=
  if_neg (ne_zero_of_isAsciiDigit h).1

theorem readName_encodeAfterHyphen (cs r : List Char) :
    readName (encodeAfterHyphen cs ++ r) = (cs.map legible ++ (readName r).1, (readName r).2) := by
  cases cs with
  | nil => rfl
  | cons c cs =>
    rw [encodeAfterHyphen]
    split
    · rename_i hc
      obtain ⟨hne, hascii⟩ := ne_zero_of_isAsciiDigit hc
      rw [List.append_assoc, readName_hexEscape hne hascii, readName_encodeNameChars, List.map_cons,
        legible_of_isAsciiDigit hc]
      rfl
    · exact readName_encodeNameChars (c :: cs) r

theorem readName_encodeChars (cs r : List Char) :
    readName (encodeChars cs ++ r) = (cs.map legible ++ (readName r).1, (readName r).2) := by
  have hhyphen (r : List Char) : readName ('-' :: r) = ('-' :: (readName r).1, (readName r).2) :=
    readName_plain rfl r
  unfold encodeChars
  split
  · rename_i cs
    rw [List.cons_append, List.cons_append, hhyphen, hhyphen, readName_encodeNameChars]
    rfl
  · exact readName_escapable (by decide) r
  · rename_i cs _
    rw [List.cons_append, hhyphen, readName_encodeAfterHyphen]
    rfl
  · exact readName_encodeAfterHyphen cs r

theorem readName_encodeChars_space (cs r : List Char) :
    readName (encodeChars cs ++ ' ' :: r) = (cs.map legible, ' ' :: r) := by
  have hspace : readName (' ' :: r) = ([], ' ' :: r) := by
    rw [readName, if_neg (by decide), if_neg (by decide)]
  rw [readName_encodeChars, hspace, List.append_nil]

end CssTheming.Identifier
