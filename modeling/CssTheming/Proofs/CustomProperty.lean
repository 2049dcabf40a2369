import CssTheming.CustomProperty
import CssTheming.Key
import CssTheming.Proofs.Value.Lexing

/-!
# Names of custom properties in values

A written name is one word of a declaration value if the prefix keeps to characters that are written
as they are or behind a backslash. A word that is cut off behind a backslash is no longer the name
that it was.
-/

namespace CssTheming

namespace Identifier

/-- A character that is written as itself or behind a backslash and does not end a word. -/
def isPlain (c : Char) : Bool :=
  !(c.toNat < 0x20 || c = '\x7f') && (c.toNat < 0x80 || !Text.isWhitespace c)

variable {c : Char} {cs r : List Char}

/-- What holds of the 128 characters of ASCII holds of a character below them. -/
theorem forall_ascii {p : Char → Prop} (h : ∀ n < 128, p (Char.ofNat n)) {c : Char}
    (hc : c.toNat < 128) : p c := by
  have := h c.toNat hc
  rwa [Char.ofNat_toNat] at this

theorem toNat_lt_of_not_continuesName (hc : continuesName c = false) : c.toNat < 128 := by
  simp only [continuesName, startsName, Bool.or_eq_false_iff] at hc
  simpa using hc.1.1.2

theorem encodeChar_of_isPlain (h : isPlain c = true) :
    encodeChar c = if continuesName c then [c] else ['\\', c] := by
  have hcontrol : (c.toNat < 0x20 || c = '\x7f' : Bool) = false := by
    rw [isPlain, Bool.and_eq_true, Bool.not_eq_true'] at h
    exact h.1
  have hzero : c ≠ '\x00' := by
    rintro rfl
    exact absurd hcontrol (by decide)
  rw [encodeChar, if_neg hzero, hcontrol]
  rfl

theorem not_endsWord_of_continuesName (h : isPlain c = true) (hc : continuesName c = true) :
    Value.endsWord c = false ∧ c ≠ '\\' ∧ c ≠ '\x00' := by
  by_cases hlt : c.toNat < 128
  · revert hc
    exact forall_ascii (p := fun c => continuesName c = true → Value.endsWord c = false ∧
      c ≠ '\\' ∧ c ≠ '\x00')
      (by decide) hlt
  · have hspace : Text.isWhitespace c = false := by
      simp only [isPlain, Bool.and_eq_true, Bool.or_eq_true, decide_eq_true_eq,
        Bool.not_eq_true'] at h
      exact h.2.resolve_left hlt
    have hne : ∀ d : Char, d.toNat < 128 → c ≠ d := by
      rintro d hd rfl
      exact hlt hd
    refine ⟨?_, hne _ (by decide), hne _ (by decide)⟩
    simp [Value.endsWord, hspace, hne _ (by decide : '('.toNat < 128),
      hne _ (by decide : ')'.toNat < 128),
      hne _ (by decide : ','.toNat < 128), hne _ (by decide : '/'.toNat < 128),
        hne _ (by decide : ':'.toNat < 128),
      hne _ (by decide : '"'.toNat < 128), hne _ (by decide : '\''.toNat < 128)]

theorem hexValue?_of_not_continuesName (hc : continuesName c = false) :
    Text.hexValue? c = none := by
  have hlt := toNat_lt_of_not_continuesName hc
  revert hc
  exact forall_ascii (p := fun c => continuesName c = false → Text.hexValue? c = none)
    (by decide) hlt

/-! ## One word -/

theorem readWord_encodeChar (h : isPlain c = true) (r : List Char) :
    Value.readWord (encodeChar c ++ r) =
      (encodeChar c ++ (Value.readWord r).1, (Value.readWord r).2) := by
  rw [encodeChar_of_isPlain h]
  split
  · rename_i hc
    obtain ⟨hword, hescape, -⟩ := not_endsWord_of_continuesName h hc
    rw [List.singleton_append, Value.readWord_cons_of_ne hescape, hword]
    rfl
  · rfl

theorem dangles_encodeChar (h : isPlain c = true) (r : List Char) :
    Text.dangles (encodeChar c ++ r) = Text.dangles r := by
  rw [encodeChar_of_isPlain h]
  split
  · rename_i hc
    exact Text.dangles_cons_of_ne (not_endsWord_of_continuesName h hc).2.1 r
  · rfl

theorem word_encodeNameChars (h : ∀ c ∈ cs, isPlain c = true) :
    Value.readWord (encodeNameChars cs) = (encodeNameChars cs, []) ∧
      Text.dangles (encodeNameChars cs) = false := by
  induction cs with
  | nil => exact ⟨rfl, rfl⟩
  | cons c cs ih =>
    obtain ⟨hword, hend⟩ := ih fun d hd => h d (List.mem_cons_of_mem c hd)
    have hc := h c List.mem_cons_self
    rw [encodeNameChars, List.flatMap_cons, ← encodeNameChars, readWord_encodeChar hc, hword,
      dangles_encodeChar hc]
    exact ⟨rfl, hend⟩

/-! ## Words that end in a backslash -/

/-- What a word that ends in a backslash is read as, alone and in front of a parenthesis: either the
name stops in front of its end, or the backslash stands for the last character. -/
inductive ReadsDangling (w : List Char) : Prop where
  | stops (name rest : List Char) (halone : readName w = (name, rest))
    (hclosed : readName (w ++ [')']) = (name, rest ++ [')']))
    (hrest : dropFiller rest ≠ []) (hrest' : dropFiller (rest ++ [')']) ≠ [])
  | ends (name : List Char) (halone : readName w = (name ++ [replacement], []))
    (hclosed : readName (w ++ [')']) = (name ++ [')'], []))

theorem ReadsDangling.cons {w w' : List Char} {d : Char} (h : ReadsDangling w')
    (halone : readName w = (d :: (readName w').1, (readName w').2))
    (hclosed : readName (w ++ [')']) =
      (d :: (readName (w' ++ [')'])).1, (readName (w' ++ [')'])).2)) : ReadsDangling w := by
  cases h with
  | stops name rest h h' hrest hrest' =>
    exact .stops (d :: name) rest (by rw [halone, h]) (by rw [hclosed, h']) hrest hrest'
  | ends name h h' => exact .ends (d :: name) (by rw [halone, h]; rfl) (by rw [hclosed, h']; rfl)

theorem not_isBlank_of_not_endsWord (hc : Value.endsWord c = false) : isBlank c = false := by
  cases hb : isBlank c with
  | false => rfl
  | true =>
    have hcases : c = ' ' ∨ c = '\t' ∨ c = '\n' ∨ c = '\x0c' ∨ c = '\r' := by
      simpa [isBlank, or_assoc] using hb
    rcases hcases with rfl | rfl | rfl | rfl | rfl <;> exact absurd hc (by decide)

theorem dropFiller_of_not_endsWord (hc : Value.endsWord c = false) (r : List Char) :
    dropFiller (c :: r) = c :: r := by
  have hslash : c ≠ '/' := by
    rintro rfl
    exact absurd hc (by decide)
  rw [dropFiller, if_neg (by simp [not_isBlank_of_not_endsWord hc])]
  exact fun _ h => absurd h hslash

/-- A word that ends in a backslash: its first character ends no word, and behind it such a word
follows or nothing. -/
theorem word_cons_of_dangles {w : List Char} (hw : Value.readWord w = (w, []))
    (hend : Text.dangles w = true) :
    ∃ c r, w = c :: r ∧ Value.endsWord c = false ∧
      (c ≠ '\\' → Value.readWord r = (r, []) ∧ Text.dangles r = true) ∧
      (c = '\\' → r = [] ∨ ∃ d r', r = d :: r' ∧ Value.readWord r' = (r', []) ∧
          Text.dangles r' = true) := by
  cases w with
  | nil => simp [Text.dangles] at hend
  | cons c r =>
    have hc := Value.endsWord_of_readWord hw
    refine ⟨c, r, rfl, hc, fun hescape => ?_, ?_⟩
    · rw [Value.readWord_cons_of_ne hescape, hc] at hw
      rw [Text.dangles_cons_of_ne hescape] at hend
      have := Prod.mk.inj hw
      exact ⟨Prod.ext (List.cons.inj this.1).2 this.2, hend⟩
    · rintro rfl
      cases r with
      | nil => exact .inl rfl
      | cons d r' =>
        rw [Value.readWord_escape] at hw
        have := Prod.mk.inj hw
        exact .inr ⟨d, r', rfl, Prod.ext (List.cons.inj (List.cons.inj this.1).2).2 this.2, hend⟩

/-- Digits of an escape leave a word that ends in a backslash. -/
theorem readHex_of_dangles {w : List Char} (hw : Value.readWord w = (w, []))
    (hend : Text.dangles w = true) (limit n : Nat) :
    ∃ m rest, readHex limit w n = (m, rest) ∧ readHex limit (w ++ [')']) n = (m, rest ++ [')']) ∧
      Value.readWord rest = (rest, []) ∧ Text.dangles rest = true ∧ rest.length ≤ w.length := by
  induction limit generalizing w n with
  | zero => exact ⟨n, w, rfl, rfl, hw, hend, Nat.le_refl _⟩
  | succ limit ih =>
    obtain ⟨c, r, rfl, hc, hr, -⟩ := word_cons_of_dangles hw hend
    rw [List.cons_append, readHex, readHex]
    cases hd : Text.hexValue? c with
    | none => exact ⟨n, c :: r, rfl, rfl, hw, hend, Nat.le_refl _⟩
    | some d =>
      have hescape : c ≠ '\\' := by
        rintro rfl
        simp [Text.hexValue?] at hd
      obtain ⟨m, rest, h₁, h₂, hrest, hdangles, hle⟩ :=
        ih (hr hescape).1 (hr hescape).2 (16 * n + d)
      exact ⟨m, rest, h₁, h₂, hrest, hdangles, Nat.le_succ_of_le hle⟩

theorem dropBlank_of_dangles {w : List Char} (hw : Value.readWord w = (w, []))
    (hend : Text.dangles w = true) :
    dropBlank w = w ∧ dropBlank (w ++ [')']) = w ++ [')'] := by
  obtain ⟨c, r, rfl, hc, -, -⟩ := word_cons_of_dangles hw hend
  have hblank := not_isBlank_of_not_endsWord hc
  have hreturn : c ≠ '\r' := by
    rintro rfl
    exact absurd hc (by decide)
  have hkeep : ∀ t, dropBlank (c :: t) = c :: t := by
    intro t
    rw [dropBlank]
    · simp [hblank]
    · exact fun _ h _ => hreturn h
  exact ⟨hkeep r, hkeep (r ++ [')'])⟩

theorem readName_escape (r : List Char) (h : newlineNext r = false) :
    readName ('\\' :: r) =
      ((readEscape r).1 :: (readName (readEscape r).2).1, (readName (readEscape r).2).2) := by
  rw [readName, if_pos rfl, h]
  rfl

theorem readName_continue (h : (continuesName c || c = '\x00') = true) (hescape : c ≠ '\\')
    (r : List Char) :
    readName (c :: r) =
      ((if c = '\x00' then replacement else c) :: (readName r).1, (readName r).2) := by
  rw [readName, if_neg hescape, if_pos h]

/-- What an escape leaves of a word that ends in a backslash. -/
theorem readEscape_of_dangles {w : List Char} (hw : Value.readWord w = (w, []))
    (hend : Text.dangles w = true) (d : Char) :
    ∃ e rest, readEscape (d :: w) = (e, rest) ∧
      readEscape (d :: (w ++ [')'])) = (e, rest ++ [')']) ∧
      Value.readWord rest = (rest, []) ∧ Text.dangles rest = true ∧ rest.length ≤ w.length := by
  rw [readEscape, readEscape]
  cases Text.hexValue? d with
  | none => exact ⟨_, w, rfl, rfl, hw, hend, Nat.le_refl _⟩
  | some n =>
    obtain ⟨m, rest, h₁, h₂, hrest, hdangles, hle⟩ := readHex_of_dangles hw hend 5 n
    obtain ⟨hdrop, hdrop'⟩ := dropBlank_of_dangles hrest hdangles
    refine ⟨ofCodePoint m, rest, ?_, ?_, hrest, hdangles, hle⟩
    · dsimp only
      rw [h₁, hdrop]
    · dsimp only
      rw [h₂, hdrop']

theorem readsDangling {w : List Char} (hw : Value.readWord w = (w, []))
    (hend : Text.dangles w = true) : ReadsDangling w := by
  induction hlen : w.length using Nat.strongRecOn generalizing w with
  | ind k ih =>
    subst hlen
    obtain ⟨c, r, rfl, hc, hplain, hescaped⟩ := word_cons_of_dangles hw hend
    have hstops : readName (c :: r) = ([], c :: r) →
      readName (c :: r ++ [')']) = ([], c :: r ++ [')']) →
        ReadsDangling (c :: r) := fun h h' =>
      .stops [] (c :: r) h h' (by simp [dropFiller_of_not_endsWord hc])
        (by simp [dropFiller_of_not_endsWord hc])
    by_cases hescape : c = '\\'
    · subst hescape
      rcases hescaped rfl with rfl | ⟨d, r, rfl, hr, hdangles⟩
      · have hnil : readName [] = ([], []) := by rw [readName]
        refine .ends [] ?_ ?_
        · rw [readName_escape [] rfl, show readEscape [] = (replacement, []) from rfl, hnil]
          rfl
        · rw [List.cons_append, readName_escape _ rfl,
            show readEscape ([] ++ [')']) = (')', []) from rfl, hnil]
          rfl
      · by_cases hnewline : isNewline d = true
        · have hnext : newlineNext (d :: r) = true := hnewline
          have hnext' : newlineNext (d :: r ++ [')']) = true := hnewline
          apply hstops
          · rw [readName, if_pos rfl, if_pos hnext]
          · rw [List.cons_append, readName, if_pos rfl, if_pos hnext']
        · have hnext : newlineNext (d :: r) = false := by simpa [newlineNext] using hnewline
          obtain ⟨e, rest, h₁, h₂, hrest, hdangles', hle⟩ := readEscape_of_dangles hr hdangles d
          have hlt : rest.length < ('\\' :: d :: r).length := by simp; omega
          refine (ih _ hlt hrest hdangles' rfl).cons (d := e) ?_ ?_
          · rw [readName_escape _ hnext, h₁]
          · rw [List.cons_append, List.cons_append, readName_escape (d :: (r ++ [')'])) hnext, h₂]
    · by_cases hcontinue : (continuesName c || c = '\x00') = true
      · obtain ⟨hr, hdangles⟩ := hplain hescape
        refine (ih _ (Nat.lt_succ_self _) hr hdangles rfl).cons (d := if c = '\x00' then replacement
          else c) ?_ ?_
        · exact readName_continue hcontinue hescape r
        · exact readName_continue hcontinue hescape (r ++ [')'])
      · apply hstops
        · rw [readName, if_neg hescape, if_neg hcontinue]
        · rw [List.cons_append, readName, if_neg hescape, if_neg hcontinue]

theorem startsIdentifier_hyphen (d : Char) (r : List Char) : startsIdentifier ('-' :: d :: r) =
    (!(d = '-' && r.head? = some '>') && (startsName d || d = '-' || d = '\x00' || d = '\\')) := by
  rw [startsIdentifier.eq_def]
  split
  · rename_i h
    obtain ⟨rfl, rfl⟩ := List.cons.inj (List.cons.inj h).2
    rfl
  · rename_i hne h
    obtain ⟨rfl, rfl⟩ := List.cons.inj (List.cons.inj h).2
    have hmark : (d = '-' && r.head? = some '>' : Bool) = false := by
      rw [Bool.eq_false_iff, Ne, Bool.and_eq_true, decide_eq_true_eq, decide_eq_true_eq]
      rintro ⟨hd, hr⟩
      obtain ⟨t, ht⟩ := List.head?_eq_some_iff.1 hr
      exact hne t hd ht
    rw [hmark]
    rfl
  · rename_i h
    exact absurd (List.cons.inj h).1 (by decide)
  · rename_i hne _ h
    obtain ⟨rfl, rfl⟩ := List.cons.inj h
    exact absurd rfl (hne d r rfl)
  · rename_i h
    simp at h

theorem startsIdentifier_other (hhyphen : c ≠ '-') (hescape : c ≠ '\\') (r : List Char) :
    startsIdentifier (c :: r) = (startsName c || c = '\x00') := by
  rw [startsIdentifier]
  · exact fun _ h => absurd h hhyphen
  · exact fun _ _ h => absurd h hhyphen
  · exact hescape

theorem startsIdentifier_append {w : List Char} (hend : Text.dangles w = true) :
    startsIdentifier (w ++ [')']) = startsIdentifier w := by
  cases w with
  | nil => simp [Text.dangles] at hend
  | cons c r =>
    by_cases hhyphen : c = '-'
    · subst hhyphen
      cases r with
      | nil => exact absurd hend (by decide)
      | cons d r =>
        rw [List.cons_append, List.cons_append, startsIdentifier_hyphen, startsIdentifier_hyphen]
        cases r <;> rfl
    by_cases hescape : c = '\\'
    · subst hescape
      cases r <;> rfl
    · rw [List.cons_append, startsIdentifier_other hhyphen hescape,
        startsIdentifier_other hhyphen hescape]

end Identifier

namespace CustomProperty

open Identifier

variable {start key : String}

/-- A prefix that can be read back from the names that begin with it. -/
def IsPlainPrefix (start : String) : Prop := ∀ c ∈ start.toList, isPlain c = true

instance (start : String) : Decidable (IsPlainPrefix start) :=
  List.decidableBAll (fun c => isPlain c = true) start.toList

theorem toNat_lt_of_isKeyChar {c : Char} (h : Key.isKeyChar c = true) : c.toNat < 128 := by
  have hle : ∀ d : Char, c ≤ d → c.toNat ≤ d.toNat := fun _ hd => hd
  simp only [Key.isKeyChar, Bool.or_eq_true, Bool.and_eq_true, decide_eq_true_eq] at h
  rcases h with ((((⟨-, h⟩ | ⟨-, h⟩) | ⟨-, h⟩) | rfl) | rfl) | rfl
  · exact Nat.lt_of_le_of_lt (hle _ h) (by decide)
  · exact Nat.lt_of_le_of_lt (hle _ h) (by decide)
  · exact Nat.lt_of_le_of_lt (hle _ h) (by decide)
  all_goals decide

theorem isPlain_of_isKeyChar {c : Char} (h : Key.isKeyChar c = true) : isPlain c = true := by
  have hlt := toNat_lt_of_isKeyChar h
  revert h
  exact forall_ascii (p := fun c => Key.isKeyChar c = true → isPlain c = true)
    (by decide) hlt

theorem isPlain_append (hstart : IsPlainPrefix start) (hkey : Key.isResolved key = true) :
    ∀ c ∈ (start ++ key).toList, isPlain c = true := by
  intro c hc
  rw [String.toList_append, List.mem_append] at hc
  rcases hc with hc | hc
  · exact hstart c hc
  · rw [Key.isResolved, Bool.and_eq_true, List.all_eq_true] at hkey
    exact isPlain_of_isKeyChar (hkey.2 c hc)

theorem toList_name (start key : String) :
    (name start key).toList = '-' :: '-' :: encodeNameChars (start ++ key).toList := by
  rw [name, String.toList_append, encodeName, String.toList_ofList]
  simp

/-- A written name is one word. -/
theorem wholeWord_name (hstart : IsPlainPrefix start) (hkey : Key.isResolved key = true) :
    Value.WholeWord (name start key).toList := by
  obtain ⟨hword, hend⟩ := word_encodeNameChars (isPlain_append hstart hkey)
  rw [toList_name]
  refine ⟨by simp, ?_, hend⟩
  rw [Value.readWord_cons_of_ne (by decide), Value.readWord_cons_of_ne (by decide), hword]
  rfl

theorem key?_eq_some {written : String} :
    key? start written = some key ↔ decode? written = some ("--" ++ (start ++ key)) ∧ key ≠ "" := by
  rw [key?, read?, Option.filter_eq_some_iff, Option.bind_assoc, Option.bind_eq_some_iff]
  simp only [Option.bind_eq_some_iff, Text.stripStart?_eq_some, decide_eq_true_eq]
  constructor
  · rintro ⟨⟨t, ht, u, rfl, rfl⟩, hne⟩
    exact ⟨ht, hne⟩
  · rintro ⟨h, hne⟩
    exact ⟨⟨_, h, _, rfl, rfl⟩, hne⟩

/-- A word that ends in a backslash names a key in front of a parenthesis only if it does so
alone. -/
theorem key?_of_dangles {w : List Char} (hw : Value.readWord w = (w, []))
    (hend : Text.dangles w = true)
    (hnone : key? start (String.ofList w) = none) :
    key? start (String.ofList (w ++ [')'])) = none := by
  obtain ⟨c, r, hcr, hc, -, -⟩ := word_cons_of_dangles hw hend
  have hdrop : dropFiller w = w ∧ dropFiller (w ++ [')']) = w ++ [')'] := by
    rw [hcr]
    exact ⟨dropFiller_of_not_endsWord hc r, dropFiller_of_not_endsWord hc (r ++ [')'])⟩
  have hdecode : decode? (String.ofList (w ++ [')'])) = none ∨
      ∃ name, decode? (String.ofList w) = some (String.ofList (name ++ [replacement])) ∧
        decode? (String.ofList (w ++ [')'])) = some (String.ofList (name ++ [')'])) := by
    simp only [decode?, decodeChars?, String.toList_ofList, hdrop, startsIdentifier_append hend]
    by_cases hstarts : startsIdentifier w = true
    · rw [if_pos hstarts, if_pos hstarts]
      cases readsDangling hw hend with
      | stops name rest halone hclosed hrest hrest' =>
        rw [hclosed]
        exact .inl (by simp [hrest'])
      | ends name halone hclosed =>
        rw [halone, hclosed]
        exact .inr ⟨name, by simp [dropFiller], by simp [dropFiller]⟩
    · rw [if_neg hstarts]
      exact .inl rfl
  rcases hdecode with hdecode | ⟨name, halone, hclosed⟩
  · rw [key?, read?, hdecode]
    rfl
  · cases hkey : key? start (String.ofList (w ++ [')'])) with
    | none => rfl
    | some key =>
      obtain ⟨hname, hne⟩ := key?_eq_some.1 hkey
      rw [hclosed, Option.some.injEq, ← String.toList_inj, String.toList_ofList,
        String.toList_append, String.toList_append] at hname
      -- The character that the backslash stands for is the last one of the key.
      have hkeyne : key.toList ≠ [] := fun h => hne (String.toList_eq_nil_iff.1 h)
      obtain ⟨k, x, hk⟩ : ∃ k x, key.toList = k ++ [x] :=
        ⟨_, _, (List.dropLast_concat_getLast hkeyne).symm⟩
      rw [hk, ← List.append_assoc, ← List.append_assoc] at hname
      obtain ⟨hname, -⟩ := List.append_inj' hname rfl
      have halone' : key? start (String.ofList w) = some (String.ofList (k ++ [replacement])) := by
        refine key?_eq_some.2 ⟨?_, ?_⟩
        · rw [halone, hname]
          simp [← String.toList_inj]
        · simp [← String.toList_inj]
      rw [hnone] at halone'
      simp at halone'

end CustomProperty

end CssTheming
