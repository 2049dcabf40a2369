import CssTheming.Proofs.Text.Scan
import CssTheming.Proofs.Value.Reading
import Mathlib.Data.List.TakeWhile

/-!
# Values read with a cursor

`scanValue` reads a value as it is read by hand: a loop over the nodes of a call that enters itself
for the calls inside. It comes to `parse`, and its cursor comes to the end of the value, whatever
the value is. A scan whose round took nothing, or that took a character behind the end, would do
neither.
-/

namespace CssTheming.Value

open Text Scan

variable {ε α β : Type} {c mark : Char} {r s u rest : List Char}

/-! ## Lexemes -/

def quotedRound (mark : Char) (again : List Char → Scan ε (List Char)) (taken : List Char) :
    Scan ε (List Char) := do
  match ← peek with
  | none => return taken
  | some _ =>
    let c ← advance
    if c = mark then return taken
    else if c = '\\' then
      let d ← escaped
      again (taken ++ c :: d)
    else again (taken ++ [c])

/-- A text through its closing mark, without the mark. -/
def takeQuoted (mark : Char) : Scan ε (List Char) := recurse (quotedRound mark) []

def wordRound (again : List Char → Scan ε (List Char)) (taken : List Char) :
    Scan ε (List Char) := do
  match ← peek with
  | none => return taken
  | some c =>
    if endsWord c then return taken
    else
      let c ← advance
      if c = '\\' then
        let d ← escaped
        again (taken ++ c :: d)
      else again (taken ++ [c])

/-- A word, which is the next character where it would be empty. -/
def takeWord : Scan ε (List Char) := do
  let word ← recurse wordRound []
  if word.isEmpty then
    match ← peek with
    | none => return word
    | some _ =>
      let c ← advance
      return [c]
  else return word

def scanString : Scan ε Node := do
  let quote ← advance
  let text ← takeQuoted quote
  return .string (String.ofList text) quote

def scanComment : Scan ε Node := do
  let _ ← advance
  let _ ← advance
  let (text, _) ← takeComment []
  return .comment (String.ofList text)

/-- The next character that is not white space. There is nothing to look at from behind the end. -/
def peekBeyondSpace : Scan ε (Option Char) := fun text cursor =>
  if cursor.offset ≤ text.length then
    .ok ((text.drop cursor.offset).find? (!isWhitespace ·), cursor)
  else .error .pastEnd

def scanUrl (name : List Char) : Scan ε Node := do
  let before ← takeWhile isWhitespace []
  let contents ← takeQuoted ')'
  let word := trimEnd contents
  return .call (String.ofList name) (String.ofList before) (String.ofList (trailing contents))
    (if word.isEmpty then [] else [.word (String.ofList word)]) none

/-- A call behind its opening parenthesis, given the scan of its arguments, last first. -/
def scanCall (args : Scan ε (List Node)) (name : List Char) : Scan ε Node := do
  let next ← peekBeyondSpace
  if name.map Char.toLower = ['u', 'r', 'l'] ∧ ¬(next = some '"' ∨ next = some '\'') then
    scanUrl name
  else
    let before ← takeWhile isWhitespace []
    let inner ← args
    return .call (String.ofList name) (String.ofList before) (splitSpace inner).1
      (splitSpace inner).2.reverse none

/-- One round over the nodes of a call, or over those outside of all calls, with the nodes in front,
last first. -/
def nodesRound (again : Bool × List Node → Scan ε (List Node)) :
    Bool × List Node → Scan ε (List Node)
  | (nested, inner) => do
    match ← peek with
    | none => return inner
    | some c =>
      if isWhitespace c then
        let space ← takeWhile isWhitespace []
        again (nested, .space (String.ofList space) :: inner)
      else if c = '"' ∨ c = '\'' then
        let node ← scanString
        again (nested, node :: inner)
      else if c = '/' ∧ (← peekAt 1) = some '*' then
        let node ← scanComment
        again (nested, node :: inner)
      else if c = ',' ∨ c = '/' ∨ c = ':' then
        let mark ← advance
        let after ← takeWhile isWhitespace []
        again (nested, .divider mark.toString (splitSpace inner).1 (String.ofList after) ::
          (splitSpace inner).2)
      else if c = ')' ∧ nested then
        let _ ← advance
        return inner
      else if c = '(' then
        let _ ← advance
        let node ← scanCall (again (true, [])) []
        again (nested, node :: inner)
      else
        let word ← takeWord
        if (← peek) = some '(' then
          let _ ← advance
          let node ← scanCall (again (true, [])) word
          again (nested, node :: inner)
        else again (nested, .word (String.ofList word) :: inner)

def scanNodes : Bool × List Node → Scan ε (List Node) := recurse nodesRound

/-- A scan of a value has no faults to report. -/
def scanValue : Scan Empty (List Node) := do
  let nodes ← scanNodes (false, [])
  return nodes.reverse

/-! ## What the lexemes reach -/

theorem reaches_quotedRound (hmark : mark ≠ '\\') (s taken : List Char) :
    Reaches (recurse (quotedRound mark) taken : Scan ε _) s (readQuoted mark s).2
      (taken ++ (readQuoted mark s).1) := by
  induction hn : s.length using Nat.strongRecOn generalizing s taken with
  | ind n ih =>
    refine .recurse ((reaches_peek s).bind ?_)
    cases s with
    | nil => simpa [readQuoted, quoted?] using reaches_pure taken []
    | cons c r =>
      have hagain : ∀ rest taken, rest.length ≤ r.length →
          Reaches (onward (c :: r).length (recurse (quotedRound mark) taken) : Scan ε _) rest
            (readQuoted mark rest).2 (taken ++ (readQuoted mark rest).1) := fun rest taken h =>
        (ih _ (hn ▸ Nat.lt_succ_of_le h) rest taken rfl).onward (Nat.lt_succ_of_le h)
      refine (reaches_advance c r).bind ?_
      rw [readQuoted_cons hmark]
      by_cases hend : c = mark
      · subst hend
        simpa [hmark] using reaches_pure taken r
      rw [if_neg hend, if_neg hend]
      by_cases hescape : c = '\\'
      · rw [if_pos hescape, if_pos hescape]
        refine (reaches_escaped r).bind ?_
        simpa using hagain (r.drop 1) (taken ++ c :: r.take 1) (by simp)
      · rw [if_neg hescape, if_neg hescape]
        simpa using hagain r (taken ++ [c]) (Nat.le_refl _)

theorem reaches_wordRound (s taken : List Char) :
    Reaches (recurse wordRound taken : Scan ε _) s (readWord s).2 (taken ++ (readWord s).1) := by
  have hbackslash : endsWord '\\' = false := by decide
  fun_induction readWord s generalizing taken with
  | case1 =>
    refine .recurse ((reaches_peek []).bind ?_)
    simpa using reaches_pure taken []
  | case2 d r w rest h ih =>
    rw [h] at ih
    have hlt : r.length < ('\\' :: d :: r).length := Nat.lt_succ_of_le (Nat.le_succ _)
    refine .recurse ((reaches_peek _).bind ?_)
    simp only [List.head?_cons, hbackslash, if_false, Bool.false_eq_true]
    refine (reaches_advance '\\' (d :: r)).bind ((reaches_escaped _).bind ?_)
    simpa using (ih (taken ++ ['\\', d])).onward hlt
  | case3 c r hescape hend =>
    refine .recurse ((reaches_peek _).bind ?_)
    simpa [hend] using reaches_pure taken (c :: r)
  | case4 c r hescape hend w rest h ih =>
    rw [h] at ih
    have hagain := (ih (taken ++ [c])).onward (Nat.lt_succ_self r.length)
    refine .recurse ((reaches_peek _).bind ?_)
    simp only [List.head?_cons, if_neg hend]
    refine (reaches_advance c r).bind ?_
    by_cases hc : c = '\\'
    · obtain rfl := (eq_nil_of_not_escape hescape).resolve_left (not_not_intro hc)
      rw [if_pos hc]
      refine (reaches_escaped []).bind ?_
      simpa using hagain
    · rw [if_neg hc]
      simpa using hagain

theorem reaches_takeWord (hc : endsWord c = true → c = ')') (r : List Char) :
    Reaches (takeWord : Scan ε _) (c :: r) (firstWord c r).2 (firstWord c r).1 := by
  refine (reaches_wordRound (c :: r) []).bind ?_
  cases hend : endsWord c with
  | false =>
    rw [firstWord_of_not_endsWord hend, List.nil_append,
      if_neg (by simpa using readWord_ne_nil hend r)]
    exact reaches_pure _ _
  | true =>
    obtain rfl := hc hend
    have hword : readWord (')' :: r) = ([], ')' :: r) :=
      EndsHere.readWord_eq (by simp [EndsHere, hend])
    rw [hword]
    exact (reaches_peek _).bind ((reaches_advance ')' r).bind (reaches_pure [')'] r))

theorem reaches_scanString (hmark : mark ≠ '\\') (r : List Char) :
    Reaches (scanString : Scan ε _) (mark :: r) (readQuoted mark r).2
      (.string (String.ofList (readQuoted mark r).1) mark) :=
  (reaches_advance mark r).bind ((reaches_quotedRound hmark r []).bind (reaches_pure _ _))

theorem reaches_scanComment (r : List Char) :
    Reaches (scanComment : Scan ε _) ('/' :: '*' :: r) (readComment r).2
      (.comment (String.ofList (readComment r).1)) := by
  obtain ⟨closed, hcomment⟩ := reaches_takeComment (ε := ε) r
  exact (reaches_advance _ _).bind ((reaches_advance _ _).bind (hcomment.bind (reaches_pure _ _)))

theorem reaches_scanUrl (name s : List Char) :
    Reaches (scanUrl name : Scan ε _) s (readUrl name s).2 (readUrl name s).1 :=
  (reaches_takeWhile isWhitespace s).bind
    ((reaches_quotedRound (by decide) _ []).bind (reaches_pure _ _))

theorem reaches_peekBeyondSpace (s : List Char) :
    Reaches (peekBeyondSpace : Scan ε _) s s (s.dropWhile isWhitespace).head? := by
  refine reaches_of_takes (List.nil_append s).symm fun front => ?_
  rw [Takes, runAt, peekBeyondSpace, List.nil_append, List.append_nil, if_pos]
  · simp [Cursor.behind, List.find?_eq_head?_dropWhile_not]
  · simp [Cursor.behind]

theorem isBareUrl_iff (name s : List Char) : isBareUrl name s = true ↔
    name.map Char.toLower = ['u', 'r', 'l'] ∧
      ¬((s.dropWhile isWhitespace).head? = some '"' ∨
        (s.dropWhile isWhitespace).head? = some '\'') := by
  rw [isBareUrl]
  cases s.dropWhile isWhitespace <;> simp

/-! ## What the nodes reach -/

section Nodes

variable {nested : Bool} {inner : List Node} {left left' : List OpenCall → List Node} {n : Nat}
  {again : Bool × List Node → Scan ε (List Node)}

/-- Reading on behind the nodes of a call, or else of the value. -/
def leave (body : List Node) (rest : List Char) : List OpenCall → List Node
  | [] => body.reverse
  | f :: calls => run rest (f.close body) calls

/-- A scan of nodes reaches the end of their call, and of the value if there is none; reading comes
to the same nodes there. -/
def Agrees (nested : Bool) (left : List OpenCall → List Node) (s : List Char)
    (m : Scan ε (List Node)) : Prop :=
  ∃ rest body, Reaches m s rest body ∧ (nested = false → rest = []) ∧
    ∀ calls : List OpenCall, (!calls.isEmpty) = nested → left calls = leave body rest calls

theorem Agrees.bind {m : Scan ε α} {f : α → Scan ε (List Node)} {a : α} (hm : Reaches m s u a)
    (h : Agrees nested left u (f a)) : Agrees nested left s (m >>= f) := by
  obtain ⟨rest, body, hf, h⟩ := h
  exact ⟨rest, body, hm.bind hf, h⟩

theorem Agrees.congr {m : Scan ε (List Node)} (h : Agrees nested left' s m)
    (hleft : ∀ calls : List OpenCall, (!calls.isEmpty) = nested → left calls = left' calls) :
    Agrees nested left s m := by
  obtain ⟨rest, body, hm, hrest, hleave⟩ := h
  exact ⟨rest, body, hm, hrest, fun calls hcalls => by rw [hleft calls hcalls, hleave calls hcalls]⟩

theorem agrees_end (nested : Bool) (inner : List Node) :
    Agrees nested (run [] inner) [] (pure inner : Scan ε _) := by
  refine ⟨[], inner, reaches_pure inner [], fun _ => rfl, fun calls _ => ?_⟩
  rw [run_nil]
  cases calls with
  | nil => rfl
  | cons f calls =>
    rw [leave, run_nil]
    rfl

/-- The rounds over texts shorter than this agree. -/
def Continues (n : Nat) (again : Bool × List Node → Scan ε (List Node)) : Prop :=
  ∀ nested inner (rest : List Char), rest.length < n →
    Agrees nested (run rest inner) rest (again (nested, inner))

/-- Reading on behind a token. -/
def runBehind (lexed : Token × List Char) (inner : List Node) (calls : List OpenCall) : List Node :=
  run lexed.2 (lexed.1.inner inner calls) (lexed.1.calls inner calls)

/-- What a parenthesis behind a name opens is one node of the call that is around it. -/
theorem exists_reaches_scanCall {args : Scan ε (List Node)} (name s : List Char)
    (hargs : ∀ u : List Char, u.length ≤ s.length → Agrees true (run u []) u args) :
    ∃ rest node, Reaches (scanCall args name) s rest node ∧ ∀ inner calls,
      runBehind (wordToken name ('(' :: s)) inner calls = run rest (node :: inner) calls := by
  rw [wordToken]
  by_cases hurl : isBareUrl name s = true
  · refine ⟨(readUrl name s).2, (readUrl name s).1, (reaches_peekBeyondSpace s).bind ?_, ?_⟩
    · rw [if_pos ((isBareUrl_iff name s).1 hurl)]
      exact reaches_scanUrl name s
    · intro inner calls
      rw [if_pos hurl]
      rfl
  · obtain ⟨rest, body, hbody, -, hleave⟩ :=
      hargs (s.dropWhile isWhitespace) (length_dropWhile_le isWhitespace s)
    refine ⟨rest, .call (String.ofList name) (String.ofList (s.takeWhile isWhitespace))
      (splitSpace body).1 (splitSpace body).2.reverse none, (reaches_peekBeyondSpace s).bind ?_, ?_⟩
    · rw [if_neg fun h => hurl ((isBareUrl_iff name s).2 h)]
      exact (reaches_takeWhile isWhitespace s).bind (hbody.bind (reaches_pure _ _))
    · intro inner calls
      rw [if_neg hurl]
      exact hleave (⟨_, _, inner⟩ :: calls) rfl

theorem agrees_call (name : List Char) {t : List Char} (ht : t.length < n)
    (hagain : Continues n again)
    (hrun : ∀ calls : List OpenCall, (!calls.isEmpty) = nested →
      left calls = runBehind (wordToken name ('(' :: t)) inner calls) :
    Agrees nested left ('(' :: t) (do
      let _ ← advance
      let node ← scanCall (again (true, [])) name
      again (nested, node :: inner)) := by
  obtain ⟨rest, node, hreach, hnode⟩ := exists_reaches_scanCall name t fun u hu =>
    hagain true [] u (Nat.lt_of_le_of_lt hu ht)
  refine .bind (reaches_advance '(' t) (.bind hreach ?_)
  refine (hagain _ _ _ (Nat.lt_of_le_of_lt hreach.length_le ht)).congr fun calls hcalls => ?_
  rw [hrun calls hcalls, hnode]

/-- A word, or the call that it names. -/
theorem agrees_word (hends : endsWord c = true → c = ')') (hlt : r.length < n)
    (hagain : Continues n again)
    (hrun : ∀ calls : List OpenCall, (!calls.isEmpty) = nested →
      left calls = runBehind (wordToken (firstWord c r).1 (firstWord c r).2) inner calls) :
    Agrees nested left (c :: r) (do
      let word ← takeWord
      if (← peek) = some '(' then
        let _ ← advance
        let node ← scanCall (again (true, [])) word
        again (nested, node :: inner)
      else again (nested, .word (String.ofList word) :: inner)) := by
  have hle := length_firstWord_le c r
  refine .bind (reaches_takeWord hends r) (.bind (reaches_peek _) ?_)
  split
  · rename_i hparen
    obtain ⟨t, ht⟩ := List.head?_eq_some_iff.1 hparen
    rw [ht] at hrun hle ⊢
    exact agrees_call _ (Nat.lt_trans hle hlt) hagain hrun
  · rename_i hparen
    rw [wordToken_of_ne hparen] at hrun
    exact (hagain _ _ _ (Nat.lt_of_le_of_lt hle hlt)).congr hrun

/-- A round takes the token that `lex` finds, and more rounds go over what is left. -/
theorem agrees_nodesRound (hagain : Continues s.length again) :
    Agrees nested (run s inner) s (nodesRound again (nested, inner)) := by
  refine .bind (reaches_peek s) ?_
  cases s with
  | nil => exact agrees_end nested inner
  | cons c r =>
    have hrun : ∀ calls : List OpenCall, (!calls.isEmpty) = nested →
        run (c :: r) inner calls = runBehind (lex nested c r) inner calls := fun calls hcalls => by
      rw [run_cons, hcalls, runBehind]
    have hlt := (lexed nested c r).length_lt (List.cons_ne_nil c r)
    rw [lex] at hrun hlt
    dsimp only [List.head?_cons]
    split
    · rename_i hspace
      rw [if_pos hspace] at hrun hlt
      have hreach := reaches_takeWhile (ε := ε) isWhitespace (c :: r)
      rw [List.takeWhile_cons_of_pos hspace, List.dropWhile_cons_of_pos hspace] at hreach
      exact .bind hreach ((hagain _ _ _ hlt).congr hrun)
    rename_i hspace
    rw [if_neg hspace] at hrun hlt
    split
    · rename_i hquote
      rw [if_pos hquote] at hrun hlt
      have hmark : c ≠ '\\' := by rcases hquote with rfl | rfl <;> decide
      exact .bind (reaches_scanString hmark r) ((hagain _ _ _ hlt).congr hrun)
    rename_i hquote
    rw [if_neg hquote] at hrun hlt
    refine .bind (reaches_peekAt 1 _) ?_
    rw [List.getElem?_cons_succ, ← List.head?_eq_getElem?]
    split
    · rename_i hcomment
      rw [if_pos hcomment] at hrun hlt
      obtain ⟨rfl, hstar⟩ := hcomment
      obtain ⟨r, rfl⟩ := List.head?_eq_some_iff.1 hstar
      exact .bind (reaches_scanComment r) ((hagain _ _ _ hlt).congr hrun)
    rename_i hcomment
    rw [if_neg hcomment] at hrun hlt
    split
    · rename_i hmark
      rw [if_pos hmark] at hrun hlt
      exact .bind (reaches_advance c r)
        (.bind (reaches_takeWhile isWhitespace r) ((hagain _ _ _ hlt).congr hrun))
    rename_i hmark
    rw [if_neg hmark] at hrun hlt
    split
    · rename_i hclose
      obtain ⟨rfl, rfl⟩ := hclose
      rw [if_neg (by decide), if_pos ⟨rfl, rfl⟩] at hrun
      refine ⟨r, inner, (reaches_advance ')' r).bind (reaches_pure inner r), by simp,
        fun calls hcalls => ?_⟩
      rw [hrun calls hcalls]
      cases calls with
      | nil => simp at hcalls
      | cons f calls => rfl
    rename_i hclose
    split
    · rename_i hopen
      subst hopen
      exact agrees_call [] (Nat.lt_succ_self _) hagain hrun
    rename_i hopen
    rw [if_neg hopen, if_neg hclose] at hrun
    have hends : endsWord c = true → c = ')' := by
      simp only [not_or] at hquote hmark
      simp [endsWord, hspace, hopen, hquote, hmark]
    exact agrees_word hends (Nat.lt_succ_self _) hagain hrun

theorem agrees_scanNodes (nested : Bool) (inner : List Node) (s : List Char) :
    Agrees nested (run s inner) s (scanNodes (nested, inner) : Scan ε _) := by
  induction hn : s.length using Nat.strongRecOn generalizing nested inner s with
  | ind n ih =>
    have hagain : Continues s.length fun y => (onward s.length (scanNodes y) : Scan ε _) := by
      intro nested inner rest hlt
      obtain ⟨rest', body, hreach, h⟩ := ih rest.length (hn ▸ hlt) nested inner rest rfl
      exact ⟨rest', body, hreach.onward hlt, h⟩
    have hround : Agrees nested (run s inner) s
        (nodesRound (fun y => onward s.length (scanNodes y)) (nested, inner) : Scan ε _) :=
      agrees_nodesRound hagain
    obtain ⟨rest, body, hreach, h⟩ := hround
    exact ⟨rest, body, .recurse hreach, h⟩

end Nodes

theorem scanValue_onText (value : String) :
    scanValue.onText value = .ok (parse value, .behind value.toList) := by
  obtain ⟨rest, body, hreach, hrest, hleave⟩ := agrees_scanNodes (ε := Empty) false [] value.toList
  obtain rfl := hrest rfl
  have hvalue : Reaches scanValue value.toList [] body.reverse := hreach.bind (reaches_pure _ _)
  rw [hvalue.onText, parse, hleave [] rfl]
  rfl

end CssTheming.Value
