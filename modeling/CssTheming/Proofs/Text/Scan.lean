import CssTheming.Proofs.Text.Lexeme
import CssTheming.Text.Position

/-!
# Scans

A scan goes over a text with a cursor that it moves by hand, and nothing keeps it from moving too
far or not at all: it may take a character behind the end, and it may enter itself again where it
was entered. Both are faults of a scan. One without these faults takes characters of the text only,
and each round of its loops and each nested part has fewer characters in front of it than the one it
is entered from, so that there is an end to them.
-/

namespace CssTheming.Text

/-- How many characters a scan has behind it, and the line and column that it has counted. -/
structure Cursor where
  offset : Nat
  position : Position
  deriving DecidableEq, Repr

/-- The cursor behind a text. -/
def Cursor.behind (front : List Char) : Cursor := ⟨front.length, Position.start.after front⟩

inductive ScanFault (ε : Type) where
  /-- There is no character where one was taken. -/
  | pastEnd
  /-- The scan was entered again without having moved. -/
  | stalled
  | reported (e : ε)
  deriving DecidableEq, Repr

abbrev Scan (ε : Type) := ReaderT (List Char) (StateT Cursor (Except (ScanFault ε)))

namespace Scan

variable {ε α β σ : Type}

def peekAt (k : Nat) : Scan ε (Option Char) := do return (← read)[(← get).offset + k]?

def peek : Scan ε (Option Char) := peekAt 0

/-- Takes the character at the cursor. -/
def advance : Scan ε Char := do
  match ← peek with
  | none => throw .pastEnd
  | some c =>
    modify fun cursor => ⟨cursor.offset + 1, cursor.position.next c⟩
    return c

def isInside (k : Nat) : Scan ε Bool := do return (← get).offset + k < (← read).length

/-- The character this far from the cursor. -/
def charAt (k : Nat) : Scan ε Char := do
  match ← peekAt k with
  | none => throw .pastEnd
  | some c => return c

/-- Moves on without a look at what is there. -/
def skip (k : Nat) : Scan ε Unit := modify fun cursor => { cursor with offset := cursor.offset + k }

/-- Answers what a scan answers, without moving. -/
def ahead (m : Scan ε α) : Scan ε α := fun text cursor => do
  let (a, _) ← m text cursor
  return (a, cursor)

def position : Scan ε Position := return (← get).position

def report (e : ε) : Scan ε α := throw (.reported e)

/-- Goes on with a scan if there are fewer characters left than this. -/
def onward (left : Nat) (m : Scan ε α) : Scan ε α := fun text cursor =>
  if text.length - cursor.offset < left then m text cursor else throw .stalled

/-- A scan that enters itself: for the next round of a loop, or for a nested part. -/
def recurse (round : (σ → Scan ε α) → σ → Scan ε α) (x : σ) : Scan ε α := fun text start =>
  round (fun y text' cursor =>
    if _h : text'.length - cursor.offset < text.length - start.offset then
      recurse round y text' cursor
    else throw .stalled) x text start
termination_by text start => text.length - start.offset

/-- A scan of a whole text. -/
def onText (m : Scan ε α) (source : String) : Except (ScanFault ε) (α × Cursor) :=
  m source.toList ⟨0, .start⟩

/-! ## Steps -/

section Steps

variable {text : List Char} {i n : Nat} {p : Position} {c : Char}

theorem bind_apply (m : Scan ε α) (f : α → Scan ε β) (cursor : Cursor) :
    (m >>= f) text cursor = m text cursor >>= fun r => f r.1 text r.2 := rfl

theorem ok_bind {ε' : Type} (a : α) (f : α → Except ε' β) : (Except.ok a >>= f) = f a := rfl

theorem pure_apply (a : α) (cursor : Cursor) :
    (pure a : Scan ε α) text cursor = .ok (a, cursor) := rfl

theorem peekAt_apply (k : Nat) :
    (peekAt k : Scan ε _) text ⟨i, p⟩ = .ok (text[i + k]?, ⟨i, p⟩) := rfl

theorem isInside_apply (k : Nat) :
    (isInside k : Scan ε _) text ⟨i, p⟩ = .ok (decide (i + k < text.length), ⟨i, p⟩) := rfl

theorem charAt_apply {k : Nat} (h : text[i + k]? = some c) :
    (charAt k : Scan ε _) text ⟨i, p⟩ = .ok (c, ⟨i, p⟩) := by
  rw [charAt, bind_apply, peekAt_apply, h]
  rfl

theorem skip_apply (k : Nat) : (skip k : Scan ε _) text ⟨i, p⟩ = .ok ((), ⟨i + k, p⟩) := rfl

theorem onward_apply {m : Scan ε α} (h : text.length - i < n) :
    onward n m text ⟨i, p⟩ = m text ⟨i, p⟩ := if_pos h

theorem recurse_apply (round : (σ → Scan ε α) → σ → Scan ε α) (x : σ) :
    recurse round x text ⟨i, p⟩ =
      round (fun y => onward (text.length - i) (recurse round y)) x text ⟨i, p⟩ := by
  rw [recurse]
  rfl

end Steps

/-! ## Runs -/

/-- A scan with `front` behind it and `s` in front of it. -/
def runAt (m : Scan ε α) (front s : List Char) : Except (ScanFault ε) (α × Cursor) :=
  m (front ++ s) (.behind front)

/-- A scan takes `t` and stops in front of `s`. -/
def Takes (m : Scan ε α) (front t s : List Char) (a : α) : Prop :=
  runAt m front (t ++ s) = .ok (a, .behind (front ++ t))

variable {m : Scan ε α} {f : α → Scan ε β} {front s t u : List Char} {a : α} {b : β} {c : Char}
  {n : Nat}

theorem runAt_bind (h : Takes m front t s a) (hu : u = t ++ s) :
    runAt (m >>= f) front u = runAt (f a) (front ++ t) s := by
  subst hu
  rw [Takes, runAt] at h
  change (m (front ++ (t ++ s)) (.behind front) >>= fun p => f p.1 (front ++ (t ++ s)) p.2) = _
  rw [h, runAt, List.append_assoc]
  rfl

theorem runAt_map (h : Takes m front t s a) (hu : u = t ++ s) (g : α → β) :
    runAt (g <$> m) front u = .ok (g a, .behind (front ++ t)) := by
  rw [← bind_pure_comp, runAt_bind h hu]
  rfl

theorem runAt_bind_error {e : ScanFault ε} (h : runAt m front s = .error e) :
    runAt (m >>= f) front s = .error e := by
  rw [runAt] at h
  rw [runAt, bind_apply, h]
  rfl

theorem runAt_bind_nil (h : Takes m front [] s a) :
    runAt (m >>= f) front s = runAt (f a) front s := by
  rw [runAt_bind h (List.nil_append s).symm, List.append_nil]

@[simp] theorem runAt_pure : runAt (pure a : Scan ε α) front s = .ok (a, .behind front) := rfl

@[simp] theorem runAt_report (e : ε) :
    runAt (report e : Scan ε α) front s = .error (.reported e) := rfl

theorem takes_peekAt (k : Nat) : Takes (peekAt k : Scan ε _) front [] s s[k]? := by
  rw [Takes, List.append_nil]
  change Except.ok ((front ++ s)[front.length + k]?, Cursor.behind front) = _
  rw [List.getElem?_append_right (Nat.le_add_right _ _), Nat.add_sub_cancel_left]

@[simp] theorem runAt_bind_peek {f : Option Char → Scan ε α} :
    runAt (peek >>= f) front s = runAt (f s.head?) front s := by
  rw [List.head?_eq_getElem?]
  exact runAt_bind_nil (takes_peekAt 0)

@[simp] theorem runAt_bind_peekAt_one {f : Option Char → Scan ε α} :
    runAt (peekAt 1 >>= f) front (c :: s) = runAt (f s.head?) front (c :: s) := by
  rw [runAt_bind_nil (takes_peekAt 1), List.getElem?_cons_succ, List.head?_eq_getElem?]

theorem takes_advance : Takes (advance : Scan ε _) front [c] s c := by
  rw [Takes, advance, List.singleton_append, runAt_bind_peek]
  simp only [List.head?_cons, runAt, Cursor.behind, List.length_append, List.length_singleton,
    Position.after_append, Position.after_cons, Position.after_nil]
  rfl

@[simp] theorem runAt_bind_advance {f : Char → Scan ε α} :
    runAt (advance >>= f) front (c :: s) = runAt (f c) (front ++ [c]) s :=
  runAt_bind takes_advance rfl

@[simp] theorem runAt_map_advance (g : Char → α) :
    runAt (g <$> advance : Scan ε α) front (c :: s) = .ok (g c, .behind (front ++ [c])) :=
  runAt_map takes_advance rfl g

@[simp] theorem runAt_bind_position {f : Position → Scan ε α} :
    runAt (position >>= f) front s = runAt (f (Position.start.after front)) front s := rfl

theorem runAt_onward (h : s.length < n) : runAt (onward n m) front s = runAt m front s := by
  rw [runAt, onward, if_pos]
  · rfl
  · simpa [Cursor.behind] using h

theorem runAt_recurse (round : (σ → Scan ε α) → σ → Scan ε α) (x : σ) :
    runAt (recurse round x) front s =
      runAt (round (fun y => onward s.length (recurse round y)) x) front s := by
  rw [runAt, recurse, runAt]
  simp only [Cursor.behind, List.length_append, Nat.add_sub_cancel_left, dite_eq_ite]
  rfl

/-- There is no character to take at the end. -/
theorem runAt_advance_nil : runAt (advance : Scan ε _) front [] = .error .pastEnd := by
  rw [advance, runAt_bind_peek]
  rfl

/-- A round that takes nothing is the last one. -/
theorem runAt_recurse_idle (next : σ → σ) (x : σ) :
    runAt (recurse (fun again y => again (next y)) x : Scan ε α) front s = .error .stalled := by
  rw [runAt_recurse]
  exact if_neg (by simp [Cursor.behind])

/-! ## What readers have in common -/

/-- Characters of one kind. -/
def whileRound (p : Char → Bool) (again : List Char → Scan ε (List Char)) (taken : List Char) :
    Scan ε (List Char) := do
  match ← peek with
  | none => return taken
  | some c =>
    if p c then
      let c ← advance
      again (taken ++ [c])
    else return taken

def takeWhile (p : Char → Bool) : List Char → Scan ε (List Char) := recurse (whileRound p)

theorem takes_takeWhile (p : Char → Bool) (front s taken : List Char) :
    Takes (takeWhile p taken : Scan ε _) front (s.takeWhile p) (s.dropWhile p)
      (taken ++ s.takeWhile p) := by
  rw [Takes, List.takeWhile_append_dropWhile]
  induction s generalizing front taken with
  | nil =>
    rw [takeWhile, runAt_recurse, whileRound]
    simp
  | cons c s ih =>
    rw [takeWhile, runAt_recurse, whileRound]
    by_cases hc : p c = true
    · have hagain := ih (front ++ [c]) (taken ++ [c])
      rw [takeWhile] at hagain
      simp [hc, runAt_onward, hagain]
    · simp [hc]

/-- The character behind a backslash, if there is one. -/
def escaped : Scan ε (List Char) := do
  match ← peek with
  | none => return []
  | some _ =>
    let c ← advance
    return [c]

theorem takes_escaped : Takes (escaped : Scan ε _) front (s.take 1) (s.drop 1) (s.take 1) := by
  rw [Takes, List.take_append_drop, escaped]
  cases s <;> simp

@[simp] theorem runAt_bind_escaped {f : List Char → Scan ε α} :
    runAt (escaped >>= f) front s = runAt (f (s.take 1)) (front ++ s.take 1) (s.drop 1) :=
  runAt_bind takes_escaped (List.take_append_drop 1 s).symm

/-- A comment behind its opening. -/
def commentRound (again : List Char → Scan ε (List Char × Bool)) (taken : List Char) :
    Scan ε (List Char × Bool) := do
  match ← peek with
  | none => return (taken, false)
  | some c =>
    if c = '*' ∧ (← peekAt 1) = some '/' then
      let _ ← advance
      let _ ← advance
      return (taken, true)
    else
      let c ← advance
      again (taken ++ [c])

/-- The text of a comment behind its opening, and whether the comment ends. -/
def takeComment : List Char → Scan ε (List Char × Bool) := recurse commentRound

theorem runAt_takeComment_cons (taken : List Char) (h : ¬(c = '*' ∧ s.head? = some '/')) :
    runAt (takeComment taken : Scan ε _) front (c :: s) =
      runAt (takeComment (taken ++ [c])) (front ++ [c]) s := by
  rw [takeComment, runAt_recurse, commentRound]
  simp [h, runAt_onward]

theorem takes_takeComment {text rest : List Char} (h : comment? s = some (text, rest))
    (front taken : List Char) :
    Takes (takeComment taken : Scan ε _) front (text ++ ['*', '/']) rest (taken ++ text, true) := by
  induction s generalizing front taken text with
  | nil => simp [comment?] at h
  | cons c s ih =>
    by_cases hc : c = '*' ∧ s.head? = some '/'
    · obtain ⟨rfl, hs⟩ := hc
      obtain ⟨r, rfl⟩ := List.head?_eq_some_iff.1 hs
      obtain ⟨rfl, rfl⟩ : [] = text ∧ r = rest := by simpa [comment?] using h
      rw [Takes, takeComment, runAt_recurse, commentRound]
      simp
    · rw [comment?_cons_of_not hc] at h
      obtain ⟨⟨text', rest'⟩, h', he⟩ := Option.map_eq_some_iff.1 h
      obtain ⟨rfl, rfl⟩ : c :: text' = text ∧ rest' = rest := by simpa using he
      have hs : s = text' ++ ['*', '/'] ++ rest' := by simp [comment?_eq_some h']
      have hread := ih h' (front ++ [c]) (taken ++ [c])
      rw [Takes, ← hs] at hread
      rw [Takes, List.cons_append, List.cons_append, ← hs, runAt_takeComment_cons taken hc, hread]
      simp

theorem takes_takeComment_unclosed (h : comment? s = none) (front taken : List Char) :
    Takes (takeComment taken : Scan ε _) front s [] (taken ++ s, false) := by
  rw [Takes, List.append_nil]
  induction s generalizing front taken with
  | nil =>
    rw [takeComment, runAt_recurse, commentRound]
    simp
  | cons c s ih =>
    have hc : ¬(c = '*' ∧ s.head? = some '/') := by
      rintro ⟨rfl, hs⟩
      obtain ⟨r, rfl⟩ := List.head?_eq_some_iff.1 hs
      simp [comment?] at h
    rw [comment?_cons_of_not hc, Option.map_eq_none_iff] at h
    rw [runAt_takeComment_cons taken hc, ih h]
    simp

/-! ## Scans that leave the text in front aside -/

/-- A scan in front of `s` comes to stand in front of `rest`, whatever is behind it. -/
def Reaches (m : Scan ε α) (s rest : List Char) (a : α) : Prop :=
  ∀ front, ∃ t, s = t ++ rest ∧ Takes m front t rest a

variable {rest : List Char}

theorem reaches_of_takes (hs : s = t ++ rest) (h : ∀ front, Takes m front t rest a) :
    Reaches m s rest a := fun front => ⟨t, hs, h front⟩

theorem Reaches.length_le (h : Reaches m s rest a) : rest.length ≤ s.length := by
  obtain ⟨t, rfl, -⟩ := h []
  rw [List.length_append]
  exact Nat.le_add_left _ _

theorem Reaches.bind (h : Reaches m s u a) (hf : Reaches (f a) u rest b) :
    Reaches (m >>= f) s rest b := by
  intro front
  obtain ⟨t, rfl, hm⟩ := h front
  obtain ⟨v, rfl, hrun⟩ := hf (front ++ t)
  refine ⟨t ++ v, (List.append_assoc _ _ _).symm, ?_⟩
  rw [Takes, runAt_bind hm (List.append_assoc _ _ _), hrun, List.append_assoc]

theorem Reaches.onward (h : Reaches m s rest a) (hs : s.length < n) :
    Reaches (onward n m) s rest a := by
  intro front
  obtain ⟨t, rfl, hm⟩ := h front
  exact ⟨t, rfl, by rw [Takes, runAt_onward hs, hm]⟩

theorem Reaches.recurse {round : (σ → Scan ε α) → σ → Scan ε α} {x : σ}
    (h : Reaches (round (fun y => Scan.onward s.length (Scan.recurse round y)) x) s rest a) :
    Reaches (Scan.recurse round x) s rest a := by
  intro front
  obtain ⟨t, rfl, hm⟩ := h front
  exact ⟨t, rfl, by rw [Takes, runAt_recurse, hm]⟩

theorem reaches_pure (a : α) (s : List Char) : Reaches (pure a : Scan ε α) s s a :=
  reaches_of_takes (List.nil_append s).symm fun front => by
    rw [Takes, List.nil_append, List.append_nil, runAt_pure]

theorem reaches_peekAt (k : Nat) (s : List Char) : Reaches (peekAt k : Scan ε _) s s s[k]? :=
  reaches_of_takes (List.nil_append s).symm fun _ => takes_peekAt k

theorem reaches_peek (s : List Char) : Reaches (peek : Scan ε _) s s s.head? :=
  List.head?_eq_getElem? ▸ reaches_peekAt 0 s

theorem reaches_advance (c : Char) (s : List Char) : Reaches (advance : Scan ε _) (c :: s) s c :=
  reaches_of_takes rfl fun _ => takes_advance

theorem reaches_escaped (s : List Char) : Reaches (escaped : Scan ε _) s (s.drop 1) (s.take 1) :=
  reaches_of_takes (List.take_append_drop 1 s).symm fun _ => takes_escaped

theorem reaches_takeWhile (p : Char → Bool) (s : List Char) :
    Reaches (takeWhile p [] : Scan ε _) s (s.dropWhile p) (s.takeWhile p) :=
  reaches_of_takes List.takeWhile_append_dropWhile.symm fun front => takes_takeWhile p front s []

theorem reaches_takeComment (s : List Char) : ∃ closed,
    Reaches (takeComment [] : Scan ε _) s (readComment s).2 ((readComment s).1, closed) := by
  rw [readComment]
  cases h : comment? s with
  | none =>
    exact ⟨false, reaches_of_takes (List.append_nil s).symm fun front =>
      takes_takeComment_unclosed h front []⟩
  | some p =>
    obtain ⟨text, rest⟩ := p
    have hs : s = text ++ ['*', '/'] ++ rest := by simp [comment?_eq_some h]
    exact ⟨true, reaches_of_takes hs fun front => takes_takeComment h front []⟩

/-- A scan that reaches the end of a text has all of it behind it. -/
theorem Reaches.onText {source : String} (h : Reaches m source.toList [] a) :
    m.onText source = .ok (a, .behind source.toList) := by
  obtain ⟨t, ht, htakes⟩ := h []
  rw [List.append_nil] at ht
  subst ht
  rwa [Takes, List.append_nil, List.nil_append] at htakes

end Scan

end CssTheming.Text
