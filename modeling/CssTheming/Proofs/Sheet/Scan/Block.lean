import CssTheming.Proofs.Sheet.Authored
import CssTheming.Proofs.Sheet.Lookahead
import CssTheming.Proofs.Sheet.Scan.Lexical

/-!
# Stylesheets read with a cursor

`scanSheet` reads a stylesheet as it is read by hand: a loop over the statements of a block that
enters itself for the blocks inside. It comes to the statements, or to the fault, that `statements`
comes to, and where there is no fault its cursor comes to the end of the source. A scan whose round
took nothing, or that took a character behind the end, would do neither.
-/

namespace CssTheming.Sheet

open Text Scan

/-! ## Statements -/

/-- A scan of a stylesheet reports the line and the cause of a fault. -/
abbrev SheetScan := Scan (Nat × SheetFault)

def scanComment : SheetScan Statement := do
  let position ← Scan.position
  let _ ← advance
  let _ ← advance
  let (text, closed) ← takeComment []
  if closed then return .mk (.comment (String.ofList text)) position []
  else report (position.line, .unclosedComment)

/-- An at-rule, given the scan of a block that was opened on a line. -/
def scanAtRule (block : Nat → SheetScan (List Statement)) : SheetScan Statement := do
  let position ← Scan.position
  let _ ← advance
  let name ← takeWhile isNameChar []
  if name.isEmpty then report (position.line, .namelessAtRule)
  else
    let text ← takeUntil headStops
    match ← peek with
    | some '{' =>
      let _ ← advance
      let body ← block position.line
      return .mk (atRule name text true) position body
    | some ';' =>
      let _ ← advance
      return .mk (atRule name text false) position []
    | _ => return .mk (atRule name text false) position []

def scanRule (block : Nat → SheetScan (List Statement)) : SheetScan Statement := do
  let position ← Scan.position
  let text ← takeUntil headStops
  if (← peek) = some '{' then
    let _ ← advance
    let body ← block position.line
    return .mk (rule text) position body
  else report (position.line, .selectorWithoutBlock (shown text))

def scanDeclaration : SheetScan Statement := do
  let position ← Scan.position
  let property ← takeUntil propertyStops
  if (← peek) = some ':' then
    let _ ← advance
    if (Text.trim property).isEmpty then report (position.line, .namelessDeclaration)
    else
      let value ← takeUntil valueStops
      if (← peek) = some ';' then
        let _ ← advance
        return .mk (declaration property value) position []
      else return .mk (declaration property value) position []
  else report (position.line, .notADeclaration (shown property))

/-- One round over a block that was opened on a line, or over the whole sheet, with the statements
in front, last first. -/
def blockRound (again : Option Nat × List Statement → SheetScan (List Statement)) :
    Option Nat × List Statement → SheetScan (List Statement)
  | (opened, inner) => do
    let _ ← takeWhile isWhitespace []
    match ← peek with
    | none =>
      match opened with
      | none => return inner.reverse
      | some line => report (line, .unclosedBlock)
    | some c =>
      if c = '}' then
        match opened with
        | none => report ((← Scan.position).line, .unexpectedBrace)
        | some _ =>
          let _ ← advance
          return inner.reverse
      else if c = ';' then
        let _ ← advance
        again (opened, inner)
      else if c = '/' ∧ (← peekAt 1) = some '*' then
        let statement ← scanComment
        again (opened, statement :: inner)
      else if c = '@' then
        let statement ← scanAtRule fun line => again (some line, [])
        again (opened, statement :: inner)
      else if opened.isNone || (← takeOpensBlock) then
        let statement ← scanRule fun line => again (some line, [])
        again (opened, statement :: inner)
      else
        let statement ← scanDeclaration
        again (opened, statement :: inner)

def scanBlock : Option Nat × List Statement → SheetScan (List Statement) := recurse blockRound

def scanSheet : SheetScan (List Statement) := scanBlock (none, [])

/-! ## Agreement -/

/-- The line of the statement whose block is open. -/
def openedOn (blocks : List OpenBlock) : Option Nat := blocks.head?.map (·.position.line)

/-- Reading on behind the statements of a block, or else of the sheet. -/
def leave (body : List Statement) (rest : List Char) (pos : Text.Position) :
    List OpenBlock → Except (Nat × SheetFault) (List Statement)
  | [] => .ok body
  | b :: blocks => run rest pos (b.close body.reverse) blocks

/-- What a scan of a block answers is what `run` comes to, whatever other blocks are open. The scan
of a sheet leaves nothing. -/
def Agrees (opened : Option Nat) (inner : List Statement) (front s : List Char) :
    Except (ScanFault (Nat × SheetFault)) (List Statement × Cursor) → Prop
  | .ok (body, cursor) => ∃ t rest, s = t ++ rest ∧ cursor = .behind (front ++ t) ∧
      (opened = none → rest = []) ∧ ∀ blocks, openedOn blocks = opened →
        run s (Position.start.after front) inner blocks =
          leave body rest (Position.start.after (front ++ t)) blocks
  | .error (.reported fault) => ∀ blocks, openedOn blocks = opened →
      run s (Position.start.after front) inner blocks = .error fault
  | .error _ => False

/-- What a scan of a statement answers is what `run` reads next. -/
def AgreesOne (opened : Option Nat) (inner : List Statement) (front s : List Char) :
    Except (ScanFault (Nat × SheetFault)) (Statement × Cursor) → Prop
  | .ok (statement, cursor) => ∃ t rest, s = t ++ rest ∧ t ≠ [] ∧ cursor = .behind (front ++ t) ∧
      ∀ blocks, openedOn blocks = opened → run s (Position.start.after front) inner blocks =
        run rest (Position.start.after (front ++ t)) (statement :: inner) blocks
  | .error (.reported fault) => ∀ blocks, openedOn blocks = opened →
      run s (Position.start.after front) inner blocks = .error fault
  | .error _ => False

/-- The rounds over texts shorter than this agree. -/
def Continues (n : Nat) (again : Option Nat × List Statement → SheetScan (List Statement)) : Prop :=
  ∀ opened inner front rest, rest.length < n →
    Agrees opened inner front rest (runAt (again (opened, inner)) front rest)

variable {opened : Option Nat} {inner inner' body : List Statement} {front s t rest : List Char}
  {outcome : Except (ScanFault (Nat × SheetFault)) (List Statement × Cursor)}
  {m : SheetScan Statement} {again : Option Nat × List Statement → SheetScan (List Statement)}
  {c : Char} {r : List Char}

theorem Agrees.step (h : Agrees opened inner' (front ++ t) s outcome)
    (hrun : ∀ blocks, openedOn blocks = opened →
      run (t ++ s) (Position.start.after front) inner blocks =
        run s (Position.start.after (front ++ t)) inner' blocks) :
    Agrees opened inner front (t ++ s) outcome := by
  match outcome, h with
  | .error (.reported fault), h => exact fun blocks hb => (hrun blocks hb).trans (h blocks hb)
  | .ok (body, cursor), ⟨u, rest, hs, hcursor, hend, hagree⟩ =>
    subst hs
    refine ⟨t ++ u, rest, (List.append_assoc _ _ _).symm, ?_, hend, fun blocks hb => ?_⟩
    · rw [hcursor, List.append_assoc]
    · rw [hrun blocks hb, hagree blocks hb, List.append_assoc]

/-- A statement, and then the rest of its block. -/
theorem AgreesOne.bind {f : Statement → SheetScan (List Statement)}
    (h : AgreesOne opened inner front s (runAt m front s))
    (hagain : ∀ statement front rest, rest.length < s.length →
      Agrees opened (statement :: inner) front rest (runAt (f statement) front rest)) :
    Agrees opened inner front s (runAt (m >>= f) front s) := by
  match hm : runAt m front s with
  | .error (.reported fault) =>
    rw [hm] at h
    rw [runAt_bind_error hm]
    exact h
  | .error .pastEnd | .error .stalled =>
    rw [hm] at h
    exact h.elim
  | .ok (statement, cursor) =>
    rw [hm] at h
    obtain ⟨t, rest, rfl, hne, rfl, hrun⟩ := h
    have htakes : Takes m front t rest statement := hm
    have hlt : rest.length < (t ++ rest).length := by
      have := List.length_pos_iff.2 hne
      rw [List.length_append]
      omega
    rw [runAt_bind htakes rfl]
    exact (hagain statement (front ++ t) rest hlt).step hrun

/-- The head of a statement, and then its block. -/
theorem Agrees.bind {pos : Text.Position} {kind : Kind} {m : SheetScan (List Statement)}
    (ht : t ≠ []) (hpos : pos = Position.start.after front)
    (hopen : ∀ blocks, openedOn blocks = opened →
      run (t ++ s) pos inner blocks =
        run s (Position.start.after (front ++ t)) [] (⟨kind, pos, inner⟩ :: blocks))
    (h : Agrees (some pos.line) [] (front ++ t) s (runAt m (front ++ t) s)) :
    AgreesOne opened inner front (t ++ s)
      (runAt (m >>= fun body => pure (.mk kind pos body)) (front ++ t) s) := by
  subst hpos
  match hm : runAt m (front ++ t) s with
  | .error (.reported fault) =>
    rw [hm] at h
    rw [runAt_bind_error hm]
    intro blocks hb
    rw [hopen blocks hb]
    exact h _ rfl
  | .error .pastEnd | .error .stalled =>
    rw [hm] at h
    exact h.elim
  | .ok (body, cursor) =>
    rw [hm] at h
    obtain ⟨u, rest, rfl, rfl, -, hrun⟩ := h
    have htakes : Takes m (front ++ t) u rest body := hm
    rw [runAt_bind htakes rfl, runAt_pure]
    refine ⟨t ++ u, rest, (List.append_assoc _ _ _).symm, by simp [ht], by rw [List.append_assoc],
      fun blocks hb => ?_⟩
    rw [hopen blocks hb, hrun _ rfl, leave, OpenBlock.close, List.reverse_reverse,
      List.append_assoc]

theorem isEmpty_of_openedOn {blocks : List OpenBlock} (h : openedOn blocks = opened) :
    blocks.isEmpty = opened.isNone := by
  subst h
  cases blocks <;> rfl

theorem agrees_scanComment (r : List Char) :
    AgreesOne opened inner front ('/' :: '*' :: r) (runAt scanComment front ('/' :: '*' :: r)) := by
  rw [scanComment, runAt_bind_position, runAt_bind_advance, runAt_bind_advance]
  cases h : comment? r with
  | none =>
    rw [runAt_bind (takes_takeComment_unclosed h _ []) (List.append_nil r).symm]
    intro blocks hb
    rw [run_comment_eq, h]
  | some p =>
    obtain ⟨text, rest⟩ := p
    have hr : r = text ++ ['*', '/'] ++ rest := by simp [comment?_eq_some h]
    rw [runAt_bind (takes_takeComment h _ []) hr]
    refine ⟨'/' :: '*' :: text ++ ['*', '/'], rest, by simp [hr], by simp, by simp,
      fun blocks hb => ?_⟩
    rw [run_comment_eq, h, Position.after_append]
    rfl

theorem agrees_scanAtRule (hagain : Continues ('@' :: r).length again) :
    AgreesOne opened inner front ('@' :: r)
      (runAt (scanAtRule fun line => again (some line, [])) front ('@' :: r)) := by
  rw [scanAtRule, runAt_bind_position, runAt_bind_advance,
    runAt_bind (takes_takeWhile isNameChar _ r []) List.takeWhile_append_dropWhile.symm,
    List.nil_append]
  by_cases hname : (r.takeWhile isNameChar).isEmpty = true
  · rw [if_pos hname]
    intro blocks hb
    rw [run_atRule_eq, if_pos hname]
  rw [if_neg hname]
  generalize hread : readUntil headStops 0 (r.dropWhile isNameChar) = q
  obtain ⟨text, rest⟩ := q
  have hall : ∀ {d u}, rest = d :: u →
      '@' :: r = ('@' :: r.takeWhile isNameChar ++ text ++ [d]) ++ u := by
    rintro d u rfl
    simpa using atRule_append hread
  have hrun := fun pos inner blocks => run_atRule_eq pos inner blocks r
  simp only [if_neg hname, hread] at hrun
  rw [runAt_bind_takeUntil hread, runAt_bind_peek]
  split
  · rename_i hbrace
    obtain ⟨u, rfl⟩ := List.head?_eq_some_iff.1 hbrace
    have hlt : u.length < ('@' :: r).length := by
      rw [hall rfl, List.length_append]
      exact Nat.lt_add_of_pos_left (by simp)
    rw [runAt_bind_advance]
    have hagrees := Agrees.bind (t := '@' :: r.takeWhile isNameChar ++ text ++ ['{']) (by simp) rfl
      (fun blocks (_ : openedOn blocks = opened) => by
        rw [← hall rfl, hrun _ inner, Position.after_append]
        rfl)
      (hagain (some (Position.start.after front).line) [] _ u hlt)
    rw [← hall rfl] at hagrees
    simpa using hagrees
  · rename_i hsemi
    obtain ⟨u, rfl⟩ := List.head?_eq_some_iff.1 hsemi
    rw [runAt_bind_advance, runAt_pure]
    refine ⟨_, u, hall rfl, by simp, by simp, fun blocks _ => ?_⟩
    rw [hrun, Position.after_append]
    rfl
  · rename_i hbrace hsemi
    rw [runAt_pure]
    refine ⟨'@' :: r.takeWhile isNameChar ++ text, rest, atRule_append hread, by simp, by simp,
      fun blocks _ => ?_⟩
    rw [hrun, Position.after_append]
    split <;> rename_i hread' <;> obtain ⟨rfl, rfl⟩ := Prod.mk.inj hread'
    · exact absurd rfl hbrace
    · exact absurd rfl hsemi
    · rfl

theorem agrees_scanRule (hc : Starts c r) (hopens : (opened.isNone || opensBlock 0 (c :: r)) = true)
    (hagain : Continues (c :: r).length again) :
    AgreesOne opened inner front (c :: r)
      (runAt (scanRule fun line => again (some line, [])) front (c :: r)) := by
  generalize hread : readUntil headStops 0 (c :: r) = q
  obtain ⟨text, rest⟩ := q
  have hrun : ∀ pos blocks, openedOn blocks = opened → _ := fun pos blocks hb =>
    run_rule_eq pos inner blocks hc (by rwa [isEmpty_of_openedOn hb])
  simp only [hread] at hrun
  rw [scanRule, runAt_bind_position, runAt_bind_takeUntil hread, runAt_bind_peek]
  split
  · rename_i hbrace
    obtain ⟨u, rfl⟩ := List.head?_eq_some_iff.1 hbrace
    have hall : c :: r = (text ++ ['{']) ++ u := by simpa using append_of_readUntil hread
    have hlt : u.length < (c :: r).length := by
      rw [hall, List.length_append]
      exact Nat.lt_add_of_pos_left (by simp)
    rw [runAt_bind_advance]
    have hagrees := Agrees.bind (t := text ++ ['{']) (by simp) rfl
      (fun blocks (hb : openedOn blocks = opened) => by
        rw [← hall, hrun _ blocks hb, Position.after_append]
        rfl)
      (hagain (some (Position.start.after front).line) [] _ u hlt)
    rw [← hall] at hagrees
    simpa using hagrees
  · rename_i hbrace
    intro blocks hb
    rw [hrun _ blocks hb]
    split <;> rename_i hread' <;> obtain ⟨rfl, rfl⟩ := Prod.mk.inj hread'
    · exact absurd rfl hbrace
    · rfl

theorem agrees_scanDeclaration (hc : Starts c r)
    (hopens : (opened.isNone || opensBlock 0 (c :: r)) = false) :
    AgreesOne opened inner front (c :: r) (runAt scanDeclaration front (c :: r)) := by
  generalize hproperty : readUntil propertyStops 0 (c :: r) = q
  obtain ⟨property, rest⟩ := q
  have hrun : ∀ pos blocks, openedOn blocks = opened → _ := fun pos blocks hb =>
    run_declaration_eq pos inner blocks hc (by rwa [isEmpty_of_openedOn hb])
  simp only [hproperty] at hrun
  rw [scanDeclaration, runAt_bind_position, runAt_bind_takeUntil hproperty, runAt_bind_peek]
  split
  · rename_i hcolon
    obtain ⟨t, rfl⟩ := List.head?_eq_some_iff.1 hcolon
    rw [runAt_bind_advance]
    split
    · rename_i hname
      intro blocks hb
      rw [hrun _ blocks hb]
      exact if_pos hname
    rename_i hname
    generalize hvalue : readUntil valueStops 0 t = q
    obtain ⟨value, rest⟩ := q
    have hall : c :: r = property ++ ':' :: value ++ rest := by
      simpa [append_of_readUntil hvalue] using append_of_readUntil hproperty
    simp only [if_neg hname, hvalue] at hrun
    rw [runAt_bind_takeUntil hvalue, runAt_bind_peek]
    split
    · rename_i hsemi
      obtain ⟨u, rfl⟩ := List.head?_eq_some_iff.1 hsemi
      rw [runAt_bind_advance, runAt_pure]
      refine ⟨property ++ ':' :: value ++ [';'], u, by simpa using hall, by simp, by simp,
        fun blocks hb => ?_⟩
      rw [hrun _ blocks hb, Position.after_append]
      rfl
    · rename_i hsemi
      rw [runAt_pure]
      refine ⟨property ++ ':' :: value, rest, hall, by simp, by simp, fun blocks hb => ?_⟩
      rw [hrun _ blocks hb, Position.after_append]
      split <;> rename_i hvalue' <;> obtain ⟨rfl, rfl⟩ := Prod.mk.inj hvalue'
      · exact absurd rfl hsemi
      · rfl
  · rename_i hcolon
    intro blocks hb
    rw [hrun _ blocks hb]
    split <;> rename_i hproperty' <;> obtain ⟨rfl, rfl⟩ := Prod.mk.inj hproperty'
    · exact absurd rfl hcolon
    · rfl

theorem run_spaces {w : List Char} (hw : ∀ c ∈ w, isWhitespace c = true) (s : List Char)
    (pos : Text.Position) (inner : List Statement) (blocks : List OpenBlock) :
    run (w ++ s) pos inner blocks = run s (pos.after w) inner blocks := by
  induction w generalizing pos with
  | nil => rfl
  | cons c w ih =>
    rw [List.cons_append, run_cons_space (hw c List.mem_cons_self),
      ih fun d hd => hw d (List.mem_cons_of_mem c hd), Position.after_cons]

/-- Where a sheet ends, or a block that is open does not. -/
theorem agrees_end (opened : Option Nat) (inner : List Statement) (front : List Char) :
    Agrees opened inner front [] (runAt (match opened with
      | none => pure inner.reverse
      | some line => report (line, .unclosedBlock)) front []) := by
  cases opened with
  | none =>
    refine ⟨[], [], rfl, by simp, fun _ => rfl, fun blocks hb => ?_⟩
    cases blocks with
    | nil =>
      rw [run.eq_def]
      rfl
    | cons b blocks => cases hb
  | some line =>
    intro blocks hb
    cases blocks with
    | nil => cases hb
    | cons b blocks =>
      obtain rfl := Option.some.inj hb
      rw [run.eq_def]

/-- A closing brace ends a block, and is out of place outside of all blocks. -/
theorem agrees_close (opened : Option Nat) (inner : List Statement) (front r : List Char) :
    Agrees opened inner front ('}' :: r) (runAt (match opened with
      | none => do report ((← Scan.position).line, .unexpectedBrace)
      | some _ => do
        let _ ← advance
        return inner.reverse) front ('}' :: r)) := by
  cases opened with
  | none =>
    intro blocks hb
    cases blocks with
    | nil =>
      rw [run.eq_def]
      dsimp only
      rw [if_neg (by decide), if_pos rfl]
      rfl
    | cons b blocks => cases hb
  | some line =>
    dsimp only
    rw [runAt_bind_advance, runAt_pure]
    refine ⟨['}'], r, rfl, rfl, by simp, fun blocks hb => ?_⟩
    cases blocks with
    | nil => cases hb
    | cons b blocks =>
      rw [run_close, leave, List.reverse_reverse, Position.after_append]
      rfl

theorem agrees_skipSpaces {m : SheetScan (List Statement)}
    (h : ∀ front, Agrees opened inner front (s.dropWhile isWhitespace)
      (runAt m front (s.dropWhile isWhitespace))) :
    Agrees opened inner front s (runAt (takeWhile isWhitespace [] >>= fun _ => m) front s) := by
  have hs := List.takeWhile_append_dropWhile (p := isWhitespace) (l := s)
  have hw : ∀ c ∈ s.takeWhile isWhitespace, isWhitespace c = true := fun c hc =>
    List.all_eq_true.1 List.all_takeWhile c hc
  rw [runAt_bind (takes_takeWhile isWhitespace front s []) hs.symm]
  have hspaces : ∀ blocks, openedOn blocks = opened →
      run (s.takeWhile isWhitespace ++ s.dropWhile isWhitespace) (Position.start.after front) inner
          blocks =
        run (s.dropWhile isWhitespace)
          (Position.start.after (front ++ s.takeWhile isWhitespace)) inner blocks :=
    fun blocks _ => by rw [run_spaces hw, Position.after_append]
  have hagrees := (h (front ++ s.takeWhile isWhitespace)).step hspaces
  rwa [hs] at hagrees

/-- A round takes white space and then a statement, or what ends the block. -/
theorem agrees_blockRound (hagain : Continues s.length again) :
    Agrees opened inner front s (runAt (blockRound again (opened, inner)) front s) := by
  rw [blockRound.eq_def]
  refine agrees_skipSpaces fun front => ?_
  have hoff := startsOff_dropWhile isWhitespace s
  have hle := length_dropWhile_le isWhitespace s
  generalize s.dropWhile isWhitespace = u at hoff hle
  have hagain : Continues u.length again := fun opened inner front rest h =>
    hagain opened inner front rest (Nat.lt_of_lt_of_le h hle)
  rw [runAt_bind_peek]
  cases u with
  | nil => exact agrees_end opened inner front
  | cons c r =>
    rw [List.head?_cons]
    dsimp only
    split
    · rename_i hc
      subst hc
      exact agrees_close opened inner front r
    rename_i hbrace
    split
    · rename_i hc
      subst hc
      rw [runAt_bind_advance]
      have hagrees := hagain opened inner (front ++ [';']) r (Nat.lt_succ_self _)
      refine hagrees.step fun blocks _ => ?_
      rw [Position.after_append]
      exact run_cons_semicolon _ _ r
    rename_i hsemi
    rw [runAt_bind_peekAt_one]
    split
    · rename_i hc
      obtain ⟨rfl, hstar⟩ := hc
      obtain ⟨r, rfl⟩ := List.head?_eq_some_iff.1 hstar
      exact (agrees_scanComment r).bind fun _ => hagain _ _
    rename_i hcomment
    split
    · rename_i hc
      subst hc
      exact (agrees_scanAtRule hagain).bind fun _ => hagain _ _
    rename_i hat
    have hstarts : Starts c r := ⟨hoff c rfl, hsemi, hbrace, hat, hcomment⟩
    rw [runAt_bind_takeOpensBlock]
    split
    · rename_i hopens
      exact (agrees_scanRule hstarts hopens hagain).bind fun _ => hagain _ _
    · rename_i hopens
      exact (agrees_scanDeclaration hstarts (Bool.eq_false_iff.2 hopens)).bind fun _ => hagain _ _

theorem agrees_scanBlock (opened : Option Nat) (inner : List Statement) (front s : List Char) :
    Agrees opened inner front s (runAt (scanBlock (opened, inner)) front s) := by
  induction hn : s.length using Nat.strongRecOn generalizing opened inner front s with
  | ind n ih =>
    rw [scanBlock, runAt_recurse]
    refine agrees_blockRound fun opened inner front rest h => ?_
    rw [runAt_onward h]
    exact ih _ (hn ▸ h) opened inner front rest rfl

theorem scanSheet_onText (source : String) : scanSheet.onText source =
    match statements source with
    | .ok top => .ok (top, .behind source.toList)
    | .error fault => .error (.reported fault) := by
  have h : Agrees none [] [] source.toList (scanSheet.onText source) :=
    agrees_scanBlock none [] [] source.toList
  rw [statements]
  cases hscan : scanSheet.onText source with
  | error e =>
    rw [hscan] at h
    cases e with
    | reported fault =>
      have hrun := h [] rfl
      rw [Position.after_nil] at hrun
      rw [hrun]
    | _ => exact h.elim
  | ok result =>
    rw [hscan] at h
    obtain ⟨t, rest, hs, hcursor, hrest, hrun⟩ := h
    obtain rfl := hrest rfl
    have htop := hrun [] rfl
    rw [List.append_nil] at hs
    rw [Position.after_nil, leave] at htop
    rw [htop, hs, ← List.nil_append t, ← hcursor]

end CssTheming.Sheet
