import CssTheming.Proofs.Sheet.SelectorList

/-!
# Selector lists that are joined again

Splitting carries the depth of parentheses and the open quote through a list and starts afresh
behind every comma that it cuts at. Only the last selector can leave something open. So selectors
that are joined by commas are cut at these commas and nowhere else, unless trimming took the space
of an escape off the end of one.
-/

namespace CssTheming.Selectors

open Sheet Text

variable {c d : Char} {st st' : Nat × Option Char} {cur part s t w : List Char}
  {parts : List (List Char)}

/-! ## Stretches without a cut -/

/-- The depth and the open quote behind a character that is neither escaped nor cut at. -/
def step (st : Nat × Option Char) (c : Char) : Nat × Option Char :=
  match st.2 with
  | some mark => (st.1, if c = mark then none else some mark)
  | none => if isQuote c then (st.1, some c) else (depthAfter st.1 c, none)

/-- A list is cut at this character. -/
def Cuts (st : Nat × Option Char) (c : Char) : Prop := st = (0, none) ∧ c = ','

/-- Splitting goes over a stretch of a list, from a depth and an open quote to those behind it,
without a cut. -/
inductive Passes : Nat × Option Char → List Char → Nat × Option Char → Prop
  | nil {st : Nat × Option Char} : Passes st [] st
  | escape {st st' : Nat × Option Char} {d : Char} {r : List Char} (h : Passes st r st') :
      Passes st ('\\' :: d :: r) st'
  | single {st st' : Nat × Option Char} {c : Char} {r : List Char} (hescape : c ≠ '\\')
      (hcut : ¬Cuts st c) (h : Passes (step st c) r st') : Passes st (c :: r) st'

theorem splitFrom_step (hescape : c ≠ '\\') (hcut : ¬Cuts st c) (cur r : List Char) :
    splitFrom st.1 st.2 cur (c :: r) =
      splitFrom (step st c).1 (step st c).2 (c :: cur) r := by
  obtain ⟨depth, quote⟩ := st
  have hlone : ∀ d r', c = '\\' → r = d :: r' → False := fun _ _ hc _ => hescape hc
  cases quote with
  | some mark => exact splitFrom_quoted hlone
  | none =>
    have hcomma : ¬(c = ',' ∧ depth = 0) := fun h => hcut ⟨by rw [h.2], h.1⟩
    rw [splitFrom_free hlone, if_neg hcomma, step]
    dsimp only
    split <;> rfl

theorem splitFrom_comma (cur r : List Char) :
    splitFrom 0 none cur (',' :: r) = trim cur.reverse :: splitFrom 0 none [] r := by
  rw [splitFrom_free (by simp), if_neg (by decide), if_pos ⟨rfl, rfl⟩]

/-- A stretch without a cut only becomes a part of the current selector. -/
theorem Passes.splitFrom_append (h : Passes st s st') (cur r : List Char) :
    splitFrom st.1 st.2 cur (s ++ r) = splitFrom st'.1 st'.2 (s.reverse ++ cur) r := by
  induction h generalizing cur with
  | nil => rfl
  | @escape st st' d s h ih =>
    have hread : splitFrom st.1 st.2 cur ('\\' :: d :: (s ++ r)) =
        splitFrom st.1 st.2 (d :: '\\' :: cur) (s ++ r) := by rw [splitFrom]
    rw [List.cons_append, List.cons_append, hread, ih]
    simp
  | single hescape hcut h ih =>
    rw [List.cons_append, splitFrom_step hescape hcut, ih]
    simp

/-- A text has a cut, a backslash at its end that escapes nothing, or neither. -/
theorem passes_cases : ∀ (st : Nat × Option Char) (s : List Char),
    (∃ st', Passes st s st') ∨ (∃ part r, s = part ++ ',' :: r ∧ Passes st part (0, none)) ∨
      ∃ front st', s = front ++ ['\\'] ∧ Passes st front st'
  | st, [] => .inl ⟨st, .nil⟩
  | st, [c] => by
    by_cases hescape : c = '\\'
    · exact .inr (.inr ⟨[], st, by rw [hescape]; rfl, .nil⟩)
    by_cases hcut : Cuts st c
    · obtain ⟨rfl, rfl⟩ := hcut
      exact .inr (.inl ⟨[], [], rfl, .nil⟩)
    · exact .inl ⟨step st c, .single hescape hcut .nil⟩
  | st, c :: d :: r => by
    by_cases hescape : c = '\\'
    · subst hescape
      rcases passes_cases st r with ⟨st', h⟩ | ⟨part, r', rfl, h⟩ | ⟨front, st', rfl, h⟩
      · exact .inl ⟨st', h.escape⟩
      · exact .inr (.inl ⟨'\\' :: d :: part, r', rfl, h.escape⟩)
      · exact .inr (.inr ⟨'\\' :: d :: front, st', rfl, h.escape⟩)
    by_cases hcut : Cuts st c
    · obtain ⟨rfl, rfl⟩ := hcut
      exact .inr (.inl ⟨[], d :: r, rfl, .nil⟩)
    · rcases passes_cases (step st c) (d :: r) with
        ⟨st', h⟩ | ⟨part, r', hr, h⟩ | ⟨front, st', hr, h⟩
      · exact .inl ⟨st', h.single hescape hcut⟩
      · exact .inr (.inl ⟨c :: part, r', by rw [hr]; rfl, h.single hescape hcut⟩)
      · exact .inr (.inr ⟨c :: front, st', by rw [hr]; rfl, h.single hescape hcut⟩)

/-! ## Trimming -/

/-- Quotes are open for quote characters only. -/
def Quotes (st : Nat × Option Char) : Prop := ∀ mark ∈ st.2, isQuote mark = true

theorem Quotes.step (h : Quotes st) (c : Char) : Quotes (step st c) := by
  intro mark hmark
  obtain ⟨depth, quote⟩ := st
  unfold Selectors.step at hmark
  cases quote with
  | some q =>
    dsimp only at hmark
    split at hmark
    · cases hmark
    · exact h mark hmark
  | none =>
    dsimp only at hmark
    split at hmark
    · rename_i hquote
      obtain rfl := Option.some.inj hmark
      exact hquote
    · cases hmark

theorem Passes.quotes (h : Passes st s st') (hquotes : Quotes st) : Quotes st' := by
  induction h with
  | nil => exact hquotes
  | escape h ih => exact ih hquotes
  | single hescape hcut h ih => exact ih (hquotes.step _)

/-- White space that is not escaped changes nothing. -/
theorem step_space (hquotes : Quotes st) (hc : isWhitespace c = true) : step st c = st := by
  obtain ⟨depth, quote⟩ := st
  have hne : ∀ e, isWhitespace e = false → c ≠ e := by
    rintro e he rfl
    rw [hc] at he
    cases he
  cases quote with
  | some mark => simp [step, hne mark (not_isWhitespace_of_isQuote (hquotes mark rfl))]
  | none =>
    simp [step, isQuote, depthAfter, hne '"' (by decide), hne '\'' (by decide),
      hne '(' (by decide), hne '[' (by decide), hne ')' (by decide), hne ']' (by decide)]

theorem Passes.tail_of_space (h : Passes st (c :: s) st') (hquotes : Quotes st)
    (hc : isWhitespace c = true) : Passes st s st' := by
  cases h with
  | escape h => exact absurd hc (by decide)
  | single hescape hcut h => rwa [step_space hquotes hc] at h

theorem Passes.of_append_spaces (h : Passes st (w ++ s) st') (hquotes : Quotes st)
    (hw : ∀ c ∈ w, isWhitespace c = true) : Passes st s st' := by
  induction w with
  | nil => exact h
  | cons c w ih =>
    obtain ⟨hc, hw⟩ := List.forall_mem_cons.1 hw
    exact ih (h.tail_of_space hquotes hc) hw

/-- A stretch can be divided behind everything but a backslash. -/
theorem Passes.divide (h : Passes st (s ++ t) st') (hlast : s.getLast? ≠ some '\\') :
    ∃ mid, Passes st s mid ∧ Passes mid t st' := by
  generalize hst : s ++ t = st₀ at h
  induction h generalizing s with
  | nil =>
    obtain ⟨rfl, rfl⟩ := List.append_eq_nil_iff.1 hst
    exact ⟨_, .nil, .nil⟩
  | @escape st st' d r h ih =>
    rcases s with _ | ⟨c, _ | ⟨e, s⟩⟩
    · obtain rfl : t = '\\' :: d :: r := hst
      exact ⟨st, .nil, h.escape⟩
    · obtain ⟨rfl, -⟩ := List.cons.inj hst
      exact absurd rfl hlast
    · obtain ⟨rfl, rfl, rfl⟩ : c = '\\' ∧ e = d ∧ s ++ t = r := by simpa using hst
      have hlast' : s.getLast? ≠ some '\\' := by
        intro hback
        rw [List.getLast?_cons_cons, List.getLast?_cons, hback] at hlast
        exact hlast rfl
      obtain ⟨mid, hs, ht⟩ := ih hlast' rfl
      exact ⟨mid, hs.escape, ht⟩
  | @single st st' c r hescape hcut h ih =>
    cases s with
    | nil =>
      obtain rfl : t = c :: r := hst
      exact ⟨st, .nil, h.single hescape hcut⟩
    | cons e s =>
      obtain ⟨rfl, rfl⟩ : e = c ∧ s ++ t = r := by simpa using hst
      have hlast' : s.getLast? ≠ some '\\' := by
        intro hback
        rw [List.getLast?_cons, hback] at hlast
        exact hlast rfl
      obtain ⟨mid, hs, ht⟩ := ih hlast' rfl
      exact ⟨mid, hs.single hescape hcut, ht⟩

/-- Trimming keeps what is open, unless it leaves a backslash at the end. -/
theorem Passes.trim (h : Passes st s st') (hquotes : Quotes st)
    (hlast : (trim s).getLast? ≠ some '\\') : Passes st (Text.trim s) st' := by
  have hfront : ∀ c ∈ s.takeWhile isWhitespace, isWhitespace c = true :=
    fun c hc => List.all_eq_true.1 List.all_takeWhile c hc
  have hs : s = s.takeWhile isWhitespace ++ (Text.trim s ++ trailing (trimStart s)) := by
    rw [Text.trim, trimEnd_append_trailing, trimStart, List.takeWhile_append_dropWhile]
  rw [hs] at h
  obtain ⟨mid, htrim, hend⟩ := (h.of_append_spaces hquotes hfront).divide hlast
  have hmid : Passes mid [] st' :=
    Passes.of_append_spaces (by rwa [List.append_nil]) (htrim.quotes hquotes)
      fun c => isWhitespace_of_mem_trailing
  cases hmid
  exact htrim

/-! ## Joining -/

/-- A selector that leads from the start of a list to this depth and open quote. -/
structure Leads (part : List Char) (st : Nat × Option Char) : Prop where
  ne_nil : part ≠ []
  trim_eq : trim part = part
  passes : Passes (0, none) part st

/-- Only the last selector leaves something open. -/
def Joinable : List (List Char) → Prop
  | [] => True
  | part :: rest => (∃ st, Leads part st ∧ (rest ≠ [] → st = (0, none))) ∧ Joinable rest

theorem Passes.leads (h : Passes (0, none) s st) (hne : Text.trim s ≠ [])
    (hlast : (Text.trim s).getLast? ≠ some '\\') : Leads (Text.trim s) st where
  ne_nil := hne
  trim_eq := trim_trim s
  passes := h.trim (by simp [Quotes]) hlast

/-- What a list is split into can be joined. -/
theorem joinable_splitFrom (s : List Char)
    (h : ∀ part ∈ splitFrom 0 none [] s, part ≠ [] ∧ part.getLast? ≠ some '\\') :
    Joinable (splitFrom 0 none [] s) := by
  induction hn : s.length using Nat.strongRecOn generalizing s with
  | ind n ih =>
    have hread : ∀ {front st'} (r), Passes (0, none) front st' →
        splitFrom 0 none [] (front ++ r) = splitFrom st'.1 st'.2 front.reverse r := by
      intro front st' r hpasses
      simpa using hpasses.splitFrom_append [] r
    rcases passes_cases (0, none) s with
      ⟨st', hpasses⟩ | ⟨part, r, rfl, hpasses⟩ | ⟨front, st', rfl, hpasses⟩
    · -- No cut: the text is one selector, or blank.
      have hsplit := hread [] hpasses
      rw [List.append_nil, splitFrom_nil, List.reverse_reverse] at hsplit
      rw [hsplit] at h ⊢
      split
      · trivial
      · rename_i hblank
        rw [if_neg hblank] at h
        obtain ⟨hne, hlast⟩ := h (trim s) (by simp)
        exact ⟨⟨st', hpasses.leads hne hlast, by simp⟩, trivial⟩
    · have hsplit := hread (',' :: r) hpasses
      rw [splitFrom_comma, List.reverse_reverse] at hsplit
      rw [hsplit] at h ⊢
      obtain ⟨⟨hne, hlast⟩, hrest⟩ := List.forall_mem_cons.1 h
      have hlt : r.length < n := by
        rw [← hn, List.length_append, List.length_cons]
        omega
      exact ⟨⟨(0, none), hpasses.leads hne hlast, fun _ => rfl⟩, ih _ hlt r hrest rfl⟩
    · -- A backslash at the end stays there.
      have hsplit := hread ['\\'] hpasses
      have hback : splitFrom st'.1 st'.2 front.reverse ['\\'] =
          splitFrom st'.1 st'.2 ('\\' :: front.reverse) [] := splitFrom_backslash _ _ _
      have hu : trim (front ++ ['\\']) = trimStart front ++ ['\\'] :=
        trim_concat_of_not (by decide) front
      rw [hback, splitFrom_nil, List.reverse_cons, List.reverse_reverse, hu] at hsplit
      rw [hsplit] at h
      exact absurd (by simp) (h (trimStart front ++ ['\\']) (by simp)).2

/-- Selectors that are joined by commas, behind white space, are cut at these commas. -/
theorem Joinable.splitFrom_intercalate (h : Joinable parts)
    (hcur : ∀ c ∈ cur, isWhitespace c = true) :
    splitFrom 0 none cur ([',', ' '].intercalate parts) = parts := by
  induction parts generalizing cur with
  | nil =>
    have hblank : trim (cur.reverse ++ []) = trim [] :=
      trim_spaces_append (by simpa using hcur) []
    rw [List.append_nil] at hblank
    rw [List.intercalate_nil, splitFrom_nil, hblank]
    rfl
  | cons part rest ih =>
    obtain ⟨⟨st, hpart, hopen⟩, hrest⟩ := h
    have hread : ∀ r, splitFrom 0 none cur (part ++ r) =
        splitFrom st.1 st.2 (part.reverse ++ cur) r :=
      hpart.passes.splitFrom_append cur
    have htrim : trim (part.reverse ++ cur).reverse = part := by
      rw [List.reverse_append, List.reverse_reverse, trim_spaces_append (by simpa using hcur),
        hpart.trim_eq]
    cases rest with
    | nil =>
      have hlast := hread []
      rw [List.append_nil, splitFrom_nil, htrim, if_neg (by simp [hpart.ne_nil])] at hlast
      simpa using hlast
    | cons next rest =>
      obtain rfl := hopen (by simp)
      have hspace : ∀ c ∈ [' '], isWhitespace c = true := fun c hc => by
        rw [List.mem_singleton.1 hc]
        rfl
      have hnext := ih hrest hspace
      rw [List.intercalate_cons_cons, List.append_assoc, List.cons_append, hread, splitFrom_comma,
        htrim, List.singleton_append, splitFrom_space (by simp), hnext]

/-- A selector of a list that can be joined is no list by itself. -/
theorem Leads.splitFrom_eq (h : Leads part st) : splitFrom 0 none [] part = [part] := by
  have hjoinable : Joinable [part] := ⟨⟨st, h, by simp⟩, trivial⟩
  have hread : splitFrom 0 none [] ([',', ' '].intercalate [part]) = [part] :=
    hjoinable.splitFrom_intercalate (by simp)
  rwa [List.intercalate_singleton] at hread

theorem Joinable.leads (h : Joinable parts) : ∀ part ∈ parts, ∃ st, Leads part st := by
  induction parts with
  | nil => simp
  | cons part rest ih =>
    obtain ⟨⟨st, hpart, -⟩, hrest⟩ := h
    exact List.forall_mem_cons.2 ⟨⟨st, hpart⟩, ih hrest⟩

/-- If no selector of a list is empty or ends in a backslash, the list of them joined is split into
the same selectors, and each selector is a list of itself alone. -/
theorem split_join_split (selector : String)
    (h : ∀ part ∈ split selector, part ≠ "" ∧ part.toList.getLast? ≠ some '\\') :
    split (join (split selector)) = split selector ∧
      ∀ part ∈ split selector, split part = [part] := by
  have hparts : ∀ part ∈ splitFrom 0 none [] selector.toList,
      part ≠ [] ∧ part.getLast? ≠ some '\\' := by
    intro part hpart
    obtain ⟨hne, hlast⟩ := h (String.ofList part) (List.mem_map_of_mem hpart)
    rw [String.toList_ofList] at hlast
    exact ⟨fun hnil => hne (by rw [hnil]), hlast⟩
  have hjoinable := joinable_splitFrom selector.toList hparts
  constructor
  · have htext : (join (split selector)).toList =
        [',', ' '].intercalate (splitFrom 0 none [] selector.toList) := by
      have hid : String.toList ∘ String.ofList = id := funext fun _ => String.toList_ofList
      rw [join, String.toList_intercalate, split, List.map_map, hid, List.map_id]
      rfl
    rw [split, htext, hjoinable.splitFrom_intercalate (by simp), split]
  · intro part hpart
    obtain ⟨p, hp, rfl⟩ := List.mem_map.1 hpart
    obtain ⟨st, hleads⟩ := hjoinable.leads p hp
    rw [split, String.toList_ofList, hleads.splitFrom_eq, List.map_singleton]

/-- Commas in an escape, a string and parentheses, and a last selector with an open string. -/
theorem split_join_split_open :
    let selector := ".a\\, :is(b,c) ,[d=\",\"] ,\n.e\\ f , [g='h, "
    split selector = [".a\\, :is(b,c)", "[d=\",\"]", ".e\\ f", "[g='h,"] ∧
      split (join (split selector)) = split selector ∧ split "[g='h," = ["[g='h,"] := by
  intro selector
  have hsplit : split selector = [".a\\, :is(b,c)", "[d=\",\"]", ".e\\ f", "[g='h,"] := by
    decide +kernel
  obtain ⟨hjoin, hsingle⟩ := split_join_split selector (by rw [hsplit]; decide +kernel)
  exact ⟨hsplit, hjoin, hsingle _ (by rw [hsplit]; simp)⟩

end CssTheming.Selectors
