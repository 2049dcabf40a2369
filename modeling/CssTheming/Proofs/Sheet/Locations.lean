import CssTheming.Proofs.Sheet.Authored

/-!
# Locations

A source is divided into statements, the ends of blocks and what stands between statements. Every
node of a parsed stylesheet has the line and the column of the first character of its statement, and
further on in the document these places are further on in the source.
-/

namespace CssTheming

namespace Text.Position

/-- The position of an offset: its line has the newlines in front, its column the characters behind
the last one. -/
def ofOffset (source : List Char) (offset : Nat) : Position :=
  ⟨(source.take offset).count '\n' + 1,
    ((source.take offset).reverse.takeWhile (· ≠ '\n')).length + 1⟩

theorem start_after (front : List Char) :
    start.after front =
      ⟨front.count '\n' + 1, (front.reverse.takeWhile (· ≠ '\n')).length + 1⟩ := by
  induction front using List.reverseRecOn with
  | nil => rfl
  | append_singleton front c ih =>
    rw [after_append, ih, after_cons, after_nil, next]
    by_cases hc : c = '\n' <;> simp [hc]

theorem ofOffset_length (front rest : List Char) :
    ofOffset (front ++ rest) front.length = start.after front := by
  rw [ofOffset, List.take_left, start_after]

end Text.Position

namespace Sheet

open Statement

variable {source front : List Char} {heads : List (Nat × Kind)} {top : List Statement}
  {s : Sheet} {p : Nat}

/-! ## Dividing a source -/

/-- The front of a source in its parts, one after the other: statements, of those with a block all
up to the opening brace, and between them white space, semicolons and the closing braces of blocks.
Each statement is listed with its offset. -/
inductive Divided (source : List Char) : List Char → List (Nat × Kind) → Prop
  | nil : Divided source [] []
  | gap {front : List Char} {heads : List (Nat × Kind)} {c : Char}
      (hc : Text.isWhitespace c = true ∨ c = ';' ∨ c = '}') (h : Divided source front heads) :
      Divided source (front ++ [c]) heads
  | statement {front w rest : List Char} {heads : List (Nat × Kind)} {kind : Kind}
      (hsource : source = front ++ (w ++ rest)) (hreads : Reads w kind rest)
      (h : Divided source front heads) :
      Divided source (front ++ w) (heads ++ [(front.length, kind)])

/-- Statements begin one behind the other, and inside of what was divided. -/
theorem Divided.increasing (h : Divided source front heads) :
    heads.Pairwise (fun a b => a.1 < b.1) ∧ ∀ head ∈ heads, head.1 < front.length := by
  induction h with
  | nil => simp
  | gap hc h ih =>
    refine ⟨ih.1, fun head hhead => ?_⟩
    have hlt := ih.2 head hhead
    rw [List.length_append]
    omega
  | @statement front w rest heads kind hsource hreads h ih =>
    have hw : 0 < w.length := List.length_pos_iff.2 hreads.ne_nil
    constructor
    · refine List.pairwise_append.2 ⟨ih.1, List.pairwise_singleton _ _, ?_⟩
      intro a ha b hb
      obtain rfl := List.mem_singleton.1 hb
      exact ih.2 a ha
    · intro head hhead
      rw [List.length_append]
      rcases List.mem_append.1 hhead with hhead | hhead
      · have hlt := ih.2 head hhead
        omega
      · obtain rfl := List.mem_singleton.1 hhead
        dsimp only
        omega

/-- From its offset on, the source goes on with the statement. -/
theorem Divided.reads (h : Divided source front heads) :
    ∀ head ∈ heads, ∃ w rest, source.drop head.1 = w ++ rest ∧ Reads w head.2 rest := by
  induction h with
  | nil => simp
  | gap hc h ih => exact ih
  | @statement front w rest heads kind hsource hreads h ih =>
    refine List.forall_mem_append.2 ⟨ih, List.forall_mem_singleton.2 ⟨w, rest, ?_, hreads⟩⟩
    rw [hsource, List.drop_left]

/-- The kinds of statements with the positions of their offsets. -/
def placed (source : List Char) (heads : List (Nat × Kind)) : List (Kind × Text.Position) :=
  heads.map fun head => (head.2, .ofOffset source head.1)

theorem placed_concat {w rest : List Char} (hsource : source = front ++ (w ++ rest)) (kind : Kind) :
    placed source (heads ++ [(front.length, kind)]) =
      placed source heads ++ [(kind, Text.Position.start.after front)] := by
  rw [placed, List.map_append, List.map_singleton, hsource, Text.Position.ofOffset_length]
  rfl

/-- The reader divides the source and gives each statement the position of its offset. -/
theorem divided_of_run (h : run source .start [] [] = .ok top) :
    ∃ heads, Divided source source heads ∧ allHeads top = placed source heads := by
  have hall : ∃ heads, Divided source source heads ∧
      headsRead top.reverse [] = placed source heads := by
    refine run_progress
      (P := fun front inner blocks => ∃ heads, Divided source front heads ∧
        headsRead inner blocks = placed source heads)
      (fun hc ⟨heads, hdivided, hheads⟩ => ?_)
      (fun hsource hreads ⟨heads, hdivided, hheads⟩ => ?_)
      (fun hsource hreads ⟨heads, hdivided, hheads⟩ => ?_)
      (fun ⟨heads, hdivided, hheads⟩ => ?_)
      (List.nil_append source).symm rfl ⟨[], .nil, rfl⟩ h
    · exact ⟨heads, hdivided.gap (hc.imp_right .inl), hheads⟩
    · refine ⟨_, hdivided.statement hsource hreads, ?_⟩
      rw [headsRead_leaf, hheads, placed_concat hsource]
    · refine ⟨_, hdivided.statement hsource hreads, ?_⟩
      rw [placed_concat hsource, ← hheads]
      rfl
    · exact ⟨heads, hdivided.gap (by simp), by rw [headsRead_close, hheads]⟩
  simpa [headsRead] using hall

/-! ## Nodes -/

/-- What the text of a statement begins with. -/
def OpensWith : Kind → List Char → Prop
  | .root, _ => False
  | .atRule .., s => s.head? = some '@'
  | .comment _, s => ['/', '*'] <+: s
  | .rule selector, s => ∃ c r, s = c :: r ∧ Starts c r ∧ (selector = "" ↔ c = '{')
  | .declaration .., s => ∃ c r, s = c :: r ∧ Starts c r

theorem Reads.opensWith {w rest : List Char} {kind : Kind} (h : Reads w kind rest) :
    OpensWith kind (w ++ rest) := by
  cases h with
  | comment h => exact ⟨_, rfl⟩
  | atRule hname h hend => rfl
  | @rule c r text rest hc h =>
    have hall := append_of_readUntil h
    refine ⟨c, r, by simp [hall], hc, ?_⟩
    cases text with
    | nil =>
      obtain ⟨rfl, -⟩ := List.cons.inj hall
      exact iff_of_true rfl rfl
    | cons d text =>
      obtain ⟨rfl, -⟩ := List.cons.inj hall
      refine iff_of_false ?_ ?_
      · rw [String.ofList_eq_empty_iff, Text.collapse_cons_of_not hc.1]
        simp
      · rintro rfl
        rw [readUntil_cons, if_pos (by decide)] at h
        cases h
  | @declaration c r property t value ending rest hc hproperty hvalue hend =>
    refine ⟨c, r, ?_, hc⟩
    simp [append_of_readUntil hproperty, append_of_readUntil hvalue]

/-- Every node but the root is inside of another one. -/
def AllPlaced (s : Sheet) : Prop := ∀ id < s.size, id ≠ root → ∃ p, s.parent? id = some p

theorem AllPlaced.append (h : s.AllPlaced) (hp : p < s.size) (kind : Kind) (pos : Text.Position) :
    (s.append p kind pos).AllPlaced := by
  intro id hid hroot
  rw [size_append] at hid
  rw [parent?_append hp]
  split
  · exact ⟨p, rfl⟩
  · exact h id (by omega) hroot

mutual
theorem AllPlaced.add : ∀ (t : Statement) {s : Sheet} {p : Nat}, s.AllPlaced → p < s.size →
    (s.add p t).AllPlaced
  | .mk kind pos body, _, _, h, hp => AllPlaced.addAll body (h.append hp kind pos) (by simp)

theorem AllPlaced.addAll : ∀ (ts : List Statement) {s : Sheet} {p : Nat}, s.AllPlaced →
    p < s.size → (s.addAll p ts).AllPlaced
  | [], _, _, h, _ => h
  | t :: ts, _, _, h, hp =>
    AllPlaced.addAll ts (h.add t hp) (Nat.lt_of_lt_of_le hp (add_holds t hp).1.size_le)
end

theorem allPlaced_ofStatements (path : String) (top : List Statement) :
    (ofStatements path top).AllPlaced := by
  refine AllPlaced.addAll top (fun id hid hroot => ?_) Nat.zero_lt_one
  exact absurd (Nat.lt_one_iff.1 hid) hroot

theorem AllPlaced.mem_descendants_root_iff (h : s.AllPlaced) (hs : s.Linked) {id : Nat} :
    id ∈ s.descendants root ↔ id ≠ root ∧ id < s.size := by
  constructor
  · intro hid
    obtain ⟨p, hp, -⟩ := hs.mem_descendants_parent.1 hid
    exact ⟨Nat.ne_of_gt (hs.lt_of_mem_descendants hid), lt_size_of_parent? hp⟩
  · rintro ⟨hroot, hid⟩
    induction id using Nat.strongRecOn with
    | ind id ih =>
      obtain ⟨p, hp⟩ := h id hid hroot
      have hlt := hs.lt_of_parent? hp
      refine hs.mem_descendants_parent.2 ⟨p, hp, ?_⟩
      by_cases hpr : p = root
      · exact .inl hpr
      · exact .inr (ih p hlt hpr (by omega))

/-- What the nodes say and where, in the order of the document. -/
theorem Linked.map_descendants (hs : s.Linked) :
    (s.descendants root).map (fun id => (s.kind? id, (s.location id).position)) =
      (allHeads (s.body root)).map fun head => (some head.1, head.2) := by
  have hhead : ∀ id ∈ s.descendants root,
      (s.head? id).map (fun head => (some head.1, head.2)) =
        some (s.kind? id, (s.location id).position) := by
    intro id hid
    obtain ⟨kind, hk⟩ := exists_kind?_of_mem_descendants hs hid
    rw [head?_eq hk, hk, Option.map_some]
  rw [hs.allHeads_body, List.map_filterMap, List.filterMap_congr hhead, List.filterMap_eq_map']

/-- All nodes of a parsed stylesheet but the root are inside of it. The source consists of their
statements, with nothing but white space, semicolons and closing braces between them, in the order
of the document and each behind the one before. The line and the column of a node are those of the
first character of its statement. -/
theorem locations_of_parse {source path : String} (h : parse source path = .ok s) :
    (∀ id, id ∈ s.descendants root ↔ id ≠ root ∧ id < s.size) ∧
      ∃ heads, Divided source.toList source.toList heads ∧
        heads.Pairwise (fun a b => a.1 < b.1) ∧
        (∀ head ∈ heads, OpensWith head.2 (source.toList.drop head.1)) ∧
        (s.descendants root).map (fun id => (s.kind? id, (s.location id).position)) =
          heads.map fun head => (some head.2, .ofOffset source.toList head.1) := by
  obtain ⟨top, hrun, rfl⟩ := exists_of_parse h
  have hlinked := linked_ofStatements path top
  obtain ⟨heads, hdivided, hheads⟩ := divided_of_run hrun
  refine ⟨fun id => (allPlaced_ofStatements path top).mem_descendants_root_iff hlinked, heads,
    hdivided, hdivided.increasing.1, fun head hhead => ?_, ?_⟩
  · obtain ⟨w, rest, hrest, hreads⟩ := hdivided.reads head hhead
    rw [hrest]
    exact hreads.opensWith
  · rw [hlinked.map_descendants, body_ofStatements, hheads, placed, List.map_map]
    rfl

/-- A comment over two lines, a rule without a selector in an at-rule, a string with a semicolon and
a declaration that the block ends. -/
theorem locations_of_parse_nested :
    let source := "/* a\n*/ @b c \x7b\n  \x7b\x7d\n\x7d; .d \x7b e: ';'\n; f: g \x7d"
    let s := (parse source "a.css").toOption.getD default
    let positions : List Text.Position := [⟨1, 1⟩, ⟨2, 4⟩, ⟨3, 3⟩, ⟨4, 4⟩, ⟨4, 9⟩, ⟨5, 3⟩]
    parse source "a.css" = .ok s ∧
      (s.descendants root).map (fun id => (s.location id).position) = positions ∧
      ∃ heads, Divided source.toList source.toList heads ∧
        heads.map (fun head => Text.Position.ofOffset source.toList head.1) = positions := by
  intro source s positions
  obtain ⟨hparse, hpositions⟩ : parse source "a.css" = .ok s ∧
      (s.descendants root).map (fun id => (s.location id).position) = positions := by
    decide +kernel
  obtain ⟨-, heads, hdivided, -, -, hheads⟩ := locations_of_parse hparse
  refine ⟨hparse, hpositions, heads, hdivided, ?_⟩
  have hsecond := congrArg (List.map Prod.snd) hheads
  rw [List.map_map, List.map_map] at hsecond
  exact hsecond.symm.trans hpositions

end Sheet

end CssTheming
