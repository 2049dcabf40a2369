import CssTheming.Proofs.Sheet.Placement

/-!
# Where statements stand in their source

The position of a node is the one behind the text in front of its statement, and the source goes on
from there with a text that the reader makes the kind of the node of.
-/

namespace CssTheming

namespace Text

variable {source front s w rest rest' : List Char} {pos : Position}

namespace Position

/-- Each character leads to a later line or further on the same one. -/
theorem before_after (pos : Position) (c : Char) (w : List Char) :
    pos.line < (pos.after (c :: w)).line ∨
      pos.line = (pos.after (c :: w)).line ∧ pos.column < (pos.after (c :: w)).column := by
  have hnext : ∀ (pos : Position) (c : Char), pos.line < (pos.next c).line ∨
      pos.line = (pos.next c).line ∧ pos.column < (pos.next c).column := by
    intro pos c
    rw [next]
    split <;> simp
  induction w generalizing pos c with
  | nil => exact hnext pos c
  | cons d w ih =>
    have hstep := hnext pos c
    have hrest := ih (pos.next c) d
    rw [after_cons]
    omega

theorem eq_nil_of_after_eq (h : pos.after w = pos) : w = [] := by
  cases w with
  | nil => rfl
  | cons c w =>
    have hbefore := before_after pos c w
    rw [h] at hbefore
    omega

end Position

/-- From a position on a source goes on with this text. -/
def RestAt (source : List Char) (pos : Position) (rest : List Char) : Prop :=
  ∃ front, source = front ++ rest ∧ pos = Position.start.after front

theorem RestAt.unique (h : RestAt source pos rest) (h' : RestAt source pos rest') :
    rest' = rest := by
  obtain ⟨front, hsource, rfl⟩ := h
  obtain ⟨front', hsource', hpos⟩ := h'
  rcases List.append_eq_append_iff.1 (hsource.symm.trans hsource') with
    ⟨w, rfl, hrest⟩ | ⟨w, rfl, hrest⟩
  · rw [Position.after_append] at hpos
    rw [Position.eq_nil_of_after_eq hpos.symm, List.nil_append] at hrest
    exact hrest.symm
  · rw [Position.after_append] at hpos
    rwa [Position.eq_nil_of_after_eq hpos, List.nil_append] at hrest

end Text

namespace Sheet

open Statement

variable {source s front rest : List Char} {pos : Text.Position} {inner top : List Statement}
  {blocks : List OpenBlock} {kind : Kind}

/-- A text begins with a statement that the reader makes this kind of. -/
inductive Begins : List Char → Kind → Prop
  | comment {r text rest : List Char} (h : Text.comment? r = some (text, rest)) :
      Begins ('/' :: '*' :: r) (.comment (String.ofList text))
  | atRule {r text rest : List Char} (hname : (r.takeWhile isNameChar).isEmpty = false)
      (h : readUntil headStops 0 (r.dropWhile isNameChar) = (text, rest)) :
      Begins ('@' :: r) (atRule (r.takeWhile isNameChar) text (rest.head? = some '{'))
  | rule {c : Char} {r text rest : List Char} (hc : Starts c r)
      (h : readUntil headStops 0 (c :: r) = (text, '{' :: rest)) : Begins (c :: r) (rule text)
  | declaration {c : Char} {r property t value rest : List Char} (hc : Starts c r)
      (hproperty : readUntil propertyStops 0 (c :: r) = (property, ':' :: t))
      (hvalue : readUntil valueStops 0 t = (value, rest)) :
      Begins (c :: r) (declaration property value)

theorem append_of_readUntil {stops text : List Char} {depth : Nat}
    (h : readUntil stops depth s = (text, rest)) : s = text ++ rest := by
  rw [← readUntil_append stops depth s, h]

/-- The name of an at-rule, its parameters and what ends them. -/
theorem atRule_append {r text : List Char}
    (h : readUntil headStops 0 (r.dropWhile isNameChar) = (text, rest)) :
    '@' :: r = '@' :: r.takeWhile isNameChar ++ text ++ rest := by
  rw [List.append_assoc, ← append_of_readUntil h, List.cons_append, List.takeWhile_append_dropWhile]

/-- A statement ends with one of these characters, if one stands there. -/
def EndsWith (marks ending rest : List Char) : Prop :=
  (∃ c ∈ marks, ending = [c]) ∨ ending = [] ∧ ∀ c ∈ rest.head?, c ∉ marks

/-- In front of the rest the reader takes this text for a statement of this kind, of one with a
block all up to the opening brace. -/
inductive Reads : List Char → Kind → List Char → Prop
  | comment {r text rest : List Char} (h : Text.comment? r = some (text, rest)) :
      Reads ('/' :: '*' :: text ++ ['*', '/']) (.comment (String.ofList text)) rest
  | atRule {r text ending rest : List Char} (hname : (r.takeWhile isNameChar).isEmpty = false)
      (h : readUntil headStops 0 (r.dropWhile isNameChar) = (text, ending ++ rest))
      (hend : EndsWith ['{', ';'] ending rest) :
      Reads ('@' :: r.takeWhile isNameChar ++ text ++ ending)
        (atRule (r.takeWhile isNameChar) text (ending = ['{'])) rest
  | rule {c : Char} {r text rest : List Char} (hc : Starts c r)
      (h : readUntil headStops 0 (c :: r) = (text, '{' :: rest)) :
      Reads (text ++ ['{']) (rule text) rest
  | declaration {c : Char} {r property t value ending rest : List Char} (hc : Starts c r)
      (hproperty : readUntil propertyStops 0 (c :: r) = (property, ':' :: t))
      (hvalue : readUntil valueStops 0 t = (value, ending ++ rest))
      (hend : EndsWith [';'] ending rest) :
      Reads (property ++ ':' :: value ++ ending) (declaration property value) rest

theorem Reads.begins {w : List Char} (h : Reads w kind rest) : Begins (w ++ rest) kind := by
  cases h with
  | @comment r text rest h =>
    have hr : '/' :: '*' :: text ++ ['*', '/'] ++ rest = '/' :: '*' :: r := by
      simp [Text.comment?_eq_some h]
    rw [hr]
    exact .comment h
  | @atRule r text ending rest hname h hend =>
    have hblock : decide (ending = ['{']) = decide ((ending ++ rest).head? = some '{') := by
      rcases hend with ⟨c, -, rfl⟩ | ⟨rfl, hrest⟩
      · simp
      · have hne : rest.head? ≠ some '{' := fun hbrace => hrest '{' hbrace (by simp)
        simp [hne]
    rw [List.append_assoc, ← atRule_append h, hblock]
    exact .atRule hname h
  | @rule c r text rest hc h =>
    rw [List.append_assoc, List.singleton_append, ← append_of_readUntil h]
    exact .rule hc h
  | @declaration c r property t value ending rest hc hproperty hvalue hend =>
    have hall : property ++ ':' :: value ++ ending ++ rest = c :: r := by
      simp [append_of_readUntil hproperty, append_of_readUntil hvalue]
    rw [hall]
    exact .declaration hc hproperty hvalue

theorem Reads.ne_nil {w : List Char} (h : Reads w kind rest) : w ≠ [] := by
  cases h <;> simp

/-! ## Runs -/

/-- What holds of the text, the statements and the open blocks that were read at the start of a run,
and is kept when a character between statements, a statement, the head of a block or the end of one
is read, holds at the end of the run. -/
theorem run_progress {P : List Char → List Statement → List OpenBlock → Prop}
    (hskip : ∀ {front inner blocks c}, Text.isWhitespace c = true ∨ c = ';' →
      P front inner blocks → P (front ++ [c]) inner blocks)
    (hleaf : ∀ {front w rest inner blocks kind}, source = front ++ (w ++ rest) →
      Reads w kind rest → P front inner blocks →
        P (front ++ w) (.mk kind (Text.Position.start.after front) [] :: inner) blocks)
    (hopen : ∀ {front w rest inner blocks kind}, source = front ++ (w ++ rest) →
      Reads w kind rest → P front inner blocks →
        P (front ++ w) [] (⟨kind, Text.Position.start.after front, inner⟩ :: blocks))
    (hclose : ∀ {front inner b blocks}, P front inner (b :: blocks) →
      P (front ++ ['}']) (b.close inner) blocks)
    (hsource : source = front ++ s) (hpos : pos = Text.Position.start.after front)
    (hstart : P front inner blocks) (h : run s pos inner blocks = .ok top) :
    P source top.reverse [] := by
  have hread : ∀ {front s w rest : List Char}, source = front ++ s → s = w ++ rest →
      source = front ++ w ++ rest := by
    rintro front _ w rest hsource rfl
    rw [hsource, List.append_assoc]
  fun_induction run s pos inner blocks generalizing front with
  | case1 pos inner =>
    cases h
    rwa [List.reverse_reverse, hsource, List.append_nil]
  | case3 pos inner blocks c r hc ih =>
    exact ih (by simp [hsource]) (by simp [hpos]) (hskip hc hstart) h
  | case5 pos inner r _ b bs ih =>
    exact ih (by simp [hsource]) (by simp [hpos]) (hclose hstart) h
  | case7 pos inner blocks c r _ _ hc text rest hcomment ih =>
    obtain ⟨rfl, hstar⟩ := hc
    obtain ⟨r, rfl⟩ := List.head?_eq_some_iff.1 hstar
    have hall : '/' :: '*' :: r = ('/' :: '*' :: text ++ ['*', '/']) ++ rest := by
      rw [List.tail_cons] at hcomment
      simp [Text.comment?_eq_some hcomment]
    subst hpos
    exact ih (hread hsource hall) (Text.Position.after_append _ _ _).symm
      (hleaf (hall ▸ hsource) (.comment hcomment) hstart) h
  | case9 pos inner blocks r name hname text t hparams =>
    rename_i ih
    have hreads : Reads ('@' :: name ++ text ++ ['{']) (atRule name text true) t :=
      .atRule (Bool.eq_false_iff.2 hname) hparams (.inl ⟨'{', by simp⟩)
    have hall : '@' :: r = ('@' :: name ++ text ++ ['{']) ++ t := by
      simp [atRule_append hparams, name]
    subst hpos
    exact ih (hread hsource hall) (Text.Position.after_append _ _ _).symm
      (hopen (hall ▸ hsource) hreads hstart) h
  | case10 pos inner blocks r name hname text t hparams =>
    rename_i ih
    have hreads : Reads ('@' :: name ++ text ++ [';']) (atRule name text false) t :=
      .atRule (Bool.eq_false_iff.2 hname) hparams (.inl ⟨';', by simp⟩)
    have hall : '@' :: r = ('@' :: name ++ text ++ [';']) ++ t := by
      simp [atRule_append hparams, name]
    subst hpos
    exact ih (hread hsource hall) (Text.Position.after_append _ _ _).symm
      (hleaf (hall ▸ hsource) hreads hstart) h
  | case11 pos inner blocks r name hname text t hopens hends hparams =>
    rename_i ih
    have hunended : EndsWith ['{', ';'] [] t := by
      refine .inr ⟨rfl, fun c hc hmark => ?_⟩
      obtain ⟨u, rfl⟩ := List.head?_eq_some_iff.1 hc
      rcases List.mem_cons.1 hmark with rfl | hmark
      · exact hopens u rfl
      · obtain rfl := List.mem_singleton.1 hmark
        exact hends u rfl
    have hreads : Reads ('@' :: name ++ text ++ []) (atRule name text false) t :=
      .atRule (Bool.eq_false_iff.2 hname) hparams hunended
    rw [List.append_nil] at hreads
    have hall : '@' :: r = ('@' :: name ++ text) ++ t := atRule_append hparams
    subst hpos
    exact ih (hread hsource hall) (Text.Position.after_append _ _ _).symm
      (hleaf (hall ▸ hsource) hreads hstart) h
  | case12 pos inner blocks c r hspace hbrace hcomment hat _ text t htext ih =>
    have hc := starts_of_not hspace hbrace hat hcomment
    have hall : c :: r = (text ++ ['{']) ++ t := by simp [append_of_readUntil htext]
    subst hpos
    exact ih (hread hsource hall) (Text.Position.after_append _ _ _).symm
      (hopen (hall ▸ hsource) (.rule hc htext) hstart) h
  | case15 pos inner blocks c r hspace hbrace hcomment hat _ property t hproperty _ value u hv =>
    rename_i ih
    have hc := starts_of_not hspace hbrace hat hcomment
    have hall : c :: r = (property ++ ':' :: value ++ [';']) ++ u := by
      simp [append_of_readUntil hproperty, append_of_readUntil hv]
    subst hpos
    exact ih (hread hsource hall) (Text.Position.after_append _ _ _).symm
      (hleaf (hall ▸ hsource) (.declaration hc hproperty hv (.inl ⟨';', by simp⟩)) hstart) h
  | case16 pos inner blocks c r hspace hbrace hcomment hat _ property t hproperty _ value u
      hend hv =>
    rename_i ih
    have hc := starts_of_not hspace hbrace hat hcomment
    have hunended : EndsWith [';'] [] u := by
      refine .inr ⟨rfl, fun c hc hmark => ?_⟩
      obtain ⟨v, rfl⟩ := List.head?_eq_some_iff.1 hc
      obtain rfl := List.mem_singleton.1 hmark
      exact hend v rfl
    have hreads : Reads (property ++ ':' :: value ++ []) (declaration property value) u :=
      .declaration hc hproperty hv hunended
    rw [List.append_nil] at hreads
    have hall : c :: r = (property ++ ':' :: value) ++ u := by
      simp [append_of_readUntil hproperty, append_of_readUntil hv]
    subst hpos
    exact ih (hread hsource hall) (Text.Position.after_append _ _ _).symm
      (hleaf (hall ▸ hsource) hreads hstart) h
  | _ => simp at h

/-! ## Statements and nodes -/

namespace Statement

mutual
/-- The kinds and positions of a statement and of all that is inside it, in order. -/
def heads : Statement → List (Kind × Text.Position)
  | .mk kind pos body => (kind, pos) :: allHeads body

def allHeads : List Statement → List (Kind × Text.Position)
  | [] => []
  | s :: ss => s.heads ++ allHeads ss
end

@[simp] theorem allHeads_append (ss ts : List Statement) :
    allHeads (ss ++ ts) = allHeads ss ++ allHeads ts := by
  induction ss with
  | nil => rfl
  | cons st ss ih => simp [allHeads, ih]

theorem allHeads_flatMap {α : Type} (as : List α) (f : α → List Statement) :
    allHeads (as.flatMap f) = as.flatMap fun a => allHeads (f a) := by
  induction as with
  | nil => rfl
  | cons a as ih => simp [ih]

end Statement

/-- The kinds and positions of the statements that were read so far, the open blocks included, in
order. -/
def headsRead : List Statement → List OpenBlock → List (Kind × Text.Position)
  | inner, [] => allHeads inner.reverse
  | inner, b :: bs => headsRead b.outer bs ++ (b.kind, b.position) :: allHeads inner.reverse

theorem headsRead_leaf (kind : Kind) (pos : Text.Position) (inner : List Statement)
    (blocks : List OpenBlock) :
    headsRead (.mk kind pos [] :: inner) blocks = headsRead inner blocks ++ [(kind, pos)] := by
  cases blocks <;> simp [headsRead, allHeads, heads]

theorem headsRead_close (inner : List Statement) (b : OpenBlock) (blocks : List OpenBlock) :
    headsRead (b.close inner) blocks = headsRead inner (b :: blocks) := by
  cases blocks <;> simp [headsRead, OpenBlock.close, allHeads, heads]

/-- In a source this kind of statement stands at this position. -/
def StandsAt (source : List Char) (head : Kind × Text.Position) : Prop :=
  ∃ rest, Text.RestAt source head.2 rest ∧ Begins rest head.1

/-- All statements that are read stand where their positions say. -/
theorem standsAt_of_run (h : run source .start [] [] = .ok top) :
    ∀ head ∈ allHeads top, StandsAt source head := by
  have hall : ∀ head ∈ headsRead top.reverse [], StandsAt source head := by
    refine run_progress
      (P := fun _ inner blocks => ∀ head ∈ headsRead inner blocks, StandsAt source head)
      (fun _ hall => hall) (fun hsource hreads hall => ?_) (fun hsource hreads hall => ?_)
      (fun hall => ?_) (List.nil_append source).symm rfl (by simp [headsRead, allHeads]) h
    · rw [headsRead_leaf]
      exact List.forall_mem_append.2
        ⟨hall, List.forall_mem_singleton.2 ⟨_, ⟨_, hsource, rfl⟩, hreads.begins⟩⟩
    · exact List.forall_mem_append.2
        ⟨hall, List.forall_mem_singleton.2 ⟨_, ⟨_, hsource, rfl⟩, hreads.begins⟩⟩
    · rwa [headsRead_close]
  simpa [headsRead] using hall

variable {u : Sheet} {id : Nat}

/-- What a node says and where it says it. -/
def head? (u : Sheet) (id : Nat) : Option (Kind × Text.Position) :=
  u.nodes[id]?.map fun n => (n.kind, n.position)

theorem head?_eq (hk : u.kind? id = some kind) :
    u.head? id = some (kind, (u.location id).position) := by
  obtain ⟨n, hn, rfl⟩ := Option.map_eq_some_iff.1 hk
  simp [head?, location, hn]

theorem Linked.allHeads_body (hu : u.Linked) (id : Nat) :
    allHeads (u.body id) = (u.descendants id).filterMap u.head? := by
  induction id using hu.induction with
  | step id ih =>
    rw [body, hu.descendants_eq, allHeads_flatMap, List.filterMap_flatMap]
    refine List.flatMap_congr fun c hc => ?_
    obtain ⟨hlt, hparent⟩ := hu.below hc
    have hsize := lt_size_of_parent? hparent
    have hnode : u.nodes[c]? = some u.nodes[c] := Array.getElem?_eq_getElem hsize
    rw [if_pos ⟨hlt, hsize⟩, hnode, List.filterMap_cons, head?, hnode]
    simp [allHeads, heads, ih c hc]

/-- Every node of a parsed stylesheet stands in the source where its location says. -/
theorem standsAt_of_parse {source path : String} (h : parse source path = .ok u)
    (hid : id ∈ u.descendants root) (hk : u.kind? id = some kind) :
    ∃ rest, Text.RestAt source.toList (u.location id).position rest ∧ Begins rest kind := by
  obtain ⟨top, hrun, rfl⟩ := exists_of_parse h
  have hmem : (kind, ((ofStatements path top).location id).position) ∈
      allHeads ((ofStatements path top).body root) := by
    rw [(linked_ofStatements path top).allHeads_body]
    exact List.mem_filterMap.2 ⟨id, hid, head?_eq hk⟩
  rw [body_ofStatements] at hmem
  exact standsAt_of_run hrun _ hmem

end Sheet

end CssTheming
