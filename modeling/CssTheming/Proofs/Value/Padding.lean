import CssTheming.Proofs.Text.Whitespace
import CssTheming.Proofs.Value.Parsed
import Mathlib.Data.List.Chain

/-!
# White space inside of parentheses

White space is read as far as it goes, so there is none left next to what a call keeps as its white
space behind and in front of its parentheses: the arguments neither begin nor end with a space.
-/

namespace CssTheming.Value

variable {nested : Bool} {s rest : List Char} {tok : Token} {inner ns : List Node}
  {calls : List OpenCall} {f : OpenCall} {n : Node}

def Node.isSpace : Node → Bool
  | .space _ => true
  | _ => false

/-- Nodes that neither begin nor end with a space. -/
structure Trimmed (ns : List Node) : Prop where
  head : ∀ n ∈ ns.head?, n.isSpace = false
  last : ∀ n ∈ ns.getLast?, n.isSpace = false

mutual
/-- The arguments of all calls in the node are trimmed. -/
def Node.Padded : Node → Prop
  | .call _ _ _ args _ => Trimmed args ∧ AllPadded args
  | _ => True

def AllPadded : List Node → Prop
  | [] => True
  | n :: ns => n.Padded ∧ AllPadded ns
end

theorem allPadded_iff : AllPadded ns ↔ ∀ n ∈ ns, n.Padded := by
  induction ns with
  | nil => simp [AllPadded]
  | cons n ns ih => simp [AllPadded, ih]

theorem AllPadded.reverse (h : AllPadded ns) : AllPadded ns.reverse :=
  allPadded_iff.2 fun n hn => allPadded_iff.1 h n (List.mem_reverse.1 hn)

theorem Node.Padded.args (h : n.Padded) : ∀ m ∈ n.args, m.Padded := by
  cases n with
  | call => exact allPadded_iff.1 h.2
  | _ => simp [Node.args]

/-! ## Spaces next to each other -/

/-- No space stands next to another. -/
def Spread (ns : List Node) : Prop := ns.IsChain fun n m => n.isSpace = true → m.isSpace = false

/-- The white space in front of the nodes of the innermost call. -/
def lead : List OpenCall → List Node
  | [] => []
  | f :: _ => [.space f.before]

theorem splitSpace_suffix (inner : List Node) : (splitSpace inner).2 <:+ inner := by
  rw [splitSpace.eq_def]
  split
  · exact List.suffix_cons _ _
  · exact List.suffix_rfl

theorem Spread.head_splitSpace (h : Spread inner) :
    ∀ n ∈ (splitSpace inner).2.head?, n.isSpace = false := by
  intro n hn
  rw [splitSpace.eq_def] at hn
  split at hn
  · exact (List.isChain_cons.1 h).1 n hn rfl
  · rename_i hnot
    cases n with
    | space v =>
      obtain ⟨ns, rfl⟩ := List.head?_eq_some_iff.1 hn
      exact absurd rfl (hnot v ns)
    | _ => rfl

/-- What is left of the nodes behind white space once the space at their end is split off. -/
theorem Spread.trimmed {v : String} (h : Spread (inner ++ [.space v])) :
    Trimmed (splitSpace inner).2.reverse := by
  obtain ⟨hinner, -, hlast⟩ := List.isChain_append.1 h
  refine ⟨fun n hn => ?_, fun n hn => ?_⟩
  · rw [List.head?_reverse] at hn
    have hmem : n ∈ inner.getLast? := by
      obtain ⟨front, hfront⟩ := splitSpace_suffix inner
      rw [← hfront, List.getLast?_append, hn]
      rfl
    by_contra hspace
    exact absurd (hlast n hmem _ rfl (eq_true_of_ne_false hspace)) (by simp [Node.isSpace])
  · rw [List.getLast?_reverse] at hn
    exact Spread.head_splitSpace hinner n hn

/-! ## Tokens -/

theorem padded_urlNode (name before contents : List Char) :
    (urlNode name before contents).Padded := by
  rw [urlNode, Node.Padded]
  split
  · exact ⟨⟨by simp, by simp⟩, trivial⟩
  · exact ⟨⟨by simp [Node.isSpace], by simp [Node.isSpace]⟩, trivial, trivial⟩

theorem Lexed.padded (h : Lexed nested s (.node n) rest) : n.Padded := by
  have hfits : ∀ {s}, Fits nested s (.node n) → n.Padded := by
    intro s h
    cases h with
    | url => exact padded_urlNode _ _ _
    | _ => trivial
  cases h with
  | whole h => exact hfits h
  | closed _ _ h => exact hfits (h [])
  | frayed _ _ h =>
    cases h with
    | url => exact padded_urlNode _ _ _
    | _ => trivial

/-- White space is read where there is some, up to where there is none. -/
theorem Lexed.space (h : Lexed nested s (.node n) rest) (hs : s ≠ []) (hn : n.isSpace = true) :
    ¬Text.StartsOff Text.isWhitespace s ∧ Text.StartsOff Text.isWhitespace rest := by
  have hstart : ∀ {c : Char} {t : List Char}, Text.isWhitespace c = true →
      ¬Text.StartsOff Text.isWhitespace (c :: t) := by
    intro c t hc hstarts
    rw [hstarts c rfl] at hc
    cases hc
  cases h with
  | whole h =>
    cases h with
    | @space w hne hw hrest =>
      obtain ⟨c, t, rfl⟩ := List.exists_cons_of_ne_nil hne
      refine ⟨?_, hrest⟩
      rw [Token.text, Node.text, String.toList_ofList]
      exact hstart (hw c List.mem_cons_self)
    | _ => cases hn
  | closed htext _ h =>
    have h := h []
    cases h with
    | space _ hw =>
      rw [Node.text, String.toList_ofList] at htext
      obtain ⟨c, t, rfl⟩ := List.exists_cons_of_ne_nil hs
      exact ⟨hstart (hw c (htext ▸ List.mem_cons_self)), by simp [Text.StartsOff]⟩
    | _ => cases hn
  | frayed _ _ h => cases h <;> cases hn

/-! ## Reading -/

/-- The nodes around the open calls are laid out. -/
def OuterLaidOut : List OpenCall → Prop
  | [] => True
  | f :: fs => (Spread (f.outer ++ lead fs) ∧ AllPadded f.outer) ∧ OuterLaidOut fs

/-- Nodes without spaces next to each other, and the open calls around them. -/
structure LaidOut (inner : List Node) (calls : List OpenCall) : Prop where
  spread : Spread (inner ++ lead calls)
  padded : AllPadded inner
  outer : OuterLaidOut calls

theorem LaidOut.cons (h : LaidOut inner calls) (hpadded : n.Padded) (hn : n.isSpace = false) :
    LaidOut (n :: inner) calls where
  spread := List.isChain_cons.2 ⟨fun _ _ hspace => by simp [hn] at hspace, h.spread⟩
  padded := ⟨hpadded, h.padded⟩
  outer := h.outer

theorem LaidOut.splitSpace (h : LaidOut inner calls) : LaidOut (splitSpace inner).2 calls where
  spread := by
    obtain ⟨front, hfront⟩ := splitSpace_suffix inner
    have hspread := h.spread
    rw [← hfront, List.append_assoc] at hspread
    exact hspread.right_of_append
  padded := allPadded_iff.2 fun n hn =>
    allPadded_iff.1 h.padded n ((splitSpace_suffix inner).mem hn)
  outer := h.outer

theorem LaidOut.close (h : LaidOut inner (f :: calls)) : LaidOut (f.close inner) calls := by
  obtain ⟨⟨hspread, hpadded⟩, houter⟩ := h.outer
  have hcall : LaidOut f.outer calls := ⟨hspread, hpadded, houter⟩
  exact hcall.cons ⟨h.spread.trimmed, h.splitSpace.padded.reverse⟩ rfl

theorem LaidOut.closeAll (h : LaidOut inner calls) : AllPadded (closeAll inner calls) := by
  induction calls generalizing inner with
  | nil => exact h.padded.reverse
  | cons f fs ih => exact ih h.close

/-- What is read next does not begin with white space where some stands last. -/
def Stops (s : List Char) (ns : List Node) : Prop :=
  ∀ n ∈ ns.head?, n.isSpace = true → Text.StartsOff Text.isWhitespace s

theorem stops_cons (hn : n.isSpace = true → Text.StartsOff Text.isWhitespace s) :
    Stops s (n :: ns) := by
  intro m hm
  obtain rfl : n = m := by simpa using hm
  exact hn

theorem LaidOut.token (h : LaidOut inner calls) (hstops : Stops s (inner ++ lead calls))
    (hs : s ≠ []) (hlexed : Lexed (!calls.isEmpty) s tok rest) :
    LaidOut (tok.inner inner calls) (tok.calls inner calls) ∧
      Stops rest (tok.inner inner calls ++ lead (tok.calls inner calls)) := by
  cases tok with
  | node n =>
    by_cases hn : n.isSpace = true
    · -- Behind another space the text could not begin with white space.
      obtain ⟨hspace, hrest⟩ := hlexed.space hs hn
      have hspread : Spread (n :: (inner ++ lead calls)) := by
        refine List.isChain_cons.2 ⟨fun m hm _ => ?_, h.spread⟩
        by_contra hm'
        exact hspace (hstops m hm (eq_true_of_ne_false hm'))
      exact ⟨⟨hspread, ⟨hlexed.padded, h.padded⟩, h.outer⟩, stops_cons fun _ => hrest⟩
    · have hn := eq_false_of_ne_true hn
      exact ⟨h.cons hlexed.padded hn, stops_cons fun hspace => by simp [hn] at hspace⟩
  | divider mark after =>
    exact ⟨h.splitSpace.cons trivial rfl, stops_cons fun hspace => by cases hspace⟩
  | opening name before =>
    refine ⟨⟨List.isChain_singleton _, trivial, ⟨h.spread, h.padded⟩, h.outer⟩,
      stops_cons fun _ => ?_⟩
    cases hlexed with
    | whole h =>
      cases h with
      | opening _ _ hs => exact hs
  | closing =>
    obtain ⟨f, fs, rfl⟩ := List.exists_cons_of_ne_nil (hlexed.calls_of_closing rfl)
    exact ⟨h.close, stops_cons fun hspace => by cases hspace⟩

/-- The arguments of the calls in a value neither begin nor end with white space. -/
theorem allPadded_parse (v : String) : AllPadded (parse v) := by
  obtain ⟨inner, calls, ⟨hlaid, -⟩, hrun⟩ :=
    run_invariant (I := fun s inner calls => LaidOut inner calls ∧ Stops s (inner ++ lead calls))
      (fun _ _ _ _ _ hs hlexed h => h.1.token h.2 hs hlexed) v.toList [] []
      ⟨⟨List.isChain_nil, trivial, trivial⟩, by simp [Stops, lead]⟩
  rw [parse, hrun]
  exact hlaid.closeAll

/-! ## Texts -/

/-- A text that neither begins nor ends with white space. -/
structure Firm (t : String) : Prop where
  head : ∃ c r, t.toList = c :: r ∧ Text.isWhitespace c = false
  last : ∃ r c, t.toList = r ++ [c] ∧ Text.isWhitespace c = false

theorem Firm.trim_eq {t : String} (h : Firm t) : Text.trim t.toList = t.toList := by
  obtain ⟨c, r, hhead, hc⟩ := h.head
  obtain ⟨r', d, hlast, hd⟩ := h.last
  rw [Text.trim, hhead, Text.trimStart_cons_of_not hc, ← hhead, hlast,
    Text.trimEnd_concat_of_not hd]

theorem firm_of_forall {t : String} (hne : t ≠ "")
    (h : ∀ c ∈ t.toList, Text.isWhitespace c = false) : Firm t := by
  have hne : t.toList ≠ [] := fun hnil => hne (String.toList_eq_nil_iff.1 hnil)
  refine ⟨?_, ?_⟩
  · obtain ⟨c, r, hcons⟩ := List.exists_cons_of_ne_nil hne
    exact ⟨c, r, hcons, h c (by simp [hcons])⟩
  · exact ⟨_, _, (List.dropLast_append_getLast hne).symm, h _ (List.getLast_mem hne)⟩

/-- Trimmed nodes have a trimmed text if the text of each but spaces is. -/
theorem Trimmed.trim_text (h : Trimmed ns) (hfirm : ∀ n ∈ ns, n.isSpace = false → Firm n.text) :
    Text.trim (text ns).toList = (text ns).toList := by
  rcases List.eq_nil_or_concat' ns with rfl | ⟨front, n, rfl⟩
  · rfl
  refine Firm.trim_eq ⟨?_, ?_⟩
  · have hne : front ++ [n] ≠ [] := by simp
    obtain ⟨m, ms, hcons⟩ := List.exists_cons_of_ne_nil hne
    rw [hcons] at h hfirm ⊢
    obtain ⟨c, r, htext, hc⟩ := (hfirm m List.mem_cons_self (h.head m rfl)).head
    exact ⟨c, r ++ (text ms).toList, by rw [text, String.toList_append, htext]; rfl, hc⟩
  · obtain ⟨r, c, htext, hc⟩ := (hfirm n (by simp) (h.last n (by simp))).last
    refine ⟨(text front).toList ++ r, c, ?_, hc⟩
    simp [text_append, text, htext]

end CssTheming.Value
