import CssTheming.Proofs.Value.Unclosed
import CssTheming.Text.Part

/-!
# Nodes of a parsed value

What a node that was read of a text looks like, and what the text contains if there are calls of a
function in it.
-/

namespace CssTheming.Value

variable {function : String} {nested : Bool} {s rest : List Char} {tok : Token}
    {inner ns : List Node}
  {calls : List OpenCall}

def IsSpace (s : List Char) : Prop := ∀ c ∈ s, Text.isWhitespace c = true

/-- A text that can stand in front of an opening parenthesis as the name of a call. -/
def IsName (name : List Char) : Prop := name = [] ∨ WholeWord name ∨ name = [')']

mutual
/-- A node as it is read of a text. -/
def Node.Parsed : Node → Prop
  | .string _ quote => quote = '"' ∨ quote = '\''
  | .space v => IsSpace v.toList
  | .call name before after args key =>
    (IsName name.toList ∧ IsSpace before.toList ∧ IsSpace after.toList ∧ key = none) ∧
      AllParsed args
  | _ => True

def AllParsed : List Node → Prop
  | [] => True
  | n :: ns => n.Parsed ∧ AllParsed ns
end

theorem allParsed_iff : AllParsed ns ↔ ∀ n ∈ ns, n.Parsed := by
  induction ns with
  | nil => simp [AllParsed]
  | cons n ns ih => simp [AllParsed, ih]

theorem AllParsed.reverse (h : AllParsed ns) : AllParsed ns.reverse :=
  allParsed_iff.2 fun n hn => allParsed_iff.1 h n (List.mem_reverse.1 hn)

theorem parsed_urlNode {name before : List Char} (hname : WholeWord name) (hbefore : IsSpace before)
    (contents : List Char) :
    (urlNode name before contents).Parsed := by
  have hargs : AllParsed (if (Text.trimEnd contents).isEmpty then []
      else [.word (String.ofList (Text.trimEnd contents))]) := by
    split
    · exact trivial
    · exact ⟨trivial, trivial⟩
  refine ⟨⟨.inr (.inl ?_), ?_, ?_, rfl⟩, hargs⟩
  · rwa [String.toList_ofList]
  · rwa [String.toList_ofList]
  · rw [String.toList_ofList]
    exact fun c hc => Text.isWhitespace_of_mem_trailing hc

/-- A token as it is read of a text. -/
def Token.Parsed : Token → Prop
  | .node n => n.Parsed
  | .opening name before => IsName name ∧ IsSpace before
  | _ => True

theorem Fits.parsed (h : Fits nested s tok) : tok.Parsed := by
  cases h with
  | word => exact trivial
  | paren => exact trivial
  | string hquote => exact hquote
  | space _ hw =>
    rw [Token.Parsed, Node.Parsed, String.toList_ofList]
    exact hw
  | comment => exact trivial
  | url hname _ hbefore => exact parsed_urlNode hname hbefore _
  | divider => exact trivial
  | opening hname hbefore =>
    exact ⟨hname.imp_right (Or.imp_right And.left), hbefore⟩
  | closing => exact trivial

theorem Lexed.parsed (h : Lexed nested s tok rest) : tok.Parsed := by
  cases h with
  | whole h => exact h.parsed
  | closed _ _ h => exact (h []).parsed
  | frayed _ _ h =>
    cases h with
    | word => exact trivial
    | string hquote => exact hquote
    | url hname _ hbefore => exact parsed_urlNode hname hbefore _

/-- An open call as it is read of a text. -/
structure OpenCall.Parsed (f : OpenCall) : Prop where
  name : IsName f.name.toList
  before : IsSpace f.before.toList
  outer : AllParsed f.outer

theorem parsed_splitSpace (h : AllParsed inner) :
    IsSpace (splitSpace inner).1.toList ∧ AllParsed (splitSpace inner).2 := by
  rw [splitSpace.eq_def]
  split
  · exact h
  · exact ⟨by simp [IsSpace], h⟩

theorem OpenCall.Parsed.close {f : OpenCall} (hf : f.Parsed) (h : AllParsed inner) :
    AllParsed (f.close inner) := by
  obtain ⟨hspace, hargs⟩ := parsed_splitSpace h
  exact ⟨⟨⟨hf.name, hf.before, hspace, rfl⟩, hargs.reverse⟩, hf.outer⟩

theorem allParsed_closeAll (hinner : AllParsed inner) (hcalls : ∀ f ∈ calls, f.Parsed) :
    AllParsed (closeAll inner calls) := by
  induction calls generalizing inner with
  | nil => exact hinner.reverse
  | cons f fs ih =>
    exact ih ((hcalls f List.mem_cons_self).close hinner) fun g hg =>
      hcalls g (List.mem_cons_of_mem f hg)

theorem Token.Parsed.step (h : tok.Parsed) (hinner : AllParsed inner)
    (hcalls : ∀ f ∈ calls, f.Parsed) :
    AllParsed (tok.inner inner calls) ∧ ∀ f ∈ tok.calls inner calls, f.Parsed := by
  cases tok with
  | node n => exact ⟨⟨h, hinner⟩, hcalls⟩
  | divider mark after => exact ⟨⟨trivial, (parsed_splitSpace hinner).2⟩, hcalls⟩
  | opening name before =>
    refine ⟨trivial, List.forall_mem_cons.2 ⟨⟨?_, ?_, hinner⟩, hcalls⟩⟩
    · rw [String.toList_ofList]
      exact h.1
    · rw [String.toList_ofList]
      exact h.2
  | closing =>
    cases calls with
    | nil => exact ⟨hinner, hcalls⟩
    | cons f fs =>
      exact ⟨(hcalls f List.mem_cons_self).close hinner,
        fun g hg => hcalls g (List.mem_cons_of_mem f hg)⟩

theorem allParsed_run (s : List Char) (hinner : AllParsed inner) (hcalls : ∀ f ∈ calls, f.Parsed) :
    AllParsed (run s inner calls) := by
  obtain ⟨inner', calls', ⟨hinner', hcalls'⟩, hrun⟩ :=
    run_invariant (I := fun _ inner calls => AllParsed inner ∧ ∀ f ∈ calls, f.Parsed)
      (fun _ _ _ _ _ _ hlexed h => hlexed.parsed.step h.1 h.2) s inner calls ⟨hinner, hcalls⟩
  rw [hrun]
  exact allParsed_closeAll hinner' hcalls'

theorem allParsed_parse (v : String) : AllParsed (parse v) :=
  allParsed_run v.toList trivial (by simp)

/-! ## Calls in a value -/

theorem Node.Parsed.args {n : Node} (h : n.Parsed) : ∀ m ∈ n.args, m.Parsed := by
  cases n with
  | call => exact allParsed_iff.1 h.2
  | _ => simp [Node.args]

theorem exists_of_mem_callsOf (ns : List Node) {m : Node} (h : AllParsed ns)
    (hm : m ∈ callsOf function ns) :
    m.Parsed ∧ ∃ before after args, m = .call function before after args none := by
  obtain ⟨hparsed, before, after, args, key, rfl⟩ :=
    of_mem_callsOf (fun _ => Node.Parsed.args) ns (allParsed_iff.1 h) hm
  obtain rfl : key = none := hparsed.1.2.2.2
  exact ⟨hparsed, before, after, args, rfl⟩

mutual
/-- The text of a value holds the name and the opening parenthesis of every call in it. -/
theorem Node.text_of_callsOf : ∀ n : Node, n.callsOf function ≠ [] →
    ∃ front back, n.text.toList = front ++ (function.toList ++ '(' :: back)
  | .call name before after args key, h => by
    rw [Node.callsOf] at h
    by_cases hname : name = function
    · refine ⟨[], before.toList ++ ((text args).toList ++ (after.toList ++ [')'])), ?_⟩
      simp [Node.text, hname]
    · rw [if_neg hname] at h
      obtain ⟨front, back, htext⟩ := text_of_callsOf args h
      refine ⟨name.toList ++ '(' :: (before.toList ++ front), back ++ (after.toList ++ [')']), ?_⟩
      simp [Node.text, htext]
  | .word v, h | .string v _, h | .divider v _ _, h | .space v, h | .comment v, h => absurd rfl h

theorem text_of_callsOf : ∀ ns : List Node, callsOf function ns ≠ [] →
    ∃ front back, (text ns).toList = front ++ (function.toList ++ '(' :: back)
  | [], h => absurd rfl h
  | n :: ns, h => by
    rw [text, String.toList_append]
    by_cases hn : n.callsOf function = []
    · rw [callsOf, hn, List.nil_append] at h
      obtain ⟨front, back, htext⟩ := text_of_callsOf ns h
      exact ⟨n.text.toList ++ front, back, by rw [htext, List.append_assoc]⟩
    · obtain ⟨front, back, htext⟩ := Node.text_of_callsOf n hn
      exact ⟨front, back ++ (text ns).toList, by simp [htext]⟩
end

/-- What is closed at the end of a text is no part of a call's beginning. -/
theorem contains_of_callsOf {v : String} (h : callsOf function (parse v) ≠ []) :
    Text.contains v (function ++ "(") = true := by
  obtain ⟨front, back, hcall⟩ := text_of_callsOf (parse v) h
  have heq : v.toList ++ (unclosed v).closing = (front ++ function.toList) ++ '(' :: back := by
    rw [text_parse_eq, String.toList_append, Unclosed.close, String.toList_ofList] at hcall
    simpa using hcall
  obtain ⟨back', hv⟩ := Text.exists_of_append_eq (paren_not_mem_closing v) heq
  rw [Text.contains, Text.occursIn_iff, String.toList_append]
  exact ⟨front, back', by simpa using hv⟩

end CssTheming.Value
