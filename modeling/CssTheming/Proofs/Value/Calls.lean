import CssTheming.Proofs.Value.Reading
import CssTheming.Value.Walk

/-!
# Calls of a function

The calls of one function in a value, none of them inside another, and the value with a node put in
the place of each. Reading a value can be followed by what it does with these calls: one of them is
read as a whole, and everything else token by token.
-/

namespace CssTheming.Value

variable {function : String} {repl : Node → Node}

mutual
/-- The outermost calls of a function, in the order of the text. -/
def Node.callsOf (function : String) : Node → List Node
  | .call name before after args key =>
    if name = function then [.call name before after args key] else callsOf function args
  | _ => []

def callsOf (function : String) : List Node → List Node
  | [] => []
  | n :: ns => n.callsOf function ++ callsOf function ns
end

mutual
/-- All calls of a function in the order of the text, also those inside of others. -/
def Node.allCallsOf (function : String) : Node → List Node
  | .call name before after args key =>
    (if name = function then [.call name before after args key] else []) ++ allCallsOf function args
  | _ => []

def allCallsOf (function : String) : List Node → List Node
  | [] => []
  | n :: ns => n.allCallsOf function ++ allCallsOf function ns
end

mutual
/-- The node with other nodes in the place of the outermost calls of a function. -/
def Node.replaceCalls (function : String) (repl : Node → Node) : Node → Node
  | .call name before after args key =>
    if name = function then repl (.call name before after args key)
    else .call name before after (replaceCalls function repl args) key
  | n => n

def replaceCalls (function : String) (repl : Node → Node) : List Node → List Node
  | [] => []
  | n :: ns => n.replaceCalls function repl :: replaceCalls function repl ns
end

theorem callsOf_append (ms ns : List Node) :
    callsOf function (ms ++ ns) = callsOf function ms ++ callsOf function ns := by
  induction ms with
  | nil => rfl
  | cons m ms ih => rw [List.cons_append, callsOf, ih, callsOf, List.append_assoc]

def Node.args : Node → List Node
  | .call _ _ _ args _ => args
  | _ => []

mutual
theorem Node.allCallsOf_eq :
    ∀ n : Node, (∀ m ∈ n.callsOf function, allCallsOf function m.args = []) →
    n.allCallsOf function = n.callsOf function
  | .call name before after args key, h => by
    rw [Node.callsOf] at h ⊢
    rw [Node.allCallsOf]
    by_cases hname : name = function
    · rw [if_pos hname] at h ⊢
      have hargs : allCallsOf function args = [] := h _ List.mem_cons_self
      rw [if_pos hname, hargs, List.append_nil]
    · rw [if_neg hname] at h ⊢
      rw [if_neg hname, List.nil_append, allCallsOf_eq args h]
  | .word v, _ | .string v _, _ | .divider v _ _, _ | .space v, _ | .comment v, _ => rfl

/-- If no call has another in its arguments, the outermost calls are all. -/
theorem allCallsOf_eq :
    ∀ ns : List Node, (∀ m ∈ callsOf function ns, allCallsOf function m.args = []) →
    allCallsOf function ns = callsOf function ns
  | [], _ => rfl
  | n :: ns, h => by
    rw [callsOf] at h
    rw [allCallsOf, callsOf, Node.allCallsOf_eq n fun m hm => h m (List.mem_append_left _ hm),
      allCallsOf_eq ns fun m hm => h m (List.mem_append_right _ hm)]
end

theorem allCallsOf_eq_nil {ns : List Node}
    (h : ∀ n ∈ ns, n.allCallsOf function = []) : allCallsOf function ns = [] := by
  induction ns with
  | nil => rfl
  | cons n ns ih =>
    rw [allCallsOf, h n List.mem_cons_self, ih fun m hm => h m (List.mem_cons_of_mem n hm),
      List.nil_append]

theorem mem_callsOf {n : Node} {ns : List Node} :
    n ∈ callsOf function ns ↔ ∃ m ∈ ns, n ∈ m.callsOf function := by
  induction ns with
  | nil => simp [callsOf]
  | cons m ms ih => simp [callsOf, ih]

mutual
theorem Node.of_mem_callsOf {P : Node → Prop} (hargs : ∀ n, P n → ∀ m ∈ n.args, P m) :
    ∀ (n : Node) {m : Node}, P n → m ∈ n.callsOf function →
    P m ∧ ∃ before after args key, m = .call function before after args key
  | .call name before after args key, m, hn, hm => by
    rw [Node.callsOf] at hm
    split at hm
    · rename_i hname
      obtain rfl := List.mem_singleton.1 hm
      exact ⟨hn, before, after, args, key, by rw [hname]⟩
    · exact of_mem_callsOf hargs args (hargs _ hn) hm

/-- What holds of nodes, and of the arguments of those that it holds of, holds of all calls. -/
theorem of_mem_callsOf {P : Node → Prop} (hargs : ∀ n, P n → ∀ m ∈ n.args, P m) :
    ∀ (ns : List Node) {m : Node}, (∀ n ∈ ns, P n) → m ∈ callsOf function ns →
    P m ∧ ∃ before after args key, m = .call function before after args key
  | n :: ns, m, hns, hm => by
    rw [callsOf, List.mem_append] at hm
    rcases hm with hm | hm
    · exact Node.of_mem_callsOf hargs n (hns n List.mem_cons_self) hm
    · exact of_mem_callsOf hargs ns (fun n' hn' => hns n' (List.mem_cons_of_mem n hn')) hm
end

theorem replaceCalls_eq_map (ns : List Node) :
    replaceCalls function repl ns = ns.map (Node.replaceCalls function repl) := by
  induction ns with
  | nil => rfl
  | cons n ns ih => rw [replaceCalls, ih, List.map_cons]

theorem replaceCalls_reverse (ns : List Node) :
    replaceCalls function repl ns.reverse = (replaceCalls function repl ns).reverse := by
  rw [replaceCalls_eq_map, replaceCalls_eq_map, List.map_reverse]

/-- A node without calls of the function stays. -/
def Node.Plain (function : String) (n : Node) : Prop :=
  n.callsOf function = [] ∧ ∀ repl : Node → Node, n.replaceCalls function repl = n

theorem plain_urlNode {name : List Char} (hname : String.ofList name ≠ function)
    (before contents : List Char) :
    (urlNode name before contents).Plain function := by
  refine ⟨?_, fun repl => ?_⟩
  · rw [urlNode, Node.callsOf, if_neg hname]
    split <;> rfl
  · rw [urlNode, Node.replaceCalls, if_neg hname]
    split <;> rfl

/-! ## Open calls -/

def OpenCall.replaceCalls (function : String) (repl : Node → Node) (f : OpenCall) : OpenCall :=
  { f with outer := Value.replaceCalls function repl f.outer }

theorem splitSpace_of_ne {n : Node} (h : ∀ v, n ≠ .space v) (ns : List Node) :
    splitSpace (n :: ns) = ("", n :: ns) := by
  rw [splitSpace.eq_def]
  split
  · rename_i v _ hcons
    exact absurd (List.cons.inj hcons).1 (h v)
  · rfl

/-- Calls are replaced by calls. -/
def KeepsCalls (repl : Node → Node) : Prop :=
  ∀ name before after args key, ∃ name' before' after' args' key',
    repl (.call name before after args key) = .call name' before' after' args' key'

theorem splitSpace_replaceCalls (hkeeps : KeepsCalls repl) (inner : List Node) :
    splitSpace (replaceCalls function repl inner) =
      ((splitSpace inner).1, replaceCalls function repl (splitSpace inner).2) := by
  cases inner with
  | nil => rfl
  | cons n ns =>
    cases n with
    | call name before after args key =>
      have hne : ∀ v, (Node.call name before after args key).replaceCalls function repl ≠
          .space v := by
        intro v hv
        rw [Node.replaceCalls] at hv
        split at hv
        · obtain ⟨_, _, _, _, _, hrepl⟩ := hkeeps name before after args key
          rw [hrepl] at hv
          simp at hv
        · simp at hv
      rw [replaceCalls, splitSpace_of_ne hne]
      rfl
    | _ => rfl

theorem close_replaceCalls (hkeeps : KeepsCalls repl) {f : OpenCall} (hf : f.name ≠ function)
    (inner : List Node) :
    replaceCalls function repl (f.close inner) =
      (f.replaceCalls function repl).close (replaceCalls function repl inner) := by
  rw [OpenCall.close, OpenCall.close, splitSpace_replaceCalls hkeeps, replaceCalls,
    Node.replaceCalls, if_neg hf,
    replaceCalls_reverse]
  rfl

theorem closeAll_replaceCalls (hkeeps : KeepsCalls repl) {calls : List OpenCall}
    (hcalls : ∀ f ∈ calls, f.name ≠ function)
    (inner : List Node) :
    replaceCalls function repl (closeAll inner calls) =
      closeAll (replaceCalls function repl inner)
        (calls.map (OpenCall.replaceCalls function repl)) := by
  induction calls generalizing inner with
  | nil => rw [closeAll, List.map_nil, closeAll, replaceCalls_reverse]
  | cons f fs ih =>
    rw [closeAll, ih fun g hg => hcalls g (List.mem_cons_of_mem f hg),
      close_replaceCalls hkeeps (hcalls f List.mem_cons_self)]
    rfl

/-- A token that neither is nor opens a call of the function. -/
def Token.Plain (function : String) : Token → Prop
  | .node n => n.Plain function
  | .opening name _ => String.ofList name ≠ function
  | _ => True

theorem Token.inner_replaceCalls (hkeeps : KeepsCalls repl) {tok : Token}
    (htok : tok.Plain function)
    {calls : List OpenCall} (hcalls : ∀ f ∈ calls, f.name ≠ function) (inner : List Node) :
    replaceCalls function repl (tok.inner inner calls) =
      tok.inner (replaceCalls function repl inner)
        (calls.map (OpenCall.replaceCalls function repl)) := by
  cases tok with
  | node n => rw [Token.inner, replaceCalls, htok.2]; rfl
  | divider mark after => rw [Token.inner, Token.inner, splitSpace_replaceCalls hkeeps]; rfl
  | opening name before => rfl
  | closing =>
    cases calls with
    | nil => rfl
    | cons f fs => exact close_replaceCalls hkeeps (hcalls f List.mem_cons_self) inner

theorem Token.calls_replaceCalls (tok : Token) (inner : List Node) (calls : List OpenCall) :
    (tok.calls inner calls).map (OpenCall.replaceCalls function repl) =
      tok.calls (replaceCalls function repl inner)
        (calls.map (OpenCall.replaceCalls function repl)) := by
  cases tok with
  | closing => exact List.map_tail
  | _ => rfl

theorem Token.calls_plain {tok : Token} (htok : tok.Plain function) {calls : List OpenCall}
    (hcalls : ∀ f ∈ calls, f.name ≠ function) (inner : List Node) : ∀ f ∈ tok.calls inner calls,
    f.name ≠ function := by
  cases tok with
  | node n => exact hcalls
  | divider mark after => exact hcalls
  | opening name before => exact List.forall_mem_cons.2 ⟨htok, hcalls⟩
  | closing => exact fun f hf => hcalls f (List.mem_of_mem_tail hf)

/-! ## Following the calls -/

/-- A call of the function that is read as a whole where it begins. -/
structure CallAt (function : String) (nested : Bool) (s : List Char) (n : Node) : Prop where
  eq : ∃ before after args, n = .call function before after args none
  head : s.head? = (function.toList ++ ['(']).head?
  name : function = "" ∨ WholeWord function.toList ∨ function = ")" ∧ nested = false

theorem Lexed.text_ne_nil {nested : Bool} {s rest : List Char} {tok : Token}
    (h : Lexed nested s tok rest) (hs : s ≠ []) :
    tok.text ≠ [] := by
  cases h with
  | whole h => exact h.text_ne_nil
  | closed hn => simp [Token.text, hn, hs]
  | frayed hn => simp [Token.text, hn, hs]

theorem Lexed.head_eq {nested : Bool} {s rest : List Char} {tok : Token}
    (h : Lexed nested s tok rest) (hs : s ≠ []) :
    s.head? = tok.text.head? := by
  obtain ⟨d, t, htext⟩ := List.exists_cons_of_ne_nil (h.text_ne_nil hs)
  obtain ⟨c, r, rfl⟩ := List.exists_cons_of_ne_nil hs
  rcases h.text_append with happ | ⟨-, close, -, happ⟩
  · rw [← happ, htext]
    rfl
  · rw [happ]
    rfl

/-- Of the tokens that are nodes only a bare `url` can be a call. -/
theorem plain_or_url {nested : Bool} {s rest : List Char} {n : Node}
    (h : Lexed nested s (.node n) rest) :
    n.Plain function ∨
      ∃ name before contents, n = urlNode name before contents ∧ WholeWord name ∧
        String.ofList name = function := by
  have hurl : ∀ name before contents, WholeWord name →
    (urlNode name before contents).Plain function ∨
      ∃ name' before' contents', urlNode name before contents = urlNode name' before' contents' ∧
        WholeWord name' ∧
        String.ofList name' = function := by
    intro name before contents hname
    by_cases hfunction : String.ofList name = function
    · exact .inr ⟨name, before, contents, rfl, hname, hfunction⟩
    · exact .inl (plain_urlNode hfunction before contents)
  have hfits : ∀ s, Fits nested s (.node n) → n.Plain function ∨
      ∃ name before contents, n = urlNode name before contents ∧ WholeWord name ∧
        String.ofList name = function := by
    intro s h
    cases h with
    | url hname => exact hurl _ _ _ hname
    | _ => exact .inl ⟨rfl, fun _ => rfl⟩
  cases h with
  | whole h => exact hfits _ h
  | closed _ _ h => exact hfits [] (h [])
  | frayed _ _ h =>
    cases h with
    | url hname => exact hurl _ _ _ hname
    | _ => exact .inl ⟨rfl, fun _ => rfl⟩

theorem callAt_urlNode {nested : Bool} {s rest name before contents : List Char} (hs : s ≠ [])
    (h : Lexed nested s (.node (urlNode name before contents)) rest) (hname : WholeWord name) :
    CallAt (String.ofList name) nested s (urlNode name before contents) where
  eq := ⟨_, _, _, rfl⟩
  head := by
    rw [h.head_eq hs, Token.text, text_urlNode, String.toList_ofList, List.head?_append,
      List.head?_append]
    rfl
  name := .inr (.inl (by rwa [String.toList_ofList]))

theorem callAt_opening {nested : Bool} {s rest name before : List Char} (hs : s ≠ [])
    (h : Lexed nested s (.opening name before) rest) (after : String) (args : List Node) :
    CallAt (String.ofList name) nested s
      (.call (String.ofList name) (String.ofList before) after args none) where
  eq := ⟨_, _, _, rfl⟩
  head := by
    rw [h.head_eq hs, Token.text, String.toList_ofList, List.head?_append, List.head?_append]
    rfl
  name := by
    cases h with
    | whole h =>
      cases h with
      | opening hname =>
        rcases hname with rfl | hname | ⟨rfl, hnested⟩
        · exact .inl rfl
        · exact .inr (.inl (by rwa [String.toList_ofList]))
        · exact .inr (.inr ⟨rfl, hnested⟩)

/-- What holds at the end of a text, and holds in front of a token or a call of the function if it
holds behind, holds wherever no call of the function is open. -/
theorem run_induction (function : String) {motive : List Char → List Node → List OpenCall → Prop}
    (nil : ∀ inner calls, (∀ f ∈ calls, f.name ≠ function) → motive [] inner calls)
    (token : ∀ s tok rest inner calls, (∀ f ∈ calls, f.name ≠ function) → s ≠ [] →
      Lexed (!calls.isEmpty) s tok rest →
      tok.Plain function → run s inner calls = run rest (tok.inner inner calls)
        (tok.calls inner calls) →
      motive rest (tok.inner inner calls) (tok.calls inner calls) → motive s inner calls)
    (call : ∀ s n rest inner calls, (∀ f ∈ calls, f.name ≠ function) →
      CallAt function (!calls.isEmpty) s n → rest <:+ s →
      run s inner calls = run rest (n :: inner) calls → motive rest (n :: inner) calls →
        motive s inner calls)
    (s : List Char) (inner : List Node) (calls : List OpenCall)
    (hcalls : ∀ f ∈ calls, f.name ≠ function) :
    motive s inner calls := by
  induction hlen : s.length using Nat.strongRecOn generalizing s inner calls with
  | ind k ih =>
    subst hlen
    by_cases hs : s = []
    · subst hs
      exact nil inner calls hcalls
    obtain ⟨tok, rest, hlexed, hlt, hrun⟩ := exists_token (!calls.isEmpty) hs
    have hrun := hrun inner calls rfl
    by_cases htok : tok.Plain function
    · exact token s tok rest inner calls hcalls hs hlexed htok hrun
        (ih _ hlt rest _ _ (Token.calls_plain htok hcalls inner) rfl)
    cases tok with
    | node n =>
      rcases (plain_or_url hlexed : n.Plain function ∨ _) with hplain |
        ⟨name, before, contents, rfl, hname, rfl⟩
      · exact absurd hplain htok
      · exact call s _ rest inner calls hcalls (callAt_urlNode hs hlexed hname) hlexed.suffix hrun
          (ih _ hlt rest _ calls hcalls rfl)
    | opening name before =>
      obtain rfl : String.ofList name = function := Decidable.not_not.1 htok
      obtain ⟨after, args, rest', hrest, hcall⟩ :=
        exists_run_call rest [] ⟨String.ofList name, String.ofList before, inner⟩ calls
      exact call s _ rest' inner calls hcalls (callAt_opening hs hlexed after args)
        (hrest.trans hlexed.suffix) (hrun.trans hcall)
        (ih _ (Nat.lt_of_le_of_lt hrest.length_le hlt) rest' _ calls hcalls rfl)
    | divider mark after => exact absurd trivial htok
    | closing => exact absurd trivial htok

end CssTheming.Value
