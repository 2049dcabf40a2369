import CssTheming.Proofs.CustomProperty
import CssTheming.Proofs.Value.Entering
import CssTheming.Proofs.Value.Frayed
import CssTheming.Schema

/-!
# Marked references

The keys that a schema finds in a value are those of the `var` calls with one word in them. A
backslash at the end of the value brings none in, and calls of another function that are replaced by
references bring in exactly their keys.
-/

namespace CssTheming.Schema

open Value

variable {start function : String}

/-! ## Marking without a walk -/

mutual
def markedNode (start : String) : Node → Node
  | .call name before after args key =>
    (marked? start (.call name before after args key)).getD
      (.call name before after (markedNodes start args) key)
  | n => n

def markedNodes (start : String) : List Node → List Node
  | [] => []
  | n :: ns => markedNode start n :: markedNodes start ns
end

mutual
theorem walk_marked?_node : ∀ n : Node,
    Id.run (n.walk fun n => (pure (marked? start n) : Id _)) = markedNode start n
  | .call name before after args key => by
    rw [Node.walk, markedNode, ← walk_marked? args]
    cases marked? start (.call name before after args key) <;> rfl
  | .word v | .string v _ | .divider v _ _ | .space v | .comment v => rfl

theorem walk_marked? : ∀ ns : List Node,
    Id.run (walk (fun n => (pure (marked? start n) : Id _)) ns) = markedNodes start ns
  | [] => rfl
  | n :: ns => by
    rw [walk, markedNodes, ← walk_marked?_node n, ← walk_marked? ns]
    rfl
end

/-- Entering a marked reference would change nothing: there is one word in it, and around that white
space and comments. -/
theorem enters_marked?_iff {go : Node → Id Node} :
    Enters (fun n => (pure (marked? start n) : Id _)) go ↔
      go = Node.walk fun n => (pure (marked? start n) : Id _) := by
  refine PutsLeaves.enters_iff fun n => ⟨pure ⟨marked? start n, fun n' hn' a ha => ?_⟩, rfl⟩
  cases n with
  | call name before after args key =>
    rw [marked?] at hn'
    split at hn'
    · split at hn'
      · rename_i argument hfilter
        obtain rfl := Option.some.inj hn'
        by_cases htrivia : a.isTrivia = true
        · cases a with
          | space _ | comment _ => exact ⟨rfl, rfl⟩
          | _ => cases htrivia
        · have hmem : a ∈ args.filter fun n => !n.isTrivia :=
            List.mem_filter.2 ⟨ha, by simpa using htrivia⟩
          rw [hfilter] at hmem
          obtain rfl := List.mem_singleton.1 hmem
          exact ⟨rfl, rfl⟩
      · cases hn'
    · cases hn'
  | _ => cases hn'

theorem markReferences_eq (start value : String) :
    markReferences start value = markedNodes start (parse value) :=
  walk_marked? (parse value)

theorem markedNodes_append (ms ns : List Node) :
    markedNodes start (ms ++ ns) = markedNodes start ms ++ markedNodes start ns := by
  induction ms with
  | nil => rfl
  | cons m ms ih => rw [List.cons_append, markedNodes, ih, markedNodes, List.cons_append]

/-! ## The argument of a reference -/

def word? : Node → Option String
  | .word a => some a
  | _ => none

/-- The word that is alone among arguments, white space and comments aside. -/
def soleWord? (args : List Node) : Option String :=
  match args.filter fun n => !n.isTrivia with
  | [n] => word? n
  | _ => none

theorem marked?_call (name before after : String) (args : List Node) (key : Option String) :
    marked? start (.call name before after args key) =
      if name = "var" then
        (soleWord? args).map fun a => .call name before after args (CustomProperty.key? start a)
      else none := by
  rw [marked?, soleWord?]
  split
  · split <;> rename_i h
    · rw [h]
      rfl
    · split <;> rename_i n h'
      · cases n with
        | word a => exact absurd h' (h a)
        | _ => rfl
      · rfl
  · rfl

theorem soleWord?_eq_some {args : List Node} {a : String} : soleWord? args = some a ↔
    ∃ front back, args = front ++ .word a :: back ∧ (∀ n ∈ front, n.isTrivia = true) ∧
      ∀ n ∈ back, n.isTrivia = true := by
  have hnil : ∀ ns : List Node, (ns.filter fun n => !n.isTrivia) = [] ↔
      ∀ n ∈ ns, n.isTrivia = true := by
    intro ns
    simp [List.filter_eq_nil_iff]
  rw [soleWord?]
  constructor
  · intro h
    split at h <;> rename_i n hfilter
    · obtain rfl : n = .word a := by
        cases n <;> simp_all [word?]
      obtain ⟨front, back, rfl, hfront, -, hback⟩ := List.filter_eq_cons_iff.1 hfilter
      exact ⟨front, back, rfl, by simpa using hfront, (hnil back).1 hback⟩
    · simp at h
  · rintro ⟨front, back, rfl, hfront, hback⟩
    rw [List.filter_append, (hnil front).2 hfront, List.filter_cons, (hnil back).2 hback]
    rfl

theorem keys_of_isTrivia {ns : List Node} (h : ∀ n ∈ ns, n.isTrivia = true) : keys ns = [] := by
  induction ns with
  | nil => rfl
  | cons n ns ih =>
    rw [keys, ih fun m hm => h m (List.mem_cons_of_mem n hm), List.append_nil]
    have := h n List.mem_cons_self
    cases n <;> first | rfl | simp [Node.isTrivia] at this

theorem keys_of_soleWord {args : List Node} {a : String} (h : soleWord? args = some a) :
    keys args = [] := by
  obtain ⟨front, back, rfl, hfront, hback⟩ := soleWord?_eq_some.1 h
  rw [keys_append, keys_of_isTrivia hfront, keys, keys_of_isTrivia hback]
  rfl

/-- The keys of a marked call. -/
theorem keys_markedNode_call (name before after : String) (args : List Node) (key : Option String) :
    (markedNode start (.call name before after args key)).keys =
      match (if name = "var" then soleWord? args else none) with
      | some a => (CustomProperty.key? start a).toList
      | none => key.toList ++ keys (markedNodes start args) := by
  rw [markedNode, marked?_call]
  split
  · cases h : soleWord? args with
    | none => rfl
    | some a =>
      rw [Option.map_some, Option.getD_some, Node.keys, keys_of_soleWord h, List.append_nil]
  · rfl

/-! ## Values that end in a backslash -/

theorem soleWord?_concat (args : List Node) {n : Node} (hn : n.isTrivia = false) :
    soleWord? (args ++ [n]) = if args.all Node.isTrivia then word? n else none := by
  have hlast : ([n].filter fun n => !n.isTrivia) = [n] := by simp [hn]
  rw [soleWord?, List.filter_append, hlast]
  by_cases hall : args.all Node.isTrivia = true
  · have hnil : (args.filter fun n => !n.isTrivia) = [] := by
      simpa [List.filter_eq_nil_iff] using hall
    rw [if_pos hall, hnil]
    rfl
  · rw [if_neg hall]
    cases hargs : args.filter fun n => !n.isTrivia with
    | nil => exact absurd (by simpa [List.filter_eq_nil_iff] using hargs) hall
    | cons m ms => cases ms <;> rfl

theorem isTrivia_of_frayed {n n' : Node} (h : Frayed function n n') :
    n.isTrivia = false ∧ n'.isTrivia = false := by
  cases h <;> exact ⟨rfl, rfl⟩

/-- A sole word that ends in a backslash names a key only if it did so before. -/
theorem word?_of_frayed {n n' : Node} (h : Frayed function n n') :
    word? n = none ∧ word? n' = none ∨
      ∃ a a', word? n = some a ∧ word? n' = some a' ∧
        ∀ start, CustomProperty.key? start a = none → CustomProperty.key? start a' = none := by
  cases h with
  | word hw hend => exact .inr ⟨_, _, rfl, rfl, fun _ => CustomProperty.key?_of_dangles hw hend⟩
  | _ => exact .inl ⟨rfl, rfl⟩

theorem keys_markedNode_urlNode {name : List Char} (hurl : name.map Char.toLower = ['u', 'r', 'l'])
    (before contents : List Char) :
    (markedNode start (urlNode name before contents)).keys = [] := by
  have hname : String.ofList name ≠ "var" := by
    intro h
    have hchars : name = ['v', 'a', 'r'] := by simpa [← String.toList_inj] using h
    rw [hchars] at hurl
    exact absurd hurl (by decide)
  rw [urlNode, keys_markedNode_call, if_neg hname]
  split
  · simp at *
  · split <;> rfl

theorem keys_markedNode_of_frayed {n n' : Node} (h : Frayed function n n')
    (hn : (markedNode start n).keys = []) :
    (markedNode start n').keys = [] := by
  induction h with
  | word => rfl
  | string => rfl
  | url hname hurl before contents contents' => exact keys_markedNode_urlNode hurl before contents'
  | @call name hname before after args n n' h key ih =>
    obtain ⟨htrivia, htrivia'⟩ := isTrivia_of_frayed h
    have hdeep : key.toList ++ keys (markedNodes start (args ++ [n])) = [] →
        key.toList ++ keys (markedNodes start (args ++ [n'])) = [] := by
      intro hkeys
      rw [markedNodes_append, keys_append, List.append_eq_nil_iff,
        List.append_eq_nil_iff] at hkeys ⊢
      refine ⟨hkeys.1, hkeys.2.1, ?_⟩
      have : (markedNode start n).keys = [] := by simpa [markedNodes, keys] using hkeys.2.2
      simp [markedNodes, keys, ih this]
    rw [keys_markedNode_call, soleWord?_concat args htrivia] at hn
    rw [keys_markedNode_call, soleWord?_concat args htrivia']
    by_cases hsole : name = "var" ∧ args.all Node.isTrivia = true
    · rw [if_pos hsole.1, if_pos hsole.2] at hn ⊢
      rcases word?_of_frayed h with ⟨hword, hword'⟩ | ⟨a, a', hword, hword', hkey⟩
      · rw [hword] at hn
        rw [hword']
        exact hdeep hn
      · rw [hword] at hn
        rw [hword']
        simpa using hkey start (by simpa using hn)
    · have hnone : ∀ o : Option String,
          (if name = "var" then if args.all Node.isTrivia = true then o else none else none) =
          none := by
        intro o
        by_cases hvar : name = "var"
        · rw [if_pos hvar, if_neg fun hall => hsole ⟨hvar, hall⟩]
        · rw [if_neg hvar]
      rw [hnone] at hn ⊢
      exact hdeep hn

theorem keys_markedNodes_of_sameButEnd {ns ns' : List Node} (h : SameButEnd function ns ns')
    (hns : keys (markedNodes start ns) = []) : keys (markedNodes start ns') = [] := by
  rcases h with rfl | ⟨ms, n, n', hn, rfl, rfl⟩
  · exact hns
  · rw [markedNodes_append, keys_append, List.append_eq_nil_iff] at hns ⊢
    refine ⟨hns.1, ?_⟩
    have : (markedNode start n).keys = [] := by simpa [markedNodes, keys] using hns.2
    simp [markedNodes, keys, keys_markedNode_of_frayed hn this]

/-! ## Replaced calls -/

theorem isTrivia_replaceCalls {repl : Node → Node} (hkeeps : KeepsCalls repl) (n : Node) :
    (n.replaceCalls function repl).isTrivia = n.isTrivia ∧
      word? (n.replaceCalls function repl) = word? n := by
  cases n with
  | call name before after args key =>
    rw [Node.replaceCalls]
    split
    · obtain ⟨_, _, _, _, _, hrepl⟩ := hkeeps name before after args key
      rw [hrepl]
      exact ⟨rfl, rfl⟩
    · exact ⟨rfl, rfl⟩
  | _ => exact ⟨rfl, rfl⟩

theorem soleWord?_replaceCalls {repl : Node → Node} (hkeeps : KeepsCalls repl) (args : List Node) :
    soleWord? (replaceCalls function repl args) = soleWord? args := by
  have hfilter : (replaceCalls function repl args).filter (fun n => !n.isTrivia) =
      (args.filter fun n => !n.isTrivia).map (Node.replaceCalls function repl) := by
    rw [replaceCalls_eq_map, List.filter_map]
    congr 1
    apply List.filter_congr
    intro n _
    rw [Function.comp_apply, (isTrivia_replaceCalls hkeeps n).1]
  rw [soleWord?, soleWord?, hfilter]
  cases args.filter fun n => !n.isTrivia with
  | nil => rfl
  | cons m ms =>
    cases ms with
    | nil => exact (isTrivia_replaceCalls hkeeps m).2
    | cons _ _ => rfl

theorem callsOf_of_isTrivia {ns : List Node}
    (h : ∀ n ∈ ns, n.isTrivia = true) : callsOf function ns = [] := by
  induction ns with
  | nil => rfl
  | cons n ns ih =>
    rw [callsOf, ih fun m hm => h m (List.mem_cons_of_mem n hm), List.append_nil]
    have := h n List.mem_cons_self
    cases n <;> first | rfl | simp [Node.isTrivia] at this

theorem callsOf_of_soleWord {args : List Node} {a : String} (h : soleWord? args = some a) :
    callsOf function args = [] := by
  obtain ⟨front, back, rfl, hfront, hback⟩ := soleWord?_eq_some.1 h
  rw [callsOf_append, callsOf_of_isTrivia hfront, callsOf, callsOf_of_isTrivia hback]
  rfl

mutual
/-- References in the place of calls are the references of the value, if it had none. -/
theorem keys_markedNode_replaceCalls {repl : Node → Node} {key : Node → String}
    (hkeeps : KeepsCalls repl) :
    ∀ n : Node, (∀ m ∈ n.callsOf function, (markedNode start (repl m)).keys = [key m]) →
      (markedNode start n).keys = [] →
      (markedNode start (n.replaceCalls function repl)).keys = (n.callsOf function).map key
  | .call name before after args k, hkeys, hn => by
    rw [Node.callsOf] at hkeys ⊢
    rw [Node.replaceCalls]
    by_cases hname : name = function
    · rw [if_pos hname] at hkeys ⊢
      rw [if_pos hname]
      exact hkeys _ List.mem_cons_self
    · rw [if_neg hname] at hkeys ⊢
      rw [if_neg hname, keys_markedNode_call, soleWord?_replaceCalls hkeeps]
      rw [keys_markedNode_call] at hn
      split <;> rename_i hsole <;> rw [hsole] at hn
      · rename_i a
        have hargs : soleWord? args = some a := by
          split at hsole
          · exact hsole
          · simp at hsole
        rw [callsOf_of_soleWord hargs, List.map_nil]
        exact hn
      · rw [List.append_eq_nil_iff] at hn
        rw [hn.1, List.nil_append]
        exact keys_markedNodes_replaceCalls hkeeps args hkeys hn.2
  | .word v, _, _ | .string v _, _, _ | .divider v _ _, _, _ | .space v, _, _ | .comment v, _, _ =>
    rfl

theorem keys_markedNodes_replaceCalls {repl : Node → Node} {key : Node → String}
    (hkeeps : KeepsCalls repl) :
    ∀ ns : List Node, (∀ m ∈ callsOf function ns, (markedNode start (repl m)).keys = [key m]) →
      keys (markedNodes start ns) = [] →
        keys (markedNodes start (replaceCalls function repl ns)) = (callsOf function ns).map key
  | [], _, _ => rfl
  | n :: ns, hkeys, hns => by
    rw [markedNodes, keys, List.append_eq_nil_iff] at hns
    rw [callsOf] at hkeys ⊢
    rw [replaceCalls, markedNodes, keys, List.map_append,
      keys_markedNode_replaceCalls hkeeps n (fun m hm => hkeys m (List.mem_append_left _ hm)) hns.1,
      keys_markedNodes_replaceCalls hkeeps ns (fun m hm =>
        hkeys m (List.mem_append_right _ hm)) hns.2]
end

end CssTheming.Schema
