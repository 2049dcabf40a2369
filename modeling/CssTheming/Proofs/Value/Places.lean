import CssTheming.Proofs.Value.Walk

/-!
# The nodes that a walk visits

A node has a place in a value: the numbers, from zero, of the nodes to go into, from the outside in.
With a visitor that puts a word in the place of each call of one function, both walks make the same
value. Going from the inside out visits every place once, with what is inside it replaced. Going
from the outside in visits once every place that is not inside a call of the function.
-/

namespace CssTheming.Value

variable {function word : String}

/-! ## Nodes and their arguments -/

/-- The node with other arguments, if it is a call. -/
def Node.withArgs : Node → List Node → Node
  | .call name before after _ key, args => .call name before after args key
  | n, _ => n

mutual
theorem Node.induction {P : Node → Prop} (h : ∀ n : Node, (∀ m ∈ n.args, P m) → P n) : ∀ n, P n
  | .call _ _ _ args _ => h _ (induction_all h args)
  | .word _ | .string _ _ | .divider _ _ _ | .space _ | .comment _ => h _ fun _ hm => by cases hm

/-- What holds of a node if it holds of its arguments holds of all nodes. -/
theorem induction_all {P : Node → Prop} (h : ∀ n : Node, (∀ m ∈ n.args, P m) → P n) :
    ∀ ns : List Node, ∀ n ∈ ns, P n
  | [] => fun _ hn => by cases hn
  | n :: ns => List.forall_mem_cons.2 ⟨Node.induction h n, induction_all h ns⟩
end

instance (function : String) : DecidablePred (Node.IsCallOf function)
  | .call name _ _ _ _ => inferInstanceAs (Decidable (name = function))
  | .word _ | .string _ _ | .divider _ _ _ | .space _ | .comment _ => .isFalse id

theorem Node.replaceCalls_eq (repl : Node → Node) (n : Node) :
    n.replaceCalls function repl =
      if n.IsCallOf function then repl n
      else n.withArgs (Value.replaceCalls function repl n.args) := by
  cases n <;> rfl

theorem callReplacement?_eq (n : Node) :
    callReplacement? function word n = if n.IsCallOf function then some (.word word) else none := by
  cases n <;> rfl

section Monad

variable {m : Type → Type} [Monad m] [LawfulMonad m]

theorem Node.walk_eq (visit : Node → m (Option Node)) (n : Node) :
    n.walk visit = (do
      match ← visit n with
      | some n' => return n'
      | none => return n.withArgs (← Value.walk visit n.args)) := by
  cases n <;> simp only [Node.walk] <;> refine bind_congr fun r => ?_ <;>
    cases r <;> simp [Value.walk, Node.withArgs, Node.args]

theorem Node.rebuild_eq (visit : Node → m Node) (n : Node) :
    n.rebuild visit = (do visit (n.withArgs (← Value.rebuild visit n.args))) := by
  cases n <;> simp [Node.rebuild, Value.rebuild, Node.withArgs, Node.args]

end Monad

/-! ## Places -/

/-- The node at a place inside another one; the empty place is its own. -/
def Node.inside? (n : Node) : List Nat → Option Node
  | [] => some n
  | i :: p => n.args[i]?.bind (·.inside? p)

/-- The node at a place in a value. -/
def nodeAt? (ns : List Node) : List Nat → Option Node
  | [] => none
  | i :: p => ns[i]?.bind (·.inside? p)

/-- A place in a value with one more node in front. -/
def shifted : List Nat → List Nat := List.modifyHead (· + 1)

mutual
/-- The places inside a node, given how a node and the places inside its arguments are arranged. -/
def Node.places (arrange : Node → List (List Nat) → List (List Nat)) : Node → List (List Nat)
  | .call name before after args key =>
    arrange (.call name before after args key) (places arrange args)
  | n => arrange n []

/-- The places in a value, node by node. -/
def places (arrange : Node → List (List Nat) → List (List Nat)) : List Node → List (List Nat)
  | [] => []
  | n :: ns => (n.places arrange).map (0 :: ·) ++ (places arrange ns).map shifted
end

/-- A node in front of what is inside it, and calls of the function without their arguments. -/
def outsideIn (function : String) (n : Node) (inner : List (List Nat)) : List (List Nat) :=
  [] :: if n.IsCallOf function then [] else inner

/-- A node behind what is inside it. -/
def insideOut (_ : Node) (inner : List (List Nat)) : List (List Nat) := inner ++ [[]]

variable {arrange : Node → List (List Nat) → List (List Nat)} {n : Node} {ns : List Node}
  {p : List Nat}

theorem Node.places_eq (n : Node) :
    n.places arrange = arrange n (Value.places arrange n.args) := by
  cases n <;> rfl

theorem mem_places :
    p ∈ places arrange ns ↔ ∃ i q n, p = i :: q ∧ ns[i]? = some n ∧ q ∈ n.places arrange := by
  induction ns generalizing p with
  | nil => simp [places]
  | cons n ns ih =>
    rw [places, List.mem_append, List.mem_map, List.mem_map]
    constructor
    · rintro (⟨q, hq, rfl⟩ | ⟨p', hp', rfl⟩)
      · exact ⟨0, q, n, rfl, rfl, hq⟩
      · obtain ⟨i, q, n', rfl, hn', hq⟩ := ih.1 hp'
        exact ⟨i + 1, q, n', rfl, hn', hq⟩
    · rintro ⟨_ | i, q, n', rfl, hn', hq⟩
      · obtain rfl : n = n' := by simpa using hn'
        exact .inl ⟨q, hq, rfl⟩
      · exact .inr ⟨i :: q, ih.2 ⟨i, q, n', rfl, by simpa using hn', hq⟩, rfl⟩

theorem exists_cons_of_mem_places (h : p ∈ places arrange ns) : ∃ i q, p = i :: q := by
  obtain ⟨i, q, -, rfl, -⟩ := mem_places.1 h
  exact ⟨i, q, rfl⟩

theorem not_cons_prefix_cons {i j : Nat} {p q : List Nat} :
    ¬i :: p <+: j :: q ↔ (i = j → ¬p <+: q) := by
  rw [List.cons_prefix_cons]
  exact not_and

theorem not_prefix_ne {p q : List Nat} (h : ¬p <+: q) : p ≠ q := by
  rintro rfl
  exact h List.prefix_rfl

/-- An order of places that is decided inside the first node in which two of them differ. -/
theorem pairwise_places {R : List Nat → List Nat → Prop}
    (hcons : ∀ i j p q, R (i :: p) (j :: q) ↔ (i = j → R p q))
    (h : ∀ n ∈ ns, (n.places arrange).Pairwise R) : (places arrange ns).Pairwise R := by
  induction ns with
  | nil => exact .nil
  | cons n ns ih =>
    obtain ⟨hn, hns⟩ := List.forall_mem_cons.1 h
    rw [places, List.pairwise_append, List.pairwise_map, List.pairwise_map]
    refine ⟨hn.imp fun hpq => (hcons _ _ _ _).2 fun _ => hpq, ?_, ?_⟩
    · refine (ih hns).imp_of_mem fun {p q} hp hq hpq => ?_
      obtain ⟨i, p, rfl⟩ := exists_cons_of_mem_places hp
      obtain ⟨j, q, rfl⟩ := exists_cons_of_mem_places hq
      exact (hcons _ _ _ _).2 fun hij => (hcons _ _ _ _).1 hpq (Nat.succ.inj hij)
    · intro p hp q hq
      obtain ⟨p, -, rfl⟩ := List.mem_map.1 hp
      obtain ⟨q', hq', rfl⟩ := List.mem_map.1 hq
      obtain ⟨j, q', rfl⟩ := exists_cons_of_mem_places hq'
      exact (hcons _ _ _ _).2 fun hij => absurd hij (Nat.succ_ne_zero j).symm

/-! ## The places from the inside out -/

theorem mem_places_insideOut_of
    (h : ∀ n ∈ ns, ∀ p, p ∈ n.places insideOut ↔ (n.inside? p).isSome = true) :
    p ∈ places insideOut ns ↔ (nodeAt? ns p).isSome = true := by
  rw [mem_places]
  constructor
  · rintro ⟨i, q, n, rfl, hn, hq⟩
    rw [nodeAt?, hn]
    exact (h n (List.mem_of_getElem? hn) q).1 hq
  · intro hp
    cases p with
    | nil => cases hp
    | cons i q =>
      rw [nodeAt?, Option.isSome_bind, Option.any_eq_true] at hp
      obtain ⟨n, hn, hq⟩ := hp
      exact ⟨i, q, n, rfl, hn, (h n (List.mem_of_getElem? hn) q).2 hq⟩

theorem Node.mem_places_insideOut (n : Node) :
    ∀ p, p ∈ n.places insideOut ↔ (n.inside? p).isSome = true := by
  induction n using Node.induction with
  | h n ih =>
    intro p
    rw [Node.places_eq, insideOut, List.mem_append, List.mem_singleton, mem_places_insideOut_of ih]
    cases p with
    | nil => simp [nodeAt?, Node.inside?]
    | cons i p => simp [nodeAt?, Node.inside?]

/-- Every place is visited from the inside out. -/
theorem mem_places_insideOut : p ∈ places insideOut ns ↔ (nodeAt? ns p).isSome = true :=
  mem_places_insideOut_of fun n _ => n.mem_places_insideOut

theorem Node.pairwise_places_insideOut (n : Node) :
    (n.places insideOut).Pairwise fun p q => ¬p <+: q := by
  induction n using Node.induction with
  | h n ih =>
    rw [Node.places_eq, insideOut, List.pairwise_append]
    refine ⟨pairwise_places (fun _ _ _ _ => not_cons_prefix_cons) ih,
      List.pairwise_singleton _ _, fun p hp q hq => ?_⟩
    obtain ⟨i, p, rfl⟩ := exists_cons_of_mem_places hp
    obtain rfl := List.mem_singleton.1 hq
    simp

/-- From the inside out, no place is visited before one that is inside it. -/
theorem pairwise_places_insideOut : (places insideOut ns).Pairwise fun p q => ¬p <+: q :=
  pairwise_places (fun _ _ _ _ => not_cons_prefix_cons) fun n _ => n.pairwise_places_insideOut

/-! ## The places from the outside in -/

/-- No call of the function stands around a place, given what stands at each place. -/
def Outside (function : String) (at? : List Nat → Option Node) (p : List Nat) : Prop :=
  ∀ q n, q <+: p → q ≠ p → at? q = some n → ¬n.IsCallOf function

theorem outside_nodeAt?_cons {i : Nat} (hn : ns[i]? = some n) :
    Outside function (nodeAt? ns) (i :: p) ↔ Outside function n.inside? p := by
  constructor
  · intro h q n' hq hne hn'
    refine h (i :: q) n' (List.cons_prefix_cons.2 ⟨rfl, hq⟩) (by simpa using hne) ?_
    rw [nodeAt?, hn]
    exact hn'
  · intro h q n' hq hne hn'
    cases q with
    | nil => cases hn'
    | cons j q =>
      obtain ⟨rfl, hrest⟩ := List.cons_prefix_cons.1 hq
      rw [nodeAt?, hn] at hn'
      exact h q n' hrest (by simpa using hne) hn'

theorem outside_inside?_cons {i : Nat} :
    Outside function n.inside? (i :: p) ↔
      ¬n.IsCallOf function ∧ Outside function (nodeAt? n.args) (i :: p) := by
  constructor
  · intro h
    refine ⟨h [] n (List.nil_prefix) (by simp) rfl, fun q n' hq hne hn' => ?_⟩
    cases q with
    | nil => cases hn'
    | cons j q => exact h (j :: q) n' hq hne hn'
  · rintro ⟨hn, h⟩ q n' hq hne hn'
    cases q with
    | nil =>
      obtain rfl : n = n' := by simpa [Node.inside?] using hn'
      exact hn
    | cons j q => exact h (j :: q) n' hq hne hn'

theorem mem_places_outsideIn_of (h : ∀ n ∈ ns, ∀ p, p ∈ n.places (outsideIn function) ↔
      (n.inside? p).isSome = true ∧ Outside function n.inside? p) :
    p ∈ places (outsideIn function) ns ↔
      (nodeAt? ns p).isSome = true ∧ Outside function (nodeAt? ns) p := by
  rw [mem_places]
  constructor
  · rintro ⟨i, q, n, rfl, hn, hq⟩
    rw [outside_nodeAt?_cons hn, nodeAt?, hn]
    exact (h n (List.mem_of_getElem? hn) q).1 hq
  · rintro ⟨hp, hout⟩
    cases p with
    | nil => cases hp
    | cons i q =>
      rw [nodeAt?, Option.isSome_bind, Option.any_eq_true] at hp
      obtain ⟨n, hn, hq⟩ := hp
      exact ⟨i, q, n, rfl, hn, (h n (List.mem_of_getElem? hn) q).2
        ⟨hq, (outside_nodeAt?_cons hn).1 hout⟩⟩

theorem Node.mem_places_outsideIn (n : Node) :
    ∀ p, p ∈ n.places (outsideIn function) ↔
      (n.inside? p).isSome = true ∧ Outside function n.inside? p := by
  induction n using Node.induction with
  | h n ih =>
    intro p
    rw [Node.places_eq, outsideIn, List.mem_cons]
    cases p with
    | nil =>
      simp only [Node.inside?, Outside, List.prefix_nil, Option.isSome_some, true_or, true_and,
        true_iff]
      exact fun q n hq hne => absurd hq hne
    | cons i p =>
      rw [outside_inside?_cons]
      by_cases hn : n.IsCallOf function
      · simp [hn]
      · rw [if_neg hn, mem_places_outsideIn_of ih]
        simp [hn, nodeAt?, Node.inside?]

/-- From the outside in, the places that no call of the function is around are visited. -/
theorem mem_places_outsideIn : p ∈ places (outsideIn function) ns ↔
    (nodeAt? ns p).isSome = true ∧ Outside function (nodeAt? ns) p :=
  mem_places_outsideIn_of fun n _ => n.mem_places_outsideIn

theorem Node.pairwise_places_outsideIn (n : Node) :
    (n.places (outsideIn function)).Pairwise fun p q => ¬q <+: p := by
  induction n using Node.induction with
  | h n ih =>
    rw [Node.places_eq, outsideIn, List.pairwise_cons]
    by_cases hn : n.IsCallOf function
    · simp [hn]
    · rw [if_neg hn]
      refine ⟨fun q hq => ?_, pairwise_places (fun i j p q => ?_) ih⟩
      · obtain ⟨i, q, rfl⟩ := exists_cons_of_mem_places hq
        simp
      · rw [eq_comm]
        exact not_cons_prefix_cons

/-- From the outside in, no place is visited before one that it is inside of. -/
theorem pairwise_places_outsideIn :
    (places (outsideIn function) ns).Pairwise fun p q => ¬q <+: p := by
  refine pairwise_places (fun i j p q => ?_) fun n _ => n.pairwise_places_outsideIn
  rw [eq_comm]
  exact not_cons_prefix_cons

/-! ## What stands at the places -/

theorem nodeAt?_shifted : nodeAt? (n :: ns) (shifted p) = nodeAt? ns p := by
  cases p <;> rfl

theorem filterMap_places_cons : (places arrange (n :: ns)).filterMap (nodeAt? (n :: ns)) =
    (n.places arrange).filterMap n.inside? ++ (places arrange ns).filterMap (nodeAt? ns) := by
  rw [places, List.filterMap_append, List.filterMap_map, List.filterMap_map]
  congr 1
  exact List.filterMap_congr fun p _ => nodeAt?_shifted

theorem Node.filterMap_places_args : (Value.places arrange n.args).filterMap n.inside? =
    (Value.places arrange n.args).filterMap (nodeAt? n.args) := by
  refine List.filterMap_congr fun p hp => ?_
  obtain ⟨i, p, rfl⟩ := exists_cons_of_mem_places hp
  rfl

section Trace

variable {m : Type → Type} [Monad m] [LawfulMonad m] (note : Node → m Unit)

theorem walk_note_of (h : ∀ n ∈ ns,
      n.walk (fun n => do note n; return callReplacement? function word n) = do
        ((n.places (outsideIn function)).filterMap n.inside?).forM note
        return n.replaceCalls function fun _ => .word word) :
    walk (fun n => do note n; return callReplacement? function word n) ns = do
      ((places (outsideIn function) ns).filterMap (nodeAt? ns)).forM note
      return replaceCalls function (fun _ => .word word) ns := by
  induction ns with
  | nil => simp [walk, places, replaceCalls]
  | cons n ns ih =>
    obtain ⟨hn, hns⟩ := List.forall_mem_cons.1 h
    rw [walk, hn, ih hns, filterMap_places_cons]
    simp [replaceCalls]

theorem Node.walk_note (n : Node) :
    n.walk (fun n => do note n; return callReplacement? function word n) = do
      ((n.places (outsideIn function)).filterMap n.inside?).forM note
      return n.replaceCalls function fun _ => .word word := by
  induction n using Node.induction with
  | h n ih =>
    rw [Node.walk_eq, walk_note_of note ih, Node.places_eq, Node.replaceCalls_eq, outsideIn,
      callReplacement?_eq, List.filterMap_cons]
    by_cases hn : n.IsCallOf function
    · simp [hn, Node.inside?]
    · simp [hn, Node.inside?, Node.filterMap_places_args]

variable (function word) in
/-- The node that a visitor is shown from the inside out. -/
def Node.settled (n : Node) : Node :=
  n.withArgs (Value.replaceCalls function (fun _ => .word word) n.args)

theorem Node.getD_callReplacement?_settled (n : Node) :
    (callReplacement? function word (n.settled function word)).getD (n.settled function word) =
      n.replaceCalls function fun _ => .word word := by
  rw [callReplacement?_eq, Node.replaceCalls_eq]
  cases n with
  | call name before after args key =>
    by_cases hname : name = function
    · simp [Node.settled, Node.withArgs, Node.IsCallOf, hname]
    · simp [Node.settled, Node.withArgs, Node.IsCallOf, Node.args, hname]
  | _ => rfl

theorem rebuild_note_of (h : ∀ n ∈ ns,
      n.rebuild (fun n => do note n; return (callReplacement? function word n).getD n) = do
        ((n.places insideOut).filterMap n.inside?).forM fun n => note (n.settled function word)
        return n.replaceCalls function fun _ => .word word) :
    rebuild (fun n => do note n; return (callReplacement? function word n).getD n) ns = do
      ((places insideOut ns).filterMap (nodeAt? ns)).forM fun n => note (n.settled function word)
      return replaceCalls function (fun _ => .word word) ns := by
  induction ns with
  | nil => simp [rebuild, places, replaceCalls]
  | cons n ns ih =>
    obtain ⟨hn, hns⟩ := List.forall_mem_cons.1 h
    rw [rebuild, hn, ih hns, filterMap_places_cons]
    simp [replaceCalls]

theorem Node.rebuild_note (n : Node) :
    n.rebuild (fun n => do note n; return (callReplacement? function word n).getD n) = do
      ((n.places insideOut).filterMap n.inside?).forM fun n => note (n.settled function word)
      return n.replaceCalls function fun _ => .word word := by
  induction n using Node.induction with
  | h n ih =>
    rw [Node.rebuild_eq, rebuild_note_of note ih, Node.places_eq, insideOut, List.filterMap_append,
      Node.filterMap_places_args, ← Node.getD_callReplacement?_settled]
    simp [Node.inside?, Node.settled]

variable (function word ns) in
/-- A walk from the outside in and one from the inside out put a word in the place of each call of a
function alike, whatever the visitor does besides. From the inside out it is shown what stands at
each place once, each with what is inside it replaced. From the outside in it is shown once what
stands at each place that no call of the function is around, each before what is inside it. -/
theorem walks_agree : ∃ (tree : List Node) (down up : List (List Nat)),
    (walk (fun n => do note n; return callReplacement? function word n) ns = do
      (down.filterMap (nodeAt? ns)).forM note
      return tree) ∧
    (rebuild (fun n => do note n; return (callReplacement? function word n).getD n) ns = do
      (up.filterMap (nodeAt? ns)).forM fun n => note (n.settled function word)
      return tree) ∧
    (∀ p, p ∈ down ↔ (nodeAt? ns p).isSome = true ∧ Outside function (nodeAt? ns) p) ∧
    (∀ p, p ∈ up ↔ (nodeAt? ns p).isSome = true) ∧
    down.Nodup ∧ up.Nodup ∧
    (down.Pairwise fun p q => ¬q <+: p) ∧ up.Pairwise fun p q => ¬p <+: q := by
  refine ⟨replaceCalls function (fun _ => .word word) ns, places (outsideIn function) ns,
    places insideOut ns, walk_note_of note fun n _ => n.walk_note note,
    rebuild_note_of note fun n _ => n.rebuild_note note, fun p => mem_places_outsideIn,
    fun p => mem_places_insideOut, ?_, ?_, pairwise_places_outsideIn, pairwise_places_insideOut⟩
  · exact pairwise_places_outsideIn.imp fun h => (not_prefix_ne h).symm
  · exact pairwise_places_insideOut.imp not_prefix_ne

/-- Calls of the function around one another, next to one of another function: the two walks are
shown different nodes and make the same value. -/
theorem walks_agree_nested :
    let inner := Node.call "cfg" "" "" [.word "b"] none
    let outer := Node.call "cfg" "" "" [.word "a", .space " ", inner] none
    let ns := [Node.call "calc" "" "" [outer, .divider "," "" " ", inner] none]
    let note := fun n : Node => modify (m := StateM (List String)) (· ++ [n.text])
    let down := (walk (fun n => do note n; return callReplacement? "cfg" "0" n) ns).run []
    let up :=
      (rebuild (fun n => do note n; return (callReplacement? "cfg" "0" n).getD n) ns).run []
    down.1 = up.1 ∧ text up.1 = "calc(0, 0)" ∧
      down.2 = ["calc(cfg(a cfg(b)), cfg(b))", "cfg(a cfg(b))", ", ", "cfg(b)"] ∧
      up.2 = ["a", " ", "b", "cfg(b)", "cfg(a 0)", ", ", "b", "cfg(b)", "calc(0, 0)"] := by
  intro inner outer ns note down up
  refine ⟨?_, ?_, ?_, ?_⟩
  · obtain ⟨tree, _, _, hdown, hup, -⟩ := walks_agree "cfg" "0" ns note
    have hdown : down.1 = tree := congrArg (fun x : StateM (List String) _ => (x.run []).1) hdown
    have hup : up.1 = tree := congrArg (fun x : StateM (List String) _ => (x.run []).1) hup
    rw [hdown, hup]
  · rfl
  · rfl
  · rfl

end Trace

end CssTheming.Value
