import CssTheming.Proofs.Value.Places

/-!
# Walks that enter what was put in place

`walk` leaves alone what its visitor puts in the place of a node. A walk that goes on inside of
whatever stands there after the visit need not end, as more may be put in place each time. Where
only leaves are inside, and the visitor keeps those, both are the same walk.
-/

namespace CssTheming.Value

section Walks

variable {m : Type → Type} [Monad m]

/-- What is left of a walk once a node has been visited: it goes on inside of what stands there. -/
def Node.enter (go : Node → m Node) (n : Node) : m Node :=
  return n.withArgs (← n.args.mapM go)

/-- Going from the outside in, inside of what was put in place as well. -/
def Enters (visit : Node → m (Option Node)) (go : Node → m Node) : Prop :=
  ∀ n, go n = do ((← visit n).getD n).enter go

/-- A node that has no arguments and that a visitor keeps. -/
def KeptLeaf (visit : Node → m (Option Node)) (n : Node) : Prop :=
  n.args = [] ∧ visit n = pure none

/-- Inside of what a visitor puts in place are only leaves that it keeps. -/
def PutsLeaves (visit : Node → m (Option Node)) : Prop :=
  ∀ n, ∃ put : m { put : Option Node // ∀ n' ∈ put, ∀ a ∈ n'.args, KeptLeaf visit a },
    Subtype.val <$> put = visit n

end Walks

section Lawful

variable {m : Type → Type} [Monad m] [LawfulMonad m] {visit : Node → m (Option Node)}
  {go : Node → m Node} {ns : List Node}

theorem mapM_eq_walk (h : ∀ n ∈ ns, go n = n.walk visit) : ns.mapM go = walk visit ns := by
  induction ns with
  | nil => rw [walk, List.mapM_nil]
  | cons n ns ih =>
    obtain ⟨hn, hns⟩ := List.forall_mem_cons.1 h
    rw [walk, List.mapM_cons, hn, ih hns]

theorem mapM_eq_pure (h : ∀ n ∈ ns, go n = pure n) : ns.mapM go = pure ns := by
  induction ns with
  | nil => rw [List.mapM_nil]
  | cons n ns ih =>
    obtain ⟨hn, hns⟩ := List.forall_mem_cons.1 h
    rw [List.mapM_cons, hn, ih hns, pure_bind, pure_bind]

/-- Nothing is left of a walk that keeps the arguments of a node. -/
theorem Node.enter_eq_pure {n : Node} (h : ∀ a ∈ n.args, go a = pure a) :
    n.enter go = pure n := by
  rw [Node.enter, mapM_eq_pure h, pure_bind]
  cases n <;> rfl

theorem KeptLeaf.enter {n : Node} (h : KeptLeaf visit n) : n.enter go = pure n := by
  refine Node.enter_eq_pure fun a ha => ?_
  rw [h.1] at ha
  cases ha

theorem Enters.keptLeaf (h : Enters visit go) {n : Node} (hn : KeptLeaf visit n) :
    go n = pure n := by
  rw [h n, hn.2, pure_bind]
  exact hn.enter

theorem KeptLeaf.walk {n : Node} (h : KeptLeaf visit n) : n.walk visit = pure n := by
  have henter : n.enter (Node.walk visit) = pure n := h.enter
  rw [Node.enter, mapM_eq_walk fun _ _ => rfl] at henter
  rw [Node.walk_eq, h.2, pure_bind]
  exact henter

/-- A walk that keeps kept leaves, and goes over the arguments of a node as `walk` does, goes over
the node as `walk` does although it enters what is put in place. -/
theorem PutsLeaves.enter_eq (h : PutsLeaves visit) (hgo : ∀ a, KeptLeaf visit a → go a = pure a)
    {n : Node} (hargs : ∀ a ∈ n.args, go a = a.walk visit) :
    (do ((← visit n).getD n).enter go) = n.walk visit := by
  obtain ⟨put, hput⟩ := h n
  rw [Node.walk_eq, ← hput, bind_map_left, bind_map_left]
  refine bind_congr fun ⟨put, hleaves⟩ => ?_
  cases put with
  | none =>
    dsimp only [Option.getD_none]
    rw [Node.enter, mapM_eq_walk hargs]
  | some n' => exact Node.enter_eq_pure fun a ha => hgo a (hleaves n' rfl a ha)

/-- Of the walks that enter what is put in place there is one, and that is `walk`. -/
theorem PutsLeaves.enters_iff (h : PutsLeaves visit) :
    Enters visit go ↔ go = Node.walk visit := by
  constructor
  · intro hgo
    funext n
    induction n using Node.induction with
    | h n ih => rw [hgo n, h.enter_eq (fun _ => hgo.keptLeaf) ih]
  · intro hgo n
    rw [hgo, h.enter_eq (fun _ => KeptLeaf.walk) fun _ _ => rfl]

/-- A word has nothing inside. -/
theorem enters_callReplacement?_iff (note : Node → m Unit) (function word : String) :
    Enters (fun n => do note n; return callReplacement? function word n) go ↔
      go = Node.walk fun n => do note n; return callReplacement? function word n := by
  refine PutsLeaves.enters_iff fun n => ?_
  have hleaves : ∀ n' ∈ callReplacement? function word n, ∀ a ∈ n'.args,
      KeptLeaf (fun n => do note n; return callReplacement? function word n) a := by
    intro n' hn' a ha
    rw [callReplacement?_eq, Option.mem_def, Option.ite_none_right_eq_some] at hn'
    obtain rfl := Option.some.inj hn'.2
    cases ha
  exact ⟨do note n; return ⟨callReplacement? function word n, hleaves⟩, by simp⟩

end Lawful

end CssTheming.Value
