import CssTheming.Value.Node

/-!
# Walks over values

Two ways to visit every node of a value and replace some: `walk` goes from the outside in and leaves what it puts in
place alone, `rebuild` goes from the inside out.
-/

namespace CssTheming.Value

variable {m : Type → Type} [Monad m]

mutual
/-- Visits a node before its arguments. A visitor that answers a node puts it in place, and the walk does not enter it;
one that answers `none` keeps the node. -/
def Node.walk (visit : Node → m (Option Node)) : Node → m Node
  | .call name before after args key => do
    match ← visit (.call name before after args key) with
    | some n => return n
    | none => return .call name before after (← walk visit args) key
  | n => do
    match ← visit n with
    | some n' => return n'
    | none => return n

def walk (visit : Node → m (Option Node)) : List Node → m (List Node)
  | [] => return []
  | n :: ns => return (← n.walk visit) :: (← walk visit ns)
end

mutual
/-- Visits a node after its arguments, and puts in place what the visitor makes of it. -/
def Node.rebuild (visit : Node → m Node) : Node → m Node
  | .call name before after args key => do visit (.call name before after (← rebuild visit args) key)
  | n => visit n

def rebuild (visit : Node → m Node) : List Node → m (List Node)
  | [] => return []
  | n :: ns => return (← n.rebuild visit) :: (← rebuild visit ns)
end

/-- The word that takes the place of every call of a function. -/
def callReplacement? (function word : String) : Node → Option Node
  | .call name _ _ _ _ => if name = function then some (.word word) else none
  | _ => none

end CssTheming.Value
