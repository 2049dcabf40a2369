/-!
# Listeners

Who is told about events: subscriptions in the order in which they were made, under numbers that are never used again.
-/

namespace CssTheming

structure Listeners where
  nextId : Nat
  ids : List Nat
  deriving DecidableEq, Repr

namespace Listeners

def empty : Listeners := ⟨0, []⟩

/-- The number of the new subscription is the `nextId` from before. -/
def subscribe (l : Listeners) : Listeners := ⟨l.nextId + 1, l.ids ++ [l.nextId]⟩

def unsubscribe (l : Listeners) (id : Nat) : Listeners := { l with ids := l.ids.filter (· ≠ id) }

def isSubscribed (l : Listeners) (id : Nat) : Bool := l.ids.contains id

/-- Who is told about an event, in turn. -/
def deliver {α : Type} (l : Listeners) (event : α) : List (Nat × α) := l.ids.map fun id => (id, event)

def size (l : Listeners) : Nat := l.ids.length

/-- A summary for debugging. -/
def summary (l : Listeners) : String := "Listeners \x7b count: " ++ toString l.size ++ " \x7d"

end Listeners

end CssTheming
