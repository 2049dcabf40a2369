import CssTheming.Error
import CssTheming.Sheet.Statement

/-!
# Stylesheets

A stylesheet numbers its nodes in the order of their creation, the root being 0, and every node knows its parent. A node
that is removed keeps its number and its own children and is only cut off from its parent. Parents have smaller numbers
than their children, which is what the walks over a stylesheet go by.
-/

namespace CssTheming

structure Sheet.Node where
  kind : Sheet.Kind
  parent : Option Nat
  children : List Nat
  position : Text.Position
  deriving DecidableEq, Repr, Inhabited

structure Sheet where
  path : String
  nodes : Array Sheet.Node
  deriving DecidableEq, Repr, Inhabited

namespace Sheet

def root : Nat := 0

/-- Generated nodes have no place in any source. -/
def nowhere : Text.Position := ⟨0, 0⟩

def empty (path : String) : Sheet := ⟨path, #[⟨.root, none, [], .start⟩]⟩

variable (s : Sheet)

def size : Nat := s.nodes.size

def kind? (id : Nat) : Option Kind := s.nodes[id]?.map (·.kind)

def parent? (id : Nat) : Option Nat := s.nodes[id]?.bind (·.parent)

def children (id : Nat) : List Nat := (s.nodes[id]?.map (·.children)).getD []

def location (id : Nat) : Location := ⟨s.path, (s.nodes[id]?.map (·.position)).getD nowhere⟩

def isRule (id : Nat) : Bool := (s.kind? id).any Kind.isRule

/-! ## Changes -/

def modify (id : Nat) (f : Node → Node) : Sheet := { s with nodes := s.nodes.modify id f }

/-- Adds a node, which gets the number `s.size`, as the last child of `parent`. -/
def append (parent : Nat) (kind : Kind) (position : Text.Position) : Sheet :=
  let id := s.nodes.size
  { s with nodes := (s.nodes.push ⟨kind, some parent, [], position⟩).modify parent fun n =>
      { n with children := n.children ++ [id] } }

def appendRule (parent : Nat) (selector : String) : Sheet := s.append parent (.rule selector) nowhere

def appendDeclaration (parent : Nat) (property value : String) : Sheet :=
  s.append parent (.declaration property value false) nowhere

/-- Cuts a node, and with it what is below it, off from its parent. -/
def remove (id : Nat) : Sheet :=
  match s.parent? id with
  | none => s
  | some p =>
    (s.modify id fun n => { n with parent := none }).modify p fun n => { n with children := n.children.filter (· ≠ id) }

/-- Puts a node of another kind in a node's place; the children of the old one are cut off. -/
def replace (id : Nat) (kind : Kind) : Sheet :=
  let cut := (s.children id).foldl (fun s c => s.modify c fun n => { n with parent := none }) s
  cut.modify id fun n => { n with kind := kind, children := [] }

def setValue (id : Nat) (value : String) : Sheet :=
  s.modify id fun n =>
    match n.kind with
    | .declaration property _ important => { n with kind := .declaration property value important }
    | _ => n

def setParams (id : Nat) (params : String) : Sheet :=
  s.modify id fun n =>
    match n.kind with
    | .atRule name _ hasBlock => { n with kind := .atRule name params hasBlock }
    | _ => n

/-! ## Walks -/

/-- From the parent of a node up to the root. -/
def ancestors (id : Nat) : List Nat :=
  match s.parent? id with
  | none => []
  | some p => if p < id then p :: ancestors p else [p]
termination_by id

/-- Everything below a node, in document order. -/
def descendants (id : Nat) : List Nat :=
  (s.children id).flatMap fun c => if id < c ∧ c < s.size then c :: descendants c else []
termination_by s.size - id

def declarations (scope : Nat) : List Nat :=
  (s.descendants scope).filter fun id => (s.kind? id).any Kind.isDeclaration

def atRulesNamed (scope : Nat) (name : String) : List Nat :=
  (s.descendants scope).filter fun id => (s.kind? id).any (Kind.isAtRuleNamed name)

def ruleCount : Nat := (s.descendants root).countP s.isRule

/-! ## Statements -/

/-- What is below a node, as a tree. -/
def body (id : Nat) : List Statement :=
  (s.children id).flatMap fun c =>
    if id < c ∧ c < s.size then ((s.nodes[c]?).map fun n => .mk n.kind n.position (body c)).toList else []
termination_by s.size - id

def css : String := Statement.sheetText (s.body root)

end Sheet

mutual
/-- Adds a statement and what is inside it below a node. -/
def Sheet.add (s : Sheet) (parent : Nat) : Sheet.Statement → Sheet
  | .mk kind position body => Sheet.addAll (s.append parent kind position) s.size body

def Sheet.addAll (s : Sheet) (parent : Nat) : List Sheet.Statement → Sheet
  | [] => s
  | t :: ts => Sheet.addAll (Sheet.add s parent t) parent ts
end

/-- Numbers statements in document order. -/
def Sheet.ofStatements (path : String) (top : List Sheet.Statement) : Sheet := (Sheet.empty path).addAll Sheet.root top

end CssTheming
