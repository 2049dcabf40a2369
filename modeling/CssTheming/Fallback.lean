import CssTheming.ContextClass
import CssTheming.Options
import CssTheming.Schema
import CssTheming.Theme.Basic

/-!
# Fallback stylesheets

Rules with the literal values of one theme, for environments without custom properties. Usages whose keys all have
values for all contexts become plain rules; the others become one rule for each context, below the context's class.
-/

namespace CssTheming.Fallback

/-- A rule with its declarations in the order in which their properties came up first. -/
structure Block where
  selector : String
  declarations : List (String × String)
  deriving DecidableEq, Repr

/-- A later value of a property takes the place of the earlier one. -/
def setDeclaration (property value : String) : List (String × String) → List (String × String)
  | [] => [(property, value)]
  | d :: ds => if d.1 = property then (property, value) :: ds else d :: setDeclaration property value ds

/-- Sets a property in the rule of a selector, which is added at the end if there is none. -/
def set (selector property value : String) : List Block → List Block
  | [] => [⟨selector, [(property, value)]⟩]
  | b :: bs =>
    if b.selector = selector then { b with declarations := setDeclaration property value b.declarations } :: bs
    else b :: set selector property value bs

/-- The literal that a key has in a context: the context's own, or else the one for all contexts. -/
def literal? (t : Theme) (context : Option String) (key : String) : Option Theme.Literal :=
  match context with
  | none => t.get? key none
  | some context => (t.get? key (some context)).or (t.get? key none)

/-- A node whose key is set becomes the word that its key stands for. -/
def resolveNode (t : Theme) (context : Option String) (n : Value.Node) : Except Error Value.Node :=
  match n.key? with
  | none => .ok n
  | some key =>
    match literal? t context key with
    | some literal => .ok (.word literal.css)
    | none => .error (.unknownKey key context none)

/-- The text of a usage's value in a context; an unknown key is told with the selector. -/
def resolve (t : Theme) (context : Option String) (selector : String) (u : SchemaUsage) : Except Error String :=
  match Value.rebuild (resolveNode t context) u.tokens with
  | .ok nodes => .ok (Value.text nodes)
  | .error e => .error (e.inSelector selector)

/-- Whether all keys of a usage have values for all contexts. -/
def isPlain (t : Theme) (u : SchemaUsage) : Bool := u.keys.all fun key => t.contextless.contains key

def isKnown (t : Theme) (key : String) : Bool :=
  t.contextless.contains key || t.contextual.entries.any fun (_, table) => table.contains key

/-- Goes over the usages: plain ones become rules, and the others are kept if their keys are known somewhere. -/
def plainBlocks (t : Theme) (blocks : List Block) : List SchemaUsage → Except Error (List Block × List SchemaUsage)
  | [] => .ok (blocks, [])
  | u :: us =>
    let selector := Selectors.join u.selectors
    if isPlain t u then do
      let value ← resolve t none selector u
      plainBlocks t (set selector u.property value blocks) us
    else
      match u.keys.find? fun key => !isKnown t key with
      | some key => .error (.unknownKey key none (some selector))
      | none => (plainBlocks t blocks us).map fun (blocks, rest) => (blocks, u :: rest)

/-- One usage in one context, for each of its selectors. -/
def contextBlocksOf (t : Theme) (context marker : String) (u : SchemaUsage) (blocks : List Block) :
    List String → Except Error (List Block)
  | [] => .ok blocks
  | selector :: rest => do
    let value ← resolve t (some context) selector u
    contextBlocksOf t context marker u (set (marker ++ " " ++ selector) u.property value blocks) rest

/-- All usages in one context. -/
def contextBlocks (t : Theme) (context marker : String) (blocks : List Block) : List SchemaUsage → Except Error (List Block)
  | [] => .ok blocks
  | u :: us => do contextBlocks t context marker (← contextBlocksOf t context marker u blocks u.selectors) us

/-- All usages in all contexts. -/
def scopedBlocks (t : Theme) (contextClassPrefix : String) (usages : List SchemaUsage) (blocks : List Block) :
    List String → Except Error (List Block)
  | [] => .ok blocks
  | context :: rest => do
    let marker := ContextClass.selector contextClassPrefix context
    scopedBlocks t contextClassPrefix usages (← contextBlocks t context marker blocks usages) rest

/-- The rules of a fallback stylesheet, the plain ones first. -/
def rules (t : Theme) (usages : List SchemaUsage) (contextClassPrefix : String) : Except Error (List Block) := do
  let (plain, rest) ← plainBlocks t [] usages
  return plain ++ (← scopedBlocks t contextClassPrefix rest [] t.contexts)

def appendBlock (s : Sheet) (b : Block) : Sheet :=
  b.declarations.foldl (fun sheet (property, value) => sheet.appendDeclaration s.size property value)
    (s.appendRule Sheet.root b.selector)

def css (t : Theme) (usages : List SchemaUsage) (options : Options) : Except Error String := do
  return ((← rules t usages options.contextClassPrefix).foldl appendBlock (.empty "compatibility.css")).css

end CssTheming.Fallback
