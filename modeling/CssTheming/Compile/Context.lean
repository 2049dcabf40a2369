import CssTheming.Compile.Component
import CssTheming.ContextClass

/-!
# Contexts

An `@context` at-rule puts an element in the context that a key names. `compose` turns each into a declaration that adds
the class marking the context to the element.
-/

namespace CssTheming.Compile

def composesProperty : String := "composes"

/-- The declaration that adds the class of the context `key`. -/
def composition (options : Options) (key : String) : Sheet.Kind :=
  .declaration composesProperty (ContextClass.name options.contextClassPrefix (Key.unrooted key) ++ " from global") false

def composeAt (options : Options) (s : Sheet) (id : Nat) : Except Error Sheet :=
  match s.kind? id with
  | some (.atRule _ _ true) => .error (.source (s.location id) (.unexpectedBlock options.contextKeyword))
  | some (.atRule _ params false) =>
    let key := contextKey params
    (checkKey (s.location id) key).map fun () => s.replace id (composition options key)
  | _ => .ok s

def composeAll (options : Options) : List Nat → Sheet → Sheet × Except Error Unit
  | [], s => (s, .ok ())
  | id :: ids, s =>
    match composeAt options s id with
    | .ok s' => composeAll options ids s'
    | .error e => (s, .error e)

/-- Replaces all `@context` at-rules and answers how many there were. -/
def compose (options : Options) (s : Sheet) : Sheet × Except Error Nat :=
  match rejectColon s options.contextKeyword with
  | .error e => (s, .error e)
  | .ok () =>
    let atRules := s.atRulesNamed Sheet.root options.contextKeyword
    let (s', result) := composeAll options atRules s
    (s', result.map fun () => atRules.length)

end CssTheming.Compile
