import CssTheming.Key
import CssTheming.Options
import CssTheming.Sheet.Basic
import CssTheming.Value.Walk

/-!
# Arguments of config calls

What the rewriting of a stylesheet checks wherever an author names a key: the grammar of the key, the single argument of
a config call and the spelling of the at-rules.
-/

namespace CssTheming.Compile

/-- Accepts the keys that an author may write. -/
def checkKey (location : Location) (key : String) : Except Error Unit :=
  if Key.isValid key then .ok ()
  else .error (.source location (if Key.hasQuote key then .quotedKey key else .invalidKey key))

/-- Rejects a stylesheet with an at-rule `@keyword:`. -/
def rejectColon (s : Sheet) (keyword : String) : Except Error Unit :=
  match s.atRulesNamed Sheet.root (keyword ++ ":") with
  | [] => .ok ()
  | id :: _ => .error (.source (s.location id) (.colonAfterKeyword keyword))

def isComma : Value.Node → Bool
  | .divider value _ _ => value = ","
  | _ => false

/-- The key that a call names; an empty call names none. -/
def keyArgument (location : Location) : Value.Node → Except Error (Option String)
  | .call name before after args key =>
    let arguments := args.filter fun n => !n.isTrivia
    let commas := arguments.countP isComma
    let invalid := .error (.source location (.invalidArgument name (Value.Node.call name before after args key).text))
    if arguments.isEmpty then .ok none
    else if commas > 0 then .error (.source location (.argumentCount name (commas + 1)))
    else
      match arguments with
      | [.word value] => if value = "" then invalid else .ok (some value)
      | [.string value _] => if value = "" then invalid else .ok (some value)
      | _ => invalid
  | _ => .ok none

/-- Text that a declaration value contains if it calls the config function. -/
def callMarker (options : Options) : String := options.configKeyword ++ "("

end CssTheming.Compile
