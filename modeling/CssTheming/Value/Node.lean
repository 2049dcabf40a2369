/-!
# Declaration values

The value of a declaration as a list of nodes: words, strings, dividers, white space, comments and function calls. The
nodes hold all of the text, so that `Value.text` gives a value back and single calls can be rewritten in place.
-/

namespace CssTheming

inductive Value.Node where
  | word (value : String)
  | string (value : String) (quote : Char)
  /-- A comma, slash or colon with the white space around it. -/
  | divider (value before after : String)
  | space (value : String)
  | comment (value : String)
  /-- A call keeps the white space directly inside its parentheses apart from its arguments. The key is set on
  references to custom properties of keys. -/
  | call (name before after : String) (args : List Value.Node) (key : Option String)

namespace Value

/-- White space and comments do not count as arguments. -/
def Node.isTrivia : Node → Bool
  | .space _ => true
  | .comment _ => true
  | _ => false

def Node.key? : Node → Option String
  | .call _ _ _ _ key => key
  | _ => none

mutual
def Node.text : Node → String
  | .word value => value
  | .string value quote => quote.toString ++ value ++ quote.toString
  | .divider value before after => before ++ value ++ after
  | .space value => value
  | .comment value => "/*" ++ value ++ "*/"
  | .call name before after args _ => name ++ "(" ++ before ++ text args ++ after ++ ")"

def text : List Node → String
  | [] => ""
  | n :: ns => n.text ++ text ns
end

mutual
/-- The keys that are set in a node, in the order of its text. -/
def Node.keys : Node → List String
  | .call _ _ _ args key => key.toList ++ keys args
  | _ => []

def keys : List Node → List String
  | [] => []
  | n :: ns => n.keys ++ keys ns
end

theorem text_append (ms ns : List Node) : text (ms ++ ns) = text ms ++ text ns := by
  induction ms with
  | nil => simp [text]
  | cons m ms ih => simp [text, ih, String.append_assoc]

theorem keys_append (ms ns : List Node) : keys (ms ++ ns) = keys ms ++ keys ns := by
  induction ms with
  | nil => simp [keys]
  | cons m ms ih => simp [keys, ih]

end Value

end CssTheming
