import CssTheming.Decimal.Layout

/-!
# Documents

The values that a theme file holds, whichever notation it is written in. Mappings keep the order of the file.
-/

namespace CssTheming

inductive Number where
  | int (value : Int)
  | float (value : Float)
  deriving DecidableEq

inductive Document where
  | null
  | bool (value : Bool)
  | number (value : Number)
  | text (value : String)
  | list (items : List Document)
  | mapping (entries : List (Document × Document))
  | tagged (tag : String) (value : Document)

namespace Number

/-- Doubles are written positionally from `0.00001` to below `1e16`. -/
def layout : Decimal.Layout := ⟨-5, 15, false, ".inf", "-.inf", ".nan"⟩

def text : Number → String
  | .int value => toString value
  | .float value => layout.text value

/-- Numbers that cannot both be keys of one mapping: all that are not a number count as one, and so do both zeros, but
a double is never equal to an integer. -/
def same : Number → Number → Bool
  | .int a, .int b => a == b
  | .float a, .float b => a == b || (a.isNaN && b.isNaN)
  | _, _ => false

end Number

namespace Document

inductive Kind where
  | null | boolean | number | string | sequence | mapping | taggedValue
  deriving DecidableEq, Repr

def Kind.text : Kind → String
  | .null => "null"
  | .boolean => "boolean"
  | .number => "number"
  | .string => "string"
  | .sequence => "sequence"
  | .mapping => "mapping"
  | .taggedValue => "tagged value"

def kind : Document → Kind
  | .null => .null
  | .bool _ => .boolean
  | .number _ => .number
  | .text _ => .string
  | .list _ => .sequence
  | .mapping _ => .mapping
  | .tagged _ _ => .taggedValue

mutual
/-- Whether two documents are the same key of a mapping. The order inside a mapping does not count. -/
def same : Document → Document → Bool
  | .null, .null => true
  | .bool a, .bool b => a == b
  | .number a, .number b => a.same b
  | .text a, .text b => a == b
  | .list as, .list bs => sameItems as bs
  | .mapping as, .mapping bs => as.length == bs.length && sameEntries as bs
  | .tagged s a, .tagged t b => s == t && same a b
  | _, _ => false

def sameItems : List Document → List Document → Bool
  | [], [] => true
  | a :: as, b :: bs => same a b && sameItems as bs
  | _, _ => false

/-- Every entry of the first mapping has its like in the second. -/
def sameEntries : List (Document × Document) → List (Document × Document) → Bool
  | [], _ => true
  | (k, v) :: r, bs => bs.any (fun e => same k e.1 && same v e.2) && sameEntries r bs
end

/-- The value at a key, looking through tags. -/
def get? : Document → String → Option Document
  | .mapping entries, key => (entries.find? fun e => e.1.same (.text key)).map (·.2)
  | .tagged _ value, key => value.get? key
  | _, _ => none

end Document

end CssTheming
