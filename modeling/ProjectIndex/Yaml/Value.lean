import ProjectIndex.Number.Shortest
import ProjectIndex.Text.Quoted

/-!
# The values of a document

A document denotes a value: null, a boolean, a whole or a binary number, a text, a sequence, a
mapping, or a value under a tag.  The entries of a mapping keep the order of the document, but
two mappings are the same value whatever the order of their entries, and `Value.same` is the
equality under which the keys of a mapping must differ.
-/

namespace ProjectIndex.Yaml

/-- The value of a document or of a part of it. -/
inductive Value
  | null
  | bool (b : Bool)
  | int (n : Int)
  | float (x : Binary64)
  | string (s : String)
  | sequence (items : List Value)
  | mapping (entries : List (Value × Value))
  /-- A value under a tag, which is named without its leading exclamation mark. -/
  | tagged (tag : String) (value : Value)
  deriving Repr, Inhabited

/-- The entries of a mapping, in the order of the document. -/
abbrev Entries := List (Value × Value)

namespace Value

mutual

/-- Whether two values are the same: numbers by kind and value, mappings in any order. -/
def same : Value → Value → Bool
  | null, null => true
  | bool a, bool b => a == b
  | int a, int b => a == b
  | float a, float b => a.same b
  | string a, string b => a == b
  | sequence xs, sequence ys => sameItems xs ys
  | mapping xs, mapping ys => xs.length == ys.length && sameEntries xs ys
  | tagged s x, tagged t y => s == t && same x y
  | _, _ => false

/-- Whether two lists of items are the same, place by place. -/
def sameItems : List Value → List Value → Bool
  | [], [] => true
  | x :: xs, y :: ys => same x y && sameItems xs ys
  | _, _ => false

/-- Whether every entry of the first mapping is in the second one. -/
def sameEntries : List (Value × Value) → List (Value × Value) → Bool
  | [], _ => true
  | x :: xs, ys => ys.any (fun y => same x.1 y.1 && same x.2 y.2) && sameEntries xs ys

end

/-- The first entry of a key. -/
def find? (key : Value) (entries : Entries) : Option (Value × Value) :=
  entries.find? fun e => key.same e.1

/-- The text of a value that is a text, under tags or not. -/
def asText? : Value → Option String
  | string s => some s
  | tagged _ v => v.asText?
  | _ => none

/-- How messages name the kind of a value. -/
def kindName : Value → String
  | null => "null"
  | bool _ => "boolean"
  | int _ => "number"
  | float _ => "number"
  | string _ => "string"
  | sequence _ => "sequence"
  | mapping _ => "mapping"
  | tagged _ _ => "tagged value"

end Value

/-- How a binary number is written in a document. -/
def floatText : Binary64 → String
  | .nan => ".nan"
  | .infinite true => "-.inf"
  | .infinite false => ".inf"
  | .finite negative m e => Binary64.finiteText .compact negative m e

end ProjectIndex.Yaml
