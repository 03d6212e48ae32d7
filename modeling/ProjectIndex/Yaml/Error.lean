import ProjectIndex.Yaml.Fault
import ProjectIndex.Yaml.Value

/-!
# Why a text cannot be read

A text can fail to be a document, its document can be too deep or refer to what is not there, or
its content can differ from what is asked for.  A complaint of the last kind names the place of
the offending part: its mark, and the keys and positions that lead to it.
-/

namespace ProjectIndex.Yaml

/-- The way from the whole document to a part of it. -/
inductive Trail
  | root
  /-- An item of a sequence. -/
  | item (parent : Trail) (index : Nat)
  /-- The value under a scalar key of a mapping. -/
  | entry (parent : Trail) (key : String)
  /-- The value under any other key. -/
  | unnamed (parent : Trail)
  deriving DecidableEq, Repr

namespace Trail

/-- How a message names the way; the whole document is a period. -/
def text : Trail → String
  | root => "."
  | item parent index => s!"{parent.text}[{index}]"
  | entry root key => key
  | entry parent key => s!"{parent.text}.{key}"
  | unnamed root => "?"
  | unnamed parent => s!"{parent.text}.?"

end Trail

/-- What was found in a document. -/
inductive Found
  | bool (b : Bool)
  | int (n : Int)
  /-- A whole number beyond 64 bits. -/
  | wideInt (n : Int)
  | float (x : Binary64)
  | text (s : String)
  | unit
  | sequence
  | mapping
  | variant
  deriving DecidableEq, Repr

/-- How a message names what was found. -/
def Found.message : Found → String
  | bool b => s!"boolean \x60{b}\x60"
  | int n => s!"integer \x60{n}\x60"
  | wideInt n => s!"integer \x60{n}\x60 as " ++ if n < 0 then "i128" else "u128"
  | float .nan => "floating point \x60NaN\x60"
  | float (.infinite true) => "floating point \x60-inf\x60"
  | float (.infinite false) => "floating point \x60inf\x60"
  | float (.finite negative m e) =>
    "floating point \x60" ++ Binary64.finiteText .positional negative m e ++ "\x60"
  | text s => s!"string {Text.quoted s}"
  | unit => "unit value"
  | sequence => "sequence"
  | mapping => "map"
  | variant => "unit variant"

/-- What is wrong with the content of a document. -/
inductive Complaint
  /-- Something of another kind than expected. -/
  | kind (found : Found) (expected : String)
  /-- Something of the right kind with a wrong value. -/
  | value (found : Found) (expected : String)
  | unknownVariant (name : String) (known : List String)
  | unknownField (name : String) (known : List String)
  | missingField (name : String)
  | duplicateField (name : String)
  | duplicateKey (key : Value)
  /-- A path that is not a text cannot be written. -/
  | pathNotText

/-- A list of names to choose from. -/
def oneOf (names : List String) : String :=
  match names.map fun n => s!"\x60{n}\x60" with
  | [] => "there are no names"
  | [a] => a
  | [a, b] => s!"{a} or {b}"
  | all => "one of " ++ ", ".intercalate all

/-- How a message names the key that occurs twice. -/
def duplicateText : Value → String
  | .null => "duplicate entry with null key"
  | .bool b => s!"duplicate entry with key \x60{b}\x60"
  | .int n => s!"duplicate entry with key {n}"
  | .float x => s!"duplicate entry with key {floatText x}"
  | .string s => s!"duplicate entry with key {Text.quoted s}"
  | _ => "duplicate entry in YAML map"

/-- The words of a complaint. -/
def Complaint.message : Complaint → String
  | kind found expected => s!"invalid type: {found.message}, expected {expected}"
  | value found expected => s!"invalid value: {found.message}, expected {expected}"
  | unknownVariant name known => s!"unknown variant \x60{name}\x60, expected {oneOf known}"
  | unknownField name known => s!"unknown field \x60{name}\x60, expected {oneOf known}"
  | missingField name => s!"missing field \x60{name}\x60"
  | duplicateField name => s!"duplicate field \x60{name}\x60"
  | duplicateKey key => duplicateText key
  | pathNotText => "path contains invalid UTF-8 characters"

/-- Why a text cannot be read, or a value not be written. -/
inductive Error
  /-- The text is not a document. -/
  | fault (f : Fault)
  | unknownAlias (m : Mark)
  | tooDeep (m : Mark)
  | tooManyAliases
  | endOfText
  | severalDocuments
  /-- The content is not what is asked for; the place is filled in once it is known. -/
  | content (complaint : Complaint) (place : Option (Mark × Trail))

namespace Error

/-- A complaint whose place is not known yet. -/
def unplaced (c : Complaint) : Error := .content c none

/-- Fills in the place of a complaint, unless it is known. -/
def placed (m : Mark) (t : Trail) : Error → Error
  | content c none => content c (some (m, t))
  | e => e

/-- The words for the error. -/
def message : Error → String
  | fault f => f.message
  | unknownAlias m => "unknown anchor" ++ m.text
  | tooDeep m => "recursion limit exceeded" ++ m.text
  | tooManyAliases => "repetition limit exceeded"
  | endOfText => "EOF while parsing a value"
  | severalDocuments => "deserializing from YAML containing more than one document is not supported"
  | content c none => c.message
  | content c (some (m, t)) =>
    (if t = .root then "" else t.text ++ ": ") ++ c.message ++ m.text

end Error

end ProjectIndex.Yaml
