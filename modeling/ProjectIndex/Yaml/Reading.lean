import ProjectIndex.Yaml.Node
import ProjectIndex.Yaml.Plain

/-!
# Reading typed content out of a document

A reader takes a node of a document and gives a value of some type, or an error.  Readers exist for
the general `Value` and for booleans, counts, texts, lists, choices between named variants, and
records of named fields; the types of this library are read by combining them.

Three rules hold for all readers.

* An alias is followed to its node, and a document may follow at most a hundred aliases per part it
  has.  The number followed so far is the only state of a reader.
* A complaint names the innermost part that was being read.
* A collection may lie inside at most 127 others.
-/

namespace ProjectIndex.Yaml

/-- A reading in progress, counting the aliases followed. -/
abbrev Reading (α : Type) := StateT Nat (Except Error) α

namespace Reading

/-- Fails. -/
def fail {α : Type} (e : Error) : Reading α := fun _ => .error e

/-- Fails with a complaint, whose place is filled in by what is being read. -/
def complain {α : Type} (c : Complaint) : Reading α := fail (.unplaced c)

/-- Fills in the place of complaints. -/
def placed {α : Type} (m : Mark) (t : Trail) (r : Reading α) : Reading α :=
  fun n => (r n).mapError (Error.placed m t)

end Reading

/-- The greatest number of collections inside one another. -/
def depthLimit : Nat := 128

/-! ### Tags -/

/-- A tag that stands for a type of the format itself. -/
def coreTag (name : String) : Bytes := Utf8.encode ("tag:yaml.org,2002:" ++ name)

/-- The name of a tag of the document's own: what follows its exclamation mark, or the mark itself
if nothing does. -/
def localTag? : Option Bytes → Option String
  | some (b :: rest) =>
    if b == asciiByte '!' then Utf8.text? (if rest.isEmpty then [b] else rest) else none
  | _ => none

/-- The name under which a tag is shown, a further exclamation mark being dropped. -/
def tagName (tag : String) : String :=
  match tag.toList with
  | '!' :: c :: cs => String.ofList (c :: cs)
  | _ => tag

/-- The tag of a node. -/
def Node.tag : Node → Option Bytes
  | scalar _ t .. => t
  | sequence _ t _ => t
  | mapping _ t _ => t
  | _ => none

/-! ### Scalars -/

/-- What a scalar denotes.  A core tag asks for its type, a tag of the document's own lets a plain
scalar denote what it is spelled like, and any other tag makes it a text; under a tag that has been
read already, the tag counts no more. -/
def scalarMeaning (underTag : Bool) (tag : Option Bytes) (text : List Char) (style : ScalarStyle) :
    Except Complaint Plain :=
  let untyped := if style = .plain then Plain.ofChars text else .text
  let refuse (expected : String) : Except Complaint Plain :=
    .error (.value (.text (String.ofList text)) expected)
  match if underTag then none else tag with
  | none => .ok untyped
  | some tag =>
    if tag = coreTag "bool" then
      match Plain.bool? text with
      | some b => .ok (.bool b)
      | none => refuse "a boolean"
    else if tag = coreTag "int" then
      match Plain.int? text with
      | some n => .ok n
      | none => refuse "an integer"
    else if tag = coreTag "float" then
      match Plain.float? text with
      | some x => .ok (.float x)
      | none => refuse "a float"
    else if tag = coreTag "null" then
      if Plain.isNull text then .ok .null else refuse "null"
    else if tag.head? = some (asciiByte '!') then .ok untyped
    else .ok .text

/-- What is found where a scalar denotes `p` and is written `text`. -/
def Found.ofPlain (text : List Char) : Plain → Found
  | .null => .unit
  | .bool b => .bool b
  | .int n => .int n
  | .wideInt n => .wideInt n
  | .float x => .float x
  | .text => .text (String.ofList text)

/-- The error of a node of another kind than expected. -/
def mismatch (c : Content) (expected : String) : Node → Error
  | .scalar _ tag text style =>
    match scalarMeaning false tag text style with
    | .ok p => .unplaced (.kind (.ofPlain text p) expected)
    | .error complaint => .unplaced complaint
  | .sequence .. => .unplaced (.kind .sequence expected)
  | .mapping .. => .unplaced (.kind .mapping expected)
  | _ => c.error.getD .endOfText

/-- Whether a node counts as an empty collection: there is nothing at all, or an empty plain
scalar. -/
def Node.isNothing : Node → Bool
  | void _ => true
  | scalar _ _ text style => text.isEmpty && style = .plain
  | _ => false

namespace Content

/-- Moves from an alias to its node, and fails where the text breaks off. -/
def follow (c : Content) (n : Node) : Reading Node := fun jumps =>
  match n with
  | .cut => .error (c.error.getD .endOfText)
  | .aliasOf _ anchor =>
    if 100 * c.size < jumps + 1 then .error .tooManyAliases
    else match c.anchors.lookup anchor with
      | some n => .ok (n, jumps + 1)
      | none => .error (c.error.getD .endOfText)
  | n => .ok (n, jumps)

/-- Reads the node that a node leads to, complaints being placed there. -/
def visit {α : Type} (c : Content) (t : Trail) (n : Node) (read : Node → Reading α) : Reading α := do
  let n ← c.follow n
  (read n).placed n.mark t

/-! ### General values -/

/-- The way to the value of an entry with the given key. -/
def entryTrail (t : Trail) : Node → Trail
  | .scalar _ _ text _ => .entry t (String.ofList text)
  | _ => .unnamed t

/-- Reads the entries of a mapping after those in `acc`, no key of which may occur again.  Keys lie
where the mapping lies, and those written out lie under its tag. -/
def entries (deeper : Trail → Bool → Node → Reading Value) (t : Trail) (underTag : Bool) :
    (acc : Entries) → List (Node × Node) → Reading Entries
  | acc, [] => pure acc
  | acc, (k, v) :: rest => do
    let key ← deeper t (underTag && !k.isAlias) k
    match key.find? acc with
    | some e => Reading.complain (.duplicateKey e.1)
    | none =>
      let value ← deeper (entryTrail t k) false v
      entries deeper t underTag (acc ++ [(key, value)]) rest

/-- Reads the value of a node regardless of its tag, `deeper` reading the parts of collections. -/
def bareValue (c : Content) (deeper : Option (Trail → Bool → Node → Reading Value)) (t : Trail)
    (underTag : Bool) : Node → Reading Value
  | .scalar _ tag text style =>
    match scalarMeaning underTag tag text style with
    | .error complaint => Reading.complain complaint
    | .ok .null => pure .null
    | .ok (.bool b) => pure (.bool b)
    | .ok (.int n) => pure (.int n)
    | .ok (.wideInt n) => Reading.complain (.kind (.wideInt n) "any YAML value")
    | .ok (.float x) => pure (.float x)
    | .ok .text => pure (.string (String.ofList text))
  | .sequence m _ items =>
    match deeper with
    | none => Reading.fail (.tooDeep m)
    | some deeper => do
      let values ← items.zipIdx.mapM fun p => deeper (.item t p.2) false p.1
      pure (.sequence values)
  | .mapping m _ es =>
    match deeper with
    | none => Reading.fail (.tooDeep m)
    | some deeper => do pure (.mapping (← entries deeper t underTag [] es))
  | .void _ => pure .null
  | n => Reading.fail (mismatch c "any YAML value" n)

/-- Reads the value of a node, tags of the document's own being kept. -/
def valueWith (c : Content) (deeper : Option (Trail → Bool → Node → Reading Value)) (t : Trail)
    (underTag : Bool) (n : Node) : Reading Value :=
  c.visit t n fun n =>
    match if underTag then none else localTag? n.tag with
    | some tag => do pure (.tagged (tagName tag) (← (c.bareValue deeper t true n).placed n.mark t))
    | none => c.bareValue deeper t underTag n

/-- Reads the value of a node that may hold collections `depth` deep. -/
def value (c : Content) : (depth : Nat) → Trail → (underTag : Bool) → Node → Reading Value
  | 0 => c.valueWith none
  | depth + 1 => c.valueWith (some (c.value depth))

/-! ### Scalars of a type -/

/-- Whether a scalar may be read as the type of a core tag: it is plain, or a literal block under
that very tag. -/
def mayBe (name : String) (underTag : Bool) (tag : Option Bytes) : ScalarStyle → Bool
  | .plain => true
  | .literal => !underTag && tag = some (coreTag name)
  | _ => false

/-- Reads a boolean. -/
def bool (c : Content) (t : Trail) (n : Node) : Reading Bool :=
  c.visit t n fun n =>
    match n with
    | .scalar _ tag text style =>
      match if mayBe "bool" false tag style then Plain.bool? text else none with
      | some b => pure b
      | none => Reading.fail (mismatch c "a boolean" n)
    | _ => Reading.fail (mismatch c "a boolean" n)

/-- Reads a count below `2 ^ 64`. -/
def count (c : Content) (t : Trail) (underTag : Bool) (n : Node) : Reading Nat :=
  c.visit t n fun n =>
    match n with
    | .scalar _ tag text style =>
      match if mayBe "int" underTag tag style then Plain.unsigned? Plain.greatestWord text else none with
      | some k => pure k
      | none => Reading.fail (mismatch c "usize" n)
    | _ => Reading.fail (mismatch c "usize" n)

/-- Reads the text of any scalar, where `expected` is asked for. -/
def text (c : Content) (expected : String) (t : Trail) (n : Node) : Reading String :=
  c.visit t n fun n =>
    match n with
    | .scalar _ _ text _ => pure (String.ofList text)
    | _ => Reading.fail (mismatch c expected n)

/-- Reads nothing: null, or an empty plain scalar. -/
def unit (c : Content) (t : Trail) (n : Node) : Reading Unit :=
  c.visit t n fun n =>
    match n with
    | .scalar _ _ text style =>
      if style = .plain ∧ (text.isEmpty || Plain.isNull text) = true then pure ()
      else Reading.complain (.value (.text (String.ofList text)) "null")
    | .void _ => pure ()
    | _ => Reading.fail (mismatch c "unit" n)

/-- Reads something that may be absent, null standing for its absence. -/
def optional {α : Type} (c : Content) (read : Node → Reading α) (n : Node) : Reading (Option α) := do
  let n ← c.follow n
  match n with
  | .void _ => pure none
  | .scalar _ tag text style =>
    if style ≠ .plain then some <$> read n
    else match tag with
      | some tag =>
        if tag ≠ coreTag "null" then some <$> read n
        else if Plain.isNull text then pure none
        else Reading.complain (.value (.text (String.ofList text)) "null")
      | none => if text.isEmpty || Plain.isNull text then pure none else some <$> read n
  | n => some <$> read n

/-! ### Lists, choices and records -/

/-- Reads a list. -/
def list {α : Type} (c : Content) (read : Trail → Node → Reading α) (t : Trail) (n : Node) :
    Reading (List α) :=
  c.visit t n fun n =>
    match n with
    | .sequence _ _ items => items.zipIdx.mapM fun p => read (.item t p.2) p.1
    | n => if n.isNothing then pure [] else Reading.fail (mismatch c "a sequence" n)

/-- Reads one of several named variants.  A tag names the variant of the node under it; a scalar
without a tag of the document's own names a variant without content. -/
def variant {α : Type} (c : Content) (names : List String)
    (build : (name : String) → (content : Option Node) → Reading α) (t : Trail) (n : Node) :
    Reading α := do
  let m ← c.follow n
  let named (name : String) (content : Option Node) : Reading α :=
    if names.contains name then build name content
    else Reading.complain (.unknownVariant name names)
  let untagged (found : Found) : Reading α :=
    Reading.complain (.kind found "a YAML tag starting with '!'")
  let chosen : Reading α :=
    match localTag? m.tag, m with
    | some name, _ => named name (some m)
    | none, .scalar _ _ text _ => (named (String.ofList text) none).placed m.mark t
    | none, .sequence .. => (untagged .sequence).placed m.mark t
    | none, .mapping .. => (untagged .mapping).placed m.mark t
    | none, m => Reading.fail (mismatch c "a variant" m)
  match n with
  | .aliasOf mark _ => chosen.placed mark t
  | _ => chosen

/-- The content of a variant that has none. -/
def noContent (c : Content) (t : Trail) : Option Node → Reading Unit
  | none => pure ()
  | some n => c.unit t n

/-- The content of a variant that is a count. -/
def countContent (c : Content) (t : Trail) : Option Node → Reading Nat
  | none => Reading.complain (.kind .variant "newtype variant")
  | some n => c.count t true n

mutual

/-- Whether the text breaks off inside a node. -/
def breaksOff : Node → Bool
  | .cut => true
  | .sequence _ _ items => anyBreaksOff items
  | .mapping _ _ es => anyEntryBreaksOff es
  | _ => false

/-- Whether the text breaks off inside one of several nodes. -/
def anyBreaksOff : List Node → Bool
  | [] => false
  | n :: ns => breaksOff n || anyBreaksOff ns

/-- Whether the text breaks off inside a key or a value. -/
def anyEntryBreaksOff : List (Node × Node) → Bool
  | [] => false
  | e :: es => breaksOff e.1 || breaksOff e.2 || anyEntryBreaksOff es

end

/-- Passes over a node, whatever it holds. -/
def pass (c : Content) (n : Node) : Reading Unit :=
  if breaksOff n then Reading.fail (c.error.getD .endOfText) else pure ()

/-- The fields of a record. -/
structure Fields where
  known : List String
  /-- Whether other fields are refused rather than passed over. -/
  isClosed : Bool

/-- Reads the name of a field. -/
def fieldName (c : Content) (fields : Fields) (t : Trail) (n : Node) : Reading String :=
  c.visit t n fun n =>
    match n with
    | .scalar _ _ text _ =>
      let name := String.ofList text
      if fields.isClosed && !fields.known.contains name then
        Reading.complain (.unknownField name fields.known)
      else pure name
    | _ => Reading.fail (mismatch c "field identifier" n)

/-- Reads the fields of a record one by one, `read` taking the value of each into the record read so
far.  No field of `seen` may occur again. -/
def fieldsInto {σ : Type} (c : Content) (fields : Fields) (t : Trail)
    (read : σ → (name : String) → Trail → Node → Reading σ) :
    (seen : List String) → σ → List (Node × Node) → Reading σ
  | _, s, [] => pure s
  | seen, s, (k, v) :: rest => do
    let name ← c.fieldName fields t k
    if !fields.known.contains name then
      c.pass v
      c.fieldsInto fields t read seen s rest
    else if seen.contains name then Reading.complain (.duplicateField name)
    else
      let s ← read s name (entryTrail t k) v
      c.fieldsInto fields t read (name :: seen) s rest

/-- Reads a record, which starts as `start`; `finish` checks it once all fields are read. -/
def record {σ α : Type} (c : Content) (expected : String) (fields : Fields) (start : σ)
    (read : σ → (name : String) → Trail → Node → Reading σ) (finish : σ → Reading α)
    (t : Trail) (n : Node) : Reading α :=
  c.visit t n fun n =>
    match n with
    | .mapping _ _ es => do finish (← c.fieldsInto fields t read [] start es)
    | n =>
      if n.isNothing then finish start
      else Reading.fail (mismatch c expected n)

/-! ### Whole texts -/

/-- Reads the only document of a text. -/
def run {α : Type} (c : Content) (read : Trail → Node → Reading α) : Except Error α := do
  let (a, _) ← read .root c.root 0
  match c.error with
  | some e => .error e
  | none => if c.hasMore then .error .severalDocuments else .ok a

end Content

/-- The value of a text. -/
def Value.ofText (text : String) : Except Error Value :=
  let c := Content.ofText text.toList
  c.run fun t n => c.value depthLimit t false n

end ProjectIndex.Yaml
