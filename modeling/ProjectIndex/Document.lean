import ProjectIndex.Names
import ProjectIndex.Search
import ProjectIndex.Table
import ProjectIndex.Text.Blank
import ProjectIndex.Yaml.Reading

/-!
# Documents

A document is a mapping read from a text or from a file.  Loading one has three outcomes: it is
found, there is none, or what is there is invalid for a stated reason.  A text of blanks and
comments alone, and one that denotes null, hold no document; the caller says whether that is an
empty document or a reason to refuse.

* `Outcome.ofText` reads a text, `Disk.loadDocument` a file.
* `Disk.loadAllNamed` loads every file of a name in a list of entries, `Disk.loadPicked` one of
  them.
-/

namespace ProjectIndex

/-- A mapping read from a text. -/
abbrev Document := Yaml.Entries

/-- Why something that exists is not a document. -/
inductive InvalidReason
  | empty
  /-- Another kind of value than a mapping. -/
  | notAMapping (found : Yaml.Value)
  | malformed (error : Yaml.Error)
  | unreadable (error : IoError)

/-- The words for the reason. -/
def InvalidReason.message : InvalidReason → String
  | empty => "document is empty"
  | notAMapping v => s!"top-level value is a {v.kindName}, expected a mapping"
  | malformed e => s!"syntax error: {e.message}"
  | unreadable e => s!"unreadable document: {e.message}"

/-- What loading a document leads to. -/
inductive Outcome
  | found (document : Document)
  | notFound
  | invalid (reason : InvalidReason)

namespace Outcome

/-- The document, if one was found. -/
def document? : Outcome → Option Document
  | found d => some d
  | _ => none

theorem document?_eq_some_iff {outcome : Outcome} {document : Document} :
    outcome.document? = some document ↔ outcome = .found document := by
  cases outcome <;> simp [document?]

/-- Whether a document was found. -/
def isFound (o : Outcome) : Bool := o.document?.isSome

/-- Whether there was nothing to load. -/
def isNotFound : Outcome → Bool
  | notFound => true
  | _ => false

/-- The outcome for a text without content. -/
def ofNothing (allowEmpty : Bool) : Outcome :=
  if allowEmpty then found [] else invalid .empty

/-- The outcome for the value of a text. -/
def ofValue (allowEmpty : Bool) : Yaml.Value → Outcome
  | .mapping entries => found entries
  | .null => ofNothing allowEmpty
  | v => invalid (.notAMapping v)

/-- Reads a document from a text. -/
def ofText (text : String) (allowEmpty : Bool) : Outcome :=
  if Text.isIdle text.toList then ofNothing allowEmpty
  else match Yaml.Value.ofText text with
    | .ok v => ofValue allowEmpty v
    | .error e => invalid (.malformed e)

end Outcome

namespace Disk

/-- Loads the document in a file. -/
def loadDocument (d : Disk) (p : Path) (allowEmpty : Bool) : Logged Outcome :=
  if !d.isFileWith p (some Names.documentSuffix) then do
    Logged.report (.noDocument p)
    pure .notFound
  else match d.readText p with
    | .error e => do
      Logged.report (.unreadDocument p e)
      pure (.invalid (.unreadable e))
    | .ok text =>
      match Outcome.ofText text allowEmpty with
      | .invalid reason => do
        Logged.report (.invalidDocument p reason.message)
        pure (.invalid reason)
      | outcome => pure outcome

/-! ### Documents of a list of entries -/

/-- Adds the document of an entry to a table, if the entry leads to one. -/
def loadInto (d : Disk) (allowEmpty : Bool) (loaded : Table Path Document) (e : Entry) :
    Logged (Table Path Document) := do
  match ← d.loadDocument e.path allowEmpty with
  | .found document => pure (Table.put loaded e.path document)
  | .notFound =>
    Logged.report (.skippedOther e.path)
    pure loaded
  | .invalid reason =>
    Logged.report (.skippedInvalid e.path reason.message)
    pure loaded

/-- Loads the documents of all entries with a name, by path.  There is no table if none loads. -/
def loadAllNamed (d : Disk) (tree : List Entry) (name : String) (allowEmpty : Bool) :
    Logged (Option (Table Path Document)) :=
  match findNamed tree name with
  | none => pure none
  | some named => do
    let loaded ← named.foldlM (d.loadInto allowEmpty) ∅
    pure (if loaded.isEmpty then none else some loaded)

/-- Loads the document of one of the entries with a name, picked by its place among them in the
order of paths. -/
def loadPicked (d : Disk) (tree : List Entry) (name : String) (pick : Pick) (allowEmpty : Bool) :
    Logged Outcome :=
  match findNamed tree name with
  | none => do
    Logged.report (.notInTree name)
    pure .notFound
  | some named => do
    let sorted := sortByPath named
    if 1 < sorted.length then Logged.report (.severalCopies sorted.length name pick)
    match pick.select sorted with
    | some e => d.loadDocument e.path allowEmpty
    | none =>
      Logged.report (.pickOutOfRange pick name sorted.length)
      pure .notFound

end Disk

end ProjectIndex
