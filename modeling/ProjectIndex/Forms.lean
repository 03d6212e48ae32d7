import ProjectIndex.Choice
import ProjectIndex.Yaml.Written

/-!
# Entries and choices in documents

How entries, kinds, picks and orders are written in documents and read from them.  Each form is
given once as a table of names or fields, and its reader and its writer stand side by side.
-/

namespace ProjectIndex

open Yaml

/-! ### Kinds -/

namespace EntryKind

/-- The name of a kind in documents. -/
def name : EntryKind → String
  | file => "File"
  | directory => "Directory"
  | other => "Other"

/-- All kinds. -/
def all : List EntryKind := [file, directory, other]

/-- The kind of a name. -/
def ofName? (s : String) : Option EntryKind := all.find? (·.name = s)

/-- Reads a kind. -/
def read (c : Content) (t : Trail) (n : Node) : Reading EntryKind :=
  c.variant (all.map name) (fun s content => do
    c.noContent t content
    pure ((ofName? s).getD file)) t n

/-- The document of a kind. -/
def written (k : EntryKind) : String := Written.ofText k.name

end EntryKind

/-! ### Orders -/

namespace TraceOrder

/-- The name of an order in documents. -/
def name : TraceOrder → String
  | shallowFirst => "depth_ascending"
  | deepFirst => "depth_descending"

/-- All orders. -/
def all : List TraceOrder := [shallowFirst, deepFirst]

/-- The order of a name. -/
def ofName? (s : String) : Option TraceOrder := all.find? (·.name = s)

/-- Reads an order. -/
def read (c : Content) (t : Trail) (n : Node) : Reading TraceOrder :=
  c.variant (all.map name) (fun s content => do
    c.noContent t content
    pure ((ofName? s).getD default)) t n

/-- The document of an order. -/
def written (o : TraceOrder) : String := Written.ofText o.name

end TraceOrder

/-! ### Picks -/

namespace Pick

/-- The names of the picks in documents. -/
def names : List String := ["first", "last", "nth", "from_end"]

/-- Reads a pick; counted ones are a number under a tag. -/
def read (c : Content) (t : Trail) (n : Node) : Reading Pick :=
  c.variant names (fun s content =>
    if s = "nth" then nth <$> c.countContent t content
    else if s = "from_end" then fromEnd <$> c.countContent t content
    else do
      c.noContent t content
      pure (if s = "first" then first else last)) t n

/-- The document of a pick. -/
def written : Pick → String
  | first => Written.ofText "first"
  | last => Written.ofText "last"
  | nth i => Written.ofTagged "nth" i
  | fromEnd i => Written.ofTagged "from_end" i

end Pick

/-! ### Entries -/

namespace Entry

/-- The fields of an entry; others are passed over. -/
def fields : Content.Fields := ⟨["path", "kind", "extension"], false⟩

/-- The fields of an entry that have been read. -/
structure Draft where
  path : Option Path
  kind : Option EntryKind
  suffix : Option String

/-- Reads an entry.  The suffix may be missing, and is not compared with the path. -/
def read (c : Content) (t : Trail) (n : Node) : Reading Entry :=
  c.record "struct PathEntry" fields (⟨none, none, none⟩ : Draft)
    (fun d name t n =>
      if name = "path" then do
        let s ← c.text "path string" t n
        pure { d with path := some (.ofString s) }
      else if name = "kind" then do
        let k ← EntryKind.read c t n
        pure { d with kind := some k }
      else do
        let s ← c.optional (c.text "a string" t) n
        pure { d with suffix := s })
    (fun d =>
      match d.path, d.kind with
      | none, _ => Reading.complain (.missingField "path")
      | _, none => Reading.complain (.missingField "kind")
      | some path, some kind => pure ⟨path, kind, d.suffix⟩) t n

/-- The document of an entry, which fails for a path that is not a text. -/
def written (e : Entry) : Except Yaml.Error String :=
  match e.path.text? with
  | none => .error (.unplaced .pathNotText)
  | some path =>
    .ok (Written.ofRecord
      [("path", some path), ("kind", some e.kind.name), ("extension", e.suffix)])

end Entry

/-- Reads a whole text as one value of some type. -/
def readText {α : Type} (text : String) (read : Content → Trail → Node → Reading α) :
    Except Yaml.Error α :=
  let c := Content.ofText text.toList
  c.run (read c)

end ProjectIndex
