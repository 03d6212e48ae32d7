import ProjectIndex.Path

/-!
# Entries

An entry is what a directory listing says about one node: its path, its kind, and its suffix.  The
suffix is a field of its own, because an entry that is read from a document may carry any suffix;
`Entry.ofPath` makes the entry whose suffix is that of its path.
-/

namespace ProjectIndex

/-- The kind of a node of the tree of files. -/
inductive EntryKind
  | file
  | directory
  /-- Anything else, links among them, whatever they lead to. -/
  | other
  deriving DecidableEq, Repr

/-- One node of the tree of files, as a listing shows it. -/
structure Entry where
  path : Path
  kind : EntryKind
  /-- The suffix with its leading period. -/
  suffix : Option String
  deriving DecidableEq, Repr

namespace Entry

/-- The entry of a path. -/
def ofPath (path : Path) (kind : EntryKind) : Entry := ⟨path, kind, path.suffix?⟩

/-- Whether two entries agree in path, kind and suffix, whatever the spelling of the paths. -/
def same (a b : Entry) : Bool := a.path.same b.path && a.kind = b.kind && a.suffix = b.suffix

/-- The last component of the path, if it is a name and a text. -/
def name? (e : Entry) : Option String := e.path.name?

/-- The number of components of the path. -/
def depth (e : Entry) : Nat := e.path.depth

/-- The path of the directory around the entry. -/
def parent? (e : Entry) : Option Path := e.path.parent?

/-- Whether the entry is a file. -/
def isFile (e : Entry) : Bool := e.kind = .file

/-- Whether the entry is a directory. -/
def isDirectory (e : Entry) : Bool := e.kind = .directory

/-- Whether the entry carries the suffix. -/
def hasSuffix (e : Entry) (suffix : String) : Bool := e.suffix = some suffix

/-- Whether the entry has the name. -/
def isNamed (e : Entry) (name : String) : Bool := e.name? = some name

@[simp] theorem path_ofPath (p : Path) (k : EntryKind) : (ofPath p k).path = p := rfl

@[simp] theorem kind_ofPath (p : Path) (k : EntryKind) : (ofPath p k).kind = k := rfl

@[simp] theorem suffix_ofPath (p : Path) (k : EntryKind) : (ofPath p k).suffix = p.suffix? := rfl

end Entry

end ProjectIndex
