import ProjectIndex.Disk.Resolve
import ProjectIndex.Log

/-!
# Listing and searching directories

A directory is listed depth first, siblings sorted by name, each entry under its absolute path; links
are listed and never followed.  The tree of files keeps children in no order, so the listing sorts
them, and the result depends on the names alone.

Searches filter a listing.  A search that finds nothing answers `none`, never an empty list, and
a search in what is not a directory finds nothing.

`Tree.visitsBelow` is the listing of a node's descendants; `Disk.list` puts it under a canonical root.
-/

namespace ProjectIndex

/-! ### Walking a tree -/

/-- What a walk meets. -/
inductive Visit
  | entry (e : Entry)
  /-- A directory whose path is too long to open it. -/
  | unopened (directory : Path)
  deriving DecidableEq, Repr

namespace Visit

/-- The entry met. -/
def entry? : Visit → Option Entry
  | entry e => some e
  | unopened _ => none

/-- What is reported, in a walk below `root`. -/
def event? (root : Path) : Visit → Option LogEvent
  | entry _ => none
  | unopened p => some (.unreadableDirectory root p .nameTooLong)

end Visit

/-- Sorts by name. -/
def sortByName {α : Type} (named : List (FileName × α)) : List (FileName × α) :=
  named.mergeSort fun a b => (compare a.1 b.1).isLE

namespace Tree

/-- The kind of a node. -/
def kind : Tree → EntryKind
  | file _ => .file
  | directory _ => .directory
  | link _ => .other
  | special => .other

mutual

/-- Walks over a node and all that lies below it. -/
def walk (path : Path) : Tree → List Visit
  | file _ => [.entry (.ofPath path .file)]
  | link _ => [.entry (.ofPath path .other)]
  | special => [.entry (.ofPath path .other)]
  | directory children =>
    .entry (.ofPath path .directory) ::
      if pathLimit < path.bytes.length then [.unopened path]
      else (sortByName (walkEach path children)).flatMap (·.2)

/-- Walks over each of the children of a directory. -/
def walkEach (path : Path) : List (FileName × Tree) → List (FileName × List Visit)
  | [] => []
  | c :: cs => (c.1, walk (path.child c.1) c.2) :: walkEach path cs

end

/-- Walks over all that lies below a directory. -/
def visitsBelow (path : Path) (children : List (FileName × Tree)) : List Visit :=
  (sortByName (walkEach path children)).flatMap (·.2)

/-- The children of a directory, none of which is opened. -/
def visitsWithin (path : Path) (children : List (FileName × Tree)) : List Visit :=
  (sortByName children).map fun c => .entry (.ofPath (path.child c.1) c.2.kind)

/-- Walks over what a listing of a directory looks at, which is nothing if the directory cannot be
opened. -/
def visits (path : Path) (children : List (FileName × Tree)) (isDeep : Bool) : List Visit :=
  if pathLimit < path.bytes.length then [.unopened path]
  else if isDeep then visitsBelow path children
  else visitsWithin path children

end Tree

/-! ### Listing -/

namespace Disk

/-- Whether the path leads to a file and, where a suffix is given, ends in it. -/
def isFileWith (d : Disk) (p : Path) (suffix : Option String) : Bool :=
  d.isFile p && match suffix with
    | none => true
    | some s => p.suffix? = some s

/-- The entries below a directory: all, or only its children.  The directory itself is not among
them. -/
def list (d : Disk) (directory : Path) (isDeep : Bool) : Logged (List Entry) :=
  if !d.isDirectory directory then do
    Logged.report (.nothingToList directory)
    pure []
  else match d.canonical directory, d.node? directory with
    | .ok root, some (.directory children) =>
      let visits := Tree.visits root children isDeep
      let entries := visits.filterMap Visit.entry?
      ⟨entries, visits.filterMap (Visit.event? root) ++ [.listed entries.length root]⟩
    | .error e, _ => do
      Logged.report (.unresolvedDirectory directory e)
      pure []
    | _, _ => pure []

end Disk

/-! ### Searching -/

/-- A list that is not empty. -/
def nonEmpty? {α : Type} : List α → Option (List α)
  | [] => none
  | items => some items

@[simp] theorem nonEmpty?_eq_none {α : Type} {items : List α} : nonEmpty? items = none ↔ items = [] := by
  cases items <;> simp [nonEmpty?]

theorem nonEmpty?_of_ne_nil {α : Type} {items : List α} (h : items ≠ []) :
    nonEmpty? items = some items := by
  cases items with
  | nil => exact absurd rfl h
  | cons a as => rfl

/-- The entries with a name. -/
def findNamed (tree : List Entry) (name : String) : Option (List Entry) :=
  nonEmpty? (tree.filter (·.isNamed name))

/-- Whether an entry is the entry of a file and leads to a file with the suffix. -/
def Disk.isSource (d : Disk) (suffix : String) (e : Entry) : Bool :=
  e.isFile && d.isFileWith e.path (some suffix)

/-- The entries of files that lead to files with a suffix. -/
def Disk.findFiles (d : Disk) (tree : List Entry) (suffix : String) : Option (List Entry) :=
  nonEmpty? (tree.filter (d.isSource suffix))

/-- The entries below a directory that carry one of some suffixes. -/
def Disk.findWithSuffixes (d : Disk) (directory : Path) (suffixes : List String) (isDeep : Bool) :
    Logged (Option (List Entry)) :=
  if !d.isDirectory directory then pure none
  else do
    let entries ← d.list directory isDeep
    pure (nonEmpty? (entries.filter fun e => e.suffix.any suffixes.contains))

/-- The entries below a directory that have a name. -/
def Disk.findNamedBelow (d : Disk) (directory : Path) (name : String) (isDeep : Bool) :
    Logged (Option (List Entry)) :=
  if !d.isDirectory directory then pure none
  else do
    let entries ← d.list directory isDeep
    pure (findNamed entries name)

/-- The source files among entries, in the order asked for. -/
def Disk.traceSources (d : Disk) (tree : List Entry) (suffix : String) (order : TraceOrder) :
    Option (List Entry) :=
  (d.findFiles tree suffix).map order.sort

end ProjectIndex
