import ProjectIndex.Entry

/-!
# Choices among entries

`Pick` says which of several files of one name is meant, counting from the front or from the back
of a list that is sorted by path.  `TraceOrder` says how source files are ordered: by depth, and by
path among files of one depth.
-/

namespace ProjectIndex

/-- Which of several items is meant. -/
inductive Pick
  | first
  | last
  /-- Counted from the front, from zero. -/
  | nth (index : Nat)
  /-- Counted from the back, from zero. -/
  | fromEnd (index : Nat)
  deriving DecidableEq, Repr

namespace Pick

/-- The last item, unless something else is asked for. -/
instance : Inhabited Pick := ⟨.last⟩

/-- The item that is meant, if the list is long enough. -/
def select {α : Type} : Pick → List α → Option α
  | first, items => items.head?
  | last, items => items.getLast?
  | nth i, items => items[i]?
  | fromEnd i, items => if i < items.length then items[items.length - 1 - i]? else none

/-- How messages show the choice. -/
def text : Pick → String
  | first => "First"
  | last => "Last"
  | nth i => s!"Nth({i})"
  | fromEnd i => s!"FromEnd({i})"

end Pick

/-- The order of source files. -/
inductive TraceOrder
  /-- Files in shallow directories come first. -/
  | shallowFirst
  /-- Files in deep directories come first. -/
  | deepFirst
  deriving DecidableEq, Repr

namespace TraceOrder

/-- Shallow files come first, unless something else is asked for. -/
instance : Inhabited TraceOrder := ⟨.shallowFirst⟩

/-- The order of two paths by depth. -/
def compareDepth (o : TraceOrder) (p q : Path) : Ordering :=
  match o with
  | shallowFirst => compare p.depth q.depth
  | deepFirst => compare q.depth p.depth

/-- The order of two paths: by depth, and by path where the depths are equal. -/
def comparePaths (o : TraceOrder) (p q : Path) : Ordering :=
  (o.compareDepth p q).then (compare p q)

/-- Sorts entries by their paths. -/
def sort (o : TraceOrder) (entries : List Entry) : List Entry :=
  entries.mergeSort fun a b => (o.comparePaths a.path b.path).isLE

end TraceOrder

/-- Sorts entries by path. -/
def sortByPath (entries : List Entry) : List Entry :=
  entries.mergeSort fun a b => (compare a.path b.path).isLE

end ProjectIndex
