/-!
# Places in a document text

A mark counts characters from the start of the text, lines, and characters from the start of the
line, all from zero.  Messages name a line and a column, both from one; the very first place of a
text goes unmentioned.
-/

namespace ProjectIndex.Yaml

/-- A place in a text. -/
structure Mark where
  index : Nat
  line : Nat
  column : Nat
  deriving DecidableEq, Repr, Inhabited

namespace Mark

/-- The start of a text. -/
def origin : Mark := ⟨0, 0, 0⟩

/-- The mark after one more character of the same line. -/
def next (m : Mark) : Mark := ⟨m.index + 1, m.line, m.column + 1⟩

/-- The mark at the start of the next line, after a line break of `width` characters. -/
def nextLine (m : Mark) (width : Nat) : Mark := ⟨m.index + width, m.line + 1, 0⟩

/-- Whether both marks name the same line and column. -/
def sameSpot (a b : Mark) : Bool := a.line == b.line && a.column == b.column

/-- Whether the mark is the first place of a text. -/
def isOrigin (m : Mark) : Bool := m.line == 0 && m.column == 0

/-- How a message names the mark: nothing for the first place. -/
def text (m : Mark) : String :=
  if m.isOrigin then "" else s!" at line {m.line + 1} column {m.column + 1}"

@[simp] theorem index_next (m : Mark) : m.next.index = m.index + 1 := rfl

@[simp] theorem line_next (m : Mark) : m.next.line = m.line := rfl

@[simp] theorem column_next (m : Mark) : m.next.column = m.column + 1 := rfl

@[simp] theorem column_nextLine (m : Mark) (width : Nat) : (m.nextLine width).column = 0 := rfl

end Mark

end ProjectIndex.Yaml
