import ProjectIndex.Text.Utf8
import Std.Data.TreeMap

/-!
# Paths

A path is a spelling, a sequence of bytes in which slashes separate names.  Different spellings can
say the same: repeated slashes, a slash at the end and a period between slashes change nothing.
What a path says is the list of its components, and this list is the one view through which paths
are compared, ordered and measured.

* `Path.components` is the view; `Path.same` and the order of paths are defined by it.
* `name?`, `parent?`, `suffix?` and `join` work on the spelling.

The spelling itself matters where a path is shown, and where the tree of files is asked for it.
-/

namespace ProjectIndex

/-- A component of a path. -/
inductive Component
  /-- The slash that begins an absolute path. -/
  | root
  /-- A period that begins a relative path. -/
  | current
  /-- Two periods. -/
  | parent
  /-- A name. -/
  | name (bytes : Bytes)
  deriving DecidableEq, Repr

namespace Component

/-- The place of a component's kind in the order. -/
def rank : Component → Nat
  | root => 0
  | current => 1
  | parent => 2
  | name _ => 3

/-- The bytes of a name. -/
def bytes : Component → Bytes
  | name b => b
  | _ => []

/-- Components are ordered by kind, and names by their bytes. -/
instance : Ord Component := ⟨compareLex (compareOn rank) (compareOn bytes)⟩

instance : Std.TransOrd Component :=
  inferInstanceAs (Std.TransCmp (compareLex (compareOn rank) (compareOn bytes)))

theorem eq_of_rank_bytes {a b : Component} (hr : a.rank = b.rank) (hb : a.bytes = b.bytes) :
    a = b := by
  cases a <;> cases b <;> simp_all [rank, bytes]

instance : Std.LawfulEqOrd Component where
  eq_of_compare {a b} h := by
    have both : (compare a.rank b.rank).then (compare a.bytes b.bytes) = .eq := h
    rw [Ordering.then_eq_eq] at both
    exact eq_of_rank_bytes (Std.LawfulEqOrd.eq_of_compare both.1)
      (Std.LawfulEqOrd.eq_of_compare both.2)

end Component

/-- A path, by its spelling. -/
structure Path where
  bytes : Bytes
  deriving DecidableEq, Repr

namespace Path

/-- The byte that separates names. -/
def slash : UInt8 := 0x2F

/-- The byte of a period. -/
def dot : UInt8 := 0x2E

/-- The path that a text spells. -/
def ofString (s : String) : Path := ⟨Utf8.encode s⟩

/-- The empty path. -/
instance : Inhabited Path := ⟨⟨[]⟩⟩

/-- The text of the spelling, as messages show it. -/
def text (p : Path) : String := Utf8.lossy p.bytes

/-- The text of the spelling, if it is one. -/
def text? (p : Path) : Option String := Utf8.text? p.bytes

/-- The pieces of a byte sequence between slashes. -/
def segments : Bytes → List Bytes
  | [] => [[]]
  | b :: bs =>
    if b = slash then [] :: segments bs
    else match segments bs with
      | [] => [[b]]
      | s :: ss => (b :: s) :: ss

/-- The component that a segment inside a path stands for: none, if it is empty or a period. -/
def component? (s : Bytes) : Option Component :=
  if s = [] ∨ s = [dot] then none
  else if s = [dot, dot] then some .parent
  else some (.name s)

/-- Whether the path begins with a slash. -/
def isAbsolute (p : Path) : Bool := p.bytes.head? == some slash

/-- Whether the path begins with a component that is a period. -/
def startsHere (p : Path) : Bool := (segments p.bytes).head? == some [dot]

/-- What the path says. -/
def components (p : Path) : List Component :=
  let inner := (segments p.bytes).filterMap component?
  if p.isAbsolute then .root :: inner
  else if p.startsHere then .current :: inner
  else inner

/-- Whether two paths say the same. -/
def same (p q : Path) : Bool := p.components == q.components

/-- Paths are ordered by their components. -/
instance : Ord Path := ⟨compareOn components⟩

instance : Std.TransOrd Path := inferInstanceAs (Std.TransCmp (compareOn components))

/-- Paths of the same place in the order are those that say the same. -/
theorem compare_eq_iff {p q : Path} : compare p q = .eq ↔ p.components = q.components :=
  have h : compare p.components q.components = .eq ↔ p.components = q.components :=
    Std.compare_eq_iff_eq
  h

/-- The number of components. -/
def depth (p : Path) : Nat := p.components.length

/-- The bytes of the last component, if it is a name. -/
def nameBytes? (p : Path) : Option Bytes :=
  match p.components.getLast? with
  | some (.name b) => some b
  | _ => none

/-- The last component, if it is a name and a text. -/
def name? (p : Path) : Option String := p.nameBytes? >>= Utf8.text?

/-! ### The parent -/

/-- How many bytes at the start stand for a first component that is not a name. -/
def headLength (p : Path) : Nat := if p.isAbsolute || p.startsHere then 1 else 0

/-- The bytes before the last segment and the slash in front of it. -/
def dropSegment (body : Bytes) : Bytes := ((body.reverse.dropWhile (· != slash)).drop 1).reverse

/-- The last segment. -/
def lastSegment (body : Bytes) : Bytes := (body.reverse.takeWhile (· != slash)).reverse

/-- Removes the segments at the end that stand for no component; `fuel` bounds their number. -/
def trimEnd : (fuel : Nat) → Bytes → Bytes
  | 0, body => body
  | fuel + 1, body =>
    if body = [] then []
    else if component? (lastSegment body) = none then trimEnd fuel (dropSegment body)
    else body

/-- The spelling up to the component before the last one, if there is a component that can be left
out. -/
def parent? (p : Path) : Option Path :=
  let head := p.bytes.take p.headLength
  let body := p.bytes.drop p.headLength
  let trim := trimEnd (p.bytes.length + 1)
  match trim body with
  | [] => if p.startsHere && !p.isAbsolute then some ⟨[]⟩ else none
  | body => some ⟨head ++ trim (dropSegment body)⟩

/-! ### The suffix -/

/-- The bytes behind the last period of a name, if there is a period and something before it. -/
def extensionBytes? (name : Bytes) : Option Bytes :=
  let behind := (name.reverse.takeWhile (· != dot)).reverse
  if name.length ≤ behind.length + 1 then none else some behind

/-- The suffix of the name: its last period and what follows, which must be a text that is not
empty.  A period at the start of the name begins no suffix. -/
def suffix? (p : Path) : Option String := do
  let name ← p.nameBytes?
  let extension ← extensionBytes? name
  let text ← Utf8.text? extension
  if text.isEmpty then none else some ("." ++ text)

/-! ### Joining -/

/-- The second path, seen from the first one: an absolute path stands for itself. -/
def join (p q : Path) : Path :=
  if q.isAbsolute then q
  else if p.bytes = [] ∨ p.bytes.getLast? = some slash then ⟨p.bytes ++ q.bytes⟩
  else ⟨p.bytes ++ slash :: q.bytes⟩

/-- The path of a name in a directory. -/
def child (p : Path) (name : Bytes) : Path := p.join ⟨name⟩

/-- The absolute path that leads through the given names. -/
def ofNames (names : List Bytes) : Path :=
  match names with
  | [] => ⟨[slash]⟩
  | names => ⟨names.flatMap fun n => slash :: n⟩

end Path

end ProjectIndex
