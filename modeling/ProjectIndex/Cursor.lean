import ProjectIndex.Disk.Reader
import ProjectIndex.Names
import ProjectIndex.Search
import ProjectIndex.Session

/-!
# Cursors

A cursor reads one source file line by line.  It records how long each line was, so that the place
of every line read can be computed and reading can go back to it, and it keeps a virtual position
that a user may move at will: each read and each rewind sets it to the real position again.

A cursor is opened once and closed once.  The three stages of its life are `Stage`; only an open
cursor holds a `Reader`.  Operations return the cursor they leave behind, failures included.
-/

namespace ProjectIndex

/-- Why a cursor refuses an operation. -/
inductive CursorError
  | invalidSource (path : Path) (suffix : String)
  | unopened (path : Path) (error : IoError)
  | alreadyOpen (path : Path)
  | finished
  | notOpen
  | lineOutOfRange (line read : Nat)
  | io (error : IoError)
  deriving DecidableEq, Repr

/-- The words for the refusal. -/
def CursorError.message : CursorError → String
  | invalidSource p suffix => s!"not a {suffix} source file: {p.text}"
  | unopened p e => s!"failed to open {p.text}: {e.message}"
  | alreadyOpen p => s!"cursor is already open on {p.text}"
  | finished => "cursor has been closed and cannot be reused"
  | notOpen => "cursor is not open"
  | lineOutOfRange line read => s!"line {line} is beyond the {read} lines read so far"
  | io e => s!"I/O error: {e.message}"

/-- The stages of a cursor's life. -/
inductive Stage
  | closed
  | reading (reader : Reader)
  | finished
  deriving DecidableEq, Repr

/-- A cursor. -/
structure Cursor where
  stage : Stage
  /-- The suffix of the files it may be opened on. -/
  suffix : String
  /-- The path it was opened on. -/
  path : Option Path
  /-- The virtual position. -/
  position : Nat
  /-- The length in bytes of each line read. -/
  lineLengths : List Nat
  /-- How many lines have been read. -/
  lineCount : Nat
  /-- The text of the last line read. -/
  line : String
  deriving DecidableEq, Repr

namespace Cursor

/-- A closed cursor for files with a suffix. -/
def forSuffix (suffix : String) : Cursor := ⟨.closed, suffix, none, 0, [], 0, ""⟩

/-- A closed cursor for source files. -/
def new : Cursor := forSuffix Names.sourceSuffix

/-- Whether the cursor is open. -/
def isOpen (c : Cursor) : Bool :=
  match c.stage with
  | .reading _ => true
  | _ => false

/-- Whether a line, as it was read, marks the end of the file. -/
def isEnd (line : String) : Bool := line.isEmpty

/-! ### Opening and closing -/

/-- Opens a closed cursor on a file with its suffix. -/
def openOn (c : Cursor) (d : Disk) (p : Path) : Logged (Except CursorError Unit × Cursor) :=
  match c.stage with
  | .reading _ => pure (.error (.alreadyOpen (c.path.getD ⟨[]⟩)), c)
  | .finished => pure (.error .finished, c)
  | .closed =>
    if !d.isFileWith p (some c.suffix) then pure (.error (.invalidSource p c.suffix), c)
    else match d.openFile p with
      | .error e => pure (.error (.unopened p e), c)
      | .ok reader => do
        Logged.report (.sourceOpened p)
        pure (.ok (), ⟨.reading reader, c.suffix, some p, 0, [], 0, ""⟩)

/-- Closes an open cursor for good. -/
def close (c : Cursor) : Logged (Except CursorError Unit × Cursor) :=
  match c.stage with
  | .reading _ => do
    match c.path with
    | some p => Logged.report (.sourceClosed p c.lineCount)
    | none => pure ()
    pure (.ok (), { c with stage := .finished })
  | _ => pure (.error .notOpen, c)

/-! ### Reading -/

/-- Reads the next line, its line feed included; at the end of the file the line is empty.  After a
failure the reader stands where the line begins, and the virtual position with it. -/
def readLine (c : Cursor) (d : Disk) : Except CursorError String × Cursor :=
  match c.stage with
  | .reading reader =>
    match reader.nextLine (d.contents reader) with
    | (.ok bytes, reader) =>
      let line := Utf8.lossy bytes
      (.ok line, { c with
        stage := .reading reader
        position := reader.position
        lineLengths := c.lineLengths ++ [bytes.length]
        lineCount := c.lineCount + 1
        line })
    | (.error e, reader) =>
      (.error (.io e), { c with stage := .reading reader, position := reader.position })
  | _ => (.error .notOpen, c)

/-! ### Positions -/

/-- Sets the virtual position. -/
def setPosition (c : Cursor) (position : Nat) : Cursor := { c with position }

/-- Sets the virtual position and gives the one before. -/
def updatePosition (c : Cursor) (position : Nat) : Nat × Cursor := (c.position, { c with position })

/-- How far a position lies behind the virtual one. -/
def delta (c : Cursor) (position : Nat) : Int := (position : Int) - c.position

/-- Where in the file a line begins, for the lines read and the one after them. -/
def lineOffset (c : Cursor) (line : Nat) : Option Nat :=
  if c.lineLengths.length < line then none else some ((c.lineLengths.take line).foldr (· + ·) 0)

/-- Goes back to the start of a line, and forgets the lines from there on. -/
def rewind (c : Cursor) (line : Nat) : Except CursorError Unit × Cursor :=
  match c.lineOffset line with
  | none => (.error (.lineOutOfRange line c.lineLengths.length), c)
  | some offset =>
    match c.stage with
    | .reading reader =>
      (.ok (), { c with
        stage := .reading (reader.seek offset)
        position := offset
        lineLengths := c.lineLengths.take line
        lineCount := line
        line := "" })
    | _ => (.error .notOpen, c)

end Cursor

/-! ### Sources of a session -/

/-- Opens a cursor on the first source file of a name in a session.  The cursor is for the suffix of
that file. -/
def openSource (s : Session) (d : Disk) (name : String) : Logged (Except CursorError Cursor) :=
  match s.project.source? name with
  | none => do
    Logged.report (.notTraced name s.project.root)
    let path := Path.ofString name
    pure (.error (.invalidSource (s.project.root.join path) (path.suffix?.getD Names.sourceSuffix)))
  | some e => do
    let cursor := match e.suffix with
      | some suffix => Cursor.forSuffix suffix
      | none => Cursor.new
    match ← cursor.openOn d e.path with
    | (.ok (), cursor) => pure (.ok cursor)
    | (.error e, _) => pure (.error e)

end ProjectIndex
