import ProjectIndex.Choice
import ProjectIndex.Disk.Tree
import ProjectIndex.Text.Quoted

/-!
# The log

What the library reports while it works, besides its results.  An event is data; its level and its
words follow from it.  A function that reports returns its result together with the events in the
order in which they happened, a `Logged` value; such values combine as a monad that concatenates
the events.
-/

namespace ProjectIndex

/-- How serious an event is. -/
inductive Level
  | debug
  | info
  | warn
  | error
  deriving DecidableEq, Repr

/-- How a log line names the level. -/
def Level.text : Level → String
  | debug => "DEBUG"
  | info => "INFO"
  | warn => "WARN"
  | error => "ERROR"

/-- A key of a table, as the log shows it. -/
inductive LoggedKey
  | text (s : String)
  | path (p : Path)
  deriving DecidableEq, Repr

/-- The key between double quotes. -/
def LoggedKey.quoted : LoggedKey → String
  | text s => Text.quoted s
  | path p => Text.quotedBytes p.bytes

/-- Something that happened. -/
inductive LogEvent
  | duplicateKey (key : LoggedKey)
  | nothingToList (directory : Path)
  | unresolvedDirectory (directory : Path) (error : IoError)
  | unreadableDirectory (root directory : Path) (error : IoError)
  | listed (count : Nat) (root : Path)
  | noDocument (path : Path)
  | unreadDocument (path : Path) (error : IoError)
  | invalidDocument (path : Path) (reason : String)
  | skippedOther (path : Path)
  | skippedInvalid (path : Path) (reason : String)
  | notInTree (name : String)
  | severalCopies (count : Nat) (name : String) (pick : Pick)
  | pickOutOfRange (pick : Pick) (name : String) (count : Nat)
  | settingsLoaded (path : Path)
  | initializing (project : Path)
  | ready (documents entries sources : Nat)
  | projectFailedToo (reason : String)
  | loadingFailed (reason : String)
  | compilerTree (count : Nat)
  | dataFileMissing (name : String)
  | dataFileInvalid (name : String) (reason : String)
  | compilerLoaded (count : Nat) (directory : Path)
  | noSources (suffix : String) (root : Path)
  | projectLoaded (root : Path) (entries sources configurations : Nat)
  | sourceOpened (path : Path)
  | sourceClosed (path : Path) (lines : Nat)
  | notTraced (name : String) (root : Path)
  deriving DecidableEq, Repr

namespace LogEvent

/-- How serious the event is. -/
def level : LogEvent → Level
  | duplicateKey _ => .warn
  | nothingToList _ => .debug
  | unresolvedDirectory .. => .warn
  | unreadableDirectory .. => .warn
  | listed .. => .debug
  | noDocument _ => .debug
  | unreadDocument .. => .warn
  | invalidDocument .. => .warn
  | skippedOther _ => .debug
  | skippedInvalid .. => .warn
  | notInTree _ => .debug
  | severalCopies .. => .debug
  | pickOutOfRange .. => .warn
  | settingsLoaded _ => .debug
  | initializing _ => .info
  | ready .. => .info
  | projectFailedToo _ => .error
  | loadingFailed _ => .error
  | compilerTree _ => .debug
  | dataFileMissing _ => .warn
  | dataFileInvalid .. => .warn
  | compilerLoaded .. => .info
  | noSources .. => .warn
  | projectLoaded .. => .info
  | sourceOpened _ => .debug
  | sourceClosed .. => .debug
  | notTraced .. => .debug

/-- The words for the event. -/
def message : LogEvent → String
  | duplicateKey key => s!"Duplicate entry {key.quoted} ignored, keeping the first one"
  | nothingToList p => s!"Not a directory, nothing to enumerate: {p.text}"
  | unresolvedDirectory p e => s!"Cannot resolve directory {p.text}: {e.message}"
  | unreadableDirectory root p e =>
    s!"Cannot read entry under {root.text}: {p.text}: IO error for operation on {p.text}: {e.message}"
  | listed count root => s!"Enumerated {count} entries under {root.text}"
  | noDocument p => s!"No YAML document at {p.text}"
  | unreadDocument p e => s!"Failed to read {p.text}: {e.message}"
  | invalidDocument p reason => s!"Invalid document {p.text}: {reason}"
  | skippedOther p => s!"Skipping {p.text}: not a YAML file"
  | skippedInvalid p reason => s!"Skipping {p.text}: {reason}"
  | notInTree name => s!"{name} not present in tree"
  | severalCopies count name pick => s!"{count} copies of {name} found, selecting {pick.text}"
  | pickOutOfRange pick name count =>
    s!"Selection {pick.text} out of range for {name} ({count} matches)"
  | settingsLoaded p => s!"Loaded loader settings from {p.text}"
  | initializing p => s!"Initializing session for project {p.text}"
  | ready documents entries sources =>
    s!"Session ready: {documents} compiler documents, {entries} project entries, {sources} source files"
  | projectFailedToo reason => s!"Project phase failed as well: {reason}"
  | loadingFailed reason => s!"Loading failed: {reason}"
  | compilerTree count => s!"Compiler tree holds {count} documents"
  | dataFileMissing name => s!"Compiler data file {name} not found"
  | dataFileInvalid name reason => s!"Compiler data file {name} is invalid: {reason}"
  | compilerLoaded count p => s!"Loaded {count} compiler documents from {p.text}"
  | noSources suffix root => s!"No {suffix} files in {root.text}"
  | projectLoaded root entries sources configurations =>
    s!"Loaded project {root.text}: {entries} entries, {sources} source files, {configurations} config files"
  | sourceOpened p => s!"Opened source file {p.text}"
  | sourceClosed p lines => s!"Closed source file {p.text} after {lines} lines"
  | notTraced name root => s!"{name} is not in the source trace of {root.text}"

end LogEvent

/-- A result with the events on the way to it. -/
structure Logged (α : Type) where
  value : α
  events : List LogEvent

namespace Logged

/-- Results combine in order, and so do their events. -/
instance : Monad Logged where
  pure a := ⟨a, []⟩
  bind x f := ⟨(f x.value).value, x.events ++ (f x.value).events⟩

/-- Reports an event. -/
def report (e : LogEvent) : Logged Unit := ⟨(), [e]⟩

@[simp] theorem value_pure {α : Type} (a : α) : (pure a : Logged α).value = a := rfl

@[simp] theorem events_pure {α : Type} (a : α) : (pure a : Logged α).events = [] := rfl

@[simp] theorem value_bind {α β : Type} (x : Logged α) (f : α → Logged β) :
    (x >>= f).value = (f x.value).value := rfl

@[simp] theorem events_bind {α β : Type} (x : Logged α) (f : α → Logged β) :
    (x >>= f).events = x.events ++ (f x.value).events := rfl

@[simp] theorem value_report (e : LogEvent) : (report e).value = () := rfl

@[simp] theorem events_report (e : LogEvent) : (report e).events = [e] := rfl

instance : LawfulMonad Logged :=
  LawfulMonad.mk' Logged (fun _ => by simp [Functor.map]) (fun _ _ => by simp [bind, pure])
    (fun _ _ _ => by simp [bind])

end Logged

end ProjectIndex
