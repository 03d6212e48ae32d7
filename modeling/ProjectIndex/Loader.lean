import ProjectIndex.Session
import ProjectIndex.Settings

/-!
# Loading a session

Loading has two phases.  The compiler phase looks for data files below the compiler's data
directory and loads the documents it is told to.  The project phase lists the project, orders its
source files, and loads the configuration of each directory that has one.  Both phases always run,
and a session exists only if both succeed; if both fail, the failure of the compiler phase counts.
-/

namespace ProjectIndex

/-- Why loading fails. -/
inductive LoadError
  | notACompilerDirectory (directory : Path)
  | noCompilerData (directory : Path)
  | missingData (name : String)
  | notAProject (directory : Path)
  | emptyProject (directory : Path)
  deriving DecidableEq, Repr

/-- The words for the failure. -/
def LoadError.message : LoadError → String
  | notACompilerDirectory p => s!"compiler data directory is not a directory: {p.text}"
  | noCompilerData p => s!"no compiler data documents found under {p.text}"
  | missingData name => s!"compiler data file missing or invalid: {name}"
  | notAProject p => s!"project directory is not a directory: {p.text}"
  | emptyProject p => s!"project directory is empty: {p.text}"

/-! ### The compiler phase -/

/-- The top-level keys of the token table that are texts, sorted. -/
def tokenNames (table : Document) : List String :=
  (table.filterMap fun e => e.1.asText?).mergeSort fun a b => (compare a b).isLE

namespace Settings

/-- Loads one data file into the database.  The answer is missing if strictness makes a failure of
what was found. -/
def loadData (s : Settings) (d : Disk) (tree : List Entry) (database : Table String Document)
    (name : String) : Logged (Option (Table String Document)) := do
  let lenient : Option (Table String Document) := if s.isStrict then none else some database
  match ← d.loadPicked tree name s.pick false with
  | .found document =>
    let (_, database) ← Table.insertOnce database name document
    pure (some database)
  | .notFound =>
    Logged.report (.dataFileMissing name)
    pure lenient
  | .invalid reason =>
    Logged.report (.dataFileInvalid name reason.message)
    pure lenient

/-- Loads data files into the database one after the other, up to one that is missing. -/
def loadDatabase (s : Settings) (d : Disk) (tree : List Entry) :
    (database : Table String Document) → (names : List String) →
      Logged (Except LoadError (Table String Document))
  | database, [] => pure (.ok database)
  | database, name :: names => do
    match ← s.loadData d tree database name with
    | some database => loadDatabase s d tree database names
    | none => pure (.error (.missingData name))

/-- The compiler phase. -/
def loadCompiler (s : Settings) (d : Disk) : Logged (Except LoadError CompilerData) :=
  let directory := s.compilerDirectory
  if !d.isDirectory directory then pure (.error (.notACompilerDirectory directory))
  else do
    match ← d.findWithSuffixes directory s.dataSuffixes true with
    | none => pure (.error (.noCompilerData directory))
    | some tree =>
      Logged.report (.compilerTree tree.length)
      match ← s.loadDatabase d tree ∅ s.dataFiles with
      | .error e => pure (.error e)
      | .ok database =>
        let tokens := ((database.get? Names.tokens).map tokenNames).getD []
        Logged.report (.compilerLoaded database.size directory)
        pure (.ok ⟨tree, database, tokens⟩)

/-! ### The project phase -/

/-- Takes the configuration of a file for the directory around the file. -/
def takeConfiguration (root : Path) (configurations : Table Path Document)
    (loaded : Path × Document) : Logged (Table Path Document) := do
  let (_, configurations) ←
    Table.insertOnce configurations (loaded.1.parent?.getD root) loaded.2
  pure configurations

/-- The configurations of a project, by directory. -/
def loadConfigurations (s : Settings) (d : Disk) (root : Path) (tree : List Entry) :
    Logged (Table Path Document) := do
  match ← d.loadAllNamed tree s.configuration true with
  | none => pure ∅
  | some loaded => loaded.toList.foldlM (takeConfiguration root) ∅

/-- The project phase. -/
def loadProject (s : Settings) (d : Disk) (directory : Path) : Logged (Except LoadError Project) :=
  if !d.isDirectory directory then pure (.error (.notAProject directory))
  else do
    let tree ← d.list directory true
    if tree.isEmpty then pure (.error (.emptyProject directory))
    else
      let root := match d.canonical directory with
        | .ok root => root
        | .error _ => directory
      let sources := (d.traceSources tree s.sourceSuffix s.order).getD []
      if sources.isEmpty then Logged.report (.noSources s.sourceSuffix root)
      let configurations ← s.loadConfigurations d root tree
      Logged.report (.projectLoaded root tree.length sources.length configurations.size)
      pure (.ok ⟨root, tree, sources, configurations⟩)

/-! ### Both phases -/

/-- Runs both phases. -/
def loadSession (s : Settings) (d : Disk) (directory : Path) : Logged (Except LoadError Session) := do
  Logged.report (.initializing directory)
  let compiler ← s.loadCompiler d
  let project ← s.loadProject d directory
  match compiler, project with
  | .ok c, .ok p =>
    Logged.report (.ready c.database.size p.tree.length p.sources.length)
    pure (.ok ⟨c, p⟩)
  | .error e, .ok _ => pure (.error e)
  | .ok _, .error e => pure (.error e)
  | .error e, .error f =>
    Logged.report (.projectFailedToo f.message)
    pure (.error e)

/-- Runs both phases for a process that ends if they fail.  The failure is the exit status. -/
def loadSessionOrExit (s : Settings) (d : Disk) (directory : Path) : Logged (Except Nat Session) := do
  match ← s.loadSession d directory with
  | .ok session => pure (.ok session)
  | .error e =>
    Logged.report (.loadingFailed e.message)
    pure (.error Names.loadFailureStatus)

end Settings

end ProjectIndex
