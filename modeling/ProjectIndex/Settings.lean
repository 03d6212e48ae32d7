import ProjectIndex.Disk.Resolve
import ProjectIndex.Forms
import ProjectIndex.Log
import ProjectIndex.Names
import ProjectIndex.Text.Blank

/-!
# Settings

What the loader is told: where the compiler's data lies, which files count, how source files are
ordered, and whether missing data is a failure.  The defaults depend on the environment, for a
variable may name the compiler's data directory.

Settings can be read from a document.  Keys that are missing keep their defaults, and a relative
data directory is meant to begin in the directory of the settings file.
-/

namespace ProjectIndex

open Yaml

/-- What the loader is told. -/
structure Settings where
  compilerDirectory : Path
  /-- The suffixes of the data files. -/
  dataSuffixes : List String
  /-- The names of the documents to load. -/
  dataFiles : List String
  sourceSuffix : String
  /-- The name of the configuration of a directory. -/
  configuration : String
  order : TraceOrder
  /-- Which of several data files of one name is meant. -/
  pick : Pick
  /-- Whether a data file that is missing or invalid is a failure. -/
  isStrict : Bool
  deriving DecidableEq, Repr

/-- What the defaults depend on. -/
structure Environment where
  /-- The data directory that the variable names, if it is set. -/
  override : Option Path
  /-- The directory of the bundled data. -/
  bundled : Path
  deriving DecidableEq, Repr

/-- The settings where nothing else is said. -/
def Settings.default (env : Environment) : Settings where
  compilerDirectory := env.override.getD env.bundled
  dataSuffixes := [Names.documentSuffix]
  dataFiles := Names.compilerData
  sourceSuffix := Names.sourceSuffix
  configuration := Names.configuration
  order := .shallowFirst
  pick := .last
  isStrict := false

/-- Why settings cannot be read. -/
inductive SettingsError
  | unreadable (path : Path) (error : IoError)
  | invalid (path : Path) (error : Yaml.Error)

/-- The words for the error. -/
def SettingsError.message : SettingsError → String
  | unreadable p e => s!"failed to read settings file {p.text}: {e.message}"
  | invalid p e => s!"invalid settings file {p.text}: {e.message}"

namespace Settings

/-- The names of the settings in documents; no others are allowed. -/
def fields : Content.Fields :=
  ⟨["compiler_dir", "data_extensions", "data_files", "source_extension", "config_filename",
    "trace_order", "pick", "strict_data"], true⟩

/-- Reads one setting. -/
def readField (c : Content) (s : Settings) (name : String) (t : Trail) (n : Node) : Reading Settings :=
  match name with
  | "compiler_dir" => do
    let text ← c.text "path string" t n
    pure { s with compilerDirectory := .ofString text }
  | "data_extensions" => do
    let texts ← c.list (c.text "a string") t n
    pure { s with dataSuffixes := texts }
  | "data_files" => do
    let texts ← c.list (c.text "a string") t n
    pure { s with dataFiles := texts }
  | "source_extension" => do
    let text ← c.text "a string" t n
    pure { s with sourceSuffix := text }
  | "config_filename" => do
    let text ← c.text "a string" t n
    pure { s with configuration := text }
  | "trace_order" => do
    let order ← TraceOrder.read c t n
    pure { s with order }
  | "pick" => do
    let pick ← Pick.read c t n
    pure { s with pick }
  | _ => do
    let isStrict ← c.bool t n
    pure { s with isStrict }

/-- Reads settings, those that are missing being the defaults. -/
def read (env : Environment) (c : Content) (t : Trail) (n : Node) : Reading Settings :=
  c.record "struct LoaderSettings" fields (default env) (readField c) pure t n

/-- A data directory as it is meant in a settings file: one that is relative begins where the file
lies. -/
def rebase (file : Path) (s : Settings) : Settings :=
  if s.compilerDirectory.isAbsolute then s
  else match file.parent? with
    | none => s
    | some directory => { s with compilerDirectory := directory.join s.compilerDirectory }

/-- Reads a settings file.  A file of blanks alone sets nothing. -/
def ofFile (env : Environment) (d : Disk) (file : Path) : Logged (Except SettingsError Settings) :=
  match d.readText file with
  | .error e => pure (.error (.unreadable file e))
  | .ok text =>
    if text.toList.all Text.isBlank then pure (.ok (default env))
    else match readText text (read env) with
      | .error e => pure (.error (.invalid file e))
      | .ok s => do
        Logged.report (.settingsLoaded file)
        pure (.ok (s.rebase file))

end Settings

end ProjectIndex
