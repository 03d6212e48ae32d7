import ProjectIndex.Document

/-!
# Sessions

What the front end knows after loading: the compiler's own data, and one project.  A session is
made once and only asked afterwards.
-/

namespace ProjectIndex

/-- The data of the compiler. -/
structure CompilerData where
  /-- The data files found. -/
  tree : List Entry
  /-- The documents by file name. -/
  database : Table String Document
  /-- The names of the tokens, sorted. -/
  tokens : List String

namespace CompilerData

/-- No data. -/
def empty : CompilerData := ⟨[], ∅, []⟩

/-- The document of a file name. -/
def document? (c : CompilerData) (name : String) : Option Document := c.database.get? name

/-- The catalog of diagnostic messages. -/
def diagnostics? (c : CompilerData) : Option Document := c.document? Names.diagnostics

/-- The default configuration. -/
def defaultConfiguration? (c : CompilerData) : Option Document :=
  c.document? Names.defaultConfiguration

/-- The table of tokens. -/
def tokenTable? (c : CompilerData) : Option Document := c.document? Names.tokens

end CompilerData

/-- The data of a project. -/
structure Project where
  /-- The canonical path of the project's directory. -/
  root : Path
  /-- All entries below it. -/
  tree : List Entry
  /-- The source files in their order. -/
  sources : List Entry
  /-- The configurations by directory. -/
  configurations : Table Path Document

namespace Project

/-- No project. -/
def empty : Project := ⟨⟨[]⟩, [], [], ∅⟩

/-- The configuration that lies in a directory itself. -/
def configuration? (p : Project) (directory : Path) : Option Document :=
  p.configurations.get? directory

/-- The first source file of a name. -/
def source? (p : Project) (name : String) : Option Entry := p.sources.find? (·.isNamed name)

end Project

/-- What the front end knows after loading. -/
structure Session where
  compiler : CompilerData
  project : Project

/-- A session that knows nothing. -/
def Session.empty : Session := ⟨.empty, .empty⟩

end ProjectIndex
