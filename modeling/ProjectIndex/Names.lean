/-!
# Well-known names

The suffixes, file names and settings that the compiler front end agrees on.
-/

namespace ProjectIndex.Names

/-- The suffix of source files. -/
def sourceSuffix : String := ".clua"

/-- The suffix of documents: compiler data and project configurations. -/
def documentSuffix : String := ".yaml"

/-- The configuration of a directory of a project. -/
def configuration : String := "clua.config.yaml"

/-- The catalog of diagnostic messages. -/
def diagnostics : String := "diagnostic_messages.yaml"

/-- The default configuration of the compiler. -/
def defaultConfiguration : String := configuration

/-- The table of tokens. -/
def tokens : String := "tokens.yaml"

/-- The documents expected in the compiler's data directory. -/
def compilerData : List String := [diagnostics, defaultConfiguration, tokens]

/-- The environment variable that overrides the compiler's data directory. -/
def compilerDirectoryVariable : String := "CLUA_COMPILER_DIR"

/-- The exit status after a failure to load. -/
def loadFailureStatus : Nat := 1

end ProjectIndex.Names
