import ProjectIndex.Names

/-!
# The bundled compiler data

The documents that the compiler brings along, by file name.
-/

namespace ProjectIndex.Bundled

/-- The lines of the default configuration. -/
def configuration : List String :=
  [
    "# Default configuration of the Clua compiler.",
    "# Projects override it per directory with their own clua.config.yaml.",
    "",
    "compiler:",
    "  target: lua54",
    "  strict: false",
    "  warnings_as_errors: false",
    "",
    "sources:",
    "  extension: .clua",
    "  encoding: utf-8"]

/-- The lines of the catalog of diagnostic messages. -/
def diagnostics : List String :=
  [
    "# Diagnostic catalog of the Clua compiler.",
    "# Codes are grouped by the stage that raises them.",
    "",
    "DPC001:",
    "  level: Message",
    "  message: \"Internal log: \x7bdetail\x7d\"",
    "DPC101:",
    "  level: Critical",
    "  message: \"Compiler data directory not found: \x7bpath\x7d\"",
    "DPC102:",
    "  level: Error",
    "  message: \"Configuration file could not be parsed: \x7bpath\x7d\"",
    "DPC103:",
    "  level: Critical",
    "  message: \"Project directory is empty or invalid: \x7bpath\x7d\"",
    "DPC105:",
    "  level: Error",
    "  message: \"Source file could not be read: \x7bpath\x7d\""]

/-- The lines of the table of tokens. -/
def tokens : List String :=
  [
    "# Token table consumed by the scanner.",
    "",
    "PLUS: \"+\"",
    "MINUS: \"-\"",
    "STAR: \"*\"",
    "SLASH: \"/\"",
    "EQUAL: \"=\"",
    "LPAREN: \"(\"",
    "RPAREN: \")\"",
    "LBRACE: \"\x7b\"",
    "RBRACE: \"\x7d\"",
    "COMMA: \",\"",
    "LOCAL: \"local\"",
    "FUNCTION: \"function\"",
    "RETURN: \"return\"",
    "END: \"end\""]

/-- A text of lines, each of which ends in a line feed. -/
def ofLines (lines : List String) : String := String.join (lines.map (· ++ "\n"))

/-- The bundled documents, by file name. -/
def files : List (String × String) :=
  [(Names.diagnostics, ofLines diagnostics),
   (Names.defaultConfiguration, ofLines configuration),
   (Names.tokens, ofLines tokens)]

end ProjectIndex.Bundled
