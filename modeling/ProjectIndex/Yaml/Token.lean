import ProjectIndex.Yaml.Mark
import ProjectIndex.Text.Utf8

/-!
# The tokens of a document

A document text is cut into tokens: directives, the edges of documents and of collections, the
indicators between nodes, and the properties and contents of nodes.  Indentation leaves no trace
but the start and end tokens of block collections.

The parts of a tag are bytes, for a tag may spell any byte by a percent escape.
-/

namespace ProjectIndex.Yaml

/-- How a scalar is written. -/
inductive ScalarStyle
  | plain
  | singleQuoted
  | doubleQuoted
  | literal
  | folded
  deriving DecidableEq, Repr

/-- What a token is. -/
inductive TokenKind
  | streamStart
  | streamEnd
  | versionDirective (major minor : Nat)
  | tagDirective (handle start : Bytes)
  | documentStart
  | documentEnd
  | blockSequenceStart
  | blockMappingStart
  | blockEnd
  | flowSequenceStart
  | flowSequenceEnd
  | flowMappingStart
  | flowMappingEnd
  | blockEntry
  | flowEntry
  | key
  | value
  | aliasOf (name : List Char)
  | anchor (name : List Char)
  | tag (handle suffix : Bytes)
  | scalar (text : List Char) (style : ScalarStyle)
  deriving DecidableEq, Repr

/-- A token and the places where it starts and stops. -/
structure Token where
  kind : TokenKind
  start : Mark
  stop : Mark
  deriving DecidableEq, Repr

end ProjectIndex.Yaml
