import ProjectIndex.Yaml.Mark

/-!
# Faults of a document text

Why a text is not a YAML document: what was found or missed, where, and what was being read when
it happened.  The causes are data; `Fault.message` is the one place where they become words.
-/

namespace ProjectIndex.Yaml

/-- What was being read when a fault was met. -/
inductive Activity
  | nextToken
  | simpleKey
  | directive
  | versionDirective
  | tagDirectiveHandle
  | tagDirectiveHandleEnd
  | tagDirective
  | tagDirectiveUri
  | tag
  | tagUri
  | anchor
  | aliasOf
  | blockScalar
  | quotedScalar
  | quotedEscape
  | plainScalar
  | node
  | blockNode
  | flowNode
  | blockCollection
  | blockMapping
  | flowSequence
  | flowMapping
  deriving DecidableEq, Repr

/-- How a message names what was being read. -/
def Activity.text : Activity → String
  | nextToken => "while scanning for the next token"
  | simpleKey => "while scanning a simple key"
  | directive => "while scanning a directive"
  | versionDirective => "while scanning a %YAML directive"
  | tagDirectiveHandle => "while scanning a tag directive"
  | tagDirectiveHandleEnd => "while parsing a tag directive"
  | tagDirective => "while scanning a %TAG directive"
  | tagDirectiveUri => "while parsing a %TAG directive"
  | tag => "while scanning a tag"
  | tagUri => "while parsing a tag"
  | anchor => "while scanning an anchor"
  | aliasOf => "while scanning an alias"
  | blockScalar => "while scanning a block scalar"
  | quotedScalar => "while scanning a quoted scalar"
  | quotedEscape => "while parsing a quoted scalar"
  | plainScalar => "while scanning a plain scalar"
  | node => "while parsing a node"
  | blockNode => "while parsing a block node"
  | flowNode => "while parsing a flow node"
  | blockCollection => "while parsing a block collection"
  | blockMapping => "while parsing a block mapping"
  | flowSequence => "while parsing a flow sequence"
  | flowMapping => "while parsing a flow mapping"

/-- What is wrong with a text. -/
inductive Problem
  | controlCharacter
  | noTokenStart
  | missingColon
  | blockEntryNotAllowed
  | keyNotAllowed
  | valueNotAllowed
  | missingDirectiveName
  | badDirectiveName
  | unknownDirective
  | missingCommentOrBreak
  | longVersion
  | missingVersion
  | missingVersionPoint
  | missingExclamation
  | missingSpace
  | missingSpaceOrBreak
  | missingTagUri
  | missingUriOctet
  | badLeadingOctet
  | badTrailingOctet
  | missingTagClose
  | missingAnchorName
  | zeroIndentation
  | tabForIndentation
  | documentIndicator
  | endOfText
  | unknownEscape
  | missingHexadecimal
  | badCodePoint
  | unexpectedColon
  | tabBelowIndentation
  | missingDocumentStart
  | duplicateVersion
  | incompatibleVersion
  | duplicateTagDirective
  | undefinedTagHandle
  | missingNode
  | missingDash
  | missingKey
  | missingCommaOrBracket
  | missingCommaOrBrace
  deriving DecidableEq, Repr

/-- How a message names what is wrong. -/
def Problem.text : Problem → String
  | controlCharacter => "control characters are not allowed"
  | noTokenStart => "found character that cannot start any token"
  | missingColon => "could not find expected ':'"
  | blockEntryNotAllowed => "block sequence entries are not allowed in this context"
  | keyNotAllowed => "mapping keys are not allowed in this context"
  | valueNotAllowed => "mapping values are not allowed in this context"
  | missingDirectiveName => "could not find expected directive name"
  | badDirectiveName => "found unexpected non-alphabetical character"
  | unknownDirective => "found unknown directive name"
  | missingCommentOrBreak => "did not find expected comment or line break"
  | longVersion => "found extremely long version number"
  | missingVersion => "did not find expected version number"
  | missingVersionPoint => "did not find expected digit or '.' character"
  | missingExclamation => "did not find expected '!'"
  | missingSpace => "did not find expected whitespace"
  | missingSpaceOrBreak => "did not find expected whitespace or line break"
  | missingTagUri => "did not find expected tag URI"
  | missingUriOctet => "did not find URI escaped octet"
  | badLeadingOctet => "found an incorrect leading UTF-8 octet"
  | badTrailingOctet => "found an incorrect trailing UTF-8 octet"
  | missingTagClose => "did not find the expected '>'"
  | missingAnchorName => "did not find expected alphabetic or numeric character"
  | zeroIndentation => "found an indentation indicator equal to 0"
  | tabForIndentation => "found a tab character where an indentation space is expected"
  | documentIndicator => "found unexpected document indicator"
  | endOfText => "found unexpected end of stream"
  | unknownEscape => "found unknown escape character"
  | missingHexadecimal => "did not find expected hexadecimal number"
  | badCodePoint => "found invalid Unicode character escape code"
  | unexpectedColon => "found unexpected ':'"
  | tabBelowIndentation => "found a tab character that violates indentation"
  | missingDocumentStart => "did not find expected <document start>"
  | duplicateVersion => "found duplicate %YAML directive"
  | incompatibleVersion => "found incompatible YAML document"
  | duplicateTagDirective => "found duplicate %TAG directive"
  | undefinedTagHandle => "found undefined tag handle"
  | missingNode => "did not find expected node content"
  | missingDash => "did not find expected '-' indicator"
  | missingKey => "did not find expected key"
  | missingCommaOrBracket => "did not find expected ',' or ']'"
  | missingCommaOrBrace => "did not find expected ',' or '\x7d'"

/-- Where a fault was met: at a mark, or, before marks exist, at a byte of the text. -/
inductive Spot
  | mark (m : Mark)
  | byte (offset : Nat)
  deriving DecidableEq, Repr

/-- A fault of a document text. -/
structure Fault where
  problem : Problem
  spot : Spot
  /-- What was being read, and where that began. -/
  during : Option (Activity × Mark)
  deriving DecidableEq, Repr

namespace Fault

/-- A fault met at a mark while something begun earlier was being read. -/
def within (activity : Activity) (began : Mark) (problem : Problem) (m : Mark) : Fault :=
  ⟨problem, .mark m, some (activity, began)⟩

/-- A fault met at a mark. -/
def here (problem : Problem) (m : Mark) : Fault := ⟨problem, .mark m, none⟩

/-- Names the spot, then what was being read and where that began, unless it began on the spot. -/
def message (f : Fault) : String :=
  let spot := match f.spot with
    | .mark m => m.text
    | .byte offset => if offset = 0 then "" else s!" at position {offset}"
  let during := match f.during with
    | none => ""
    | some (activity, began) =>
      let repeats := match f.spot with
        | .mark m => began.sameSpot m
        | .byte _ => false
      ", " ++ activity.text ++ if repeats then "" else began.text
  f.problem.text ++ spot ++ during

end Fault

end ProjectIndex.Yaml
