import ProjectIndex.Yaml.Source
import ProjectIndex.Yaml.Token

/-!
# Reading tags, anchors and directives

The short forms around nodes: the name of an anchor or an alias, a tag in its three spellings, and
the directives before a document.  A tag is spelled in URI characters, among them percent escapes
of the bytes of a character; a zero byte ends the tag.
-/

namespace ProjectIndex.Yaml

/-- The byte of an ASCII character. -/
def asciiByte (c : Char) : UInt8 := c.toNat.toUInt8

/-! ### URIs -/

/-- The characters of a URI; those that also end a flow node count only where `wide` holds. -/
def isUriChar (wide : Bool) (c : Char) : Bool :=
  isWordChar c || ";/?:@&=+$.%!~*\x27()".toList.contains c ||
    (wide && (c == ',' || c == '[' || c == ']'))

/-- Reads one percent escape. -/
def readOctet (activity : Activity) (began : Mark) (i : Input) : Except Fault (Nat × Input) := do
  i.ensure 3
  match i.sees '%', i.peekAt 1 >>= hexValue?, i.peekAt 2 >>= hexValue? with
  | true, some a, some b => .ok (16 * a + b, i.skipMany 3)
  | _, _, _ => .error (.within activity began .missingUriOctet i.mark)

/-- How many bytes the character has that begins with this byte; zero if none begins so. -/
def octetWidth (b : Nat) : Nat :=
  if b < 0x80 then 1
  else if b / 32 = 6 then 2
  else if b / 16 = 14 then 3
  else if b / 8 = 30 then 4
  else 0

/-- Reads the escapes of the bytes that continue a character. -/
def readTrailingOctets (activity : Activity) (began : Mark) :
    (count : Nat) → Input → Except Fault (Bytes × Input)
  | 0, i => .ok ([], i)
  | n + 1, i => do
    let (b, j) ← readOctet activity began i
    if b / 64 ≠ 2 then .error (.within activity began .badTrailingOctet i.mark)
    else
      let (more, k) ← readTrailingOctets activity began n j
      .ok (b.toUInt8 :: more, k)

/-- Reads the escapes of all bytes of one character. -/
def readOctets (activity : Activity) (began : Mark) (i : Input) : Except Fault (Bytes × Input) := do
  let (b, j) ← readOctet activity began i
  match octetWidth b with
  | 0 => .error (.within activity began .badLeadingOctet i.mark)
  | n + 1 =>
    let (more, k) ← readTrailingOctets activity began n j
    .ok (b.toUInt8 :: more, k)

/-- Reads the URI characters ahead. -/
def readUriRest (activity : Activity) (began : Mark) (wide : Bool) :
    (fuel : Nat) → Input → Except Fault (Bytes × Input)
  | 0, i => .ok ([], i)
  | fuel + 1, i => do
    i.ensure 1
    match i.peek with
    | none => .ok ([], i)
    | some c =>
      if !isUriChar wide c then .ok ([], i)
      else
        let (bytes, j) ←
          if c == '%' then readOctets activity began i else .ok ([asciiByte c], i.skip)
        let (more, k) ← readUriRest activity began wide fuel j
        .ok (bytes ++ more, k)

/-- Reads a URI, of which `start` has been read before. -/
def readUri (activity : Activity) (began : Mark) (wide : Bool) (start : Bytes) (i : Input) :
    Except Fault (Bytes × Input) := do
  let (uri, j) ← readUriRest activity began wide (i.rest.length + 1) i
  if start.isEmpty && j.mark.index == i.mark.index then
    .error (.within activity began .missingTagUri j.mark)
  else .ok ((start.drop 1 ++ uri).takeWhile (· != 0), j)

/-! ### Tags -/

/-- Reads a tag handle: word characters between exclamation marks, of which only a tag may lack
the second one. -/
def readHandle (isDirective : Bool) (began : Mark) (i : Input) : Except Fault (Bytes × Input) := do
  i.ensure 1
  if !i.sees '!' then
    .error (.within (if isDirective then .tagDirectiveHandle else .tag) began .missingExclamation
      i.mark)
  else
    let (word, j) := i.skip.span isWordChar
    j.ensure 1
    let handle := asciiByte '!' :: word.map asciiByte
    if j.sees '!' then .ok (handle ++ [asciiByte '!'], j.skip)
    else if isDirective && !word.isEmpty then
      .error (.within .tagDirectiveHandleEnd began .missingExclamation j.mark)
    else .ok (handle, j)

/-- Reads a tag as a handle and a suffix.  A verbatim tag has the empty handle, and so has the tag
that is an exclamation mark alone. -/
def readTagParts (began : Mark) (i : Input) : Except Fault (Bytes × Bytes × Input) := do
  i.ensure 2
  if i.peekAt 1 == some '<' then
    let (suffix, j) ← readUri .tagUri began true [] (i.skipMany 2)
    j.ensure 1
    if !j.sees '>' then .error (.within .tag began .missingTagClose j.mark)
    else .ok ([], suffix, j.skip)
  else
    let (handle, j) ← readHandle false began i
    if 2 ≤ handle.length ∧ handle.getLast? = some (asciiByte '!') then
      let (suffix, k) ← readUri .tagUri began false [] j
      .ok (handle, suffix, k)
    else
      let (suffix, k) ← readUri .tagUri began false handle j
      if suffix.isEmpty then .ok ([], [asciiByte '!'], k) else .ok ([asciiByte '!'], suffix, k)

/-- Reads a tag, the exclamation mark being ahead. -/
def readTag (inFlow : Bool) (i : Input) : Except Fault (Bytes × Bytes × Input) := do
  let (handle, suffix, j) ← readTagParts i.mark i
  j.ensure 1
  if endsWord j.peek || (inFlow && j.sees ',') then .ok (handle, suffix, j)
  else .error (.within .tag i.mark .missingSpaceOrBreak j.mark)

/-! ### Anchors and aliases -/

/-- The characters besides white space that may follow the name of an anchor. -/
def endsAnchor (c : Char) : Bool := "?:,]\x7d%@\x60".toList.contains c

/-- Reads the name of an anchor or an alias, the indicator being ahead. -/
def readAnchor (activity : Activity) (i : Input) : Except Fault (List Char × Input) := do
  let (name, j) := i.skip.span isWordChar
  j.ensure 1
  if !name.isEmpty && (endsWord j.peek || j.peek.any endsAnchor) then .ok (name, j)
  else .error (.within activity i.mark .missingAnchorName j.mark)

/-! ### Directives -/

/-- Reads a number of at most nine digits; `room` counts the digits still allowed. -/
def readVersionNumber (began : Mark) :
    (room value : Nat) → Bool → List Char → Input → Except Fault (Nat × Input)
  | room, value, found, cs, i => do
    match cs with
    | [] => finish value found i
    | c :: cs =>
      if !c.isDigit then finish value found i
      else match room with
        | 0 => .error (.within .versionDirective began .longVersion i.mark)
        | room + 1 =>
          readVersionNumber began room (10 * value + (c.toNat - '0'.toNat)) true cs i.skip
where
  /-- The number read, if it has a digit. -/
  finish (value : Nat) (found : Bool) (i : Input) : Except Fault (Nat × Input) := do
    i.ensure 1
    if found then .ok (value, i) else .error (.within .versionDirective began .missingVersion i.mark)

/-- Reads the value of a version directive. -/
def readVersion (began : Mark) (i : Input) : Except Fault (TokenKind × Input) := do
  let i := i.skipBlanks
  i.ensure 1
  let (major, j) ← readVersionNumber began 9 0 false i.rest i
  if !j.sees '.' then .error (.within .versionDirective began .missingVersionPoint j.mark)
  else
    let (minor, k) ← readVersionNumber began 9 0 false j.skip.rest j.skip
    .ok (.versionDirective major minor, k)

/-- Reads the value of a tag directive. -/
def readTagDirective (began : Mark) (i : Input) : Except Fault (TokenKind × Input) := do
  let (handle, j) ← readHandle true began i.skipBlanks
  j.ensure 1
  if !j.peek.any isSpaceOrTab then .error (.within .tagDirective began .missingSpace j.mark)
  else
    let (start, k) ← readUri .tagDirectiveUri began true [] j.skipBlanks
    k.ensure 1
    if !endsWord k.peek then .error (.within .tagDirective began .missingSpaceOrBreak k.mark)
    else .ok (.tagDirective handle start, k)

/-- Reads a directive up to the end of its line, the percent sign being ahead, and gives it with
the place where its value stops. -/
def readDirective (i : Input) : Except Fault (TokenKind × Mark × Input) := do
  let began := i.mark
  let (name, j) := i.skip.span isWordChar
  j.ensure 1
  if name.isEmpty then .error (.within .directive began .missingDirectiveName j.mark)
  else if !endsWord j.peek then .error (.within .directive began .badDirectiveName j.mark)
  else
    let (kind, k) ←
      if name == "YAML".toList then readVersion began j
      else if name == "TAG".toList then readTagDirective began j
      else .error (.within .directive began .unknownDirective j.mark)
    let l := k.skipBlanks.skipComment
    l.ensure 1
    if !endsLine l.peek then .error (.within .directive began .missingCommentOrBreak l.mark)
    else .ok (kind, k.mark, l.skipBreak)

end ProjectIndex.Yaml
