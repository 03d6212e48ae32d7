import ProjectIndex.Yaml.Token.Scalar
import ProjectIndex.Yaml.Token.Property

/-!
# From characters to tokens

The lexer reads one token at a time, and with it keeps what later tokens depend on: the columns of
the open block collections, the depth of flow collections, and for each depth the place of a token
that turns into a mapping key if a colon follows.  Such a key is announced by a token in front of
that place, so the place is kept as a position in the token list, and a colon inserts there.

A key candidate is given up when its line ends or after 1024 characters; one that the indentation
requires to be a key is then a fault.

`tokens` gives all tokens of a text, or those that can be handed on before a fault: a token is
handed on once no key can be inserted in front of it any more.
-/

namespace ProjectIndex.Yaml

/-- A token that becomes a mapping key if a colon follows. -/
structure KeyCandidate where
  /-- Whether the indentation requires it to be a key. -/
  isRequired : Bool
  /-- Its position in the token list. -/
  position : Nat
  mark : Mark
  deriving DecidableEq, Repr

/-- The greatest distance between a key that is not announced and its colon. -/
def keyReach : Nat := 1024

/-- Whether the candidate is out of reach for a colon at the mark. -/
def KeyCandidate.isStale (k : KeyCandidate) (m : Mark) : Bool :=
  k.mark.line < m.line || k.mark.index + keyReach < m.index

/-- The fault of a required key without a colon. -/
def KeyCandidate.fault (k : KeyCandidate) (m : Mark) : Fault :=
  .within .simpleKey k.mark .missingColon m

/-- Gives up the candidates that are out of reach, from the outermost on. -/
def dropStale (m : Mark) : List (Option KeyCandidate) → Except Fault (List (Option KeyCandidate))
  | [] => .ok []
  | k :: ks => do
    let ks ← dropStale m ks
    match k with
    | none => .ok (none :: ks)
    | some k =>
      if !k.isStale m then .ok (some k :: ks)
      else if k.isRequired then .error (k.fault m)
      else .ok (none :: ks)

/-- The state of the lexer between two tokens. -/
structure Lexer where
  input : Input
  /-- The tokens read, backwards. -/
  read : List Token
  /-- How many tokens have been read. -/
  count : Nat
  /-- The depth of open flow collections. -/
  depth : Nat
  /-- The column of the innermost open block collection, or -1. -/
  indent : Int
  /-- The columns of the block collections around it. -/
  outer : List Int
  /-- Whether a key may begin here. -/
  keyAllowed : Bool
  /-- The key candidate of each depth, the innermost first. -/
  keys : List (Option KeyCandidate)
  /-- Whether the last token has been read. -/
  ended : Bool

namespace Lexer

/-- The lexer at the start of an input, before any token. -/
def start (i : Input) : Lexer := ⟨i, [], 0, 0, -1, [], false, [], false⟩

/-- Whether a flow collection is open. -/
def inFlow (l : Lexer) : Bool := l.depth ≠ 0

/-- The mark ahead. -/
def mark (l : Lexer) : Mark := l.input.mark

/-- Appends a token. -/
def push (l : Lexer) (kind : TokenKind) (start stop : Mark) : Lexer :=
  { l with read := ⟨kind, start, stop⟩ :: l.read, count := l.count + 1 }

/-- Inserts a token without extent in front of the token at `position`. -/
def insert (l : Lexer) (position : Nat) (kind : TokenKind) (m : Mark) : Lexer :=
  let behind := l.count - position
  { l with read := l.read.take behind ++ ⟨kind, m, m⟩ :: l.read.drop behind, count := l.count + 1 }

/-- Moves over `n` characters and appends a token for them. -/
def pushOver (l : Lexer) (n : Nat) (kind : TokenKind) : Lexer :=
  let i := l.input.skipMany n
  { l.push kind l.mark i.mark with input := i }

/-- Gives up the innermost key candidate. -/
def dropKey (l : Lexer) : Except Fault Lexer :=
  match l.keys with
  | some k :: ks =>
    if k.isRequired then .error (k.fault l.mark) else .ok { l with keys := none :: ks }
  | _ => .ok l

/-- Makes the next token a key candidate, where a key may begin. -/
def markKey (l : Lexer) : Except Fault Lexer :=
  if !l.keyAllowed then .ok l
  else do
    let isRequired := !l.inFlow && l.indent == l.mark.column
    let l ← l.dropKey
    .ok { l with keys := some ⟨isRequired, l.count, l.mark⟩ :: l.keys.drop 1 }

/-- Opens a flow collection. -/
def enterFlow (l : Lexer) : Lexer := { l with keys := none :: l.keys, depth := l.depth + 1 }

/-- Closes a flow collection, if one is open. -/
def leaveFlow (l : Lexer) : Lexer :=
  if l.inFlow then { l with keys := l.keys.drop 1, depth := l.depth - 1 } else l

/-- Opens a block collection at a column that is further in than the current one, before the token
at `position`. -/
def openBlock (l : Lexer) (column : Nat) (position : Nat) (kind : TokenKind) (m : Mark) : Lexer :=
  if !l.inFlow && l.indent < column then
    { l.insert position kind m with indent := column, outer := l.indent :: l.outer }
  else l

/-- How many block collections are further in than a column, with the columns of the others. -/
def furtherIn (column : Int) : (indent : Int) → (outer : List Int) → Nat × Int × List Int
  | indent, [] => (0, indent, [])
  | indent, i :: is =>
    if column < indent then
      let r := furtherIn column i is
      (r.1 + 1, r.2)
    else (0, indent, i :: is)

/-- Closes the block collections that are further in than a column. -/
def closeBlocks (l : Lexer) (column : Int) : Lexer :=
  if l.inFlow then l
  else
    let (n, indent, outer) := furtherIn column l.indent l.outer
    { l with
      read := List.replicate n ⟨.blockEnd, l.mark, l.mark⟩ ++ l.read
      count := l.count + n
      indent, outer }

/-- Moves to the next character that belongs to a token.  A line that ends outside flow
collections allows a key to begin; tabs count as white space only where none may. -/
def skipToToken (l : Lexer) : (fuel : Nat) → Except Fault Lexer
  | 0 => .ok l
  | fuel + 1 => do
    l.input.ensure 1
    let i := if l.mark.column = 0 ∧ l.input.sees (Char.ofNat 0xFEFF) = true then l.input.skip else l.input
    i.ensure 1
    let tabs := l.inFlow || !l.keyAllowed
    let i := (i.span fun c => c == ' ' || (tabs && c == '\t')).2
    i.ensure 1
    let i := i.skipComment
    i.ensure 1
    if i.peek.any isBreak then do
      i.ensure 2
      skipToToken { l with input := i.skipBreak, keyAllowed := l.keyAllowed || !l.inFlow } fuel
    else .ok { l with input := i }

/-! ### The tokens, by the character that begins them -/

/-- The token before all others. -/
def fetchStart (l : Lexer) : Lexer :=
  { l.push .streamStart l.mark l.mark with keys := [none], keyAllowed := true }

/-- The token after all others, which stands at the start of a line. -/
def fetchEnd (l : Lexer) : Except Fault Lexer := do
  let m := l.mark
  let m := if m.column = 0 then m else ⟨m.index, m.line + 1, 0⟩
  let l := { l with input := { l.input with mark := m } }.closeBlocks (-1)
  let l ← l.dropKey
  .ok { l.push .streamEnd m m with keyAllowed := false, ended := true }

/-- A directive. -/
def fetchDirective (l : Lexer) : Except Fault Lexer := do
  let l ← (l.closeBlocks (-1)).dropKey
  let (kind, stop, i) ← readDirective l.input
  .ok { l.push kind l.mark stop with input := i, keyAllowed := false }

/-- The line that opens or ends a document. -/
def fetchDocumentEdge (l : Lexer) (kind : TokenKind) : Except Fault Lexer := do
  let l ← (l.closeBlocks (-1)).dropKey
  .ok ({ l with keyAllowed := false }.pushOver 3 kind)

/-- The start of a flow collection. -/
def fetchFlowStart (l : Lexer) (kind : TokenKind) : Except Fault Lexer := do
  let l ← l.markKey
  .ok ({ l.enterFlow with keyAllowed := true }.pushOver 1 kind)

/-- The end of a flow collection. -/
def fetchFlowEnd (l : Lexer) (kind : TokenKind) : Except Fault Lexer := do
  let l ← l.dropKey
  .ok ({ l.leaveFlow with keyAllowed := false }.pushOver 1 kind)

/-- The comma of a flow collection. -/
def fetchFlowEntry (l : Lexer) : Except Fault Lexer := do
  let l ← l.dropKey
  .ok ({ l with keyAllowed := true }.pushOver 1 .flowEntry)

/-- The hyphen of a block sequence. -/
def fetchBlockEntry (l : Lexer) : Except Fault Lexer := do
  if !l.inFlow && !l.keyAllowed then .error (.here .blockEntryNotAllowed l.mark)
  else
    let l ← (l.openBlock l.mark.column l.count .blockSequenceStart l.mark).dropKey
    .ok ({ l with keyAllowed := true }.pushOver 1 .blockEntry)

/-- The question mark of a mapping. -/
def fetchKey (l : Lexer) : Except Fault Lexer := do
  if !l.inFlow && !l.keyAllowed then .error (.here .keyNotAllowed l.mark)
  else
    let l ← (l.openBlock l.mark.column l.count .blockMappingStart l.mark).dropKey
    .ok ({ l with keyAllowed := !l.inFlow }.pushOver 1 .key)

/-- The colon of a mapping, which turns the key candidate into a key. -/
def fetchValue (l : Lexer) : Except Fault Lexer :=
  match l.keys with
  | some k :: ks =>
    let l := (l.insert k.position .key k.mark).openBlock k.mark.column k.position .blockMappingStart
      k.mark
    .ok ({ l with keys := none :: ks, keyAllowed := false }.pushOver 1 .value)
  | _ =>
    if !l.inFlow && !l.keyAllowed then .error (.here .valueNotAllowed l.mark)
    else
      let l := l.openBlock l.mark.column l.count .blockMappingStart l.mark
      .ok ({ l with keyAllowed := !l.inFlow }.pushOver 1 .value)

/-- An anchor or an alias. -/
def fetchAnchor (l : Lexer) (activity : Activity) (kind : List Char → TokenKind) :
    Except Fault Lexer := do
  let l ← l.markKey
  let (name, i) ← readAnchor activity l.input
  .ok { l.push (kind name) l.mark i.mark with input := i, keyAllowed := false }

/-- A tag. -/
def fetchTag (l : Lexer) : Except Fault Lexer := do
  let l ← l.markKey
  let (handle, suffix, i) ← readTag l.inFlow l.input
  .ok { l.push (.tag handle suffix) l.mark i.mark with input := i, keyAllowed := false }

/-- A block scalar. -/
def fetchBlockScalar (l : Lexer) (style : ScalarStyle) : Except Fault Lexer := do
  let l ← l.dropKey
  let (text, stop, i) ← readBlock (style == .folded) l.indent l.input
  .ok { l.push (.scalar text style) l.mark stop with input := i, keyAllowed := true }

/-- A quoted scalar. -/
def fetchQuoted (l : Lexer) (quote : Char) (style : ScalarStyle) : Except Fault Lexer := do
  let l ← l.markKey
  let (text, i) ← readQuoted quote l.input
  .ok { l.push (.scalar text style) l.mark i.mark with input := i, keyAllowed := false }

/-- A plain scalar. -/
def fetchPlain (l : Lexer) : Except Fault Lexer := do
  let l ← l.markKey
  let s ← readPlain l.inFlow (l.indent + 1).toNat l.input
  .ok { l.push (.scalar s.text .plain) l.mark s.stop with input := s.after, keyAllowed := s.endsLine }

/-- The characters that begin no plain scalar by themselves. -/
def isIndicator (c : Char) : Bool := "-?:,[]\x7b\x7d#&*!|>\x27\"%@\x60".toList.contains c

/-- Whether a plain scalar begins with the characters ahead. -/
def startsPlain (l : Lexer) : Bool :=
  match l.input.peek with
  | none => false
  | some c =>
    (!endsWord (some c) && !isIndicator c) ||
      (c == '-' && !(l.input.peekAt 1).any isSpaceOrTab) ||
      (!l.inFlow && (c == '?' || c == ':') && !endsWord (l.input.peekAt 1))

/-- The next token, the input standing on its first character. -/
def fetchHere (l : Lexer) : Except Fault Lexer :=
  let i := l.input
  match i.peek with
  | none => l.fetchEnd
  | some c =>
    if c == '%' && i.mark.column == 0 then l.fetchDirective
    else if i.atIndicator '-' then l.fetchDocumentEdge .documentStart
    else if i.atIndicator '.' then l.fetchDocumentEdge .documentEnd
    else if c == '[' then l.fetchFlowStart .flowSequenceStart
    else if c == '{' then l.fetchFlowStart .flowMappingStart
    else if c == ']' then l.fetchFlowEnd .flowSequenceEnd
    else if c == '}' then l.fetchFlowEnd .flowMappingEnd
    else if c == ',' then l.fetchFlowEntry
    else if c == '-' && endsWord (i.peekAt 1) then l.fetchBlockEntry
    else if c == '?' && (l.inFlow || endsWord (i.peekAt 1)) then l.fetchKey
    else if c == ':' && (l.inFlow || endsWord (i.peekAt 1)) then l.fetchValue
    else if c == '*' then l.fetchAnchor .aliasOf .aliasOf
    else if c == '&' then l.fetchAnchor .anchor .anchor
    else if c == '!' then l.fetchTag
    else if c == '|' && !l.inFlow then l.fetchBlockScalar .literal
    else if c == '>' && !l.inFlow then l.fetchBlockScalar .folded
    else if c == '\x27' then l.fetchQuoted '\x27' .singleQuoted
    else if c == '"' then l.fetchQuoted '"' .doubleQuoted
    else if l.startsPlain then l.fetchPlain
    else .error (.within .nextToken l.mark .noTokenStart l.mark)

/-- Gives up the key candidates that are out of reach. -/
def dropStaleKeys (l : Lexer) : Except Fault Lexer := do
  .ok { l with keys := ← dropStale l.mark l.keys }

/-- The next token, with what lies before it. -/
def fetch (l : Lexer) : Except Fault Lexer := do
  l.input.ensure 1
  if l.count = 0 then .ok l.fetchStart
  else
    let l ← l.skipToToken (l.input.rest.length + 1)
    let l ← l.dropStaleKeys
    let l := l.closeBlocks l.mark.column
    l.input.ensure 4
    l.fetchHere

/-- How many tokens no key can be inserted in front of any more. -/
def settled (l : Lexer) : Nat :=
  l.keys.foldl (fun n k => match k with | none => n | some k => min n k.position) l.count

/-- Reads tokens to the end, or up to a fault; `fuel` bounds their rounds, each of which takes a
character or is the first or the last one. -/
def run : (fuel : Nat) → Lexer → List Token × Option Fault
  | 0, l => (l.read.reverse, none)
  | fuel + 1, l =>
    if l.ended then (l.read.reverse, none)
    else match l.fetch >>= dropStaleKeys with
      | .ok next => run fuel next
      | .error f => (l.read.reverse.take l.settled, some f)

end Lexer

/-- The tokens of a source, up to its end or up to a fault. -/
def tokens (s : Source) : List Token × Option Fault :=
  (Lexer.start (.ofSource s)).run (s.chars.length + 3)

end ProjectIndex.Yaml
