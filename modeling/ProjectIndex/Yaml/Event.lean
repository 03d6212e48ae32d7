import ProjectIndex.Yaml.Token.Lexer

/-!
# The events of a document

Tokens are arranged by a pushdown automaton into events: the start and end of documents and
collections, scalars and aliases, each with the place where it begins.  A missing key, value or
entry shows as an empty plain scalar.

* `Phase` is a state of the automaton.  Phases inside a collection hold the place where that
  collection began, for the fault of an unfinished one.
* `Parser.next` makes one step, `events` all of them, up to the end or up to a fault.
-/

namespace ProjectIndex.Yaml

/-- What an event is. -/
inductive EventKind
  | streamStart
  | streamEnd
  | documentStart
  | documentEnd
  | aliasOf (name : List Char)
  | scalar (anchor : Option (List Char)) (tag : Option Bytes) (text : List Char) (style : ScalarStyle)
  | sequenceStart (anchor : Option (List Char)) (tag : Option Bytes)
  | sequenceEnd
  | mappingStart (anchor : Option (List Char)) (tag : Option Bytes)
  | mappingEnd
  deriving DecidableEq, Repr

/-- An event and the place where it begins. -/
structure Event where
  kind : EventKind
  mark : Mark
  deriving DecidableEq, Repr

/-- What the automaton expects next. -/
inductive Phase
  | streamStart
  | firstDocument
  | document
  | documentContent
  | documentEnd
  | blockNode
  | blockSequenceFirst
  | blockSequence (began : Mark)
  | indentlessSequence
  | blockMappingFirst
  | blockMappingKey (began : Mark)
  | blockMappingValue (began : Mark)
  | flowSequenceFirst
  | flowSequence (began : Mark)
  | flowPairKey (began : Mark)
  | flowPairValue (began : Mark)
  | flowPairEnd (began : Mark)
  | flowMappingFirst
  | flowMappingKey (began : Mark)
  | flowMappingValue (began : Mark)
  | flowMappingNoValue (began : Mark)
  | done
  deriving DecidableEq, Repr

/-- The state of the automaton between two events. -/
structure Parser where
  tokens : List Token
  /-- The fault met after the last token. -/
  fault : Option Fault
  phase : Phase
  /-- The phases to return to, the innermost first. -/
  returns : List Phase
  /-- The tag handles of the current document and what they stand for. -/
  handles : List (Bytes × Bytes)

/-- The tag handles that every document has, unless it sets them itself. -/
def defaultHandles : List (Bytes × Bytes) :=
  [(Utf8.encode "!", Utf8.encode "!"), (Utf8.encode "!!", Utf8.encode "tag:yaml.org,2002:")]

/-- The anchor and the tag in front of a node, and the place where the node begins with them. -/
structure Properties where
  anchor : Option (List Char)
  tag : Option (Bytes × Bytes × Mark)
  start : Mark

namespace Parser

/-- The automaton at the start of a source. -/
def ofSource (s : Source) : Parser :=
  let (ts, f) := Yaml.tokens s
  ⟨ts, f, .streamStart, [], []⟩

/-- The token ahead.  Beyond the last token stands the fault, or the end of the stream. -/
def peek (p : Parser) : Except Fault Token :=
  match p.tokens, p.fault with
  | t :: _, _ => .ok t
  | [], some f => .error f
  | [], none => .ok ⟨.streamEnd, .origin, .origin⟩

/-- Moves over the token ahead. -/
def skip (p : Parser) : Parser := { p with tokens := p.tokens.drop 1 }

/-- Goes on with a phase. -/
def goto (p : Parser) (phase : Phase) : Parser := { p with phase }

/-- Sets a phase aside for after the next node. -/
def call (p : Parser) (phase : Phase) : Parser := { p with returns := phase :: p.returns }

/-- Goes on with the phase last set aside. -/
def back (p : Parser) : Parser :=
  { p with phase := p.returns.headD .done, returns := p.returns.drop 1 }

/-- The event of a missing node. -/
def emptyScalar (m : Mark) : Event := ⟨.scalar none none [] .plain, m⟩

/-! ### Nodes -/

/-- Reads the anchor and the tag in front of a node, in either order. -/
def properties (p : Parser) : Except Fault (Properties × Parser) := do
  let t ← p.peek
  match t.kind with
  | .anchor name =>
    let p := p.skip
    let u ← p.peek
    match u.kind with
    | .tag handle suffix => .ok (⟨some name, some (handle, suffix, u.start), t.start⟩, p.skip)
    | _ => .ok (⟨some name, none, t.start⟩, p)
  | .tag handle suffix =>
    let p := p.skip
    let u ← p.peek
    match u.kind with
    | .anchor name => .ok (⟨some name, some (handle, suffix, t.start), t.start⟩, p.skip)
    | _ => .ok (⟨none, some (handle, suffix, t.start), t.start⟩, p)
  | _ => .ok (⟨none, none, t.start⟩, p)

/-- The tag that a handle and a suffix spell, the empty handle spelling a whole tag. -/
def resolveTag (p : Parser) (began : Mark) : Option (Bytes × Bytes × Mark) → Except Fault (Option Bytes)
  | none => .ok none
  | some (handle, suffix, m) =>
    if handle.isEmpty then .ok (some suffix)
    else match p.handles.lookup handle with
      | some start => .ok (some (start ++ suffix))
      | none => .error (.within .node began .undefinedTagHandle m)

/-- Reads a node, or its start if it is a collection.  `isBlock` tells whether it may be a block
collection, `isIndentless` whether the entries of a sequence may stand at the column of the mapping
around it. -/
def node (p : Parser) (isBlock isIndentless : Bool) : Except Fault (Event × Parser) := do
  let t ← p.peek
  match t.kind with
  | .aliasOf name => .ok (⟨.aliasOf name, t.start⟩, p.back.skip)
  | _ =>
    let (props, p) ← p.properties
    let t ← p.peek
    let tag ← p.resolveTag props.start props.tag
    let event (kind : EventKind) : Event := ⟨kind, props.start⟩
    match t.kind with
    | .scalar text style => .ok (event (.scalar props.anchor tag text style), p.back.skip)
    | .flowSequenceStart => .ok (event (.sequenceStart props.anchor tag), p.goto .flowSequenceFirst)
    | .flowMappingStart => .ok (event (.mappingStart props.anchor tag), p.goto .flowMappingFirst)
    | kind =>
      if isIndentless && kind == .blockEntry then
        .ok (event (.sequenceStart props.anchor tag), p.goto .indentlessSequence)
      else if isBlock && kind == .blockSequenceStart then
        .ok (event (.sequenceStart props.anchor tag), p.goto .blockSequenceFirst)
      else if isBlock && kind == .blockMappingStart then
        .ok (event (.mappingStart props.anchor tag), p.goto .blockMappingFirst)
      else if props.anchor.isSome || props.tag.isSome then
        .ok (event (.scalar props.anchor tag [] .plain), p.back)
      else
        .error (.within (if isBlock then .blockNode else .flowNode) props.start .missingNode t.start)

/-- Reads a node and then goes on with `after`, unless the token ahead is of one of the kinds that
stand for a missing node. -/
def nodeUnless (p : Parser) (kinds : List TokenKind) (missing : Mark) (after : Phase)
    (isBlock isIndentless : Bool) : Except Fault (Event × Parser) := do
  let t ← p.peek
  if kinds.contains t.kind then .ok (emptyScalar missing, p.goto after)
  else (p.call after).node isBlock isIndentless

/-! ### Documents -/

/-- Reads the directives of a document.  `version` tells whether one has set the version. -/
def directives (p : Parser) : (ts : List Token) → (version : Bool) → (handles : List (Bytes × Bytes)) →
    Except Fault Parser
  | ts, version, handles =>
    match ts with
    | [] => finish ts handles
    | t :: rest =>
      match t.kind with
      | .versionDirective major minor =>
        if version then .error (.here .duplicateVersion t.start)
        else if major = 1 ∧ (minor = 1 ∨ minor = 2) then p.directives rest true handles
        else .error (.here .incompatibleVersion t.start)
      | .tagDirective handle start =>
        if (handles.lookup handle).isSome then .error (.here .duplicateTagDirective t.start)
        else p.directives rest version (handles ++ [(handle, start)])
      | _ => finish ts handles
where
  /-- The automaton after the directives. -/
  finish (ts : List Token) (handles : List (Bytes × Bytes)) : Except Fault Parser :=
    .ok { p with tokens := ts, handles := handles ++ defaultHandles }

/-- Moves over the ends of earlier documents. -/
def skipDocumentEnds (p : Parser) : Parser :=
  { p with tokens := p.tokens.dropWhile (·.kind == .documentEnd) }

/-- Whether a token opens a document that says so, or ends the stream. -/
def opensDocument (k : TokenKind) : Bool :=
  match k with
  | .versionDirective .. | .tagDirective .. | .documentStart | .streamEnd => true
  | _ => false

/-- The start of a document, or the end of the stream. -/
def documentStart (p : Parser) (isFirst : Bool) : Except Fault (Event × Parser) := do
  let p := if isFirst then p else p.skipDocumentEnds
  let t ← p.peek
  if t.kind == .streamEnd then .ok (⟨.streamEnd, t.start⟩, (p.goto .done).skip)
  else if isFirst && !opensDocument t.kind then
    .ok (⟨.documentStart, t.start⟩,
      { (p.call .documentEnd).goto .blockNode with handles := defaultHandles })
  else
    let p ← p.directives p.tokens false []
    let u ← p.peek
    if u.kind == .documentStart then
      .ok (⟨.documentStart, t.start⟩, ((p.call .documentEnd).goto .documentContent).skip)
    else .error (.here .missingDocumentStart u.start)

/-- Whether a token shows that the document before it has no content. -/
def endsContent (k : TokenKind) : Bool := opensDocument k || k == .documentEnd

/-- The content of a document after its start. -/
def documentContent (p : Parser) : Except Fault (Event × Parser) := do
  let t ← p.peek
  if endsContent t.kind then .ok (emptyScalar t.start, p.back) else p.node true false

/-- The end of a document, whether it is written or not. -/
def documentEnd (p : Parser) : Except Fault (Event × Parser) := do
  let t ← p.peek
  let p := if t.kind == .documentEnd then p.skip else p
  .ok (⟨.documentEnd, t.start⟩, { p.goto .document with handles := [] })

/-! ### Block collections -/

/-- An entry or the end of a block sequence. -/
def blockSequence (p : Parser) (began : Mark) : Except Fault (Event × Parser) := do
  let t ← p.peek
  match t.kind with
  | .blockEntry =>
    p.skip.nodeUnless [.blockEntry, .blockEnd] t.stop (.blockSequence began) true false
  | .blockEnd => .ok (⟨.sequenceEnd, t.start⟩, p.back.skip)
  | _ => .error (.within .blockCollection began .missingDash t.start)

/-- An entry or the end of a sequence at the column of the mapping around it. -/
def indentlessSequence (p : Parser) : Except Fault (Event × Parser) := do
  let t ← p.peek
  match t.kind with
  | .blockEntry =>
    p.skip.nodeUnless [.blockEntry, .key, .value, .blockEnd] t.stop .indentlessSequence true false
  | _ => .ok (⟨.sequenceEnd, t.start⟩, p.back)

/-- A key or the end of a block mapping. -/
def blockMappingKey (p : Parser) (began : Mark) : Except Fault (Event × Parser) := do
  let t ← p.peek
  match t.kind with
  | .key => p.skip.nodeUnless [.key, .value, .blockEnd] t.stop (.blockMappingValue began) true true
  | .blockEnd => .ok (⟨.mappingEnd, t.start⟩, p.back.skip)
  | _ => .error (.within .blockMapping began .missingKey t.start)

/-- A value of a block mapping. -/
def blockMappingValue (p : Parser) (began : Mark) : Except Fault (Event × Parser) := do
  let t ← p.peek
  match t.kind with
  | .value => p.skip.nodeUnless [.key, .value, .blockEnd] t.stop (.blockMappingKey began) true true
  | _ => .ok (emptyScalar t.start, p.goto (.blockMappingKey began))

/-! ### Flow collections -/

/-- An entry or the end of a flow sequence, the comma before it being read. -/
def flowSequenceEntry (p : Parser) (began : Mark) : Except Fault (Event × Parser) := do
  let t ← p.peek
  match t.kind with
  | .key => .ok (⟨.mappingStart none none, t.start⟩, (p.goto (.flowPairKey began)).skip)
  | .flowSequenceEnd => .ok (⟨.sequenceEnd, t.start⟩, p.back.skip)
  | _ => (p.call (.flowSequence began)).node false false

/-- An entry or the end of a flow sequence, after an entry. -/
def flowSequence (p : Parser) (began : Mark) : Except Fault (Event × Parser) := do
  let t ← p.peek
  match t.kind with
  | .flowEntry => p.skip.flowSequenceEntry began
  | .flowSequenceEnd => p.flowSequenceEntry began
  | _ => .error (.within .flowSequence began .missingCommaOrBracket t.start)

/-- The key of a pair in a flow sequence.  A missing key takes the token after it away. -/
def flowPairKey (p : Parser) (began : Mark) : Except Fault (Event × Parser) := do
  let t ← p.peek
  match t.kind with
  | .value | .flowEntry | .flowSequenceEnd =>
    .ok (emptyScalar t.stop, (p.goto (.flowPairValue began)).skip)
  | _ => (p.call (.flowPairValue began)).node false false

/-- The value of a pair in a flow sequence. -/
def flowPairValue (p : Parser) (began : Mark) : Except Fault (Event × Parser) := do
  let t ← p.peek
  match t.kind with
  | .value =>
    let p := p.skip
    let u ← p.peek
    p.nodeUnless [.flowEntry, .flowSequenceEnd] u.start (.flowPairEnd began) false false
  | _ => .ok (emptyScalar t.start, p.goto (.flowPairEnd began))

/-- The end of a pair in a flow sequence. -/
def flowPairEnd (p : Parser) (began : Mark) : Except Fault (Event × Parser) := do
  let t ← p.peek
  .ok (⟨.mappingEnd, t.start⟩, p.goto (.flowSequence began))

/-- A key or the end of a flow mapping, the comma before it being read. -/
def flowMappingEntry (p : Parser) (began : Mark) : Except Fault (Event × Parser) := do
  let t ← p.peek
  match t.kind with
  | .key =>
    let p := p.skip
    let u ← p.peek
    p.nodeUnless [.value, .flowEntry, .flowMappingEnd] u.start (.flowMappingValue began) false false
  | .flowMappingEnd => .ok (⟨.mappingEnd, t.start⟩, p.back.skip)
  | _ => (p.call (.flowMappingNoValue began)).node false false

/-- A key or the end of a flow mapping, after a value. -/
def flowMappingKey (p : Parser) (began : Mark) : Except Fault (Event × Parser) := do
  let t ← p.peek
  match t.kind with
  | .flowEntry => p.skip.flowMappingEntry began
  | .flowMappingEnd => p.flowMappingEntry began
  | _ => .error (.within .flowMapping began .missingCommaOrBrace t.start)

/-- A value of a flow mapping. -/
def flowMappingValue (p : Parser) (began : Mark) : Except Fault (Event × Parser) := do
  let t ← p.peek
  match t.kind with
  | .value =>
    let p := p.skip
    let u ← p.peek
    p.nodeUnless [.flowEntry, .flowMappingEnd] u.start (.flowMappingKey began) false false
  | _ => .ok (emptyScalar t.start, p.goto (.flowMappingKey began))

/-- The value of a key of a flow mapping that was not announced as one. -/
def flowMappingNoValue (p : Parser) (began : Mark) : Except Fault (Event × Parser) := do
  let t ← p.peek
  .ok (emptyScalar t.start, p.goto (.flowMappingKey began))

/-! ### Steps -/

/-- The next event. -/
def next (p : Parser) : Except Fault (Event × Parser) :=
  match p.phase with
  | .streamStart => do
    let t ← p.peek
    .ok (⟨.streamStart, t.start⟩, (p.goto .firstDocument).skip)
  | .firstDocument => p.documentStart true
  | .document => p.documentStart false
  | .documentContent => p.documentContent
  | .documentEnd => p.documentEnd
  | .blockNode => p.node true false
  | .blockSequenceFirst => do
    let t ← p.peek
    p.skip.blockSequence t.start
  | .blockSequence began => p.blockSequence began
  | .indentlessSequence => p.indentlessSequence
  | .blockMappingFirst => do
    let t ← p.peek
    p.skip.blockMappingKey t.start
  | .blockMappingKey began => p.blockMappingKey began
  | .blockMappingValue began => p.blockMappingValue began
  | .flowSequenceFirst => do
    let t ← p.peek
    p.skip.flowSequenceEntry t.start
  | .flowSequence began => p.flowSequence began
  | .flowPairKey began => p.flowPairKey began
  | .flowPairValue began => p.flowPairValue began
  | .flowPairEnd began => p.flowPairEnd began
  | .flowMappingFirst => do
    let t ← p.peek
    p.skip.flowMappingEntry t.start
  | .flowMappingKey began => p.flowMappingKey began
  | .flowMappingValue began => p.flowMappingValue began
  | .flowMappingNoValue began => p.flowMappingNoValue began
  | .done => do
    let t ← p.peek
    .ok (⟨.streamEnd, t.start⟩, p)

/-- The events up to the end of the stream or up to a fault; `fuel` bounds their number. -/
def run : (fuel : Nat) → Parser → List Event × Option Fault
  | 0, _ => ([], none)
  | fuel + 1, p =>
    match p.next with
    | .error f => ([], some f)
    | .ok (e, p) =>
      if e.kind = .streamEnd then ([e], none)
      else
        let r := run fuel p
        (e :: r.1, r.2)

end Parser

/-- The events of a source, up to its end or up to a fault. -/
def events (s : Source) : List Event × Option Fault :=
  let p := Parser.ofSource s
  p.run (4 * p.tokens.length + 8)

end ProjectIndex.Yaml
