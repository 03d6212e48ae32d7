import ProjectIndex.Yaml.Source
import ProjectIndex.Yaml.Token

/-!
# Reading scalars

The contents of scalars in their five styles.  All styles share the folding of lines: between two
words a single line break counts as a space, and each further one as a line feed.

The three readers `readQuoted`, `readPlain` and `readBlock` are given the input on the first
character of the scalar and return what follows it.  Their loops are bounded by the number of
characters ahead, of which every round takes at least one.
-/

namespace ProjectIndex.Yaml

/-! ### White space between words -/

/-- The white space between two words of a scalar that may go over several lines. -/
structure Gap where
  /-- The spaces and tabs, while no line has ended. -/
  blanks : List Char
  /-- The first line break, empty for one that was escaped. -/
  firstBreak : List Char
  /-- The line breaks after the first one. -/
  laterBreaks : List Char
  /-- Whether a line has ended. -/
  breaks : Bool
  deriving DecidableEq, Repr

namespace Gap

/-- No white space. -/
def empty : Gap := ⟨[], [], [], false⟩

/-- An escaped line break. -/
def escaped : Gap := ⟨[], [], [], true⟩

/-- What the white space counts as. -/
def text (g : Gap) : List Char :=
  if g.breaks then
    if g.firstBreak.head? == some '\n' then
      if g.laterBreaks.isEmpty then [' '] else g.laterBreaks
    else g.firstBreak ++ g.laterBreaks
  else g.blanks

/-- Reads the white space ahead.  In a scalar that must be indented by `indent`, no tab may stand
before that column once a line has ended. -/
def read (began : Mark) (indent : Option Nat) : (fuel : Nat) → Gap → Input → Except Fault (Gap × Input)
  | 0, g, i => .ok (g, i)
  | fuel + 1, g, i => do
    i.ensure 1
    match i.peek with
    | none => .ok (g, i)
    | some c =>
      if isSpaceOrTab c then
        if g.breaks && c == '\t' && indent.any (i.mark.column < ·) then
          .error (.within .plainScalar began .tabBelowIndentation i.mark)
        else read began indent fuel (if g.breaks then g else { g with blanks := g.blanks ++ [c] }) i.skip
      else if isBreak c then do
        i.ensure 2
        let (b, j) := i.takeBreak
        let g := if g.breaks then { g with laterBreaks := g.laterBreaks ++ b } else ⟨[], b, [], true⟩
        read began indent fuel g j
      else .ok (g, i)

end Gap

/-! ### Quoted scalars -/

/-- What an escape stands for. -/
inductive Escape
  /-- One character. -/
  | char (c : Char)
  /-- The character whose number follows in so many hexadecimal digits. -/
  | number (digits : Nat)
  deriving DecidableEq, Repr

/-- The escapes of a double-quoted scalar, by the character after the backslash. -/
def escapeOf (c : Char) : Option Escape :=
  match c with
  | '0' => some (.char (Char.ofNat 0))
  | 'a' => some (.char (Char.ofNat 7))
  | 'b' => some (.char (Char.ofNat 8))
  | 't' => some (.char '\t')
  | '\t' => some (.char '\t')
  | 'n' => some (.char '\n')
  | 'v' => some (.char (Char.ofNat 0xB))
  | 'f' => some (.char (Char.ofNat 0xC))
  | 'r' => some (.char '\r')
  | 'e' => some (.char (Char.ofNat 0x1B))
  | ' ' => some (.char ' ')
  | '"' => some (.char '"')
  | '/' => some (.char '/')
  | '\\' => some (.char '\\')
  | 'N' => some (.char (Char.ofNat 0x85))
  | '_' => some (.char (Char.ofNat 0xA0))
  | 'L' => some (.char (Char.ofNat 0x2028))
  | 'P' => some (.char (Char.ofNat 0x2029))
  | 'x' => some (.number 2)
  | 'u' => some (.number 4)
  | 'U' => some (.number 8)
  | _ => none

/-- The number spelled by hexadecimal digits. -/
def hexNumber? (cs : List Char) : Option Nat :=
  cs.foldl (fun n c => do some ((← n) * 16 + (← hexValue? c))) (some 0)

/-- Reads an escape, the backslash being ahead. -/
def readEscape (began : Mark) (i : Input) : Except Fault (Char × Input) :=
  match i.peekAt 1 >>= escapeOf with
  | none => .error (.within .quotedEscape began .unknownEscape i.mark)
  | some (.char c) => .ok (c, i.skipMany 2)
  | some (.number n) => do
    let j := i.skipMany 2
    j.ensure n
    match if j.rest.length < n then none else hexNumber? (j.rest.take n) with
    | none => .error (.within .quotedEscape began .missingHexadecimal j.mark)
    | some v =>
      if v.isValidChar then .ok (Char.ofNat v, j.skipMany n)
      else .error (.within .quotedEscape began .badCodePoint j.mark)

/-- Reads the word ahead of a quoted scalar, up to white space or the closing quote, and tells
whether an escaped line break ended it. -/
def readQuotedWord (began : Mark) (quote : Char) :
    (fuel : Nat) → Input → Except Fault (List Char × Bool × Input)
  | 0, i => .ok ([], false, i)
  | fuel + 1, i => do
    i.ensure 2
    if endsWord i.peek then .ok ([], false, i)
    else if quote == '\x27' && i.sees '\x27' && i.peekAt 1 == some '\x27' then
      let (w, e, j) ← readQuotedWord began quote fuel (i.skipMany 2)
      .ok ('\x27' :: w, e, j)
    else if i.sees quote then .ok ([], false, i)
    else if quote == '"' && i.sees '\\' then
      if (i.peekAt 1).any isBreak then do
        i.ensure 3
        .ok ([], true, i.skip.skipBreak)
      else do
        let (c, j) ← readEscape began i
        let (w, e, k) ← readQuotedWord began quote fuel j
        .ok (c :: w, e, k)
    else
      let (w, e, j) ← readQuotedWord began quote fuel i.skip
      .ok ((i.peek.toList) ++ w, e, j)

/-- Reads the rest of a quoted scalar, closing quote included. -/
def readQuotedRest (began : Mark) (quote : Char) :
    (fuel : Nat) → Input → Except Fault (List Char × Input)
  | 0, i => .ok ([], i)
  | fuel + 1, i => do
    i.ensure 4
    if i.atDocumentEdge then
      .error (.within .quotedScalar began .documentIndicator i.mark)
    else if i.peek.isNone then .error (.within .quotedScalar began .endOfText i.mark)
    else
      let (word, escaped, j) ← readQuotedWord began quote (fuel + 1) i
      j.ensure 1
      if j.sees quote then .ok (word, j.skip)
      else
        let (gap, k) ← Gap.read began none (fuel + 1) (if escaped then .escaped else .empty) j
        let (more, l) ← readQuotedRest began quote fuel k
        .ok (word ++ gap.text ++ more, l)

/-- Reads a quoted scalar, the opening quote being ahead. -/
def readQuoted (quote : Char) (i : Input) : Except Fault (List Char × Input) :=
  readQuotedRest i.mark quote (i.rest.length + 1) i.skip

/-! ### Plain scalars -/

/-- The characters before the first place at which `stop` holds of the characters ahead. -/
def takeUntil (stop : List Char → Bool) : List Char → List Char
  | [] => []
  | c :: cs => if stop (c :: cs) then [] else c :: takeUntil stop cs

/-- A colon of a flow collection that is followed by an indicator it cannot stand before. -/
def isStrayColon (inFlow : Bool) : List Char → Bool
  | ':' :: c :: _ => inFlow && (c == ',' || c == '?' || c == '[' || c == ']' || c == '{' || c == '}')
  | _ => false

/-- Whether a word of a plain scalar ends before the characters ahead. -/
def endsPlainWord (inFlow : Bool) : List Char → Bool
  | [] => true
  | c :: cs =>
    endsWord (some c) || isStrayColon inFlow (c :: cs) || (c == ':' && endsWord cs.head?) ||
      (inFlow && (c == ',' || c == '[' || c == ']' || c == '{' || c == '}'))

/-- A plain scalar, and what follows it. -/
structure PlainScalar where
  text : List Char
  /-- The place after the last word. -/
  stop : Mark
  /-- The input after the white space behind the last word. -/
  after : Input
  /-- Whether that white space ends a line. -/
  endsLine : Bool

/-- Reads the rest of a plain scalar after the white space `gap`, the last word having ended at
`stop`.  `indent` is the column at which the scalar's lines must begin in a block collection. -/
def readPlainRest (began : Mark) (inFlow : Bool) (indent : Nat) :
    (fuel : Nat) → Gap → Mark → Input → Except Fault PlainScalar
  | 0, gap, stop, i => .ok ⟨[], stop, i, gap.breaks⟩
  | fuel + 1, gap, stop, i => do
    i.ensure 4
    if i.atDocumentEdge || i.sees '#' then .ok ⟨[], stop, i, gap.breaks⟩
    else
      let word := takeUntil (endsPlainWord inFlow) i.rest
      let j := i.skipMany word.length
      j.ensure 2
      if isStrayColon inFlow j.rest then
        .error (.within .plainScalar began .unexpectedColon j.mark)
      else
        let said := if word.isEmpty then [] else gap.text ++ word
        let gap := if word.isEmpty then gap else .empty
        let stop := if word.isEmpty then stop else j.mark
        if j.peek.any fun c => isSpaceOrTab c || isBreak c then do
          let (gap, k) ← Gap.read began (some indent) (fuel + 1) gap j
          if !inFlow && k.mark.column < indent then .ok ⟨said, stop, k, gap.breaks⟩
          else
            let more ← readPlainRest began inFlow indent fuel gap stop k
            .ok { more with text := said ++ more.text }
        else .ok ⟨said, stop, j, gap.breaks⟩

/-- Reads a plain scalar. -/
def readPlain (inFlow : Bool) (indent : Nat) (i : Input) : Except Fault PlainScalar :=
  readPlainRest i.mark inFlow indent (i.rest.length + 1) .empty i.mark i

/-! ### Block scalars -/

/-- What becomes of the line breaks at the end of a block scalar. -/
inductive Chomping
  /-- None is kept. -/
  | strip
  /-- The first one is kept. -/
  | clip
  /-- All are kept. -/
  | keep
  deriving DecidableEq, Repr

/-- The chomping that an indicator asks for. -/
def chompingOf : Char → Option Chomping
  | '+' => some .keep
  | '-' => some .strip
  | _ => none

/-- Reads the digit of an indentation indicator, if one is ahead; zero stands for none. -/
def readIndentation (began : Mark) (i : Input) : Except Fault (Nat × Input) := do
  i.ensure 1
  match i.peek with
  | none => .ok (0, i)
  | some c =>
    if c == '0' then .error (.within .blockScalar began .zeroIndentation i.mark)
    else if c.isDigit then .ok (c.toNat - '0'.toNat, i.skip)
    else .ok (0, i)

/-- Reads a chomping indicator, if one is ahead. -/
def readChomping (i : Input) : Except Fault (Option Chomping × Input) := do
  i.ensure 1
  match i.peek >>= chompingOf with
  | none => .ok (none, i)
  | some c => .ok (some c, i.skip)

/-- Reads the indicators of a block scalar, in either order. -/
def readIndicators (began : Mark) (i : Input) : Except Fault (Nat × Chomping × Input) := do
  match ← readChomping i with
  | (some c, j) =>
    let (n, k) ← readIndentation began j
    .ok (n, c, k)
  | (none, _) =>
    let (n, j) ← readIndentation began i
    if n = 0 then .ok (0, .clip, j)
    else
      let (c, k) ← readChomping j
      .ok (n, c.getD .clip, k)

/-- The empty lines before a line of a block scalar. -/
structure BlockBreaks where
  /-- The greatest column reached. -/
  widest : Nat
  breaks : List Char
  /-- The place after the last line break. -/
  stop : Mark
  after : Input

/-- Reads the indentation ahead and the empty lines before the next line with text.  While the
indentation is not known, it is zero and every space counts as indentation. -/
def readBlockBreaks (began : Mark) (indent : Nat) :
    (fuel widest : Nat) → Mark → Input → Except Fault BlockBreaks
  | 0, widest, stop, i => .ok ⟨widest, [], stop, i⟩
  | fuel + 1, widest, stop, i => do
    let spaces := (i.rest.takeWhile (· == ' ')).length
    let j := i.skipMany (if indent = 0 then spaces else min spaces (indent - i.mark.column))
    j.ensure 1
    let widest := max widest j.mark.column
    if (indent = 0 ∨ j.mark.column < indent) ∧ j.sees '\t' = true then
      .error (.within .blockScalar began .tabForIndentation j.mark)
    else if j.peek.any isBreak then do
      j.ensure 2
      let (b, k) := j.takeBreak
      let more ← readBlockBreaks began indent fuel widest k.mark k
      .ok { more with breaks := b ++ more.breaks }
    else .ok ⟨widest, [], stop, j⟩

/-- The lines of a block scalar, without the line breaks behind the last one. -/
structure BlockLines where
  text : List Char
  /-- The line break of the last line. -/
  lastBreak : List Char
  /-- The empty lines behind it. -/
  breaks : List Char
  stop : Mark
  after : Input

/-- Reads the lines of a block scalar that is indented by `indent`.  `lead` is the line break of
the line before, which began with a blank or not, and `gap` holds the empty lines since. -/
def readBlockLines (began : Mark) (isFolded : Bool) (indent : Nat) :
    (fuel : Nat) → (lead : List Char) → (blank : Bool) → (gap : BlockBreaks) → Except Fault BlockLines
  | 0, lead, _, gap => .ok ⟨[], lead, gap.breaks, gap.stop, gap.after⟩
  | fuel + 1, lead, blank, gap => do
    let i := gap.after
    if i.mark.column ≠ indent ∨ i.peek.isNone then
      .ok ⟨[], lead, gap.breaks, gap.stop, i⟩
    else
      let blankHere := i.peek.any isSpaceOrTab
      let joint :=
        if isFolded && lead.head? == some '\n' && !blank && !blankHere then
          if gap.breaks.isEmpty then [' '] else gap.breaks
        else lead ++ gap.breaks
      let (line, j) := i.span fun c => !isBreak c
      j.ensure 2
      let (b, k) := j.takeBreak
      let gap ← readBlockBreaks began indent (fuel + 1) 0 k.mark k
      let more ← readBlockLines began isFolded indent fuel b blankHere gap
      .ok { more with text := joint ++ line ++ more.text }

/-- Reads a block scalar inside a collection that is indented by `parent`, which is -1 outside all
collections, and gives its text, the place where it stops, and what follows. -/
def readBlock (isFolded : Bool) (parent : Int) (i : Input) :
    Except Fault (List Char × Mark × Input) := do
  let began := i.mark
  let fuel := i.rest.length + 1
  let (increment, chomping, j) ← readIndicators began i.skip
  let j := j.skipBlanks.skipComment
  j.ensure 1
  if !endsLine j.peek then .error (.within .blockScalar began .missingCommentOrBreak j.mark)
  else
    j.ensure 2
    let j := j.skipBreak
    let asked : Nat := if increment = 0 then 0 else ((max parent 0) + increment).toNat
    let gap ← readBlockBreaks began asked fuel 0 j.mark j
    let indent := if asked = 0 then max (max gap.widest (parent + 1).toNat) 1 else asked
    let lines ← readBlockLines began isFolded indent fuel [] false gap
    let tail := match chomping with
      | .strip => []
      | .clip => lines.lastBreak
      | .keep => lines.lastBreak ++ lines.breaks
    .ok (lines.text ++ tail, lines.stop, lines.after)

end ProjectIndex.Yaml
