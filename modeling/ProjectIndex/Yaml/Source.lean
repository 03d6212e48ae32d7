import ProjectIndex.Yaml.Fault

/-!
# The characters of a document text

A document may hold tabs, line breaks and visible characters; any other character makes the text
unreadable.  Characters are accepted in portions of 16384 bytes, each portion being checked as a
whole, so a bad character is noticed as soon as the reading asks for a character of its portion,
and all portions before it are read first.

* `Source.ofText` cuts a text at the portion that holds the first bad character.
* `Input` is a position in a source: the characters ahead and the mark of the next one.
-/

namespace ProjectIndex.Yaml

/-- The characters that a document may hold. -/
def isAllowed (c : Char) : Bool :=
  let n := c.toNat
  n == 0x09 || n == 0x0A || n == 0x0D || (0x20 ≤ n && n ≤ 0x7E) || n == 0x85 ||
    (0xA0 ≤ n && n ≤ 0xD7FF) || (0xE000 ≤ n && n ≤ 0xFFFD) || 0x10000 ≤ n

/-- The bytes of one portion. -/
def portion : Nat := 16384

/-- The characters ahead of a reader, and the fault met after the last of them, if the text does
not simply end there. -/
structure Source where
  chars : List Char
  fault : Option Fault
  deriving DecidableEq, Repr

namespace Source

/-- Walks over a text from byte `offset` on, in the portion that began at byte `began`, keeping the
characters of finished portions in `before` and those of the current one in `current`, both
backwards. -/
def collect (before current : List Char) (began offset : Nat) : List Char → Source
  | [] => ⟨(current ++ before).reverse, none⟩
  | c :: cs =>
    let stop := offset + c.utf8Size
    let fresh := began + portion < stop
    let before := if fresh then current ++ before else before
    let current := if fresh then [] else current
    let began := if fresh then offset else began
    if isAllowed c then collect before (c :: current) began stop cs
    else ⟨before.reverse, some ⟨.controlCharacter, .byte offset, none⟩⟩

/-- The source of a text. -/
def ofText (text : List Char) : Source := collect [] [] 0 0 text

end Source

/-- A position in a source: the characters ahead, the mark of the first of them, and the fault met
after the last of them. -/
structure Input where
  rest : List Char
  mark : Mark
  fault : Option Fault
  deriving DecidableEq, Repr

/-! ### Classes of characters, of which the end of the text can be one -/

/-- A space or a tab. -/
def isSpaceOrTab (c : Char) : Bool := c == ' ' || c == '\t'

/-- A character that ends a line. -/
def isBreak (c : Char) : Bool :=
  c == '\n' || c == '\r' || c == Char.ofNat 0x85 || c == Char.ofNat 0x2028 ||
    c == Char.ofNat 0x2029

/-- A letter, a digit, a hyphen or an underscore of ASCII. -/
def isWordChar (c : Char) : Bool := c.isAlphanum || c == '-' || c == '_'

/-- The value of a hexadecimal digit. -/
def hexValue? (c : Char) : Option Nat :=
  if '0' ≤ c ∧ c ≤ '9' then some (c.toNat - '0'.toNat)
  else if 'a' ≤ c ∧ c ≤ 'f' then some (c.toNat - 'a'.toNat + 10)
  else if 'A' ≤ c ∧ c ≤ 'F' then some (c.toNat - 'A'.toNat + 10)
  else none

/-- A line break, or the end of the text. -/
def endsLine : Option Char → Bool
  | none => true
  | some c => isBreak c

/-- A space, a tab, a line break, or the end of the text. -/
def endsWord : Option Char → Bool
  | none => true
  | some c => isSpaceOrTab c || isBreak c

namespace Input

/-- The start of a source. -/
def ofSource (s : Source) : Input := ⟨s.chars, .origin, s.fault⟩

/-- The character ahead. -/
def peek (i : Input) : Option Char := i.rest.head?

/-- The character `n` places behind the one ahead. -/
def peekAt (i : Input) (n : Nat) : Option Char := i.rest[n]?

/-- Whether the character ahead is `c`. -/
def sees (i : Input) (c : Char) : Bool := i.rest.head? == some c

/-- Meets the fault of the source, if fewer than `n` characters are ahead of it. -/
def ensure (i : Input) (n : Nat) : Except Fault Unit :=
  match i.fault with
  | none => .ok ()
  | some f => if (i.rest.drop (n - 1)).isEmpty then .error f else .ok ()

/-- Moves over one character that is not a line break. -/
def skip (i : Input) : Input := { i with rest := i.rest.drop 1, mark := i.mark.next }

/-- Moves over `n` characters, none of which is a line break. -/
def skipMany (i : Input) : (n : Nat) → Input
  | 0 => i
  | n + 1 => i.skip.skipMany n

/-- Moves over the characters ahead that belong to a class without line breaks. -/
def span (i : Input) (p : Char → Bool) : List Char × Input :=
  let taken := i.rest.takeWhile p
  (taken, { i with
    rest := i.rest.dropWhile p
    mark := ⟨i.mark.index + taken.length, i.mark.line, i.mark.column + taken.length⟩ })

/-- Moves over a line break, if one is ahead, and gives it as it counts in a text: a line feed,
except that the two separators of Unicode stand for themselves. -/
def takeBreak (i : Input) : List Char × Input :=
  match i.rest with
  | '\r' :: '\n' :: cs => (['\n'], { i with rest := cs, mark := i.mark.nextLine 2 })
  | c :: cs =>
    if isBreak c then
      ([if c == '\r' || c == Char.ofNat 0x85 then '\n' else c],
        { i with rest := cs, mark := i.mark.nextLine 1 })
    else ([], i)
  | [] => ([], i)

/-- Moves over a line break, if one is ahead. -/
def skipBreak (i : Input) : Input := i.takeBreak.2

/-- Moves over spaces and tabs. -/
def skipBlanks (i : Input) : Input := (i.span isSpaceOrTab).2

/-- Moves over a comment, if one is ahead, up to the end of its line. -/
def skipComment (i : Input) : Input :=
  if i.sees '#' then (i.span fun c => !isBreak c).2 else i

/-- Whether a line begins here that opens or ends a document: three hyphens or three periods
standing alone. -/
def atIndicator (i : Input) (c : Char) : Bool :=
  i.mark.column == 0 && i.peek == some c && i.peekAt 1 == some c && i.peekAt 2 == some c &&
    endsWord (i.peekAt 3)

/-- Whether a line begins here that opens or ends a document. -/
def atDocumentEdge (i : Input) : Bool := i.atIndicator '-' || i.atIndicator '.'

end Input

end ProjectIndex.Yaml
