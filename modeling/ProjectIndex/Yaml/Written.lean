import ProjectIndex.Yaml.Reading

/-!
# Writing documents

The writer covers the documents that this library writes: a text, a number under a tag, and a
record of texts, some of which may be absent.  It is the counterpart of the readers in `Reading`: a
text is written in the plainest style in which it still reads back as that text.

`styleOf` chooses the style of a text.  A text with a line feed is written as a literal block, one
that would denote something else without quotes is quoted, and characters that a style cannot hold
lead to double quotes, which can hold all.
-/

namespace ProjectIndex.Yaml.Written

/-! ### Which styles can hold a text -/

/-- The characters that are written as they are. -/
def isPrintable (c : Char) : Bool :=
  let n := c.toNat
  n == 0x0A || (0x20 ≤ n && n ≤ 0x7E) || (0xA0 ≤ n && n ≤ 0xD7FF) ||
    (0xE000 ≤ n && n ≤ 0xFFFD && n != 0xFEFF) || 0x10000 ≤ n

/-- Whether a character of the first class is followed by one of the second. -/
def adjacent (p q : Char → Bool) : List Char → Bool
  | a :: b :: cs => (p a && q b) || adjacent p q (b :: cs)
  | _ => false

/-- A space. -/
def isSpace (c : Char) : Bool := c == ' '

/-- Whether no style but double quotes can hold the text. -/
def isSpecial (s : List Char) : Bool := s.any (!isPrintable ·) || adjacent isSpace isBreak s

/-- Whether a plain text would be cut by a colon or a comment after its first character, which is
`previous`. -/
def isCut : (previous : Char) → List Char → Bool
  | _, [] => false
  | p, c :: cs =>
    (c == ':' && endsWord cs.head?) || (c == '#' && endsWord (some p)) || isCut c cs

/-- Whether the first characters of the text mean something else in a document. -/
def startsOddly : List Char → Bool
  | '-' :: '-' :: '-' :: _ => true
  | '.' :: '.' :: '.' :: _ => true
  | c :: cs =>
    "#,[]\x7b\x7d&*!|>\x27\"%@\x60".toList.contains c ||
      ((c == '?' || c == ':' || c == '-') && endsWord cs.head?)
  | [] => false

/-- A space or a line break. -/
def isEdge (c : Char) : Bool := isSpace c || isBreak c

/-- Whether the text can be written plain. -/
def fitsPlain (s : List Char) : Bool :=
  !isSpecial s && !s.any isBreak && !s.head?.any isEdge && !s.getLast?.any isEdge &&
    !startsOddly s && !isCut (s.headD ' ') (s.drop 1)

/-- Whether the text can be written in single quotes. -/
def fitsSingle (s : List Char) : Bool := !isSpecial s && !adjacent isBreak isSpace s

/-- Whether the text can be written as a literal block. -/
def fitsLiteral (s : List Char) : Bool :=
  !s.isEmpty && !isSpecial s && !s.getLast?.any isSpace

/-- The spellings of booleans that readers of older documents know. -/
def oldBooleans : List String :=
  ["y", "Y", "yes", "Yes", "YES", "n", "N", "no", "No", "NO", "true", "True", "TRUE", "false",
    "False", "FALSE", "on", "On", "ON", "off", "Off", "OFF"]

/-- The style in which a text is written. -/
def styleOf (s : List Char) : ScalarStyle :=
  let quotes : ScalarStyle := if fitsSingle s then .singleQuoted else .doubleQuoted
  if oldBooleans.contains (String.ofList s) then quotes
  else if s.contains '\n' then if fitsLiteral s then .literal else .doubleQuoted
  else if Plain.isAmbiguous s then quotes
  else if fitsPlain s then .plain
  else quotes

/-! ### The styles -/

/-- The indentation of the lines of a text. -/
def margin : List Char := [' ', ' ']

/-- The lines of a text in single quotes, closing quote included.  A line feed is doubled after a
word, so that it is not folded, and a new line is indented; `broken` tells whether a line has just
ended. -/
def singleRest (broken : Bool) : List Char → List Char
  | [] => (if broken then margin else []) ++ ['\x27']
  | c :: cs =>
    if isBreak c then
      (if !broken && c == '\n' then ['\n'] else []) ++ c :: singleRest true cs
    else
      (if broken then margin else []) ++ (if c == '\x27' then [c, c] else [c]) ++ singleRest false cs

/-- The escape of a character after its backslash. -/
def escape (c : Char) : List Char :=
  let n := c.toNat
  match n with
  | 0x00 => ['0']
  | 0x07 => ['a']
  | 0x08 => ['b']
  | 0x09 => ['t']
  | 0x0A => ['n']
  | 0x0B => ['v']
  | 0x0C => ['f']
  | 0x0D => ['r']
  | 0x1B => ['e']
  | 0x22 => ['"']
  | 0x5C => ['\\']
  | 0x85 => ['N']
  | 0xA0 => ['_']
  | 0x2028 => ['L']
  | 0x2029 => ['P']
  | _ =>
    if n ≤ 0xFF then 'x' :: Text.hexDigits 'A' 2 2 n
    else if n ≤ 0xFFFF then 'u' :: Text.hexDigits 'A' 4 4 n
    else 'U' :: Text.hexDigits 'A' 8 8 n

/-- A character in double quotes. -/
def doubleChar (c : Char) : List Char :=
  if !isPrintable c || isBreak c || c == '"' || c == '\\' then '\\' :: escape c else [c]

/-- The lines of a literal block; `broken` tells whether a line has just ended. -/
def literalRest (broken : Bool) : List Char → List Char
  | [] => if broken then [] else ['\n']
  | c :: cs =>
    if isBreak c then c :: literalRest true cs
    else (if broken then margin else []) ++ c :: literalRest false cs

/-- The indicator of a literal block for the line breaks at its end. -/
def chompingMark (s : List Char) : List Char :=
  match s.reverse with
  | [] => ['-']
  | [c] => if isBreak c then ['+'] else ['-']
  | c :: d :: _ => if !isBreak c then ['-'] else if isBreak d then ['+'] else []

/-- The indicator of a literal block for an indentation that its first line does not show. -/
def indentationMark (s : List Char) : List Char := if s.head?.any isEdge then ['2'] else []

/-- A text in its style, up to the end of the line. -/
def text (s : List Char) : List Char :=
  match styleOf s with
  | .plain => s ++ ['\n']
  | .singleQuoted => '\x27' :: singleRest false s ++ ['\n']
  | .literal => '|' :: indentationMark s ++ chompingMark s ++ '\n' :: literalRest true s
  | _ => '"' :: s.flatMap doubleChar ++ ['"', '\n']

/-! ### Documents -/

/-- A document that holds a text. -/
def ofText (s : String) : String := String.ofList (text s.toList)

/-- A document that holds a number under a tag of its own. -/
def ofTagged (tag : String) (n : Nat) : String := s!"!{tag} {n}\n"

/-- One line of a record, or several. -/
def field (name : String) (value : Option String) : String :=
  name ++ ": " ++ match value with
    | none => "null\n"
    | some s => ofText s

/-- A document that holds a record. -/
def ofRecord (fields : List (String × Option String)) : String :=
  String.join (fields.map fun f => field f.1 f.2)

end ProjectIndex.Yaml.Written
