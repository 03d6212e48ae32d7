/-!
# Blank characters and blank lines

The characters of the Unicode property White_Space, and the lines of a text that hold nothing but
them or a comment.
-/

namespace ProjectIndex.Text

/-- The Unicode property White_Space. -/
def isBlank (c : Char) : Bool :=
  let n := c.toNat
  (9 ≤ n && n ≤ 13) || n == 0x20 || n == 0x85 || n == 0xA0 || n == 0x1680 ||
    (0x2000 ≤ n && n ≤ 0x200A) || n == 0x2028 || n == 0x2029 || n == 0x202F ||
    n == 0x205F || n == 0x3000

/-- The pieces of a text between its line feeds, none of which holds a line feed. -/
def lines : List Char → List (List Char)
  | [] => [[]]
  | c :: cs =>
    if c = '\n' then [] :: lines cs
    else match lines cs with
      | [] => [[c]]
      | line :: rest => (c :: line) :: rest

/-- A line of blanks, or whose first other character opens a comment. -/
def isIdleLine (line : List Char) : Bool :=
  match line.dropWhile isBlank with
  | [] => true
  | c :: _ => c == '#'

/-- A text in which every line is idle. -/
def isIdle (text : List Char) : Bool := (lines text).all isIdleLine

end ProjectIndex.Text
