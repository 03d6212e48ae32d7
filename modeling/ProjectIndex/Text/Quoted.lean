import ProjectIndex.Text.Hidden
import ProjectIndex.Text.Utf8

/-!
# Quoted texts

How a text, or a spelling that need not be a text, is shown between double quotes in messages.
A quotation mark and a backslash get a backslash, the usual control characters their letters, and
a hidden character its number in braces.  In a spelling, bytes that belong to no character are
shown as two hexadecimal digits each, and an apostrophe gets a backslash too.
-/

namespace ProjectIndex.Text

/-- A hexadecimal digit, with letters from `letter` on. -/
def hexDigit (letter : Char) (n : Nat) : Char :=
  if n < 10 then Char.ofNat ('0'.toNat + n) else Char.ofNat (letter.toNat + (n - 10))

/-- The hexadecimal digits of a number, at least `width` of them; the budget `fuel` bounds them. -/
def hexDigits (letter : Char) : (fuel width n : Nat) → List Char
  | 0, _, _ => []
  | fuel + 1, width, n =>
    if n = 0 ∧ width = 0 then []
    else hexDigits letter fuel (width - 1) (n / 16) ++ [hexDigit letter (n % 16)]

/-- The escape of a hidden character: its number between braces, in lower case. -/
def numbered (c : Char) : List Char :=
  ['\\', 'u', '\x7b'] ++ hexDigits 'a' 8 1 c.toNat ++ ['\x7d']

/-- How one character is shown between double quotes. -/
def quotedChar (c : Char) : List Char :=
  if c = '\x00' then ['\\', '0']
  else if c = '\t' then ['\\', 't']
  else if c = '\n' then ['\\', 'n']
  else if c = '\r' then ['\\', 'r']
  else if c = '"' then ['\\', '"']
  else if c = '\\' then ['\\', '\\']
  else if isHidden c then numbered c
  else [c]

/-- A text between double quotes. -/
def quoted (s : String) : String :=
  String.ofList (['"'] ++ s.toList.flatMap quotedChar ++ ['"'])

/-- How one piece of a spelling is shown between double quotes. -/
def quotedPiece : Utf8.Piece → List Char
  | .char c => if c = '\x27' then ['\\', '\x27'] else quotedChar c
  | .broken bytes => bytes.flatMap fun b => ['\\', 'x'] ++ hexDigits 'A' 2 2 b.toNat

/-- A spelling between double quotes. -/
def quotedBytes (bytes : Bytes) : String :=
  String.ofList (['"'] ++ (Utf8.decode bytes).flatMap quotedPiece ++ ['"'])

end ProjectIndex.Text
