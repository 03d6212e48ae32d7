/-!
# Bytes and UTF-8

File contents and path spellings are bytes; names, documents and messages are texts.  This module
is the one bridge between the two, and it reads bytes by a machine of two kinds of state: between
characters, and inside a character of which some bytes have been seen.

Every byte sequence has a reading, a list of `Piece`s: a character, or a run of bytes that belongs
to no character.  A run ends at the first byte that cannot continue the character begun, and that
byte is then read afresh, so a line break never disappears into a broken character.  This is what
makes reading by lines agree with reading at once.

* `decode` is the reading itself.
* `text?` keeps it only when no byte is left over; `lossy` writes U+FFFD for each broken run.
-/

namespace ProjectIndex

/-- A sequence of bytes: the contents of a file, or the spelling of a path. -/
abbrev Bytes := List UInt8

namespace Utf8

/-- The bytes of a text. -/
def encode (s : String) : Bytes := s.toByteArray.data.toList

/-- What a stretch of bytes stands for. -/
inductive Piece
  /-- A character, from its complete encoding. -/
  | char (c : Char)
  /-- A longest run of bytes that begins a character which is not completed, or one byte that
  begins none. -/
  | broken (bytes : Bytes)
  deriving DecidableEq, Repr

/-- Where the reading stands. -/
inductive State
  /-- Between two characters. -/
  | between
  /-- Inside a character: the bytes seen, the value they spell so far, the bounds of the next byte
  and how many bytes follow that one. -/
  | inside (seen : Bytes) (value : Nat) (low high : UInt8) (left : Nat)
  deriving DecidableEq, Repr

/-- Reads a byte that begins a character, or stands alone. -/
def start (b : UInt8) : List Piece × State :=
  if b < 0x80 then ([.char (Char.ofNat b.toNat)], .between)
  else if b < 0xC2 then ([.broken [b]], .between)
  else if b < 0xE0 then ([], .inside [b] (b.toNat % 32) 0x80 0xBF 0)
  else if b < 0xF0 then
    ([], .inside [b] (b.toNat % 16) (if b = 0xE0 then 0xA0 else 0x80)
      (if b = 0xED then 0x9F else 0xBF) 1)
  else if b < 0xF5 then
    ([], .inside [b] (b.toNat % 8) (if b = 0xF0 then 0x90 else 0x80)
      (if b = 0xF4 then 0x8F else 0xBF) 2)
  else ([.broken [b]], .between)

/-- Reads one byte.  A byte out of bounds breaks the character begun and is read afresh. -/
def step : State → UInt8 → List Piece × State
  | .between, b => start b
  | .inside seen value low high left, b =>
    if low ≤ b ∧ b ≤ high then
      match left with
      | 0 => ([.char (Char.ofNat (value * 64 + b.toNat % 64))], .between)
      | more + 1 => ([], .inside (seen ++ [b]) (value * 64 + b.toNat % 64) 0x80 0xBF more)
    else (.broken seen :: (start b).1, (start b).2)

/-- What is left over when the bytes end. -/
def finish : State → List Piece
  | .between => []
  | .inside seen .. => [.broken seen]

/-- The reading from a given state on. -/
def run : State → Bytes → List Piece
  | s, [] => finish s
  | s, b :: bs => (step s b).1 ++ run (step s b).2 bs

@[simp] theorem run_nil (s : State) : run s [] = finish s := rfl

@[simp] theorem run_cons (s : State) (b : UInt8) (bs : Bytes) :
    run s (b :: bs) = (step s b).1 ++ run (step s b).2 bs := rfl

/-- The reading of a byte sequence. -/
def decode (bytes : Bytes) : List Piece := run .between bytes

/-- The character of a whole piece. -/
def Piece.char? : Piece → Option Char
  | .char c => some c
  | .broken _ => none

/-- The character shown for a piece: U+FFFD stands for a broken run. -/
def Piece.shown : Piece → Char
  | .char c => c
  | .broken _ => Char.ofNat 0xFFFD

/-- The characters of a byte sequence in which every byte belongs to a character. -/
def chars? (bytes : Bytes) : Option (List Char) := (decode bytes).mapM Piece.char?

/-- The text of a byte sequence in which every byte belongs to a character. -/
def text? (bytes : Bytes) : Option String := (chars? bytes).map String.ofList

/-- The text of any byte sequence, U+FFFD standing for each broken run. -/
def lossy (bytes : Bytes) : String := String.ofList ((decode bytes).map Piece.shown)

end Utf8

end ProjectIndex
