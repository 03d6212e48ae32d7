import ProjectIndex.Number.Binary64

/-!
# What a plain scalar denotes

A scalar that is written without quotes and without a tag denotes null, a boolean or a number if it
is spelled like one, and otherwise a text.  `Plain.ofChars` decides which.

Whole numbers may be decimal, hexadecimal, octal or binary.  A number of several digits that begins
with a zero is a text.
-/

namespace ProjectIndex.Yaml

/-- What a plain scalar denotes. -/
inductive Plain
  | null
  | bool (b : Bool)
  /-- A whole number of 64 bits, with a sign or without. -/
  | int (n : Int)
  /-- A whole number of 128 bits that needs more than 64. -/
  | wideInt (n : Int)
  | float (x : Binary64)
  | text
  deriving DecidableEq, Repr

namespace Plain

/-- The spellings of null. -/
def isNull (cs : List Char) : Bool :=
  cs == ['n', 'u', 'l', 'l'] || cs == ['N', 'u', 'l', 'l'] || cs == ['N', 'U', 'L', 'L'] || cs == ['~']

/-- The spellings of the booleans. -/
def bool? (cs : List Char) : Option Bool :=
  if cs == ['t', 'r', 'u', 'e'] || cs == ['T', 'r', 'u', 'e'] || cs == ['T', 'R', 'U', 'E'] then
    some true
  else if cs == ['f', 'a', 'l', 's', 'e'] || cs == ['F', 'a', 'l', 's', 'e'] ||
      cs == ['F', 'A', 'L', 'S', 'E'] then some false
  else none

/-! ### Whole numbers -/

/-- The value of a digit in some radix up to sixteen. -/
def digit? (radix : Nat) (c : Char) : Option Nat :=
  let v : Option Nat :=
    if '0' ≤ c ∧ c ≤ '9' then some (c.toNat - '0'.toNat)
    else if 'a' ≤ c ∧ c ≤ 'f' then some (c.toNat - 'a'.toNat + 10)
    else if 'A' ≤ c ∧ c ≤ 'F' then some (c.toNat - 'A'.toNat + 10)
    else none
  v.filter (· < radix)

/-- The number that digits spell, one digit at least. -/
def number? (radix : Nat) : List Char → Option Nat
  | [] => none
  | cs => cs.foldl (fun n c => do some ((← n) * radix + (← digit? radix c))) (some 0)

/-- The radix that a number announces in front of its digits. -/
def radix? : List Char → Option (Nat × List Char)
  | '0' :: 'x' :: cs => some (16, cs)
  | '0' :: 'o' :: cs => some (8, cs)
  | '0' :: 'b' :: cs => some (2, cs)
  | _ => none

/-- Several digits that begin with a zero, after a sign or not. -/
def hasLeadingZero (cs : List Char) : Bool :=
  let ds := match cs with
    | '-' :: ds => ds
    | '+' :: ds => ds
    | ds => ds
  match ds with
  | '0' :: d :: more => (d :: more).all Char.isDigit
  | _ => false

/-- The whole number spelled without a minus sign, if it is at most `greatest`. -/
def unsigned? (greatest : Nat) (cs : List Char) : Option Nat :=
  let body := match cs with
    | '+' :: body => body
    | body => body
  let n := match radix? body with
    | some (radix, ds) => number? radix ds
    | none => if hasLeadingZero cs then none else number? 10 body
  n.filter (· ≤ greatest)

/-- The absolute value of the whole number spelled with a minus sign, if it is at most
`greatest`. -/
def negative? (greatest : Nat) (cs : List Char) : Option Nat :=
  match cs with
  | '-' :: body =>
    let n := match radix? body with
      | some (radix, ds) => number? radix ds
      | none => if hasLeadingZero cs then none else number? 10 body
    n.filter (· ≤ greatest)
  | _ => none

/-- The greatest whole number of 64 bits. -/
def greatestWord : Nat := 0xFFFFFFFFFFFFFFFF

/-- The absolute value of the least whole number of 64 bits with a sign. -/
def leastWord : Nat := 0x8000000000000000

/-- The greatest whole number of 128 bits. -/
def greatestDouble : Nat := 0xFFFFFFFFFFFFFFFFFFFFFFFFFFFFFFFF

/-- The absolute value of the least whole number of 128 bits with a sign. -/
def leastDouble : Nat := 0x80000000000000000000000000000000

/-- The whole number spelled, as a narrow or as a wide one. -/
def int? (cs : List Char) : Option Plain :=
  match unsigned? greatestWord cs, negative? leastWord cs, unsigned? greatestDouble cs,
    negative? leastDouble cs with
  | some n, _, _, _ => some (.int n)
  | _, some n, _, _ => some (.int (-n))
  | _, _, some n, _ => some (.wideInt n)
  | _, _, _, some n => some (.wideInt (-n))
  | _, _, _, _ => none

/-! ### Binary numbers -/

/-- The exponent spelled after the letter that announces it. -/
def exponent? : List Char → Option Int
  | '-' :: ds => (number? 10 ds).map fun n => -n
  | '+' :: ds => (number? 10 ds).map fun n => n
  | ds => (number? 10 ds).map fun n => n

/-- The number spelled by digits, perhaps a point and digits, perhaps an exponent. -/
def decimal? (negative : Bool) (cs : List Char) : Option Binary64 := do
  let whole := cs.takeWhile Char.isDigit
  let rest := cs.dropWhile Char.isDigit
  let (fraction, rest) := match rest with
    | '.' :: r => (r.takeWhile Char.isDigit, r.dropWhile Char.isDigit)
    | r => ([], r)
  let digits := whole ++ fraction
  let value ← number? 10 digits
  let exponent ← match rest with
    | [] => some 0
    | 'e' :: r => exponent? r
    | 'E' :: r => exponent? r
    | _ => none
  some (.ofDecimal negative value (digits.dropWhile (· == '0')).length
    (exponent - (fraction.length : Int)))

/-- The finite number spelled in decimal, perhaps with a minus sign. -/
def finite? (cs : List Char) : Option Binary64 :=
  let x := match cs with
    | '-' :: ds => decimal? true ds
    | ds => decimal? false ds
  x.filter Binary64.isFinite

/-- The binary number spelled. -/
def float? (cs : List Char) : Option Binary64 :=
  let unsigned := match cs with
    | '+' :: body => body
    | body => body
  let infinities : List (List Char) := [['.', 'i', 'n', 'f'], ['.', 'I', 'n', 'f'], ['.', 'I', 'N', 'F']]
  let notNumbers : List (List Char) := [['.', 'n', 'a', 'n'], ['.', 'N', 'a', 'N'], ['.', 'N', 'A', 'N']]
  if infinities.contains unsigned then some (.infinite false)
  else if cs.head? == some '-' && infinities.contains (cs.drop 1) then some (.infinite true)
  else if notNumbers.contains cs then some .nan
  else if cs.head? == some '+' && unsigned.head? == some '-' then none
  else finite? unsigned

/-! ### All kinds -/

/-- What a plain scalar denotes. -/
def ofChars (cs : List Char) : Plain :=
  if cs.isEmpty || isNull cs then .null
  else match bool? cs with
    | some b => .bool b
    | none => match int? cs with
      | some n => n
      | none =>
        if hasLeadingZero cs then .text
        else match float? cs with
          | some x => .float x
          | none => .text

/-- Whether a text would be taken for something else, or for a number of another dialect, if it were
written plain. -/
def isAmbiguous (cs : List Char) : Bool := ofChars cs ≠ .text || hasLeadingZero cs

end Plain

end ProjectIndex.Yaml
